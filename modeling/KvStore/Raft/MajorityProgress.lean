import KvStore.Raft.CatchUp
import KvStore.Raft.NodeAlone
import KvStore.Raft.Partition

/-!
# The majority side of a partition

`Partition` shows that a minority that is cut off stalls. Here the other side: whatever has
happened before, the members of a majority `A` can go on among themselves, with no restart and no
failing `Save`.

* `exists_leader`: a member of `A` whose log is as fresh as those of the others becomes leader.
* `exists_replicated`: it brings the others to acknowledge its log.
* `majority_progress`: a write that it takes is committed and applied.

The leader must keep its whole log, and what it remembers of earlier leaderships must not reach
beyond its log: see `Link.never_catches_up` and `match_index_stale` for what happens otherwise.
-/

namespace KvStore.Raft

open KvStore.Storage (Command)
open KvStore.Transition (Reach)

variable {Id : Type} [DecidableEq Id]

namespace Cluster

variable {cfg : Config Id} {c c' : Cluster Id} {A : List Id} {L : Id}

/-- A member of `A` handles a message of `A` or none; no `Save` fails and no one restarts. -/
def OnSide (A : List Id) (a : Id × Input Id) : Prop :=
  a.1 ∈ A ∧ SameSide A a.1 a.2 ∧ a.2.saved = true ∧ a.2 ≠ .restart

/-- `c'` is reached from `c` by the members of `A` among themselves. -/
def Among (cfg : Config Id) (A : List Id) : Cluster Id → Cluster Id → Prop :=
  Reach (fun c a => c.step cfg a.1 a.2) fun _ a => OnSide A a

theorem Among.refl (c : Cluster Id) : Among cfg A c c := Reach.refl

theorem Among.trans {c'' : Cluster Id} (h : Among cfg A c c') (h' : Among cfg A c' c'') :
    Among cfg A c c'' := Reach.trans h h'

/-- A majority that stands together. -/
structure Majority (cfg : Config Id) (A : List Id) (L : Id) : Prop where
  nodup : A.Nodup
  members : A ⊆ cfg.members
  mem : L ∈ A
  quorum : majority (cfg.peers L) ≤ A.length

theorem Among.step (hA : Majority cfg A L) {j : Id} {inp : Input Id} {e : Process.Effect Id}
    (hj : j ∈ A) (hm : ∀ m, inp.msg j = some m → m ∈ c.net ∧ m.sender ∈ A)
    (hok : inp.saved = true ∧ inp ≠ .restart) (hs : (c.proc j).step inp = some e) :
    Among cfg A c (c.update j e) := by
  refine Reach.single (a := (j, inp)) ⟨hj, fun m hmem => ?_, hok⟩ ?_
  · exact iff_of_true (hm m hmem).2 hj
  · exact step_update (hA.members hj) (fun m hmem => (hm m hmem).1) hs

theorem Among.alone_step (hA : Majority cfg A L) {j : Id} {inp : Input Id} {e : Process.Effect Id}
    (hj : j ∈ A) (hi : inp.alone = true) (hs : (c.proc j).step inp = some e) :
    Among cfg A c (c.update j e) := by
  obtain ⟨hmsg, hok⟩ := (inp.alone_iff j).mp hi
  refine .step hA hj (fun m hm => ?_) hok hs
  rw [hmsg] at hm
  cases hm

/-- What a member does on its own. -/
theorem Among.alone (hA : Majority cfg A L) {p : Process Id} (h : (c.proc L).Alone p) :
    ∃ c', Among cfg A c c' ∧ c'.proc = Function.update c.proc L p ∧ c.net ⊆ c'.net := by
  induction h with
  | refl => exact ⟨c, .refl c, by rw [Function.update_eq_self], List.Subset.refl _⟩
  | tail _ hstep ih =>
    obtain ⟨c₁, h₁, hproc, hnet⟩ := ih
    obtain ⟨inp, e, hi, hs, rfl⟩ := hstep
    have hs₁ : (c₁.proc L).step inp = some e := by
      rw [hproc, Function.update_self]
      exact hs
    refine ⟨c₁.update L e, h₁.trans (.alone_step hA hA.mem hi hs₁), ?_, fun m hm => ?_⟩
    · change Function.update c₁.proc L e.proc = _
      rw [hproc, Function.update_idem]
    · exact (mem_update_net ..).mpr (.inl (hnet hm))

end Cluster

/-! ## Votes -/

/-- A request of a later term from a log as fresh as the node's. -/
theorem Node.handleRequestVote_fresh {n : Node Id} {req : VoteRequest Id}
    (hterm : n.term < req.term) (hfresh : n.freshness ≤ req.freshness) :
    n.handleRequestVote req =
      ({ n.becomeFollower req.term none with votedFor := some req.candidateID },
        ⟨req.term, true⟩) := by
  have hadopt : n.adoptTerm req.term = n.becomeFollower req.term none := if_pos hterm
  have hlog : req.lastLogTerm > n.lastLogTerm ∨
      (req.lastLogTerm = n.lastLogTerm ∧ req.lastLogIndex ≥ n.lastLogIndex) := by
    rcases Prod.Lex.toLex_le_toLex.mp hfresh with hlt | ⟨heq, hle⟩
    · exact .inl hlt
    · exact .inr ⟨heq.symm, hle⟩
  have hgrants : (n.becomeFollower req.term none).grants req = true :=
    decide_eq_true ⟨.inl rfl, hlog⟩
  unfold handleRequestVote
  rw [if_neg hterm.le.not_gt]
  dsimp only
  rw [hadopt, if_pos hgrants]
  rfl

/-- The vote is given, saved and sent. -/
theorem Process.votes {p : Process Id} {req : VoteRequest Id} (hterm : p.node.term < req.term)
    (hfresh : p.node.freshness ≤ req.freshness) :
    ∃ e e', p.step (.requestVote req) = some e ∧
      e.proc.step (.persistVote req ⟨req.term, true⟩ true) = some e' ∧
      .voteResp p.node.id req.candidateID req ⟨req.term, true⟩ ∈ e'.sent ∧
      e'.proc.node.term = req.term := by
  have hvote := Node.handleRequestVote_fresh hterm hfresh
  let n : Node Id := { p.node.becomeFollower req.term none with votedFor := some req.candidateID }
  let p₁ : Process Id := { p with node := n, tasks := p.tasks ++ [.vote req ⟨req.term, true⟩] }
  have hstep : p.step (.requestVote req) = some { proc := p₁ } := by
    simp only [step, hvote, if_true]
    rfl
  have hmem : .vote req ⟨req.term, true⟩ ∈ p₁.tasks :=
    List.mem_append_right _ (List.mem_singleton_self _)
  refine ⟨_, _, hstep, if_pos hmem, ?_, ?_⟩
  · simp only [persist_saved, if_true]
    exact List.mem_singleton_self _
  · exact congrArg Node.term (Node.persist_saved n p.disk)

namespace Cluster

variable {cfg : Config Id} {c c' : Cluster Id} {A : List Id} {L : Id}

/-- The process of a candidate that waits for `w` and has `v` votes. -/
def polling (p : Process Id) (req : VoteRequest Id) (w : List Id) (v : ℕ) : Process Id :=
  { p with election := some ⟨req, w, v, true⟩ }

/-- What the vote of `q` rests on. -/
structure Votes (c : Cluster Id) (A : List Id) (L : Id) (req : VoteRequest Id) (q : Id) : Prop where
  mem : q ∈ A
  ne : q ≠ L
  id_eq : (c.proc q).node.id = q
  asked : .voteReq q req ∈ c.net
  term_lt : (c.proc q).node.term < req.term
  fresh : (c.proc q).node.freshness ≤ req.freshness

/-- One peer votes and the candidate counts it. -/
theorem exists_vote (hA : Majority cfg A L) {p : Process Id} {req : VoteRequest Id} {w : List Id}
    {v : ℕ} {q : Id} (hL : c.proc L = polling p req w v) (hself : req.candidateID = L)
    (hterm : p.node.term = req.term) (hv : v < majority p.node.peers) (hq : q ∈ w)
    (hvote : Votes c A L req q) :
    ∃ c', Among cfg A c c' ∧ c'.proc L = polling p req (w.erase q) (v + 1) ∧
      (c'.proc q).node.term = req.term ∧ c.net ⊆ c'.net ∧
      ∀ j, j ≠ L → j ≠ q → c'.proc j = c.proc j := by
  obtain ⟨e, e', hstep, hsave, hsent, hqterm⟩ := Process.votes hvote.term_lt hvote.fresh
  rw [hvote.id_eq, hself] at hsent
  let c₁ := c.update q e
  let c₂ := c₁.update q e'
  have h₁ : Among cfg A c c₁ := by
    refine .step hA hvote.mem (fun m hm => ?_) ⟨rfl, by simp⟩ hstep
    cases hm
    exact ⟨hvote.asked, by rw [Msg.sender, hself]; exact hA.mem⟩
  have hsave₁ : (c₁.proc q).step (.persistVote req ⟨req.term, true⟩ true) = some e' := by
    rw [update_proc_self]
    exact hsave
  have h₂ : Among cfg A c₁ c₂ := .alone_step hA hvote.mem rfl hsave₁
  have hL₂ : c₂.proc L = polling p req w v := by
    rw [update_proc_ne _ _ hvote.ne.symm, update_proc_ne _ _ hvote.ne.symm, hL]
  have hcount : (c₂.proc L).step (.voteResponse q req ⟨req.term, true⟩) = some
      { proc := polling p req (w.erase q) (v + 1) } := by
    rw [hL₂]
    simp only [Process.step, polling, hq, hv, and_self, if_true, Process.voteResponse]
    rw [if_neg (not_lt.mpr hterm.ge)]
  have hnet : c.net ⊆ c₂.net := fun m hm =>
    (mem_update_net ..).mpr (.inl ((mem_update_net ..).mpr (.inl hm)))
  have h₃ : Among cfg A c₂ (c₂.update L { proc := polling p req (w.erase q) (v + 1) }) := by
    refine .step hA hA.mem (fun m hm => ?_) ⟨rfl, by simp⟩ hcount
    cases hm
    exact ⟨(mem_update_net ..).mpr (.inr hsent), hvote.mem⟩
  refine ⟨_, (h₁.trans h₂).trans h₃, update_proc_self .., ?_, ?_, fun j hjL hjq => ?_⟩
  · rw [update_proc_ne _ _ hvote.ne, update_proc_self]
    exact hqterm
  · exact fun m hm => (mem_update_net ..).mpr (.inl (hnet hm))
  · rw [update_proc_ne _ _ hjL, update_proc_ne _ _ hjq, update_proc_ne _ _ hjq]

/-- The peers in `Q` vote, until they make a majority. -/
theorem exists_votes (hA : Majority cfg A L) {p : Process Id} {req : VoteRequest Id}
    (hself : req.candidateID = L) (hterm : p.node.term = req.term) (Q : List Id) :
    ∀ {c : Cluster Id} {w : List Id} {v : ℕ}, c.proc L = polling p req w v → Q.Nodup → Q ⊆ w →
      majority p.node.peers ≤ v + Q.length → (∀ q ∈ Q, Votes c A L req q) →
      ∃ c' w' v', Among cfg A c c' ∧ c'.proc L = polling p req w' v' ∧
        majority p.node.peers ≤ v' ∧
        ∀ j, j ≠ L → c'.proc j = c.proc j ∨ (c'.proc j).node.term = req.term := by
  induction Q with
  | nil =>
    intro c w v hL _ _ hcount _
    exact ⟨c, w, v, .refl c, hL, hcount, fun _ _ => .inl rfl⟩
  | cons q Q ih =>
    intro c w v hL hnodup hw hcount hvotes
    by_cases hv : majority p.node.peers ≤ v
    · exact ⟨c, w, v, .refl c, hL, hv, fun _ _ => .inl rfl⟩
    · obtain ⟨hqQ, hnodup⟩ := List.nodup_cons.mp hnodup
      obtain ⟨hqw, hQw⟩ := List.cons_subset.mp hw
      obtain ⟨hvote, hrest⟩ := List.forall_mem_cons.mp hvotes
      obtain ⟨c₁, h₁, hL₁, hqterm, hnet, hother⟩ :=
        exists_vote hA hL hself hterm (not_le.mp hv) hqw hvote
      have hne : ∀ r ∈ Q, r ≠ q := fun r hr hrq => hqQ (hrq ▸ hr)
      obtain ⟨c₂, w', v', h₂, hL₂, hmaj, hsame⟩ := ih hL₁ hnodup
        (fun r hr => (List.mem_erase_of_ne (hne r hr)).mpr (hQw hr))
        (by rw [List.length_cons] at hcount; omega)
        (fun r hr => by
          have hr' := hrest r hr
          have hproc := hother r hr'.ne (hne r hr)
          exact ⟨hr'.mem, hr'.ne, hproc ▸ hr'.id_eq, hnet hr'.asked, hproc ▸ hr'.term_lt,
            hproc ▸ hr'.fresh⟩)
      refine ⟨c₂, w', v', h₁.trans h₂, hL₂, hmaj, fun j hj => ?_⟩
      rcases hsame j hj with hsame | hsame
      · by_cases hjq : j = q
        · subst hjq
          exact .inr (hsame ▸ hqterm)
        · exact .inl (hsame.trans (hother j hj hjq))
      · exact .inr hsame

/-! ## The election -/

/-- The node can reach a term that none of `A` is ahead of. -/
theorem exists_high_term (hA : Majority cfg A L) (hpeers : (c.proc L).node.peers = cfg.peers L) :
    ∃ p, (c.proc L).Alone p ∧ p.kept = (c.proc L).kept ∧ p.Quiet ∧
      ∀ q ∈ A, q ≠ L → (c.proc q).node.term ≤ p.node.term := by
  obtain ⟨p, hp, hkept, hquiet⟩ := (c.proc L).exists_quiet
  have hident : p.node.ident = (c.proc L).node.ident := congrArg Prod.fst hkept
  have hpeers' : p.node.peers = cfg.peers L := (congrArg Prod.snd hident).trans hpeers
  have hperm := cfg.peers_perm L (hA.members hA.mem)
  by_cases hnil : cfg.peers L = []
  · refine ⟨p, hp, hkept, hquiet, fun q hq hqL => absurd ?_ hqL⟩
    have hmem := hperm.mem_iff.mpr (hA.members hq)
    rw [hnil] at hmem
    exact List.mem_singleton.mp hmem
  · obtain ⟨K, hK⟩ : ∃ K : ℕ, ∀ q ∈ A, (c.proc q).node.term ≤ p.node.term + K := by
      clear hA
      induction A with
      | nil => exact ⟨0, by simp⟩
      | cons q A ih =>
        obtain ⟨K, hK⟩ := ih
        refine ⟨K + ((c.proc q).node.term - p.node.term).toNat, fun r hr => ?_⟩
        rcases List.mem_cons.mp hr with rfl | hr
        · omega
        · have := hK r hr
          omega
    obtain ⟨p', hp', hkept', hquiet', hterm⟩ := Process.exists_term hquiet (hpeers' ▸ hnil) K
    exact ⟨p', hp.trans hp', hkept'.trans hkept, hquiet', fun q hq _ => hterm ▸ hK q hq⟩

/-- A member of the majority whose log is as fresh as those of the others can be elected. -/
theorem exists_leader (hA : Majority cfg A L)
    (hid : ∀ j, (c.proc j).node.ident = (j, cfg.peers j))
    (hfresh : ∀ q ∈ A, (c.proc q).node.freshness ≤ (c.proc L).node.freshness) :
    ∃ c', Among cfg A c c' ∧ (c'.proc L).kept = (c.proc L).kept ∧
      (c'.proc L).node.role = .leader ∧
      ∀ q ∈ A, q ≠ L → (c'.proc q).node.term ≤ (c'.proc L).node.term := by
  obtain ⟨p, hp, hkept, hquiet, hterms⟩ := exists_high_term hA (congrArg Prod.snd (hid L))
  obtain ⟨c₁, h₁, hproc, -⟩ := Among.alone hA hp
  have hL₁ : c₁.proc L = p := by rw [hproc, Function.update_self]
  -- the campaign
  let req := p.node.becomeCandidate.voteRequest
  obtain ⟨e, hstart, -, hlaunch⟩ := Process.campaign_of_quiet hquiet
  let c₂ := c₁.update L e
  let c₃ := c₂.update L
    { proc := p.campaign, sent := p.node.peers.map fun q => .voteReq q req }
  have h₂ : Among cfg A c₁ c₂ := .alone_step hA hA.mem rfl (hL₁.symm ▸ hstart)
  have h₃ : Among cfg A c₂ c₃ := by
    refine .alone_step hA hA.mem (show (Input.persistElection true).alone = true from rfl) ?_
    rw [update_proc_self]
    exact hlaunch
  have hsame₃ : ∀ j, j ≠ L → c₃.proc j = c.proc j := fun j hj => by
    rw [update_proc_ne _ _ hj, update_proc_ne _ _ hj, hproc, Function.update_of_ne hj]
  have hident : p.node.ident = (L, cfg.peers L) := (congrArg Prod.fst hkept).trans (hid L)
  have hpeers : p.node.peers = cfg.peers L := congrArg Prod.snd hident
  have hself : req.candidateID = L := congrArg Prod.fst hident
  have hfreshness : req.freshness = (c.proc L).node.freshness :=
    Node.SameLog.freshness ⟨congrArg (fun k => k.2.1) hkept, congrArg (fun k => k.2.2.1) hkept,
      congrArg (fun k => k.2.2.2.1) hkept⟩
  -- the votes
  have hmem_peers : ∀ q ∈ A.erase L, q ∈ A ∧ q ≠ L ∧ q ∈ p.node.peers := fun q hq => by
    obtain ⟨hqL, hqA⟩ := hA.nodup.mem_erase_iff.mp hq
    have hmem := (cfg.peers_perm L (hA.members hA.mem)).mem_iff.mpr (hA.members hqA)
    exact ⟨hqA, hqL, hpeers ▸ (List.mem_cons.mp hmem).resolve_left hqL⟩
  obtain ⟨c₄, w, v, h₄, hL₄, hmaj, hsame₄⟩ := exists_votes hA (p := p.campaign) hself rfl
    (A.erase L) (c := c₃) (w := p.node.peers) (v := 1) (update_proc_self ..) (hA.nodup.erase L)
    (fun q hq => (hmem_peers q hq).2.2)
    (by
      have hquorum := hA.quorum
      have hpos := List.length_pos_of_mem hA.mem
      rw [List.length_erase_of_mem hA.mem]
      change majority p.node.peers ≤ _
      rw [hpeers]
      omega)
    (fun q hq => by
      obtain ⟨hqA, hqL, hqp⟩ := hmem_peers q hq
      have hsame := hsame₃ q hqL
      refine ⟨hqA, hqL, hsame ▸ congrArg Prod.fst (hid q), ?_, ?_, ?_⟩
      · exact (mem_update_net ..).mpr (.inr (List.mem_map_of_mem hqp))
      · rw [hsame]
        exact Int.lt_add_one_of_le (hterms q hqA hqL)
      · rw [hsame, hfreshness]
        exact hfresh q hqA)
  -- the end
  let p₅ : Process Id :=
    { polling p.campaign req w v with node := p.campaign.node.becomeLeader, election := none }
  have hend : (c₄.proc L).step .endElection = some
      { proc := p₅, events := [.becameLeader p.campaign.node.id p.campaign.node.term] } := by
    rw [hL₄]
    have hmaj' : v ≥ majority p.campaign.node.peers := hmaj
    simp only [Process.step, polling, hmaj', true_or, and_self, if_true, Process.endElection]
    exact congrArg some (if_pos ⟨trivial, rfl, rfl⟩)
  refine ⟨_, (((h₁.trans h₂).trans h₃).trans h₄).trans (.alone_step hA hA.mem rfl hend), ?_, ?_, ?_⟩
  · rw [update_proc_self]
    exact hkept
  · rw [update_proc_self]
    rfl
  · intro q hq hqL
    rw [update_proc_self, update_proc_ne _ _ hqL]
    change _ ≤ p.node.term + 1
    rcases hsame₄ q hqL with hsame | hterm
    · rw [hsame, hsame₃ q hqL]
      exact (hterms q hq hqL).trans (Int.le_add_one le_rfl)
    · exact hterm.le

end Cluster

/-! ## Replication -/

namespace Node

/-- The node leads the term `T` with the whole log `R`, whose last entry is of this term. No call to
    `A` is out, and what the node remembers of its peers does not reach beyond the log. -/
structure Leads (A : List Id) (T : ℤ) (R : List Entry) (n : Node Id) : Prop where
  role : n.role = .leader
  term : n.term = T
  log : n.log = R
  base : n.lastIncludedIndex = 0
  last : ∃ en, R.getLast? = some en ∧ en.term = T
  idle : ∀ q ∈ A, n.replState.inFlight q = false
  matched : ∀ q, n.replState.matchIndex q ≤ R.length
  next : ∀ q, n.replState.nextIndex q ≤ R.length + 1
  commits : R.length ≤ n.threshold → R.length ≤ n.commitIndex

variable {A : List Id} {T : ℤ} {R : List Entry} {n : Node Id} {q : Id}

theorem Leads.lastLogIndex (h : n.Leads A T R) : n.lastLogIndex = R.length := by
  unfold Node.lastLogIndex
  rw [h.base, h.log, Nat.zero_add]

theorem Leads.entryAt_last (h : n.Leads A T R) :
    ∃ en, R.getLast? = some en ∧ n.entryAt (R.length : ℤ) = some en ∧ en.term = n.term := by
  obtain ⟨en, hlast, hterm⟩ := h.last
  have hpos : 0 < R.length := by
    rw [List.length_pos_iff]
    rintro rfl
    cases hlast
  refine ⟨en, hlast, ?_, hterm.trans h.term.symm⟩
  rw [entryAt_eq_getElem? n (by rw [h.base]; exact_mod_cast hpos), h.base, h.log]
  rw [List.getLast?_eq_getElem?] at hlast
  convert hlast using 2
  omega

/-- The leader's request covers its log up to the end. -/
theorem Leads.appendRequest (h : n.Leads A T R) (q : Id) :
    (n.appendRequest q).term = T ∧
      ((n.appendRequest q).prevLogIndex + (n.appendRequest q).entries.length).toNat = R.length := by
  refine ⟨h.term, ?_⟩
  have hnext : n.nextFor q ≤ R.length + 1 := max_le (h.next q) (Nat.le_add_left 1 _)
  have hpos : 1 ≤ n.nextFor q := le_max_right _ _
  change (((n.nextFor q - 1 : ℕ) : ℤ) +
    ((n.log.drop (n.nextFor q - n.firstIndex)).length : ℕ)).toNat = _
  rw [h.log, List.length_drop, Node.firstIndex, h.base]
  omega

theorem threshold_congr {n' : Node Id} (hlast : n'.lastLogIndex = n.lastLogIndex)
    (hpeers : n'.peers = n.peers) (hmatch : n'.replState.matchIndex = n.replState.matchIndex) :
    n'.threshold = n.threshold := by
  unfold threshold
  rw [hlast, hpeers, hmatch]

/-- The node with other bookkeeping and another commit index. -/
theorem Leads.update (h : n.Leads A T R) {st : ReplicationState Id} {k : ℕ}
    (hidle : ∀ q ∈ A, st.inFlight q = false) (hmatched : ∀ q, st.matchIndex q ≤ R.length)
    (hnext : ∀ q, st.nextIndex q ≤ R.length + 1)
    (hcommits : R.length ≤ ({ n with repl := some st } : Node Id).threshold → R.length ≤ k) :
    ({ n with repl := some st, commitIndex := k } : Node Id).Leads A T R :=
  ⟨h.role, h.term, h.log, h.base, h.last, hidle, hmatched, hnext, fun hreach => hcommits
    (hreach.trans_eq (threshold_congr rfl rfl rfl))⟩

/-- The flag of the peer is cleared again. -/
theorem Leads.idle_again (h : n.Leads A T R) (q : Id) :
    ∀ r ∈ A, Function.update (Function.update n.replState.inFlight q true) q false r = false := by
  intro r hr
  rw [Function.update_idem, Function.update_apply]
  split_ifs
  · rfl
  · exact h.idle r hr

/-- A rejection moves the probe down and changes nothing else. -/
theorem Leads.rejected (h : n.Leads A T R) (q : Id) {n' : Node Id}
    (hn' : n' = ((n.withRepl.setInFlight q true).setInFlight q false).rewind q) :
    n'.Leads A T R ∧ n'.lastApplied = n.lastApplied ∧
      n'.replState.matchIndex = n.replState.matchIndex ∧
      n'.replState.nextIndex q = (n.cursor q).rewind.next := by
  have hcursor : n'.cursor q = (n.cursor q).rewind := by
    rw [hn', cursor_rewind]
    rfl
  have hnextq : n'.replState.nextIndex q = (n.cursor q).rewind.next := congrArg Cursor.next hcursor
  have hmatch : n'.replState.matchIndex = n.replState.matchIndex := by
    rw [hn']
    rfl
  have hform : n' = { n with repl := some n'.replState, commitIndex := n.commitIndex } := by
    rw [hn']
    rfl
  refine ⟨?_, by rw [hform], hmatch, hnextq⟩
  rw [hform]
  refine h.update ?_ (fun r => by rw [hmatch]; exact h.matched r) (fun r => ?_) fun hreach => ?_
  · rw [hn']
    exact h.idle_again q
  · by_cases hr : r = q
    · subst hr
      rw [hnextq]
      exact (Cursor.rewind_next_le _).trans (max_le (h.next r) (Nat.le_add_left 1 _))
    · have hother : n'.replState.nextIndex r = n.replState.nextIndex r := by
        rw [hn']
        exact Function.update_of_ne hr _ _
      rw [hother]
      exact h.next r
  · exact h.commits (hreach.trans_eq (threshold_congr rfl rfl hmatch))

/-- If a majority has reached the end of the log, where an entry of the term stands, it is
    committed. -/
theorem le_commitTarget {n : Node Id} {e : Entry} (hrole : n.role = .leader)
    (hmatch : ∀ r ∈ n.peers, n.replState.matchIndex r ≤ n.lastLogIndex)
    (hentry : n.entryAt (n.lastLogIndex : ℤ) = some e) (hterm : e.term = n.term)
    (hreach : n.lastLogIndex ≤ n.threshold) : n.lastLogIndex ≤ n.commitTarget := by
  have heq : n.threshold = n.lastLogIndex := le_antisymm (threshold_le hmatch) hreach
  by_cases hlt : n.commitIndex < n.threshold
  · rw [commitTarget_of_entryAt hrole hlt (heq ▸ hentry), if_pos hterm, heq]
  · rw [commitTarget, if_neg (not_not.mpr hrole), if_pos (not_lt.mp hlt)]
    exact heq ▸ not_lt.mp hlt

/-- An acknowledgement of the whole log is counted, and the commit index follows. -/
theorem Leads.accepted (h : n.Leads A T R) (q : Id) {n' : Node Id}
    (hn' : n' = ((n.withRepl.setInFlight q true).setInFlight q false).acknowledge q R.length) :
    n'.Leads A T R ∧ n'.lastApplied = n.lastApplied ∧
      n'.replState.matchIndex = Function.update n.replState.matchIndex q R.length := by
  let st : ReplicationState Id :=
    { nextIndex := Function.update n.replState.nextIndex q
        (max (n.replState.nextIndex q) (R.length + 1))
      matchIndex := Function.update n.replState.matchIndex q
        (max (n.replState.matchIndex q) R.length)
      inFlight := Function.update (Function.update n.replState.inFlight q true) q false
      backoff := Function.update n.replState.backoff q 0 }
  let m : Node Id := { n with repl := some st }
  have hform : n' = { n with repl := some st, commitIndex := m.commitTarget } := by
    rw [hn']
    change m.maybeCommit = _
    unfold maybeCommit
    rw [if_neg (not_not.mpr (show m.role = .leader from h.role))]
    rfl
  have hmatch : st.matchIndex = Function.update n.replState.matchIndex q R.length :=
    congrArg (Function.update n.replState.matchIndex q) (max_eq_right (h.matched q))
  have hle : ∀ r, st.matchIndex r ≤ R.length := fun r => by
    rw [hmatch, Function.update_apply]
    split_ifs
    · exact le_refl _
    · exact h.matched r
  rw [hform]
  refine ⟨h.update (h.idle_again q) hle (fun r => ?_) fun hreach => ?_, rfl, hmatch⟩
  · change Function.update n.replState.nextIndex q _ r ≤ _
    rw [Function.update_apply]
    split_ifs
    · exact max_le (h.next q) (le_refl _)
    · exact h.next r
  · obtain ⟨en, -, hentry, hterm⟩ := h.entryAt_last
    have hlast : m.lastLogIndex = R.length := h.lastLogIndex
    have hcommit : m.lastLogIndex ≤ m.commitTarget :=
      le_commitTarget (n := m) h.role (fun r _ => (hle r).trans hlast.ge) (e := en)
        (hlast ▸ hentry) hterm (hlast.le.trans hreach)
    exact hlast ▸ hcommit

theorem Leads.of_saved (h : n.saved.Leads A T R) : n.Leads A T R :=
  ⟨h.role, h.term, h.log, h.base, h.last, h.idle, h.matched, h.next, h.commits⟩

/-- A leader whose bookkeeping fits its log takes a write. -/
theorem leads_appendEntry (hrole : n.role = .leader) (hbase : n.lastIncludedIndex = 0)
    (hidle : ∀ q ∈ A, n.replState.inFlight q = false)
    (hmatched : ∀ q, n.replState.matchIndex q ≤ n.log.length)
    (hnext : ∀ q, n.replState.nextIndex q ≤ n.log.length + 1) (cmd : Command) :
    (n.appendEntry cmd).Leads A n.term (n.log ++ [⟨n.term, cmd⟩]) := by
  let m : Node Id := { n with log := n.log ++ [⟨n.term, cmd⟩], dirty := true }
  have hm : ∃ k, n.appendEntry cmd = { m with commitIndex := k } ∧
      (n.peers = [] → k = m.lastLogIndex) := by
    unfold appendEntry
    dsimp only
    split_ifs with hpeers
    · exact ⟨_, rfl, fun _ => rfl⟩
    · exact ⟨n.commitIndex, rfl, fun h => absurd h hpeers⟩
  obtain ⟨k, hk, hsingle⟩ := hm
  have hlen : (n.log ++ [Entry.mk n.term cmd]).length = n.log.length + 1 := by simp
  have hlast : m.lastLogIndex = n.log.length + 1 := by
    change n.lastIncludedIndex + (n.log ++ [_]).length = _
    rw [hbase, hlen, Nat.zero_add]
  -- the bookkeeping is the old one, or it is created with the new log
  have hrepl : m.replState.matchIndex = n.replState.matchIndex ∧
      m.replState.inFlight = n.replState.inFlight ∧
      ∀ q, m.replState.nextIndex q ≤ n.log.length + 2 := by
    cases hr : n.repl with
    | some st =>
      have hm : m.replState = n.replState := by
        unfold replState
        rw [hr]
      exact ⟨by rw [hm], by rw [hm], fun q => by rw [hm]; exact (hnext q).trans (Nat.le_succ _)⟩
    | none =>
      unfold replState
      rw [hr]
      refine ⟨rfl, rfl, fun q => ?_⟩
      change (if q ∈ n.peers then m.lastLogIndex + 1 else 0) ≤ _
      rw [hlast]
      split_ifs <;> omega
  rw [hk]
  refine ⟨hrole, rfl, rfl, hbase, ⟨_, List.getLast?_concat, rfl⟩, ?_, ?_, ?_, ?_⟩
  · intro q hq
    exact (congrFun hrepl.2.1 q).trans (hidle q hq)
  · intro q
    rw [hlen]
    exact (congrFun hrepl.1 q).le.trans ((hmatched q).trans (Nat.le_succ _))
  · intro q
    rw [hlen]
    exact hrepl.2.2 q
  · intro hreach
    change (n.log ++ [Entry.mk n.term cmd]).length ≤ m.threshold at hreach
    change (n.log ++ [Entry.mk n.term cmd]).length ≤ k
    rw [hlen] at hreach ⊢
    by_cases hpeers : n.peers = []
    · rw [hsingle hpeers, hlast]
    · -- no peer has the new entry
      rw [le_threshold_iff, hlast, List.countP_cons_of_pos (by simp), List.countP_eq_zero.mpr]
        at hreach
      · have hpos := List.length_pos_iff.mpr hpeers
        change majority n.peers ≤ 0 + 1 at hreach
        unfold majority at hreach
        omega
      · intro x hx
        obtain ⟨q, -, rfl⟩ := List.mem_map.mp hx
        rw [hrepl.1, decide_eq_true_eq]
        have := hmatched q
        omega

omit [DecidableEq Id] in
/-- A request from the beginning of the log is accepted. -/
theorem handleAppendEntries_start {n : Node Id} {req : AppendEntriesRequest Id}
    (hterm : ¬ req.term < n.term) (hprev : req.prevLogIndex = 0) :
    (n.handleAppendEntries req).2.1.success = true := by
  unfold handleAppendEntries
  rw [if_neg hterm]
  dsimp only
  rw [hprev, if_pos (checkPrevLog_zero _ _)]
  split_ifs <;> rfl

end Node

/-- An answer that waits for its `persist` is saved and sent. -/
theorem Process.answers {p : Process Id} {req : AppendEntriesRequest Id}
    {resp : AppendEntriesResponse} (h : .append req resp ∈ p.tasks) :
    ∃ e, p.step (.persistAppend req resp true) = some e ∧ e.proc.node.term = p.node.term ∧
      .appendResp p.node.id req.leaderID req resp ∈ e.sent := by
  have hterm := congrArg Node.term (Node.persist_saved p.node p.disk)
  refine ⟨_, if_pos h, hterm, ?_⟩
  simp only [persist_saved, if_true]
  exact List.mem_singleton_self _

namespace Cluster

variable {cfg : Config Id} {c c' : Cluster Id} {A : List Id} {L : Id}

/-- A follower of the majority answers a request. -/
theorem exists_answer (hA : Majority cfg A L) {q : Id} (hq : q ∈ A)
    (hid : (c.proc q).node.id = q) {req : AppendEntriesRequest Id}
    (hsent : .appendReq q req ∈ c.net) (hleader : req.leaderID = L)
    (hterm : (c.proc q).node.term ≤ req.term) :
    ∃ c', Among cfg A c c' ∧ (∀ j, j ≠ q → c'.proc j = c.proc j) ∧
      (c'.proc q).node.term = req.term ∧
      .appendResp q L req ⟨req.term, ((c.proc q).node.handleAppendEntries req).2.1.success⟩ ∈
        c'.net := by
  have hnot : ¬ req.term < (c.proc q).node.term := not_lt.mpr hterm
  have hresp : ((c.proc q).node.handleAppendEntries req).2.1 =
      ⟨req.term, ((c.proc q).node.handleAppendEntries req).2.1.success⟩ := by
    have hanswer := ((c.proc q).node.handleAppendEntries_answer req).1
    rw [max_eq_right hterm] at hanswer
    rw [← hanswer]
  have hterm' := Node.handleAppendEntries_term hnot
  have hmsg : ∀ m, (Input.appendEntries req).msg q = some m → m ∈ c.net ∧ m.sender ∈ A := by
    intro m hm
    cases hm
    exact ⟨hsent, by rw [Msg.sender, hleader]; exact hA.mem⟩
  cases hp : ((c.proc q).node.handleAppendEntries req).2.2 with
  | false =>
    have hstep : (c.proc q).step (.appendEntries req) = some
        { proc := { c.proc q with node := ((c.proc q).node.handleAppendEntries req).1 }
          sent := [.appendResp (c.proc q).node.id req.leaderID req
            ((c.proc q).node.handleAppendEntries req).2.1] } := by
      simp only [Process.step, hp, Bool.false_eq_true, if_false]
    refine ⟨_, .step hA hq hmsg ⟨rfl, by simp⟩ hstep, fun j hj => update_proc_ne _ _ hj, ?_, ?_⟩
    · rw [update_proc_self]
      exact hterm'
    · refine (mem_update_net ..).mpr (.inr ?_)
      rw [hid, hleader, hresp]
      exact List.mem_singleton_self _
  | true =>
    let p₁ : Process Id := { c.proc q with
      node := ((c.proc q).node.handleAppendEntries req).1
      tasks := (c.proc q).tasks ++ [.append req ((c.proc q).node.handleAppendEntries req).2.1] }
    have hstep : (c.proc q).step (.appendEntries req) = some { proc := p₁ } := by
      simp only [Process.step, hp, if_true]
      rfl
    have hmem : .append req ((c.proc q).node.handleAppendEntries req).2.1 ∈ p₁.tasks :=
      List.mem_append_right _ (List.mem_singleton_self _)
    obtain ⟨e, hsave, hsaved, hanswer⟩ := Process.answers hmem
    have hsave₁ : ((c.update q { proc := p₁ }).proc q).step (.persistAppend req
        ((c.proc q).node.handleAppendEntries req).2.1 true) = some e := by
      rw [update_proc_self]
      exact hsave
    refine ⟨_, (Among.step hA hq hmsg ⟨rfl, by simp⟩ hstep).trans (.alone_step hA hq rfl hsave₁),
      fun j hj => ?_, ?_, ?_⟩
    · rw [update_proc_ne _ _ hj, update_proc_ne _ _ hj]
    · rw [update_proc_self]
      exact hsaved.trans hterm'
    · have hid₁ : p₁.node.id = q :=
        (congrArg Prod.fst ((c.proc q).node.handleAppendEntries_ident req)).trans hid
      rw [hid₁, hleader, hresp] at hanswer
      exact (mem_update_net ..).mpr (.inr hanswer)

/-- The leader of a majority: the others are not ahead of it, and the end of its log is neither
    applied nor in the hands of the apply loop. -/
structure Leading (cfg : Config Id) (A : List Id) (L : Id) (T : ℤ) (R : List Entry)
    (c : Cluster Id) : Prop where
  ident : ∀ j, (c.proc j).node.ident = (j, cfg.peers j)
  leads : (c.proc L).node.Leads A T R
  behind : ∀ q ∈ A, q ≠ L → (c.proc q).node.term ≤ T
  applied : (c.proc L).node.lastApplied < R.length
  inHand : (c.proc L).apply.index < R.length

theorem Among.reachable (h : Among cfg A c c') (hc : Reachable cfg anyStep c) :
    Reachable cfg anyStep c' :=
  Reach.invariant h hc fun hr _ hs => hr.step trivial hs

theorem Among.ident (h : Among cfg A c c') (hid : ∀ j, (c.proc j).node.ident = (j, cfg.peers j)) :
    ∀ j, (c'.proc j).node.ident = (j, cfg.peers j) := by
  refine Reach.invariant h (P := fun c => ∀ j, (c.proc j).node.ident = (j, cfg.peers j)) hid ?_
  intro c₁ c₂ a hid₁ _ hstep j
  obtain ⟨-, -, e, he, rfl⟩ := step_eq_some hstep
  by_cases hj : j = a.1
  · subst hj
    rw [update_proc_self, Process.step_ident he]
    exact hid₁ a.1
  · rw [update_proc_ne _ _ hj]
    exact hid₁ j

/-- One exchange with a peer: it acknowledges the whole log, or the next probe is lower. -/
theorem Leading.round {T : ℤ} {R : List Entry} (h : Leading cfg A L T R c) (hA : Majority cfg A L)
    {q : Id} (hq : q ∈ A) (hqL : q ≠ L) :
    ∃ c', Among cfg A c c' ∧ Leading cfg A L T R c' ∧
      ((c'.proc L).node.replState.matchIndex =
          Function.update (c.proc L).node.replState.matchIndex q R.length ∨
        ((c'.proc L).node.replState.matchIndex = (c.proc L).node.replState.matchIndex ∧
          (c'.proc L).node.replState.nextIndex q < (c.proc L).node.replState.nextIndex q)) := by
  let p := c.proc L
  let n := p.node
  let req := n.withRepl.appendRequest q
  have hpeers : n.peers = cfg.peers L := congrArg Prod.snd (h.ident L)
  have hqp : q ∈ n.peers := by
    have hmem := (cfg.peers_perm L (hA.members hA.mem)).mem_iff.mpr (hA.members hq)
    exact hpeers ▸ (List.mem_cons.mp hmem).resolve_left hqL
  obtain ⟨hreqT, hend⟩ : req.term = T ∧ (req.prevLogIndex + req.entries.length).toNat = R.length :=
    h.leads.appendRequest q
  -- the request
  let p₁ : Process Id :=
    { p with node := n.withRepl.setInFlight q true, tasks := p.tasks ++ [.awaitAppend q req] }
  let c₁ := c.update L { proc := p₁, sent := [.appendReq q req] }
  have hsend : p.step (.replicate q) = some { proc := p₁, sent := [.appendReq q req] } := by
    have hfirst : ¬ n.withRepl.nextFor q < n.withRepl.firstIndex := by
      have hbase : n.withRepl.firstIndex = 1 := congrArg (· + 1) h.leads.base
      rw [hbase]
      exact not_lt.mpr (le_max_right _ _)
    refine (if_pos ⟨h.leads.role, hqp, h.leads.idle q hq⟩).trans ?_
    exact if_neg hfirst
  have h₁ : Among cfg A c c₁ := .alone_step hA hA.mem rfl hsend
  -- the answer
  have hq₁ : c₁.proc q = c.proc q := update_proc_ne _ _ hqL
  have hsent : .appendReq q req ∈ c₁.net :=
    (mem_update_net ..).mpr (.inr (List.mem_singleton_self _))
  obtain ⟨c₂, h₂, hsame₂, hqterm, hanswer⟩ := exists_answer hA hq
    (hq₁ ▸ congrArg Prod.fst (h.ident q)) hsent (congrArg Prod.fst (h.ident L))
    (by rw [hq₁, hreqT]; exact h.behind q hq hqL)
  have hL₂ : c₂.proc L = p₁ := (hsame₂ L hqL.symm).trans (update_proc_self ..)
  rw [hq₁] at hanswer
  -- the outcome
  have houtcome : ∀ n' : Node Id, (n.withRepl.setInFlight q true).handleAppendResponse q req
      ⟨req.term, ((c.proc q).node.handleAppendEntries req).2.1.success⟩ = n' → n'.Leads A T R →
      n'.lastApplied = n.lastApplied → ∃ c', Among cfg A c c' ∧ Leading cfg A L T R c' ∧
        (c'.proc L).node = n' := by
    intro n' hn' hleads happ
    have hstep : (c₂.proc L).step (.appendResponse q req
        ⟨req.term, ((c.proc q).node.handleAppendEntries req).2.1.success⟩) = some
          { proc := p₁.next (.awaitAppend q req) n' [] } := by
      rw [hL₂, ← hn']
      exact if_pos (List.mem_append_right _ (List.mem_singleton_self _))
    have h₃ : Among cfg A c₂ (c₂.update L { proc := p₁.next (.awaitAppend q req) n' [] }) := by
      refine .step hA hA.mem (fun m hm => ?_) ⟨rfl, by simp⟩ hstep
      cases hm
      exact ⟨hanswer, hq⟩
    have hall := (h₁.trans h₂).trans h₃
    refine ⟨_, hall, ⟨hall.ident h.ident, ?_, fun r hr hrL => ?_, ?_, ?_⟩, ?_⟩
    · rw [update_proc_self]
      exact hleads
    · rw [update_proc_ne _ _ hrL]
      by_cases hrq : r = q
      · rw [hrq, hqterm, hreqT]
      · rw [hsame₂ r hrq, update_proc_ne _ _ hrL]
        exact h.behind r hr hrL
    · rw [update_proc_self]
      exact happ.trans_lt h.applied
    · rw [update_proc_self]
      exact h.inHand
    · rw [update_proc_self]
      rfl
  have hterm : req.term = (n.withRepl.setInFlight q true).term := hreqT.trans h.leads.term.symm
  cases hsucc : ((c.proc q).node.handleAppendEntries req).2.1.success with
  | true =>
    obtain ⟨hleads, happ, hmatch⟩ := h.leads.accepted q rfl
    have hresp : (n.withRepl.setInFlight q true).handleAppendResponse q req ⟨req.term, true⟩ =
        ((n.withRepl.setInFlight q true).setInFlight q false).acknowledge q R.length := by
      rw [← hend]
      exact (if_neg hterm.not_gt).trans ((if_neg hterm.not_lt).trans (if_pos rfl))
    obtain ⟨c', hc', hlead', hnode⟩ := houtcome _ (by rw [hsucc]; exact hresp) hleads happ
    exact ⟨c', hc', hlead', .inl (hnode ▸ hmatch)⟩
  | false =>
    obtain ⟨hleads, happ, hmatch, hnext⟩ := h.leads.rejected q rfl
    have hresp : (n.withRepl.setInFlight q true).handleAppendResponse q req ⟨req.term, false⟩ =
        ((n.withRepl.setInFlight q true).setInFlight q false).rewind q :=
      (if_neg hterm.not_gt).trans ((if_neg hterm.not_lt).trans (if_neg Bool.false_ne_true))
    obtain ⟨c', hc', hlead', hnode⟩ := houtcome _ (by rw [hsucc]; exact hresp) hleads happ
    refine ⟨c', hc', hlead', .inr ⟨hnode ▸ hmatch, ?_⟩⟩
    rw [hnode, hnext]
    refine Cursor.rewind_next_lt ?_
    -- a request from the beginning of the log is not rejected
    by_contra hstart
    have hprev : req.prevLogIndex = 0 := by
      change (((max (n.replState.nextIndex q) 1 - 1 : ℕ)) : ℤ) = 0
      have hle : n.replState.nextIndex q ≤ 1 := not_lt.mp hstart
      omega
    rw [Node.handleAppendEntries_start (by rw [hreqT]; exact not_lt.mpr (h.behind q hq hqL)) hprev]
      at hsucc
    cases hsucc

/-- A peer comes to acknowledge the whole log. -/
theorem Leading.exists_acknowledged {T : ℤ} {R : List Entry} (hA : Majority cfg A L) {q : Id}
    (hq : q ∈ A) (hqL : q ≠ L) (h : Leading cfg A L T R c) :
    ∃ c', Among cfg A c c' ∧ Leading cfg A L T R c' ∧ (c'.proc L).node.replState.matchIndex =
      Function.update (c.proc L).node.replState.matchIndex q R.length := by
  induction hn : (c.proc L).node.replState.nextIndex q using Nat.strongRecOn generalizing c with
  | ind next ih =>
    obtain ⟨c₁, h₁, hlead, hmatch | ⟨hmatch, hnext⟩⟩ := h.round hA hq hqL
    · exact ⟨c₁, h₁, hlead, hmatch⟩
    · obtain ⟨c₂, h₂, hlead₂, hmatch₂⟩ := ih _ (hn ▸ hnext) hlead rfl
      exact ⟨c₂, h₁.trans h₂, hlead₂, by rw [hmatch₂, hmatch]⟩

theorem Leading.exists_replicated {T : ℤ} {R : List Entry} (hA : Majority cfg A L)
    (Q : List Id) (hQ : ∀ q ∈ Q, q ∈ A ∧ q ≠ L) (h : Leading cfg A L T R c) :
    ∃ c', Among cfg A c c' ∧ Leading cfg A L T R c' ∧
      ∀ q ∈ Q, (c'.proc L).node.replState.matchIndex q = R.length := by
  induction Q with
  | nil => exact ⟨c, .refl c, h, by simp⟩
  | cons q Q ih =>
    obtain ⟨hqA, hrest⟩ := List.forall_mem_cons.mp hQ
    obtain ⟨c₁, h₁, hlead, hmatch⟩ := ih hrest
    obtain ⟨c₂, h₂, hlead₂, hmatch₂⟩ := hlead.exists_acknowledged hA hqA.1 hqA.2
    refine ⟨c₂, h₁.trans h₂, hlead₂, fun r hr => ?_⟩
    rw [hmatch₂, Function.update_apply]
    split_ifs with hrq
    · rfl
    · exact hmatch r ((List.mem_cons.mp hr).resolve_left hrq)

/-- With its peers in `A` at the end of the log, the leader has committed it. -/
theorem Leading.committed {T : ℤ} {R : List Entry} (hA : Majority cfg A L)
    (h : Leading cfg A L T R c)
    (hmatch : ∀ q ∈ A.erase L, (c.proc L).node.replState.matchIndex q = R.length) :
    R.length ≤ (c.proc L).node.commitIndex := by
  refine h.leads.commits ((Node.le_threshold_iff _ _).mpr ?_)
  have hpeers : (c.proc L).node.peers = cfg.peers L := congrArg Prod.snd (h.ident L)
  rw [hpeers, h.leads.lastLogIndex, List.countP_cons_of_pos (by simp), List.countP_map]
  have hsub : A.erase L ⊆ (cfg.peers L).filter
      ((fun y => decide (R.length ≤ y)) ∘ (c.proc L).node.replState.matchIndex) := by
    intro q hq
    obtain ⟨hqL, hqA⟩ := hA.nodup.mem_erase_iff.mp hq
    have hmem := (cfg.peers_perm L (hA.members hA.mem)).mem_iff.mpr (hA.members hqA)
    exact List.mem_filter.mpr ⟨(List.mem_cons.mp hmem).resolve_left hqL, by simp [hmatch q hq]⟩
  have hlen := ((hA.nodup.erase L).subperm hsub).length_le
  have hquorum := hA.quorum
  rw [List.length_erase_of_mem hA.mem] at hlen
  rw [List.countP_eq_length_filter]
  omega

/-! ## Progress -/

/-- The node is fit to lead `A`: its log is as fresh as theirs and whole, and neither what it
    remembers of its peers nor what it has applied or is about to apply reaches beyond it. -/
structure Fit (c : Cluster Id) (A : List Id) (L : Id) : Prop where
  fresh : ∀ q ∈ A, (c.proc q).node.freshness ≤ (c.proc L).node.freshness
  whole : (c.proc L).node.lastIncludedIndex = 0
  matched : ∀ q, (c.proc L).node.replState.matchIndex q ≤ (c.proc L).node.lastLogIndex
  next : ∀ q, (c.proc L).node.replState.nextIndex q ≤ (c.proc L).node.lastLogIndex + 1
  applied : (c.proc L).node.lastApplied ≤ (c.proc L).node.lastLogIndex
  inHand : (c.proc L).apply.index ≤ (c.proc L).node.lastLogIndex

def Flagged (c : Cluster Id) : Prop := ∀ j, (c.proc j).Flags

theorem Flagged.update (h : Flagged c) {i : Id} {inp : Input Id} {e : Process.Effect Id}
    (hstep : (c.proc i).step inp = some e) : Flagged (c.update i e) := by
  intro j
  by_cases hj : j = i
  · subst hj
    rw [update_proc_self]
    exact (h j).of_step hstep
  · rw [update_proc_ne _ _ hj]
    exact h j

theorem flagged (h : Reachable cfg anyStep c) : Flagged c :=
  h.invariant (fun _ _ => rfl) fun _ _ _ _ hinv _ _ _ hstep => hinv.update hstep

/-- A leader of the majority takes the write. -/
theorem exists_leading (hreach : Reachable cfg anyStep c) (hA : Majority cfg A L) (hfit : Fit c A L)
    (cmd : Command) :
    ∃ c' T, Among cfg A c c' ∧ Leading cfg A L T ((c.proc L).node.log ++ [⟨T, cmd⟩]) c' := by
  have hid := (quorumInv hreach).ident
  obtain ⟨c₁, h₁, hkept, hrole, hterms⟩ := exists_leader hA hid hfit.fresh
  obtain ⟨p₂, hp₂, hstand, hflags, hidle⟩ := Process.exists_idle (flagged (h₁.reachable hreach) L) A
  -- the log and the bookkeeping are those of `c`
  simp only [Process.kept, Prod.mk.injEq] at hkept
  obtain ⟨-, hlog, hbase, -, -, happ, hrepl, -, happly⟩ := hkept
  simp only [Process.standing, Prod.mk.injEq] at hstand
  obtain ⟨-, hrole₂, hterm₂, hlog₂, hbase₂, -, happ₂, happly₂, hnext₂, hmatch₂⟩ := hstand
  have hpeers₁ : (c₁.proc L).node.peers = (c.proc L).node.peers :=
    (congrArg Prod.snd (h₁.ident hid L)).trans (congrArg Prod.snd (hid L)).symm
  have hstate : (c₁.proc L).node.replState = (c.proc L).node.replState := by
    unfold Node.replState Node.lastLogIndex
    rw [hrepl, hpeers₁, hlog, hbase]
  have hlen : (c.proc L).node.lastLogIndex = p₂.node.log.length := by
    unfold Node.lastLogIndex
    rw [hfit.whole, hlog₂, hlog, Nat.zero_add]
  obtain ⟨p₃, hp₃, -, hap, hnode⟩ := Process.exists_proposed hflags (hrole₂.trans hrole) cmd
  have hleads : p₃.node.Leads A p₂.node.term (p₂.node.log ++ [⟨p₂.node.term, cmd⟩]) := by
    refine Node.Leads.of_saved ?_
    rw [hnode]
    have hnew := Node.leads_appendEntry (hrole₂.trans hrole) (hbase₂.trans (hbase.trans hfit.whole))
      hidle (fun q => by rw [hmatch₂, hstate, ← hlen]; exact hfit.matched q)
      (fun q => by rw [hnext₂, hstate, ← hlen]; exact hfit.next q) cmd
    exact ⟨hnew.role, hnew.term, hnew.log, hnew.base, hnew.last, hnew.idle, hnew.matched, hnew.next,
      hnew.commits⟩
  obtain ⟨c₃, h₃, hproc, -⟩ := Among.alone hA (hp₂.trans hp₃)
  have hL₃ : c₃.proc L = p₃ := by rw [hproc, Function.update_self]
  have hall := h₁.trans h₃
  rw [hlog₂, hlog] at hleads hlen
  have hR : ((c.proc L).node.log ++ [Entry.mk p₂.node.term cmd]).length =
      (c.proc L).node.lastLogIndex + 1 := by rw [hlen]; simp
  refine ⟨c₃, p₂.node.term, hall, hall.ident hid, hL₃ ▸ hleads, fun q hq hqL => ?_, ?_, ?_⟩
  · rw [hproc, Function.update_of_ne hqL, hterm₂]
    exact hterms q hq hqL
  · have happ₃ : p₃.node.lastApplied = p₂.node.lastApplied := by
      have hsaved := congrArg Node.lastApplied hnode
      refine hsaved.trans ?_
      unfold Node.appendEntry
      dsimp only
      split_ifs <;> rfl
    rw [hL₃, hR, happ₃, happ₂, happ]
    exact Nat.lt_succ_of_le hfit.applied
  · rw [hL₃, hR, hap, happly₂, happly]
    exact Nat.lt_succ_of_le hfit.inHand

/-- **The majority side of a partition goes on**: from any state that the cluster can reach, a
    member of a majority that is fit to lead is elected, takes any write, commits it and applies it,
    by steps of the majority among itself. -/
theorem majority_progress (hreach : Reachable cfg anyStep c) (hA : Majority cfg A L)
    (hfit : Fit c A L) (cmd : Command) :
    ∃ c₁ c₂, Among cfg A c c₁ ∧ (c₁.proc L).node.role = .leader ∧
      (c.proc L).node.lastLogIndex + 1 ≤ (c₁.proc L).node.commitIndex ∧
      c₁.step cfg L .applyRun = some c₂ ∧
      c₂.events = c₁.events ++ [.applied L ((c.proc L).node.lastLogIndex + 1) cmd] := by
  obtain ⟨c₁, T, h₁, hlead₁⟩ := exists_leading hreach hA hfit cmd
  obtain ⟨c₂, h₂, hlead, hmatch⟩ := hlead₁.exists_replicated hA (A.erase L) fun q hq =>
    ⟨List.mem_of_mem_erase hq, fun hqL => hA.nodup.not_mem_erase (hqL ▸ hq)⟩
  have hcommit := hlead.committed hA hmatch
  -- the apply loop comes to the end of the log
  obtain ⟨en, hlast, hentry, -⟩ := hlead.leads.entryAt_last
  rw [List.getLast?_concat, Option.some.injEq] at hlast
  obtain ⟨k, hrun⟩ := Process.exists_running hentry hcommit hlead.applied hlead.inHand
  obtain ⟨c₃, h₃, hproc, -⟩ := Among.alone hA hrun
  have hL₃ : c₃.proc L = { (c₂.proc L).appliedTo k with
      apply := .running ((c.proc L).node.log ++ [Entry.mk T cmd]).length en.cmd } := by
    rw [hproc, Function.update_self]
  have hidx : ((c.proc L).node.log ++ [Entry.mk T cmd]).length =
      (c.proc L).node.lastLogIndex + 1 := by
    rw [List.length_append, List.length_singleton, Node.lastLogIndex, hfit.whole, Nat.zero_add]
  have hid : (c₂.proc L).node.id = L := congrArg Prod.fst (hlead.ident L)
  rw [hidx] at hL₃ hcommit
  have hstep : (c₃.proc L).step .applyRun = some
      { proc := { c₃.proc L with apply := .finished ((c.proc L).node.lastLogIndex + 1) }
        events := [.applied L ((c.proc L).node.lastLogIndex + 1) cmd] } := by
    rw [hL₃]
    simp only [Process.step, ← hlast]
    rw [show ((c₂.proc L).appliedTo k).node.id = L from hid]
  refine ⟨c₃, _, (h₁.trans h₂).trans h₃, ?_, ?_, step_update (hA.members hA.mem)
    (fun m hm => by cases hm) hstep, rfl⟩
  · rw [hL₃]
    exact hlead.leads.role
  · rw [hL₃]
    exact hcommit

/-- Node 0 leads and is cut off with a write that it alone has. The others go on with node 1. -/
theorem majority_progress_without_leader :
    ∃ c c₁ c₂ : Cluster (Fin 3), Reachable Config.three anyStep c ∧
      (c.proc 0).node.role = .leader ∧ Among Config.three [1, 2] c c₁ ∧
      (c₁.proc 1).node.role = .leader ∧ c₁.step Config.three 1 .applyRun = some c₂ ∧
      c₂.events = c₁.events ++ [.applied 1 1 { op := .clear, key := [] }] := by
  obtain ⟨c, hc, heval⟩ := Option.map_eq_some_iff.mp
    (show ((init Config.three).run Config.three (fun _ _ _ => True)
      (contestedElection ++ cutOffWrite)).map (fun c => decide ((c.proc 0).node.role = .leader ∧
        ((c.proc 1).node.log = [] ∧ (c.proc 1).node.lastIncludedIndex = 0 ∧
          (c.proc 1).node.lastIncludedTerm = 0) ∧
        ((c.proc 2).node.log = [] ∧ (c.proc 2).node.lastIncludedIndex = 0 ∧
          (c.proc 2).node.lastIncludedTerm = 0) ∧
        (c.proc 1).node.repl.isNone = true ∧ (c.proc 1).node.lastApplied = 0 ∧
        (c.proc 1).apply = .idle)) = some true by decide +kernel)
  obtain ⟨hrole, ⟨hlog₁, hbase₁, hterm₁⟩, ⟨hlog₂, hbase₂, hterm₂⟩, hrepl, happ, happly⟩ :=
    of_decide_eq_true heval
  have hreach : Reachable Config.three anyStep c :=
    (Reachable.init.run hc).mono fun _ _ _ _ => trivial
  have hlast : (c.proc 1).node.lastLogIndex = 0 := by
    rw [Node.lastLogIndex, hbase₁, hlog₁, List.length_nil]
  have hfit : Fit c [1, 2] 1 := by
    have hstate : (c.proc 1).node.replState.matchIndex = (fun _ => 0) ∧
        ∀ q, (c.proc 1).node.replState.nextIndex q ≤ (c.proc 1).node.lastLogIndex + 1 := by
      unfold Node.replState
      rw [Option.isNone_iff_eq_none.mp hrepl]
      refine ⟨rfl, fun q => ?_⟩
      dsimp only
      split_ifs <;> omega
    refine ⟨?_, hbase₁, fun q => by rw [hstate.1]; exact Nat.zero_le _, hstate.2,
      by rw [happ]; exact Nat.zero_le _, by rw [happly]; exact Nat.zero_le _⟩
    have hfresh : (c.proc 2).node.freshness = (c.proc 1).node.freshness := by
      unfold Node.freshness Node.lastLogTerm Node.lastLogIndex
      rw [hlog₁, hlog₂, hbase₁, hbase₂, hterm₁, hterm₂]
    intro q hq
    rcases List.mem_cons.mp hq with rfl | hq
    · exact le_refl _
    · rw [List.mem_singleton.mp hq, hfresh]
  obtain ⟨c₁, c₂, h₁, hlead, -, hstep, hev⟩ :=
    majority_progress hreach ⟨by decide, by decide, by decide, by decide⟩ hfit _
  rw [hlast] at hev
  exact ⟨c, c₁, c₂, hreach, hrole, h₁, hlead, hstep, hev⟩

end Cluster

end KvStore.Raft
