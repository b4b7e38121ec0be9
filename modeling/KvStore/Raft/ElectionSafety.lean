import KvStore.Raft.Votes

/-!
# Election safety

At most one node becomes leader in a term, in every run in which no critical
section forgets a vote (`election_safety`).

The code does forget votes: `becomeFollower` clears `votedFor` also when it is
called at an unchanged term, after an election that was overtaken, on quorum
loss, and on a same-term message. `two_leaders_in_term` is a run in which a
leader steps down on quorum loss, grants a second vote in its own term, and a
second leader appears.

The invariant (`VoteInv`) treats three things as a vote of `q` for `x` in `T`
(`Granted`): a granted response that was sent, one that still waits for
`persist`, and the self-vote of a node that became leader. A node is bound to
each of them until its term moves on (`Node.Bound`), and its store is bound to
those that another node may have counted (`RaftState.Bound`); this is what makes
a crash and restart harmless.
-/

namespace KvStore.Raft

variable {Id : Type}

/-- The node can no longer vote for anyone but `x` in term `T`. -/
def Node.Bound (n : Node Id) (T : ℤ) (x : Id) : Prop :=
  T < n.term ∨ (n.term = T ∧ n.votedFor = some x ∧ n.role ≠ .candidate)

/-- A node restarted from this state can no longer vote for anyone but `x` in `T`. -/
def RaftState.Bound (d : RaftState Id) (T : ℤ) (x : Id) : Prop :=
  T < d.term ∨ (d.term = T ∧ d.votedFor = some x)

theorem Node.Bound.raftState {n : Node Id} {T : ℤ} {x : Id} (h : n.Bound T x) :
    n.raftState.Bound T x := by
  rcases h with h | ⟨h1, h2, _⟩
  · exact .inl h
  · exact .inr ⟨h1, h2⟩

theorem Node.Bound.move {n n' : Node Id} {T : ℤ} {x : Id} (h : n.Bound T x) (hm : VoteMove n n') :
    n'.Bound T x := by
  rcases h with h | ⟨h1, h2, h3⟩
  · exact .inl (lt_of_lt_of_le h hm.term_le)
  · cases hm with
    | quiet hb =>
      simp only [Node.ballot, Prod.mk.injEq] at hb
      exact .inr ⟨hb.1.trans h1, hb.2.1.trans h2, hb.2.2 ▸ h3⟩
    | raise ht _ => exact .inl (h1 ▸ ht)
    | grant y ht hv hv' hr =>
      rw [h2] at hv
      refine .inr ⟨ht.trans h1, ?_, hr ▸ h3⟩
      rcases hv with hv | hv
      · cases hv
      · rw [hv', ← hv]
    | quit _ _ _ hok =>
      rcases hok with hok | hok
      · exact absurd hok h3
      · rw [h2] at hok; cases hok
    | elected _ _ hr _ => exact absurd hr h3

variable [DecidableEq Id]

/-- A node of the vote's term that is bound to `x` has voted for `x`. -/
theorem Node.Bound.votedFor {n : Node Id} {T : ℤ} {x : Id} (h : n.Bound T x) (ht : n.term = T) :
    n.votedFor = some x := by
  rcases h with h | h
  · omega
  · exact h.2.1

/-! ## The invariant of one process -/

/-- Candidates have voted for themselves, and a campaign that can still be won has
    its self-vote in the store. -/
structure Process.Campaigns (p : Process Id) : Prop where
  clean : p.node.dirty = false → p.Clean
  candidate : p.node.role = .candidate → p.node.votedFor = some p.node.id
  self : ∀ e ∈ p.election, e.req.candidateID = p.node.id ∧ e.req.term ≤ p.node.term
  saved : ∀ e ∈ p.election, e.campaigning = true → p.node.role = .candidate →
    p.node.term = e.req.term → p.disk.term = e.req.term ∧ p.disk.votedFor = some p.node.id

namespace Process

variable {p : Process Id} {inp : Input Id} {e : Effect Id}

theorem step_id (hstep : p.step inp = some e) : e.proc.node.id = p.node.id :=
  congrArg Prod.fst (step_ident hstep)

/-- A candidate has voted for itself. -/
theorem Campaigns.candidate_of_step (h : p.Campaigns) (hstep : p.step inp = some e)
    (hok : ¬ p.forgetsVote inp) (hc : e.proc.node.role = .candidate) :
    e.proc.node.votedFor = some e.proc.node.id := by
  rw [step_id hstep]
  by_cases hr : inp = .restart
  · subst hr
    simp only [step, Option.some.injEq] at hstep
    rw [← hstep] at hc
    simp only [restart, Node.setRaftStore, Node.new] at hc
    split_ifs at hc
  · cases voteMove hstep hr hok with
    | quiet hb =>
      simp only [Node.ballot, Prod.mk.injEq] at hb
      rw [hb.2.1]
      exact h.candidate (hb.2.2 ▸ hc)
    | raise _ hc' => exact hc' hc
    | grant x _ hv hv' hr' =>
      have hself := h.candidate (hr' ▸ hc)
      rw [hself] at hv
      rw [hv']
      rcases hv with hv | hv
      · cases hv
      · exact hv.symm
    | quit _ hr' _ _ => rw [hr'] at hc; cases hc
    | elected _ _ _ hr' => rw [hr'] at hc; cases hc

/-- An election in progress asks for votes for this node, in a term it has reached. -/
theorem Campaigns.self_of_step (h : p.Campaigns) (hstep : p.step inp = some e)
    (hok : ¬ p.forgetsVote inp) {el' : Election Id} (h' : e.proc.election = some el') :
    el'.req.candidateID = e.proc.node.id ∧ el'.req.term ≤ e.proc.node.term := by
  have hr : inp ≠ .restart := by
    rintro rfl
    simp only [step, Option.some.injEq] at hstep
    rw [← hstep] at h'
    cases h'
  have hle := (voteMove hstep hr hok).term_le
  rw [step_id hstep]
  cases electionMove hstep h' with
  | start hi =>
    subst hi
    simp only [step] at hstep
    split_ifs at hstep
    cases hstep
    exact ⟨rfl, le_rfl⟩
  | keep _ hel => exact ⟨(h.self _ hel).1, (h.self _ hel).2.trans hle⟩
  | launch el _ hel _ _ => exact ⟨(h.self el hel).1, (h.self el hel).2.trans hle⟩
  | count el _ _ hel _ _ => exact ⟨(h.self el hel).1, (h.self el hel).2.trans hle⟩
  | drop el _ hel => exact ⟨(h.self el hel).1, (h.self el hel).2.trans hle⟩

/-- While a persisted campaign can still be won, its self-vote stays in the store. -/
theorem Campaigns.saved_stays (h : p.Campaigns) (hstep : p.step inp = some e)
    (hok : ¬ p.forgetsVote inp) (hr : inp ≠ .restart) {el : Election Id}
    (hel : p.election = some el) (hcam : el.campaigning = true)
    (hc : e.proc.node.role = .candidate) (ht : e.proc.node.term = el.req.term) :
    e.proc.disk.term = el.req.term ∧ e.proc.disk.votedFor = some e.proc.node.id := by
  have hself := h.candidate_of_step hstep hok hc
  cases diskMove hstep hr with
  | save hd _ _ =>
    rw [hd]
    exact ⟨ht, hself⟩
  | keep hd _ =>
    rw [hd, step_id hstep]
    have hle := (h.self el hel).2
    cases voteMove hstep hr hok with
    | quiet hb =>
      simp only [Node.ballot, Prod.mk.injEq] at hb
      exact h.saved el hel hcam (hb.2.2 ▸ hc) (hb.1 ▸ ht)
    | raise hlt _ => omega
    | grant _ ht' _ _ hr' => exact h.saved el hel hcam (hr' ▸ hc) (ht' ▸ ht)
    | quit _ hr' _ _ => rw [hr'] at hc; cases hc
    | elected _ _ _ hr' => rw [hr'] at hc; cases hc

theorem Campaigns.of_step (h : p.Campaigns) (hstep : p.step inp = some e)
    (hok : ¬ p.forgetsVote inp) : e.proc.Campaigns where
  clean := clean_of_step h.clean hstep
  candidate := h.candidate_of_step hstep hok
  self := fun _ h' => h.self_of_step hstep hok h'
  saved := by
    intro el' h' hcam hc ht
    have hr : inp ≠ .restart := by
      rintro rfl
      simp only [step, Option.some.injEq] at hstep
      rw [← hstep] at h'
      cases h'
    cases electionMove hstep h' with
    | start _ => cases hcam
    | keep _ hel => exact h.saved_stays hstep hok hr hel hcam hc ht
    | count el _ _ hel _ _ =>
      have hsaved := h.saved_stays hstep hok hr hel hcam hc ht
      exact hsaved
    | drop el _ hel =>
      have hsaved := h.saved_stays hstep hok hr hel hcam hc ht
      exact hsaved
    | launch el saved hel hi hp =>
      subst hi
      have hclean : e.proc.Clean := by
        simp only [step, hel] at hstep
        split_ifs at hstep
        cases hstep
        exact persist_clean h.clean hp
      rw [hclean]
      exact ⟨ht, h.candidate_of_step hstep hok hc⟩

end Process

/-! ## The invariant of the cluster -/

namespace Cluster

/-- `q` sent `x` a granted vote of term `T`. -/
def SentGrant (c : Cluster Id) (q : Id) (T : ℤ) (x : Id) : Prop :=
  ∃ req resp, .voteResp q x req resp ∈ c.net ∧ resp.voteGranted = true ∧ req.term = T ∧
    req.candidateID = x

/-- `q` has decided to vote for `x` in term `T` but not persisted it yet. -/
def PendingGrant (c : Cluster Id) (q : Id) (T : ℤ) (x : Id) : Prop :=
  ∃ req resp, .vote req resp ∈ (c.proc q).tasks ∧ req.term = T ∧ req.candidateID = x

/-- `q` votes, or is about to vote, for `x` in term `T`. -/
def Granted (c : Cluster Id) (q : Id) (T : ℤ) (x : Id) : Prop :=
  c.SentGrant q T x ∨ c.PendingGrant q T x ∨ (q = x ∧ .becameLeader q T ∈ c.events)

/-- The votes an election has counted so far: one for the candidate itself and one
    for each peer in a list without duplicates. -/
def Tally (c : Cluster Id) (i : Id) (el : Election Id) (V : List Id) : Prop :=
  V.Nodup ∧ (∀ q ∈ V, q ∈ (c.proc i).node.peers ∧ q ∉ el.waiting ∧
    ∃ resp, .voteResp q i el.req resp ∈ c.net ∧ resp.voteGranted = true) ∧
    el.votes = V.length + 1

/-- The invariant behind election safety. -/
structure VoteInv (cfg : Config Id) (c : Cluster Id) : Prop where
  ident : ∀ i, (c.proc i).node.ident = (i, cfg.peers i)
  campaigns : ∀ i, (c.proc i).Campaigns
  request : ∀ q req, .voteReq q req ∈ c.net → q ≠ req.candidateID
  tally : ∀ i el, (c.proc i).election = some el → el.waiting.Nodup ∧
    el.waiting ⊆ cfg.peers i ∧ ∃ V, c.Tally i el V
  bound : ∀ q T x, c.Granted q T x → (c.proc q).node.Bound T x
  kept : ∀ q T x, c.SentGrant q T x ∨ (q = x ∧ .becameLeader q T ∈ c.events) →
    (c.proc q).disk.Bound T x
  unique : ∀ q T x y, c.Granted q T x → c.Granted q T y → x = y
  member : ∀ q x req resp, .voteResp q x req resp ∈ c.net → q ∈ cfg.members
  led : ∀ x T, .becameLeader x T ∈ c.events → x ∈ cfg.members ∧
    ∃ V : List Id, V.Nodup ∧ x ∉ V ∧ (∀ q ∈ V, q ∈ cfg.members ∧ c.SentGrant q T x) ∧
      majority (cfg.peers x) ≤ V.length + 1

variable {cfg : Config Id} {c : Cluster Id} {i : Id} {inp : Input Id} {e : Process.Effect Id}

omit [DecidableEq Id] in
theorem VoteInv.id_eq (h : VoteInv cfg c) (j : Id) : (c.proc j).node.id = j :=
  congrArg Prod.fst (h.ident j)

omit [DecidableEq Id] in
theorem VoteInv.peers_eq (h : VoteInv cfg c) (j : Id) : (c.proc j).node.peers = cfg.peers j :=
  congrArg Prod.snd (h.ident j)

omit [DecidableEq Id] in
theorem VoteInv.init (cfg : Config Id) : VoteInv cfg (Cluster.init cfg) where
  ident := fun _ => rfl
  campaigns := fun i =>
    { clean := fun _ => rfl
      candidate := by
        intro h
        simp only [Cluster.init, Process.init, Node.new] at h
        split_ifs at h
      self := by intro _ h; cases h
      saved := by intro _ h; cases h }
  request := by intro _ _ h; cases h
  tally := by intro _ _ h; cases h
  bound := by
    rintro q T x (⟨_, _, h, _⟩ | ⟨_, _, h, _⟩ | ⟨_, h⟩) <;> cases h
  kept := by
    rintro q T x (⟨_, _, h, _⟩ | ⟨_, h⟩) <;> cases h
  unique := by
    rintro q T x y (⟨_, _, h, _⟩ | ⟨_, _, h, _⟩ | ⟨_, h⟩) <;> cases h
  member := by intro _ _ _ _ h; cases h
  led := by intro _ _ h; cases h

/-- The vote of `x` in `T` that the section itself has just decided. -/
def Fresh (e : Process.Effect Id) (T : ℤ) (x : Id) : Prop :=
  e.proc.node.term = T ∧ e.proc.node.votedFor = some x ∧ e.proc.node.role ≠ .candidate

/-- A section that grants a vote to another node is not run by a candidate. -/
theorem VoteInv.fresh_requestVote (h : VoteInv cfg c) {req : VoteRequest Id}
    (hm : .voteReq i req ∈ c.net) (hstep : (c.proc i).step (.requestVote req) = some e)
    (hg : ((c.proc i).node.handleRequestVote req).2.voteGranted = true) :
    Fresh e req.term req.candidateID := by
  have hgr := Node.handleRequestVote_granted hg
  have hcand := (h.campaigns i).candidate_of_step hstep (fun hf => Bool.false_ne_true hf.1)
  unfold Fresh
  rw [Process.requestVote_node hstep] at hcand ⊢
  refine ⟨hgr.1, hgr.2, fun hc => ?_⟩
  have hself := hcand hc
  rw [hgr.2, ← Process.requestVote_node hstep, Process.step_id hstep, h.id_eq i] at hself
  exact h.request i req hm (Option.some.inj hself).symm

/-- A vote sent by a section was pending before it. -/
theorem VoteInv.sentGrant_update (h : VoteInv cfg c) (hstep : (c.proc i).step inp = some e)
    {q : Id} {T : ℤ} {x : Id} (hs : (c.update i e).SentGrant q T x) :
    c.SentGrant q T x ∨ (q = i ∧ c.PendingGrant i T x ∧
      ∃ req resp saved, inp = .persistVote req resp saved ∧ ((c.proc i).persist saved).1 = true) := by
  obtain ⟨req, resp, hm, hgr, hT, hx⟩ := hs
  rcases (mem_update_net ..).mp hm with hm | hm
  · exact .inl ⟨req, resp, hm, hgr, hT, hx⟩
  · rw [← h.id_eq i]
    cases Process.send_of_step hstep hm with
    | voteDenied _ hd => rw [hd] at hgr; cases hgr
    | voteUnsaved _ _ _ _ => cases hgr
    | voteSaved _ _ saved ht hs =>
      rw [h.id_eq i]
      exact .inr ⟨rfl, ⟨req, resp, ht, hT, hx⟩, req, resp, saved, rfl, hs⟩

/-- A vote that is known after a section was known before, and then the section is no
    restart that lost it, or the section decided it. -/
theorem VoteInv.granted_update (h : VoteInv cfg c) (hm : ∀ m, inp.msg i = some m → m ∈ c.net)
    (hstep : (c.proc i).step inp = some e) {q : Id} {T : ℤ} {x : Id}
    (hg : (c.update i e).Granted q T x) :
    (c.Granted q T x ∧ (q = i → inp = .restart →
        c.SentGrant q T x ∨ (q = x ∧ .becameLeader q T ∈ c.events))) ∨
      (q = i ∧ Fresh e T x) := by
  rcases hg with hs | ⟨req, resp, ht, hT, hx⟩ | ⟨hqx, hl⟩
  · rcases h.sentGrant_update hstep hs with hs | ⟨rfl, hp, req, resp, saved, rfl, _⟩
    · exact .inl ⟨.inl hs, fun _ _ => .inl hs⟩
    · exact .inl ⟨.inr (.inl hp), by intro _ hr; cases hr⟩
  · by_cases hq : q = i
    · subst hq
      rw [update_proc_self] at ht
      rcases Process.task_of_step hstep ht with ⟨ht, hr⟩ | hsp
      · exact .inl ⟨.inr (.inl ⟨req, resp, ht, hT, hx⟩), fun _ hr' => absurd hr' hr⟩
      · cases hsp with
        | vote _ hgr =>
          rw [← hT, ← hx]
          exact .inr ⟨rfl, h.fresh_requestVote (hm _ rfl) hstep hgr⟩
    · rw [update_proc_ne _ _ hq] at ht
      exact .inl ⟨.inr (.inl ⟨req, resp, ht, hT, hx⟩), fun hq' => absurd hq' hq⟩
  · rcases (mem_update_events ..).mp hl with hl | hl
    · exact .inl ⟨.inr (.inr ⟨hqx, hl⟩), fun _ _ => .inr ⟨hqx, hl⟩⟩
    · have hid := h.id_eq i
      have hshow := Process.show_of_step hstep hl
      generalize hp : c.proc i = p at hshow hstep hid
      cases hshow with
      | becameLeader el hel _ hv hr ht =>
        have hself := (h.campaigns i).candidate (hp ▸ hr)
        rw [hp] at hself
        refine .inr ⟨hid, ?_⟩
        obtain ⟨hn, _⟩ := Process.endElection_won hstep hel hv hr ht
        unfold Fresh
        rw [hn]
        exact ⟨rfl, hself.trans (congrArg some hqx), by simp [Node.becomeLeader]⟩

omit [DecidableEq Id] in
/-- A restarted node is bound to what its store is bound to. -/
theorem bound_restart {p : Process Id} {T : ℤ} {x : Id} (h : p.disk.Bound T x) :
    p.restart.node.Bound T x := by
  rcases h with h | ⟨h1, h2⟩
  · exact .inl h
  · refine .inr ⟨h1, h2, ?_⟩
    simp only [Process.restart, Node.setRaftStore, Node.new]
    split_ifs <;> simp

theorem VoteInv.bound_update (h : VoteInv cfg c) (hok : ¬ (c.proc i).forgetsVote inp)
    (hm : ∀ m, inp.msg i = some m → m ∈ c.net) (hstep : (c.proc i).step inp = some e)
    {q : Id} {T : ℤ} {x : Id} (hg : (c.update i e).Granted q T x) :
    ((c.update i e).proc q).node.Bound T x := by
  rcases h.granted_update hm hstep hg with ⟨hold, hsent⟩ | ⟨rfl, hf⟩
  · by_cases hq : q = i
    · subst hq
      rw [update_proc_self]
      by_cases hr : inp = .restart
      · have hb := h.kept q T x (hsent rfl hr)
        subst hr
        simp only [Process.step, Option.some.injEq] at hstep
        rw [← hstep]
        exact bound_restart hb
      · exact (h.bound q T x hold).move (Process.voteMove hstep hr hok)
    · rw [update_proc_ne _ _ hq]
      exact h.bound q T x hold
  · rw [update_proc_self]
    exact .inr hf

/-- What the store of a process was bound to stays in it. -/
theorem VoteInv.kept_old (h : VoteInv cfg c) (hstep : (c.proc i).step inp = some e)
    {T : ℤ} {x : Id}
    (hs : c.SentGrant i T x ∨ (i = x ∧ .becameLeader i T ∈ c.events))
    (hb : e.proc.node.Bound T x) : e.proc.disk.Bound T x := by
  by_cases hr : inp = .restart
  · subst hr
    simp only [Process.step, Option.some.injEq] at hstep
    rw [← hstep]
    exact h.kept i T x hs
  · cases Process.diskMove hstep hr with
    | keep hd _ => rw [hd]; exact h.kept i T x hs
    | save hd _ _ => rw [hd]; exact hb.raftState

theorem VoteInv.kept_update (h : VoteInv cfg c) (hok : ¬ (c.proc i).forgetsVote inp)
    (hm : ∀ m, inp.msg i = some m → m ∈ c.net) (hstep : (c.proc i).step inp = some e)
    {q : Id} {T : ℤ} {x : Id} (hs : (c.update i e).SentGrant q T x ∨
      (q = x ∧ .becameLeader q T ∈ (c.update i e).events)) :
    ((c.update i e).proc q).disk.Bound T x := by
  have hb : ((c.update i e).proc q).node.Bound T x :=
    h.bound_update hok hm hstep (hs.elim .inl fun hl => .inr (.inr hl))
  have hold : c.SentGrant q T x ∨ (q = x ∧ .becameLeader q T ∈ c.events) →
      ((c.update i e).proc q).disk.Bound T x := by
    intro hs'
    by_cases hq : q = i
    · subst hq
      rw [update_proc_self] at hb ⊢
      exact h.kept_old hstep hs' hb
    · rw [update_proc_ne _ _ hq]
      exact h.kept q T x hs'
  rcases hs with hs | ⟨hqx, hl⟩
  · rcases h.sentGrant_update hstep hs with hs | ⟨rfl, _, req, resp, saved, rfl, hp⟩
    · exact hold (.inl hs)
    · rw [update_proc_self] at hb ⊢
      obtain ⟨hn, hd⟩ := Process.persistVote_proc hstep
      have hclean := Process.persist_clean (h.campaigns q).clean hp
      rw [hn] at hb
      rw [hd, hclean]
      exact hb.raftState
  · rcases (mem_update_events ..).mp hl with hl | hl
    · exact hold (.inr ⟨hqx, hl⟩)
    · have hid := h.id_eq i
      have hcam := h.campaigns i
      have hshow := Process.show_of_step hstep hl
      generalize hp : c.proc i = p at hshow hstep hid hcam
      cases hshow with
      | becameLeader el hel hc hv hr ht =>
        rw [hid, update_proc_self]
        obtain ⟨_, hd⟩ := Process.endElection_won hstep hel hv hr ht
        obtain ⟨h1, h2⟩ := hcam.saved el hel hc hr ht
        rw [hd]
        exact .inr ⟨h1.trans ht.symm, h2.trans (congrArg some hqx)⟩

theorem VoteInv.unique_update (h : VoteInv cfg c) (hok : ¬ (c.proc i).forgetsVote inp)
    (hm : ∀ m, inp.msg i = some m → m ∈ c.net) (hstep : (c.proc i).step inp = some e)
    {q : Id} {T : ℤ} {x y : Id} (hx : (c.update i e).Granted q T x)
    (hy : (c.update i e).Granted q T y) : x = y := by
  have hbx := h.bound_update hok hm hstep hx
  have hby := h.bound_update hok hm hstep hy
  -- a vote the section decided leaves the node in the vote's term, where both bind it
  have hfresh : ∀ z, q = i → Fresh e T z → x = y := by
    rintro z rfl hf
    rw [update_proc_self] at hbx hby
    exact Option.some.inj ((hbx.votedFor hf.1).symm.trans (hby.votedFor hf.1))
  rcases h.granted_update hm hstep hx with ⟨ox, _⟩ | ⟨hq, hf⟩
  · rcases h.granted_update hm hstep hy with ⟨oy, _⟩ | ⟨hq, hf⟩
    · exact h.unique q T x y ox oy
    · exact hfresh y hq hf
  · exact hfresh x hq hf

omit [DecidableEq Id] in
theorem peers_nodup (hi : i ∈ cfg.members) : i ∉ cfg.peers i ∧ (cfg.peers i).Nodup :=
  List.nodup_cons.mp ((cfg.peers_perm i hi).nodup_iff.mpr cfg.nodup)

omit [DecidableEq Id] in
theorem mem_of_mem_peers (hi : i ∈ cfg.members) {q : Id} (hq : q ∈ cfg.peers i) :
    q ∈ cfg.members := (cfg.peers_perm i hi).subset (List.mem_cons_of_mem _ hq)

/-- The messages a tally rests on stay in the network. -/
theorem Tally.mono {el el' : Election Id} {V : List Id} (h : c.Tally i el V)
    (hid : ((c.update i e).proc i).node.peers = (c.proc i).node.peers) (hreq : el'.req = el.req)
    (hw : el'.waiting ⊆ el.waiting) (hv : el'.votes = el.votes) : (c.update i e).Tally i el' V := by
  obtain ⟨h1, h2, h3⟩ := h
  refine ⟨h1, fun q hq => ?_, hv.trans h3⟩
  obtain ⟨hp, hnw, resp, hm, hg⟩ := h2 q hq
  exact ⟨hid ▸ hp, fun hmem => hnw (hw hmem), resp, by rw [hreq]; simp [hm], hg⟩

/-- What the elections in progress have counted. -/
def Tallied (cfg : Config Id) (c : Cluster Id) : Prop :=
  ∀ i el, (c.proc i).election = some el → el.waiting.Nodup ∧ el.waiting ⊆ cfg.peers i ∧
    ∃ V, c.Tally i el V

/-- The votes an election has counted after a section of the same process. -/
theorem Tallied.self (h : Tallied cfg c) (hi : i ∈ cfg.members)
    (hp : (c.proc i).node.peers = cfg.peers i)
    (hm : ∀ m, inp.msg i = some m → m ∈ c.net) (hstep : (c.proc i).step inp = some e)
    {el' : Election Id} (hel' : e.proc.election = some el') :
    el'.waiting.Nodup ∧ el'.waiting ⊆ cfg.peers i ∧ ∃ V, (c.update i e).Tally i el' V := by
  have hpeers : ((c.update i e).proc i).node.peers = (c.proc i).node.peers := by
    rw [update_proc_self]
    exact congrArg Prod.snd (Process.step_ident hstep)
  cases Process.electionMove hstep hel' with
  | start _ =>
    rw [hp]
    exact ⟨(peers_nodup hi).2, (List.Subset.refl _), [], List.nodup_nil, by simp, rfl⟩
  | keep _ hel =>
    obtain ⟨hn, hs, V, hV⟩ := h i _ hel
    exact ⟨hn, hs, V, hV.mono hpeers rfl (List.Subset.refl _) rfl⟩
  | launch el _ hel _ _ =>
    obtain ⟨hn, hs, V, hV⟩ := h i _ hel
    exact ⟨hn, hs, V, hV.mono hpeers rfl (List.Subset.refl _) rfl⟩
  | drop el q hel =>
    obtain ⟨hn, hs, V, hV⟩ := h i _ hel
    have hsub : el.waiting.erase q ⊆ el.waiting := List.erase_subset
    exact ⟨hn.erase q, List.Subset.trans hsub hs, V, hV.mono hpeers rfl hsub rfl⟩
  | count el q resp hel hinp hq =>
    subst hinp
    obtain ⟨hn, hs, V, hV⟩ := h i _ hel
    have hsub : el.waiting.erase q ⊆ el.waiting := List.erase_subset
    refine ⟨hn.erase q, List.Subset.trans hsub hs, ?_⟩
    by_cases hg : resp.voteGranted = true
    · -- the answer of `q` is counted once: `q` leaves `waiting` with it
      have hV' : (c.update i e).Tally i { el with waiting := el.waiting.erase q } V :=
        hV.mono hpeers rfl hsub rfl
      obtain ⟨hVn, hVm, hVl⟩ := hV'
      refine ⟨q :: V, List.nodup_cons.mpr ⟨fun hqV => (hV.2.1 q hqV).2.1 hq, hVn⟩, ?_, ?_⟩
      · intro r hr
        rcases List.mem_cons.mp hr with rfl | hr
        · refine ⟨?_, by simp [hn.mem_erase_iff], resp, ?_, hg⟩
          · rw [hpeers, hp]; exact hs hq
          · exact (mem_update_net ..).mpr (.inl (hm _ rfl))
        · exact hVm r hr
      · simpa [hg] using hVl
    · refine ⟨V, hV.mono hpeers rfl hsub ?_⟩
      simp [hg]

theorem Tallied.update (h : Tallied cfg c) (hi : i ∈ cfg.members)
    (hp : (c.proc i).node.peers = cfg.peers i)
    (hm : ∀ m, inp.msg i = some m → m ∈ c.net) (hstep : (c.proc i).step inp = some e) :
    Tallied cfg (c.update i e) := by
  intro j el hel
  by_cases hj : j = i
  · subst hj
    rw [update_proc_self] at hel
    exact h.self hi hp hm hstep hel
  · rw [update_proc_ne _ _ hj] at hel
    obtain ⟨hn, hs, V, hVn, hV, hl⟩ := h j el hel
    refine ⟨hn, hs, V, hVn, fun q hq => ?_, hl⟩
    obtain ⟨hp, hw, resp, hm, hg⟩ := hV q hq
    exact ⟨by rw [update_proc_ne _ _ hj]; exact hp, hw, resp, by simp [hm], hg⟩

theorem SentGrant.update {q : Id} {T : ℤ} {x : Id} (h : c.SentGrant q T x) :
    (c.update i e).SentGrant q T x := by
  obtain ⟨req, resp, hm, hr⟩ := h
  exact ⟨req, resp, by simp [hm], hr⟩

/-- A leader was elected by a majority of votes. -/
theorem VoteInv.led_update (h : VoteInv cfg c) (hi : i ∈ cfg.members)
    (hstep : (c.proc i).step inp = some e) {x : Id} {T : ℤ}
    (hl : .becameLeader x T ∈ (c.update i e).events) :
    x ∈ cfg.members ∧ ∃ V : List Id, V.Nodup ∧ x ∉ V ∧
      (∀ q ∈ V, q ∈ cfg.members ∧ (c.update i e).SentGrant q T x) ∧
      majority (cfg.peers x) ≤ V.length + 1 := by
  rcases (mem_update_events ..).mp hl with hl | hl
  · obtain ⟨hx, V, hn, hxV, hV, hc⟩ := h.led x T hl
    exact ⟨hx, V, hn, hxV, fun q hq => ⟨(hV q hq).1, (hV q hq).2.update⟩, hc⟩
  · have hid := h.id_eq i
    have hpeers := h.peers_eq i
    have hself := (h.campaigns i).self
    have htally := h.tally i
    have hshow := Process.show_of_step hstep hl
    generalize c.proc i = p at hshow hid hpeers hself htally
    cases hshow with
    | becameLeader el hel hc hv hr ht =>
      obtain ⟨_, _, V, hn, hV, hcount⟩ := htally el hel
      rw [hid]
      refine ⟨hi, V, hn, fun hiV => (peers_nodup hi).1 ?_, fun q hq => ?_, ?_⟩
      · exact h.peers_eq i ▸ (hV i hiV).1
      · obtain ⟨hq', _, resp, hm, hg⟩ := hV q hq
        refine ⟨mem_of_mem_peers hi (h.peers_eq i ▸ hq'), el.req, resp, by simp [hm], hg, ht.symm, ?_⟩
        exact (hself el hel).1.trans hid
      · rw [hpeers] at hv
        omega

theorem VoteInv.request_update (h : VoteInv cfg c) (hi : i ∈ cfg.members)
    (hstep : (c.proc i).step inp = some e) {q : Id} {req : VoteRequest Id}
    (hm : .voteReq q req ∈ (c.update i e).net) : q ≠ req.candidateID := by
  rcases (mem_update_net ..).mp hm with hm | hm
  · exact h.request q req hm
  · cases Process.send_of_step hstep hm with
    | voteReq el saved _ hel hq _ =>
      rw [((h.campaigns i).self el hel).1, h.id_eq i]
      rintro rfl
      exact (peers_nodup hi).1 ((h.tally q el hel).2.1 hq)

theorem VoteInv.member_update (h : VoteInv cfg c) (hi : i ∈ cfg.members)
    (hstep : (c.proc i).step inp = some e) {q x : Id} {req : VoteRequest Id} {resp : VoteResponse}
    (hm : .voteResp q x req resp ∈ (c.update i e).net) : q ∈ cfg.members := by
  rcases (mem_update_net ..).mp hm with hm | hm
  · exact h.member q x req resp hm
  · cases Process.send_of_step hstep hm <;> rwa [h.id_eq i]

theorem VoteInv.update (h : VoteInv cfg c) (hok : ¬ (c.proc i).forgetsVote inp)
    (hi : i ∈ cfg.members) (hm : ∀ m, inp.msg i = some m → m ∈ c.net)
    (hstep : (c.proc i).step inp = some e) : VoteInv cfg (c.update i e) where
  ident := by
    intro j
    by_cases hj : j = i
    · subst hj
      rw [update_proc_self, Process.step_ident hstep]
      exact h.ident j
    · rw [update_proc_ne _ _ hj]
      exact h.ident j
  campaigns := by
    intro j
    by_cases hj : j = i
    · subst hj
      rw [update_proc_self]
      exact (h.campaigns j).of_step hstep hok
    · rw [update_proc_ne _ _ hj]
      exact h.campaigns j
  request := fun _ _ hr => h.request_update hi hstep hr
  tally := Tallied.update h.tally hi (h.peers_eq i) hm hstep
  bound := fun _ _ _ hg => h.bound_update hok hm hstep hg
  kept := fun _ _ _ hs => h.kept_update hok hm hstep hs
  unique := fun _ _ _ _ hx hy => h.unique_update hok hm hstep hx hy
  member := fun _ _ _ _ hr => h.member_update hi hstep hr
  led := fun _ _ hl => h.led_update hi hstep hl

/-- The condition under which votes are kept. -/
def keepsVotes (c : Cluster Id) (i : Id) (inp : Input Id) : Prop := ¬ (c.proc i).forgetsVote inp

instance (c : Cluster Id) (i : Id) (inp : Input Id) : Decidable (c.keepsVotes i inp) :=
  inferInstanceAs (Decidable (¬ _))

theorem voteInv (h : Reachable cfg keepsVotes c) : VoteInv cfg c :=
  h.invariant (VoteInv.init cfg) fun _ _ _ _ hinv hok hi hm hs => hinv.update hok hi hm hs

/-- Two leaders of one term share a voter, and a voter votes once. -/
theorem VoteInv.leader_unique (h : VoteInv cfg c) {T : ℤ} {x y : Id}
    (hx : .becameLeader x T ∈ c.events) (hy : .becameLeader y T ∈ c.events) : x = y := by
  obtain ⟨hxm, V, hV, hxV, hVs, hVc⟩ := h.led x T hx
  obtain ⟨hym, W, hW, hyW, hWs, hWc⟩ := h.led y T hy
  obtain ⟨z, hzV, hzW⟩ := majority_inter hxm hym (List.nodup_cons.mpr ⟨hxV, hV⟩)
    (List.nodup_cons.mpr ⟨hyW, hW⟩) (List.forall_mem_cons.mpr ⟨hxm, fun q hq => (hVs q hq).1⟩)
    (List.forall_mem_cons.mpr ⟨hym, fun q hq => (hWs q hq).1⟩) hVc hWc
  refine h.unique z T x y ?_ ?_
  · rcases List.mem_cons.mp hzV with rfl | hz
    · exact .inr (.inr ⟨rfl, hx⟩)
    · exact .inl (hVs z hz).2
  · rcases List.mem_cons.mp hzW with rfl | hz
    · exact .inr (.inr ⟨rfl, hy⟩)
    · exact .inl (hWs z hz).2

/-- Election safety, in every run in which no section forgets a vote: with any number of
    members, messages delayed, lost, duplicated or reordered, crashes and restarts, and any
    outcome of `Save`, no two nodes become leader in the same term. -/
theorem election_safety (h : Reachable cfg keepsVotes c) {T : ℤ} {x y : Id}
    (hx : .becameLeader x T ∈ c.events) (hy : .becameLeader y T ∈ c.events) : x = y :=
  (voteInv h).leader_unique hx hy

/-- Nodes 0 and 2 campaign in term 1 and node 0 wins with the vote of node 1. -/
def contestedElection : List (Fin 3 × Input (Fin 3)) :=
  let req := fun i => ⟨1, i, 0, 0⟩
  [(0, .startElection), (0, .persistElection true),
   (2, .startElection), (2, .persistElection true),
   (1, .requestVote (req 0)), (1, .persistVote (req 0) ⟨1, true⟩ true),
   (0, .voteResponse 1 (req 0) ⟨1, true⟩), (0, .endElection)]

/-- Node 0 steps down on quorum loss, grants node 2 its vote of term 1, and node 2 wins. -/
def secondVote : List (Fin 3 × Input (Fin 3)) :=
  let req := ⟨1, 2, 0, 0⟩
  [(0, .stepDown), (0, .requestVote req), (0, .persistVote req ⟨1, true⟩ true),
   (2, .voteResponse 0 req ⟨1, true⟩), (2, .endElection)]

theorem election_safety_contested :
    ∃ c, Reachable Config.three keepsVotes c ∧ .becameLeader 0 1 ∈ c.events ∧
      ∀ y, .becameLeader y 1 ∈ c.events → 0 = y := by
  have hrun : ((init Config.three).run Config.three keepsVotes contestedElection).map (·.events) =
      some [.becameLeader 0 1] := by decide
  obtain ⟨c, hc, he⟩ := Reachable.of_run hrun
  have h0 : .becameLeader 0 1 ∈ c.events := by simp [he]
  exact ⟨c, hc, h0, fun _ hy => election_safety hc h0 hy⟩

/-- Two leaders in one term, although every `Save` succeeds. -/
theorem two_leaders_in_term :
    ∃ c, Reachable Config.three (fun _ _ inp => inp.saved = true) c ∧
      .becameLeader 0 1 ∈ c.events ∧ .becameLeader 2 1 ∈ c.events := by
  have hrun : ((init Config.three).run Config.three (fun _ _ inp => inp.saved = true)
      (contestedElection ++ secondVote)).map (·.events) =
        some [.becameLeader 0 1, .becameLeader 2 1] := by decide
  obtain ⟨c, hc, he⟩ := Reachable.of_run hrun
  exact ⟨c, hc, by simp [he], by simp [he]⟩

end Cluster

end KvStore.Raft
