import KvStore.Raft.ElectionQuorum
import KvStore.Raft.InFlight
import KvStore.Raft.IndexChain
import KvStore.Raft.MatchIndex
import KvStore.Raft.CommitRule
import KvStore.Raft.ReplicateToPeer
import KvStore.Transition.Reach

/-!
# The minority side of a partition

From some moment on no message passes between the nodes in `A` and the rest of the cluster. Votes
and acknowledgements of the rest that have arrived before still count, and elections that were
begun before may still be won. If `A` is not more than half of the cluster:

* `EarlyVotes`: an election begun later counts only votes of `A`.
* `Process.Below.step`: no section moves the commit index beyond what the rest has acknowledged.
* `minority_stalls`: no node of `A` becomes leader of a later term than it had at the cut, and none
  commits or applies anything beyond an index that was settled then.
-/

namespace KvStore.Raft

open KvStore.Transition (Reach)

variable {Id : Type}

/-! ## The cut -/

/-- Who has sent the message. -/
def Msg.sender : Msg Id → Id
  | .voteReq _ req => req.candidateID
  | .voteResp src _ _ _ => src
  | .appendReq _ req => req.leaderID
  | .appendResp src _ _ _ => src
  | .snapReq _ req => req.leaderID
  | .snapResp src _ _ _ => src

/-- The index up to which the message makes its receiver commit. -/
def Msg.commits : Msg Id → ℕ
  | .appendReq _ req => req.leaderCommit.toNat
  | .snapReq _ req => req.lastIncludedIndex.toNat
  | _ => 0

/-- The index that the goroutine has in hand, of a snapshot or of a command it is to apply. -/
def Task.index : Task Id → ℕ
  | .snapTerm _ idx => idx
  | .snapSend _ idx _ _ => idx
  | .inline idx _ => idx
  | _ => 0

/-- The message that is handled has been sent on the same side. -/
def SameSide (A : List Id) (i : Id) (inp : Input Id) : Prop :=
  ∀ m ∈ inp.msg i, (m.sender ∈ A ↔ i ∈ A)

variable [DecidableEq Id]

instance (A : List Id) (i : Id) (inp : Input Id) : Decidable (SameSide A i inp) :=
  inferInstanceAs (Decidable (∀ m ∈ inp.msg i, (m.sender ∈ A ↔ i ∈ A)))

/-- At most half of the cluster. -/
def Minority (cfg : Config Id) (A : List Id) : Prop :=
  2 * cfg.members.countP (· ∈ A) ≤ cfg.members.length

instance (cfg : Config Id) (A : List Id) : Decidable (Minority cfg A) :=
  inferInstanceAs (Decidable (_ ≤ _))

theorem Minority.peers {cfg : Config Id} {A : List Id} (h : Minority cfg A) {i : Id}
    (hi : i ∈ cfg.members) (hA : i ∈ A) :
    (cfg.peers i).countP (· ∈ A) + 1 < majority (cfg.peers i) := by
  have hperm := cfg.peers_perm i hi
  have hcount := hperm.countP_eq (· ∈ A)
  have hlen := hperm.length_eq
  rw [List.countP_cons_of_pos (by simpa using hA)] at hcount
  rw [List.length_cons] at hlen
  unfold Minority at h
  unfold majority
  omega

/-! ## Elections -/

/-- The votes that an election can still get on its side are too few. -/
def Election.Short (A : List Id) (peers : List Id) (el : Election Id) : Prop :=
  el.votes + el.waiting.countP (· ∈ A) ≤ peers.countP (· ∈ A) + 1

theorem countP_erase_of_mem {A : List Id} {q : Id} {l : List Id} (hq : q ∈ l) (hA : q ∈ A) :
    (l.erase q).countP (· ∈ A) + 1 = l.countP (· ∈ A) := by
  have hperm := (List.perm_cons_erase hq).countP_eq (· ∈ A)
  rw [List.countP_cons_of_pos (by simpa using hA)] at hperm
  exact hperm.symm

/-- An election that has begun after the cut. -/
theorem Process.short_of_step {p : Process Id} {inp : Input Id} {e : Effect Id} {A : List Id} {i : Id}
    {T : ℤ} (hstep : p.step inp = some e) (hside : SameSide A i inp) (hi : i ∈ A)
    (h : ∀ el, p.election = some el → T < el.req.term → el.Short A p.node.peers)
    {el : Election Id} (hel : e.proc.election = some el) (hT : T < el.req.term) :
    el.Short A e.proc.node.peers := by
  have hpeers : e.proc.node.peers = p.node.peers := congrArg Prod.snd (step_ident hstep)
  rw [hpeers]
  cases electionMove hstep hel with
  | start => exact (Nat.add_comm _ _).le
  | keep _ hold => exact h el hold hT
  | launch old _ hold _ _ => exact h old hold hT
  | count old q resp hold hinp hq =>
    have hold' := h old hold hT
    have hqA : q ∈ A := (hside (.voteResp q i old.req resp) (by simp [hinp, Input.msg])).mpr hi
    have herase := countP_erase_of_mem hq hqA
    unfold Election.Short at hold' ⊢
    dsimp only
    split_ifs <;> omega
  | drop old q hold =>
    have hold' := h old hold hT
    have herase := (old.waiting.erase_sublist (a := q)).countP_le (p := (· ∈ A))
    unfold Election.Short at hold' ⊢
    dsimp only
    omega

/-! ## What a node can commit -/

namespace Node

/-- Nothing beyond `B` is committed, applied or compacted, or acknowledged by the other side. -/
structure Below (n : Node Id) (A : List Id) (B : ℕ) : Prop where
  commit : n.commitIndex ≤ B
  applied : n.lastApplied ≤ B
  base : n.lastIncludedIndex ≤ B
  acks : ∀ q ∈ n.peers, q ∉ A → n.replState.matchIndex q ≤ B

variable {n n' : Node Id} {A : List Id} {B : ℕ}

/-- A majority needs an acknowledgement of the other side. -/
theorem threshold_le_of_acks (hA : n.peers.countP (· ∈ A) + 1 < majority n.peers)
    (h : ∀ q ∈ n.peers, q ∉ A → n.replState.matchIndex q ≤ B) : n.threshold ≤ B := by
  by_contra hB
  have hquorum := n.threshold_quorum
  rw [← List.countP_eq_length_filter] at hquorum
  have hle : n.peers.countP (fun q => n.threshold ≤ n.replState.matchIndex q) ≤
      n.peers.countP (· ∈ A) := by
    refine List.countP_mono_left fun q hmem hq => ?_
    have hq' : n.threshold ≤ n.replState.matchIndex q := by simpa using hq
    by_contra hqA
    exact hB (hq'.trans (h q hmem (by simpa using hqA)))
  omega

theorem Below.maybeCommit (h : n.Below A B) (hA : n.peers.countP (· ∈ A) + 1 < majority n.peers) :
    n.maybeCommit.Below A B := by
  refine ⟨?_, h.applied, h.base, fun q hmem hq => ?_⟩
  · show n.commitTarget ≤ B
    rcases n.commitTarget_cases with hkeep | ⟨hraise, -⟩
    · rw [hkeep]
      exact h.commit
    · rw [hraise]
      exact threshold_le_of_acks hA h.acks
  · rw [replState_maybeCommit]
    exact h.acks q hmem hq

theorem matchIndex_acknowledge (n : Node Id) (q : Id) (v : ℕ) :
    (n.acknowledge q v).replState.matchIndex =
      Function.update n.replState.matchIndex q (max (n.replState.matchIndex q) v) := by
  unfold Node.acknowledge
  rw [replState_maybeCommit]
  rfl

theorem Below.congr (h : n.Below A B) (hc : n'.core = n.core) (hp : n'.peers = n.peers)
    (hm : ∀ q, q ∉ A → n'.replState.matchIndex q = n.replState.matchIndex q) : n'.Below A B := by
  simp only [core, Prod.mk.injEq] at hc
  obtain ⟨-, hbase, -, hcommit, happ⟩ := hc
  refine ⟨?_, ?_, ?_, fun q hmem hq => ?_⟩
  · rw [hcommit]
    exact h.commit
  · rw [happ]
    exact h.applied
  · rw [hbase]
    exact h.base
  · rw [hm q hq]
    exact h.acks q (hp ▸ hmem) hq

/-- An acknowledgement of the own side. -/
theorem Below.acknowledge (h : n.Below A B) (hA : n.peers.countP (· ∈ A) + 1 < majority n.peers)
    {q : Id} (hq : q ∈ A) (v : ℕ) : (n.acknowledge q v).Below A B := by
  refine Below.maybeCommit ⟨h.commit, h.applied, h.base, fun q' hmem hq' => ?_⟩ hA
  have hne : q' ≠ q := fun heq => hq' (heq ▸ hq)
  show Function.update n.replState.matchIndex q _ q' ≤ B
  rw [Function.update_of_ne hne]
  exact h.acks q' hmem hq'

theorem Below.handleAppendResponse (h : n.Below A B)
    (hA : n.peers.countP (· ∈ A) + 1 < majority n.peers) {q : Id} {req : AppendEntriesRequest Id}
    {resp : AppendEntriesResponse} (hq : resp.success = true → q ∈ A) :
    (n.handleAppendResponse q req resp).Below A B := by
  have hset : (n.setInFlight q false).Below A B := h.congr rfl rfl fun _ _ => rfl
  unfold Node.handleAppendResponse
  dsimp only
  split_ifs with h1 h2 h3
  · exact hset.congr rfl rfl fun _ _ => rfl
  · exact hset
  · exact hset.acknowledge hA (hq h3) _
  · exact hset.congr rfl rfl fun _ _ => rfl

theorem Below.handleSnapshotResponse (h : n.Below A B)
    (hA : n.peers.countP (· ∈ A) + 1 < majority n.peers) {q : Id} {req : InstallSnapshotRequest Id}
    {resp : InstallSnapshotResponse} (hq : resp.success = true → q ∈ A) :
    (n.handleSnapshotResponse q req resp).Below A B := by
  have hset : (n.setInFlight q false).Below A B := h.congr rfl rfl fun _ _ => rfl
  unfold Node.handleSnapshotResponse
  dsimp only
  split_ifs with h1 h2
  · exact hset.congr rfl rfl fun _ _ => rfl
  · exact hset
  · push Not at h2
    exact hset.acknowledge hA (hq (by simpa using h2.2)) _

theorem Below.follow (h : n.Below A B) (term : ℤ) (leader : Id) : (n.follow term leader).Below A B :=
  h.congr (follow_quiet n term leader).core (congrArg Prod.snd (n.follow_ident term leader))
    fun _ _ => by rw [replState_matchIndex (n.follow_repl term leader)]

theorem Below.handleAppendEntries (h : n.Below A B) {req : AppendEntriesRequest Id}
    (hreq : req.leaderCommit.toNat ≤ B) : (n.handleAppendEntries req).1.Below A B := by
  obtain ⟨happ, hbase⟩ := n.handleAppendEntries_progress req
  have hmatch := replState_matchIndex (n.handleAppendEntries_repl req)
  have hpeers : (n.handleAppendEntries req).1.peers = n.peers :=
    congrArg Prod.snd (n.handleAppendEntries_ident req)
  refine ⟨?_, happ.trans_le h.applied, hbase.trans_le h.base, fun q hmem hq => ?_⟩
  · by_cases ht : req.term < n.term
    · rw [(handleAppendEntries_stale ht).1]
      exact h.commit
    by_cases hc : n.checkPrevLog req.prevLogIndex req.prevLogTerm = true
    · rw [(handleAppendEntries_indices ht hc).2]
      unfold acceptedCommit
      have hcommit := h.commit
      split_ifs <;> omega
    · have hc' := (follow_checkPrevLog n req.term req.leaderID _ _).trans (Bool.eq_false_iff.mpr hc)
      rw [(handleAppendEntries_rejected ht hc').1]
      exact (h.follow req.term req.leaderID).commit
  · rw [hmatch]
    exact h.acks q (hpeers ▸ hmem) hq

theorem Below.handleInstallSnapshot (h : n.Below A B) {req : InstallSnapshotRequest Id}
    (hreq : req.lastIncludedIndex.toNat ≤ B) : (n.handleInstallSnapshot req).1.Below A B := by
  have hfollow := h.follow req.term req.leaderID
  unfold Node.handleInstallSnapshot
  dsimp only
  split_ifs
  · exact h
  · have hcommit := hfollow.commit
    have happ := hfollow.applied
    refine ⟨?_, ?_, hreq, fun q hmem hq => ?_⟩
    · simp only [adoptSnapshot]
      split_ifs <;> omega
    · simp only [adoptSnapshot]
      split_ifs <;> omega
    · have hmatch : ((n.follow req.term req.leaderID).adoptSnapshot req).replState.matchIndex =
          (n.follow req.term req.leaderID).replState.matchIndex := replState_matchIndex rfl
      exact (congrFun hmatch q).trans_le (hfollow.acks q hmem hq)
  · exact hfollow

theorem Below.compactLog (h : n.Below A B) {idx : ℕ} (hidx : idx ≤ B) (label : ℤ) :
    (n.compactLog idx label).Below A B := by
  have hcommit := h.commit
  have happ := h.applied
  have hmatch := replState_matchIndex (n.compactLog_repl idx label)
  have hpeers : (n.compactLog idx label).peers = n.peers :=
    congrArg Prod.snd (n.compactLog_ident idx label)
  by_cases hle : idx ≤ n.lastIncludedIndex
  · rw [Node.compactLog, if_pos hle]
    exact h
  · refine ⟨?_, ?_, ?_, fun q hmem hq => ?_⟩
    · rw [Node.compactLog, if_neg hle]
      dsimp only
      split_ifs <;> omega
    · rw [Node.compactLog, if_neg hle]
      dsimp only
      split_ifs <;> omega
    · rw [Node.compactLog, if_neg hle]
      exact hidx
    · rw [hmatch]
      exact h.acks q (hpeers ▸ hmem) hq

theorem Below.markApplied (h : n.Below A B) {idx : ℕ} (hidx : idx ≤ B) : (n.markApplied idx).Below A B :=
  ⟨h.commit, max_le h.applied hidx, h.base, h.acks⟩

theorem Below.appendEntry (h : n.Below A B) (hp : n.peers ≠ []) (cmd : Storage.Command) :
    (n.appendEntry cmd).Below A B := by
  have hmatch := replState_matchIndex (n.appendEntry_repl cmd)
  have hpeers : (n.appendEntry cmd).peers = n.peers := congrArg Prod.snd (n.appendEntry_ident cmd)
  refine ⟨?_, ?_, ?_, fun q hmem hq => ?_⟩
  · simp only [Node.appendEntry, hp, if_false]
    exact h.commit
  · simp only [Node.appendEntry, hp, if_false]
    exact h.applied
  · simp only [Node.appendEntry, hp, if_false]
    exact h.base
  · rw [hmatch]
    exact h.acks q (hpeers ▸ hmem) hq

end Node

/-! ## One section -/

namespace Process

variable {p : Process Id} {inp : Input Id} {e : Effect Id} {A : List Id} {B : ℕ} {i : Id}

/-- Only an answer of a peer changes what it has acknowledged. -/
theorem matchIndex_of_step (hstep : p.step inp = some e) (hr : inp ≠ .restart) {q : Id}
    (hq : ∀ a, inp.ack = some a → a.peer ≠ q) :
    e.proc.node.replState.matchIndex q = p.node.replState.matchIndex q := by
  have hrepl : e.proc.node.repl = p.node.repl →
      e.proc.node.replState.matchIndex q = p.node.replState.matchIndex q :=
    fun h => congrFun (Node.replState_matchIndex h) q
  cases inp with
  | restart => exact absurd rfl hr
  | requestVote req => exact hrepl (by rw [requestVote_node hstep, Node.handleRequestVote_repl])
  | appendEntries req => exact hrepl (by rw [appendEntries_node hstep, Node.handleAppendEntries_repl])
  | installSnapshot req =>
    exact hrepl (by rw [installSnapshot_node hstep, Node.handleInstallSnapshot_repl])
  | voteResponse peer req resp =>
    refine hrepl ?_
    simp only [step] at hstep
    split at hstep <;> try contradiction
    split at hstep <;> cases hstep
    unfold voteResponse
    split <;> rfl
  | endElection =>
    refine hrepl ?_
    simp only [step] at hstep
    split at hstep <;> try contradiction
    split at hstep <;> cases hstep
    unfold endElection
    split <;> rfl
  | appendResponse peer req resp =>
    simp only [step] at hstep
    split at hstep <;> cases hstep
    show (p.node.handleAppendResponse peer req resp).replState.matchIndex q = _
    unfold Node.handleAppendResponse
    dsimp only
    split_ifs with h1 h2 h3
    · rfl
    · rfl
    · have hne : q ≠ peer := fun heq => hq ⟨peer, resp.term, _⟩ (if_pos h3) heq.symm
      rw [Node.matchIndex_acknowledge]
      exact Function.update_of_ne hne _ _
    · rfl
  | snapshotResponse peer req resp =>
    simp only [step] at hstep
    split at hstep <;> cases hstep
    show (p.node.handleSnapshotResponse peer req resp).replState.matchIndex q = _
    unfold Node.handleSnapshotResponse
    dsimp only
    split_ifs with h1 h2
    · rfl
    · rfl
    · push Not at h2
      have hne : q ≠ peer := fun heq => hq ⟨peer, resp.term, _⟩ (if_pos (by simpa using h2.2)) heq.symm
      rw [Node.matchIndex_acknowledge]
      exact Function.update_of_ne hne _ _
  | _ =>
    simp only [step] at hstep
    repeat' split at hstep
    all_goals try cases hstep
    all_goals first
      | rfl
      | exact hrepl rfl
      | exact hrepl (Node.persist_repl _ _ _)
      | exact hrepl (Node.appendEntry_repl _ _)
      | exact hrepl (Node.compactLog_repl _ _ _)

/-- Nothing beyond `B` is or can be made committed by the process itself. -/
structure Below (p : Process Id) (A : List Id) (B : ℕ) : Prop where
  node : p.node.Below A B
  disk : p.disk.lastIncludedIndex ≤ B
  apply : p.apply.index ≤ B
  compactor : p.compactor.index ≤ B
  tasks : ∀ t ∈ p.tasks, t.index ≤ B

/-- What the section makes of the node. -/
theorem Below.node_step (h : p.Below A B) (hstep : p.step inp = some e)
    (hA : p.node.peers.countP (· ∈ A) + 1 < majority p.node.peers)
    (hmsg : ∀ m, inp.msg i = some m → m.commits ≤ B)
    (hack : ∀ a, inp.ack = some a → a.peer ∈ A) : e.proc.node.Below A B := by
  have hpeers : p.node.peers ≠ [] := by
    intro hp
    simp [hp, majority] at hA
  have happly := h.apply
  have hcomp := h.compactor
  by_cases hq : inp.quiet = true
  · refine h.node.congr (quiet_of_step hstep hq).core (congrArg Prod.snd (step_ident hstep))
      fun q hqA => matchIndex_of_step hstep ?_ ?_
    · rintro rfl
      cases hq
    · exact fun a ha heq => hqA (heq ▸ hack a ha)
  cases inp with
  | endElection =>
    simp only [step] at hstep
    split at hstep <;> try contradiction
    split at hstep <;> cases hstep
    unfold endElection
    split_ifs <;> exact h.node.congr rfl rfl fun _ _ => congrFun (Node.replState_matchIndex rfl) _
  | appendEntries req =>
    rw [appendEntries_node hstep]
    exact h.node.handleAppendEntries (hmsg _ rfl)
  | installSnapshot req =>
    rw [installSnapshot_node hstep]
    exact h.node.handleInstallSnapshot (hmsg _ rfl)
  | propose cmd =>
    simp only [step] at hstep
    split at hstep <;> cases hstep
    exact h.node.appendEntry hpeers cmd
  | appendResponse q req resp =>
    simp only [step] at hstep
    split at hstep <;> cases hstep
    exact h.node.handleAppendResponse hA fun hs => hack ⟨q, resp.term, _⟩ (if_pos hs)
  | snapshotResponse q req resp =>
    simp only [step] at hstep
    split at hstep <;> cases hstep
    exact h.node.handleSnapshotResponse hA fun hs => hack ⟨q, resp.term, _⟩ (if_pos hs)
  | applyCheck =>
    simp only [step] at hstep
    split at hstep <;> try contradiction
    next idx entry hp =>
    rw [hp] at happly
    repeat' split at hstep
    all_goals cases hstep
    · exact h.node
    · exact h.node.markApplied happly
    · exact h.node
  | applyDone =>
    simp only [step] at hstep
    split at hstep <;> cases hstep
    next idx hp =>
    rw [hp] at happly
    exact h.node.markApplied happly
  | compactLog =>
    simp only [step] at hstep
    split at hstep <;> cases hstep
    next idx label hp =>
    rw [hp] at hcomp
    exact h.node.compactLog hcomp label
  | restart =>
    cases hstep
    obtain ⟨happ, hcommit⟩ := p.restart_indices
    exact ⟨hcommit.trans_le h.disk, happ.trans_le h.disk, h.disk, fun _ _ _ => Nat.zero_le _⟩
  | _ => exact absurd rfl hq

/-- What the apply loop and the compactor have in hand. -/
theorem Below.phases (h : p.Below A B) (hstep : p.step inp = some e) :
    e.proc.apply.index ≤ B ∧ e.proc.compactor.index ≤ B := by
  have happly := h.apply
  have hcomp := h.compactor
  by_cases hb : bystander inp = true
  · have hprog := progress_of_step hstep hb
    simp only [progress, Prod.mk.injEq] at hprog
    rw [hprog.2.2.1, hprog.2.2.2]
    exact ⟨happly, hcomp⟩
  cases inp with
  | installSnapshot req =>
    simp only [step] at hstep
    split at hstep <;> cases hstep <;> exact ⟨happly, hcomp⟩
  | applyPick =>
    simp only [step] at hstep
    split_ifs at hstep with hg
    cases hstep
    exact ⟨(Nat.succ_le_of_lt hg.2).trans h.node.commit, hcomp⟩
  | applyCheck =>
    simp only [step] at hstep
    split at hstep <;> try contradiction
    next idx entry hp =>
    rw [hp] at happly
    repeat' split at hstep
    all_goals cases hstep
    · exact ⟨Nat.zero_le _, hcomp⟩
    · exact ⟨Nat.zero_le _, hcomp⟩
    · exact ⟨happly, hcomp⟩
  | applyRun =>
    simp only [step] at hstep
    split at hstep <;> cases hstep
    next idx cmd hp =>
    rw [hp] at happly
    exact ⟨happly, hcomp⟩
  | applyDone =>
    simp only [step] at hstep
    split at hstep <;> cases hstep
    exact ⟨Nat.zero_le _, hcomp⟩
  | compactIndex =>
    simp only [step] at hstep
    split at hstep <;> cases hstep
    exact ⟨happly, h.node.applied⟩
  | compactTerm =>
    simp only [step] at hstep
    split at hstep <;> cases hstep
    next idx hp =>
    rw [hp] at hcomp
    exact ⟨happly, hcomp⟩
  | compactLog =>
    simp only [step] at hstep
    split at hstep <;> cases hstep
    exact ⟨happly, Nat.zero_le _⟩
  | restart =>
    cases hstep
    exact ⟨Nat.zero_le _, Nat.zero_le _⟩
  | _ => exact absurd rfl hb

theorem Below.step (h : p.Below A B) (hstep : p.step inp = some e)
    (hA : p.node.peers.countP (· ∈ A) + 1 < majority p.node.peers)
    (hmsg : ∀ m, inp.msg i = some m → m.commits ≤ B)
    (hack : ∀ a, inp.ack = some a → a.peer ∈ A) : e.proc.Below A B := by
  have hnode := h.node_step hstep hA hmsg hack
  obtain ⟨happly, hcomp⟩ := h.phases hstep
  refine ⟨hnode, ?_, happly, hcomp, fun t ht => ?_⟩
  · rcases disk_of_step hstep with hd | hd
    · rw [hd]
      exact h.disk
    · rw [hd]
      exact hnode.base
  · rcases task_of_step hstep ht with ⟨hold, -⟩ | hspawn
    · exact h.tasks t hold
    · cases hspawn with
      | snapTerm peer _ => exact h.node.applied
      | snapSend peer idx data hold => exact h.tasks (.snapTerm peer idx) hold
      | inline cmd _ hp => simp [hp, majority] at hA
      | _ => exact Nat.zero_le _

/-- What the section sends makes nobody commit beyond `B`. -/
theorem Below.sent (h : p.Below A B) (hstep : p.step inp = some e) {m : Msg Id} (hm : m ∈ e.sent) :
    m.commits ≤ B := by
  cases send_of_step hstep hm with
  | appendReq peer _ _ _ =>
    show (p.node.withRepl.commitIndex : ℤ).toNat ≤ B
    exact h.node.commit
  | snapReq peer idx label data hold => exact h.tasks _ hold
  | _ => exact Nat.zero_le _

theorem Below.shown (h : p.Below A B) (hstep : p.step inp = some e) {idx : ℕ}
    {cmd : Storage.Command} (hev : .applied i idx cmd ∈ e.events) : idx ≤ B := by
  cases show_of_step hstep hev with
  | applied _ _ hp =>
    have happly := h.apply
    rw [hp] at happly
    exact happly
  | appliedInline _ _ hold => exact h.tasks _ hold

end Process

/-! ## What is settled -/

namespace Process

/-- What is settled at a process: all it has committed, applied or compacted, all that the other
    side has acknowledged to it, and all that its goroutines have in hand. -/
def settled (p : Process Id) (A : List Id) : ℕ :=
  ([p.node.commitIndex, p.node.lastApplied, p.node.lastIncludedIndex, p.disk.lastIncludedIndex,
    p.apply.index, p.compactor.index] ++
    (p.node.peers.filter (· ∉ A)).map p.node.replState.matchIndex ++
    p.tasks.map Task.index).foldr max 0

theorem below_settled (p : Process Id) (A : List Id) : p.Below A (p.settled A) := by
  have hle : ∀ x, x ∈ [p.node.commitIndex, p.node.lastApplied, p.node.lastIncludedIndex,
      p.disk.lastIncludedIndex, p.apply.index, p.compactor.index] → x ≤ p.settled A := fun x hx =>
    List.le_max_of_le (List.mem_append_left _ (List.mem_append_left _ hx)) le_rfl
  refine ⟨⟨hle _ ?_, hle _ ?_, hle _ ?_, fun q hmem hq => ?_⟩, hle _ ?_, hle _ ?_, hle _ ?_,
    fun t ht => ?_⟩
  case refine_4 =>
    refine List.le_max_of_le (List.mem_append_left _ (List.mem_append_right _
      (List.mem_map_of_mem ?_))) le_rfl
    exact List.mem_filter.mpr ⟨hmem, by simpa using hq⟩
  case refine_8 => exact List.le_max_of_le (List.mem_append_right _ (List.mem_map_of_mem ht)) le_rfl
  all_goals simp

theorem Below.mono {p : Process Id} {A : List Id} {B B' : ℕ} (h : p.Below A B) (hle : B ≤ B') :
    p.Below A B' :=
  ⟨⟨h.node.commit.trans hle, h.node.applied.trans hle, h.node.base.trans hle,
    fun q hmem hq => (h.node.acks q hmem hq).trans hle⟩, h.disk.trans hle, h.apply.trans hle,
    h.compactor.trans hle, fun t ht => (h.tasks t ht).trans hle⟩

end Process

/-! ## Every run -/

namespace Cluster

variable {cfg : Config Id} {c c₀ : Cluster Id} {A : List Id} {B : ℕ}

/-- Nothing beyond `B` can be made committed on the side `A` by itself. -/
structure Below (c : Cluster Id) (A : List Id) (B : ℕ) : Prop where
  procs : ∀ i ∈ A, (c.proc i).Below A B
  net : ∀ m ∈ c.net, m.sender ∈ A → m.commits ≤ B

/-- Who has sent what the section sends. -/
theorem sender_of_step {p : Process Id} {inp : Input Id} {e : Process.Effect Id}
    (hstep : p.step inp = some e) {m : Msg Id} (hm : m ∈ e.sent)
    (hel : ∀ el, p.election = some el → el.req.candidateID = p.node.id) : m.sender = p.node.id := by
  cases Process.send_of_step hstep hm with
  | voteReq el _ _ hold _ _ => exact hel el hold
  | _ => rfl

omit [DecidableEq Id] in
/-- The peer whose acknowledgement is handled has sent the message. -/
theorem sender_of_ack {inp : Input Id} {a : Ack Id} (ha : inp.ack = some a) (i : Id) :
    ∃ m, inp.msg i = some m ∧ m.sender = a.peer := by
  cases inp with
  | appendResponse peer req resp =>
    simp only [Input.ack] at ha
    split_ifs at ha
    cases ha
    exact ⟨_, rfl, rfl⟩
  | snapshotResponse peer req resp =>
    simp only [Input.ack] at ha
    split_ifs at ha
    cases ha
    exact ⟨_, rfl, rfl⟩
  | _ => cases ha

theorem Below.update (h : c.Below A B) (hA : Minority cfg A) (hinv : QuorumInv cfg c) {i : Id}
    {inp : Input Id} {e : Process.Effect Id} (hi : i ∈ cfg.members) (hside : SameSide A i inp)
    (hm : ∀ m, inp.msg i = some m → m ∈ c.net) (hstep : (c.proc i).step inp = some e) :
    (c.update i e).Below A B := by
  refine ⟨fun j hj => ?_, fun m hmem hsender => ?_⟩
  · by_cases hji : j = i
    · subst hji
      rw [update_proc_self]
      refine (h.procs j hj).step (i := j) hstep ?_ (fun m hmsg => ?_) fun a ha => ?_
      · rw [hinv.peers_eq j]
        exact hA.peers hi hj
      · exact h.net m (hm m hmsg) ((hside m hmsg).mpr hj)
      · obtain ⟨m, hmsg, hsend⟩ := sender_of_ack ha j
        rw [← hsend]
        exact (hside m hmsg).mpr hj
    · rw [update_proc_ne c e hji]
      exact h.procs j hj
  · rcases (mem_update_net ..).mp hmem with hold | hnew
    · exact h.net m hold hsender
    · have hfrom := sender_of_step hstep hnew fun el hel =>
        (hinv.campaign i el hel).self.trans (hinv.id_eq i).symm
      rw [hfrom, hinv.id_eq i] at hsender
      exact (h.procs i hsender).sent hstep hnew

/-- Elections of the side that were begun after the cut are short of votes. -/
def EarlyVotes (c₀ c : Cluster Id) (A : List Id) : Prop :=
  ∀ i ∈ A, ∀ el, (c.proc i).election = some el → (c₀.proc i).node.term < el.req.term →
    el.Short A (c.proc i).node.peers

theorem EarlyVotes.update (h : EarlyVotes c₀ c A) {i : Id} {inp : Input Id} {e : Process.Effect Id}
    (hside : SameSide A i inp) (hstep : (c.proc i).step inp = some e) :
    EarlyVotes c₀ (c.update i e) A := by
  intro j hj el hel hT
  by_cases hji : j = i
  · subst hji
    rw [update_proc_self] at hel ⊢
    exact Process.short_of_step hstep hside hj (h j hj) hel hT
  · rw [update_proc_ne c e hji] at hel ⊢
    exact h j hj el hel hT

/-- An election that is short of votes is not won. -/
theorem EarlyVotes.shown (h : EarlyVotes c₀ c A) (hA : Minority cfg A) (hinv : QuorumInv cfg c)
    {i : Id} {inp : Input Id} {e : Process.Effect Id} (hi : i ∈ cfg.members)
    (hstep : (c.proc i).step inp = some e) {x : Id} {T : ℤ} (hx : x ∈ A)
    (hev : .becameLeader x T ∈ e.events) : T ≤ (c₀.proc x).node.term := by
  have hid := hinv.id_eq i
  have hpeers := hinv.peers_eq i
  have hshow := Process.show_of_step hstep hev
  have hearly := h i
  generalize hp : c.proc i = p at hshow hid hpeers hearly
  cases hshow with
  | becameLeader el hel _ hv _ ht =>
    rw [hid] at hx ⊢
    by_contra hT
    have hshort := hearly hx el hel (by rw [← ht]; exact not_le.mp hT)
    have hfew := hA.peers hi hx
    rw [← hpeers] at hfew
    unfold Election.Short at hshort
    omega

/-- What is settled on the side `A`: what its processes have settled, and what their messages that
    are under way say. -/
def settled (c : Cluster Id) (A : List Id) : ℕ :=
  (A.map (fun i => (c.proc i).settled A) ++
    (c.net.filter (·.sender ∈ A)).map Msg.commits).foldr max 0

theorem below_settled (c : Cluster Id) (A : List Id) : c.Below A (c.settled A) := by
  refine ⟨fun i hi => (Process.below_settled (c.proc i) A).mono ?_, fun m hm hsender => ?_⟩
  · exact List.le_max_of_le (List.mem_append_left _ (List.mem_map_of_mem hi)) le_rfl
  · refine List.le_max_of_le (List.mem_append_right _ (List.mem_map_of_mem ?_)) le_rfl
    exact List.mem_filter.mpr ⟨hm, by simpa using hsender⟩

/-- The runs from `c₀` on in which no message passes between `A` and the rest. -/
abbrev CutOff (cfg : Config Id) (A : List Id) (c₀ : Cluster Id) : Cluster Id → Prop :=
  Reach (fun c (a : Id × Input Id) => c.step cfg a.1 a.2) (fun _ a => SameSide A a.1 a.2) c₀

/-- What is kept while the side is cut off. -/
structure Stalled (cfg : Config Id) (c₀ : Cluster Id) (A : List Id) (c : Cluster Id) : Prop where
  quorum : QuorumInv cfg c
  below : c.Below A (c₀.settled A)
  votes : EarlyVotes c₀ c A
  led : ∀ i ∈ A, ∀ T, .becameLeader i T ∈ c.events →
    .becameLeader i T ∈ c₀.events ∨ T ≤ (c₀.proc i).node.term
  applied : ∀ i ∈ A, ∀ idx cmd, .applied i idx cmd ∈ c.events →
    .applied i idx cmd ∈ c₀.events ∨ idx ≤ c₀.settled A

theorem Stalled.step (h : Stalled cfg c₀ A c) (hA : Minority cfg A) {i : Id} {inp : Input Id}
    {c' : Cluster Id} (hside : SameSide A i inp) (hstep : c.step cfg i inp = some c') :
    Stalled cfg c₀ A c' := by
  obtain ⟨hi, hm, e, he, rfl⟩ := step_eq_some hstep
  refine ⟨h.quorum.update hi hm he, h.below.update hA h.quorum hi hside hm he,
    h.votes.update hside he, fun x hx T hev => ?_, fun x hx idx cmd hev => ?_⟩
  · rcases (mem_update_events ..).mp hev with hold | hnew
    · exact h.led x hx T hold
    · exact .inr (h.votes.shown hA h.quorum hi he hx hnew)
  · rcases (mem_update_events ..).mp hev with hold | hnew
    · exact h.applied x hx idx cmd hold
    · have hxi : x = i := by
        have hid := h.quorum.id_eq i
        cases Process.show_of_step he hnew <;> exact hid
      subst hxi
      exact .inr ((h.below.procs x hx).shown he hnew)

/-- **The minority side of a partition stalls**: as long as no message passes between `A`, at most
    half of the cluster, and the rest, no node of `A` becomes leader of a later term than it had at
    the cut, and none commits or applies beyond what was settled then, whatever the nodes do. -/
theorem minority_stalls (h₀ : Reachable cfg anyStep c₀) (hA : Minority cfg A)
    (h : CutOff cfg A c₀ c) {i : Id} (hi : i ∈ A) :
    (c.proc i).node.commitIndex ≤ c₀.settled A ∧
      (∀ T, .becameLeader i T ∈ c.events →
        .becameLeader i T ∈ c₀.events ∨ T ≤ (c₀.proc i).node.term) ∧
      ∀ idx cmd, .applied i idx cmd ∈ c.events →
        .applied i idx cmd ∈ c₀.events ∨ idx ≤ c₀.settled A := by
  have hinit : Stalled cfg c₀ A c₀ := by
    refine ⟨quorumInv h₀, below_settled c₀ A, fun j _ el hel hT => ?_, fun _ _ _ => .inl,
      fun _ _ _ _ => .inl⟩
    exact absurd ((quorumInv h₀).campaign j el hel).term_le (not_le.mpr hT)
  have hstalled := h.invariant (P := Stalled cfg c₀ A) hinit fun hs hside hstep => hs.step hA hside hstep
  exact ⟨(hstalled.below.procs i hi).node.commit, hstalled.led i hi, hstalled.applied i hi⟩

/-- Node 0 leads, is cut off, takes a write and sends it to its peers. -/
def cutOffWrite : List (Fin 3 × Input (Fin 3)) :=
  let cmd := { op := .put, key := [107], value := [118] }
  [(0, .propose cmd), (0, .persistPropose 1 1 cmd true), (0, .replicate 1), (0, .replicate 2)]

theorem cutOffWrite_stalls : ∃ c₀ c, CutOff Config.three [0] c₀ c ∧
    (c.proc 0).node.role = .leader ∧ (c.proc 0).node.lastLogIndex = 1 ∧
    (c.proc 0).node.commitIndex = 0 := by
  obtain ⟨c₀, hc₀, heval⟩ := Option.map_eq_some_iff.mp
    (show ((init Config.three).run Config.three (fun _ _ _ => True) contestedElection).map
      (fun c => (c.settled [0], (Transition.run (fun c (a : Fin 3 × Input (Fin 3)) =>
        c.step Config.three a.1 a.2) (fun _ a => SameSide [0] a.1 a.2) c cutOffWrite).map
          fun c => ((c.proc 0).node.role, (c.proc 0).node.lastLogIndex))) =
      some (0, some (.leader, 1)) by decide)
  obtain ⟨hsettled, hrun⟩ := Prod.mk.inj heval
  obtain ⟨c, hc, hlead⟩ := Option.map_eq_some_iff.mp hrun
  obtain ⟨hrole, hlast⟩ := Prod.mk.inj hlead
  have hreach : Reachable Config.three anyStep c₀ :=
    (Reachable.init.run hc₀).mono fun _ _ _ _ => trivial
  have hstalls := (minority_stalls hreach (by decide) (.of_run hc) (List.mem_singleton_self 0)).1
  rw [hsettled] at hstalls
  exact ⟨c₀, c, .of_run hc, hrole, hlast, Nat.le_zero.mp hstalls⟩

end Cluster

end KvStore.Raft
