import KvStore.Raft.StateMachineSafety
import KvStore.Raft.LogMoves

/-!
# The chain of indices

A node keeps four indices that are moved by five kinds of sections:
`lastIncludedIndex ≤ lastApplied ≤ commitIndex ≤ lastLogIndex` (`Node.Chain`).

An accepted `AppendEntries` leaves a log that ends exactly where the request ends, or at the
base (`Node.mergeEntries_lastLogIndex`): also a late one that ends before the commit index.

* `Cluster.index_chain`: as long as no accepted request ends before the receiver's commit
  index, the chain holds on every node; and a step from such a state keeps the chain, and
  within one lifetime neither `commitIndex` nor `lastApplied` decreases, exactly if it is no
  such request.
* `Cluster.chain_broken`: a delayed empty request leaves a commit index beyond the log.
-/

namespace KvStore.Raft

variable {Id : Type}

namespace Node

/-- The chain that the rest of the code assumes. -/
structure Chain (n : Node Id) : Prop where
  base_le : n.lastIncludedIndex ≤ n.lastApplied
  applied_le : n.lastApplied ≤ n.commitIndex
  commit_le : n.commitIndex ≤ n.lastLogIndex

/-- What has been committed and applied only grows. -/
def Advances (n n' : Node Id) : Prop :=
  n.commitIndex ≤ n'.commitIndex ∧ n.lastApplied ≤ n'.lastApplied

theorem Advances.refl (n : Node Id) : n.Advances n := ⟨le_rfl, le_rfl⟩

theorem Advances.trans {n n' n'' : Node Id} (h : n.Advances n') (h' : n'.Advances n'') :
    n.Advances n'' := ⟨h.1.trans h'.1, h.2.trans h'.2⟩

/-- If the node accepts the request, then the request reaches the commit index. -/
def KeepsCommitted (n : Node Id) (req : AppendEntriesRequest Id) : Prop :=
  ¬ req.term < n.term → n.checkPrevLog req.prevLogIndex req.prevLogTerm = true →
    (n.commitIndex : ℤ) ≤ max (n.lastIncludedIndex : ℤ) (req.prevLogIndex + req.entries.length)

instance (n : Node Id) (req : AppendEntriesRequest Id) : Decidable (n.KeepsCommitted req) := by
  unfold KeepsCommitted
  infer_instance

/-- The indices do not depend on the rest of the node. -/
theorem Chain.congr {n n' : Node Id} (h : n.Chain) (hc : n'.core = n.core) :
    n'.Chain ∧ n.Advances n' := by
  simp only [core, Prod.mk.injEq] at hc
  obtain ⟨hlog, hbase, -, hcommit, happ⟩ := hc
  refine ⟨⟨?_, ?_, ?_⟩, hcommit.ge, happ.ge⟩
  · rw [hbase, happ]
    exact h.base_le
  · rw [hcommit, happ]
    exact h.applied_le
  · unfold lastLogIndex
    rw [hcommit, hlog, hbase]
    exact h.commit_le

/-! ## Where an accepted request leaves the end of the log -/

/-- The loop of `mergeEntries` from `idx` on, on a log that ends between `idx - 1` and the end
    of the request. -/
theorem mergeLoop_length (n : Node Id) (changed : Bool) (idx : ℤ) (es : List Entry)
    (hidx : idx ≤ n.lastLogIndex + 1)
    (hlast : (n.lastLogIndex : ℤ) ≤ max (n.lastIncludedIndex : ℤ) (idx - 1 + es.length)) :
    (n.lastIncludedIndex + (mergeLoop n changed idx es).1.length : ℤ) =
      max (n.lastIncludedIndex : ℤ) (idx - 1 + es.length) := by
  have hdef : n.lastLogIndex = n.lastIncludedIndex + n.log.length := rfl
  induction es generalizing idx with
  | nil =>
    simp only [mergeLoop, List.length_nil, Nat.cast_zero, add_zero] at hlast ⊢
    omega
  | cons e rest ih =>
    simp only [List.length_cons, Nat.cast_add, Nat.cast_one] at hlast ⊢
    have hnext := ih (idx + 1)
    simp only [mergeLoop]
    split_ifs with hbase hin hterm
    · rw [hnext (by omega) (by omega)]
      omega
    · rw [hnext (by omega) (by omega)]
      omega
    · rw [List.length_append, List.length_take, List.length_cons]
      omega
    · rw [List.length_append, List.length_cons]
      omega

theorem dropSuffix_lastLogIndex (n : Node Id) (stop : ℤ) :
    ((n.dropSuffix stop).lastLogIndex : ℤ) =
      if stop < n.lastLogIndex then max (n.lastIncludedIndex : ℤ) stop else n.lastLogIndex := by
  unfold dropSuffix
  split_ifs with h
  · simp only [lastLogIndex, List.length_take] at h ⊢
    omega
  · rfl

/-- An accepted request leaves a log that ends where the request ends, or at the base. -/
theorem mergeEntries_lastLogIndex {n : Node Id} {req : AppendEntriesRequest Id}
    (h : n.checkPrevLog req.prevLogIndex req.prevLogTerm = true) :
    ((n.mergeEntries req).1.lastLogIndex : ℤ) =
      max (n.lastIncludedIndex : ℤ) (req.prevLogIndex + req.entries.length) := by
  have hprev : req.prevLogIndex ≤ n.lastLogIndex := by
    unfold checkPrevLog at h
    split_ifs at h with h1
    exact not_lt.mp h1
  have hbase := dropSuffix_base n (req.prevLogIndex + req.entries.length)
  have hdrop := dropSuffix_lastLogIndex n (req.prevLogIndex + req.entries.length)
  have hle : n.lastIncludedIndex ≤ n.lastLogIndex := Nat.le_add_right _ _
  have hloop := mergeLoop_length (n.dropSuffix (req.prevLogIndex + req.entries.length))
    (decide (req.prevLogIndex + req.entries.length < n.lastLogIndex)) (req.prevLogIndex + 1)
    req.entries (by rw [hdrop]; split_ifs <;> omega)
    (by rw [hdrop, hbase]; split_ifs <;> omega)
  rw [hbase, add_sub_cancel_right] at hloop
  rw [← hloop]
  rfl

variable [DecidableEq Id]

/-- How an accepted request moves the indices. -/
theorem handleAppendEntries_indices {n : Node Id} {req : AppendEntriesRequest Id}
    (ht : ¬ req.term < n.term)
    (hc : n.checkPrevLog req.prevLogIndex req.prevLogTerm = true) :
    ((n.handleAppendEntries req).1.lastLogIndex : ℤ) =
        max (n.lastIncludedIndex : ℤ) (req.prevLogIndex + req.entries.length) ∧
      (n.handleAppendEntries req).1.commitIndex =
        n.acceptedCommit req (n.handleAppendEntries req).1.lastLogIndex := by
  have hc' := (follow_checkPrevLog n req.term req.leaderID _ _).trans hc
  have hbase := (follow_quiet n req.term req.leaderID).fields.2.1
  obtain ⟨hlog, hbase', -, -, -, -, hcommit, -⟩ := handleAppendEntries_accepted ht hc'
  have hlast : (n.handleAppendEntries req).1.lastLogIndex =
      ((n.follow req.term req.leaderID).mergeEntries req).1.lastLogIndex := by
    unfold lastLogIndex
    rw [hlog, hbase']
  refine ⟨?_, by rw [hlast]; exact hcommit⟩
  rw [hlast, mergeEntries_lastLogIndex hc', hbase]

/-- A request keeps the chain, and what has been committed and applied, exactly if it reaches
    the commit index. -/
theorem Chain.appendEntries_iff {n : Node Id} (h : n.Chain) (req : AppendEntriesRequest Id) :
    (n.handleAppendEntries req).1.Chain ∧ n.Advances (n.handleAppendEntries req).1 ↔
      n.KeepsCommitted req := by
  obtain ⟨hba, hac, hcl⟩ := h
  obtain ⟨happ, hbase⟩ := n.handleAppendEntries_progress req
  by_cases ht : req.term < n.term
  · rw [(handleAppendEntries_stale ht).1]
    exact iff_of_true ⟨⟨hba, hac, hcl⟩, .refl n⟩ fun ht' => absurd ht ht'
  by_cases hc : n.checkPrevLog req.prevLogIndex req.prevLogTerm = true
  · obtain ⟨hlast, hcommit⟩ := handleAppendEntries_indices ht hc
    unfold acceptedCommit at hcommit
    constructor
    · rintro ⟨⟨-, -, hcl'⟩, hadv, -⟩ - -
      split_ifs at hcommit <;> omega
    · intro hk
      have hreach := hk ht hc
      refine ⟨⟨?_, ?_, ?_⟩, ?_, happ.ge⟩
      · omega
      · split_ifs at hcommit <;> omega
      · split_ifs at hcommit <;> omega
      · split_ifs at hcommit <;> omega
  · -- a rejected request leaves the indices alone
    have hc' := (follow_checkPrevLog n req.term req.leaderID _ _).trans (Bool.eq_false_iff.mpr hc)
    rw [(handleAppendEntries_rejected ht hc').1]
    have hkeep := Chain.congr ⟨hba, hac, hcl⟩ (follow_quiet n req.term req.leaderID).core
    exact iff_of_true hkeep fun _ hc' => absurd hc' hc

/-! ## The other sections -/

omit [DecidableEq Id] in
theorem Chain.adoptSnapshot {n : Node Id} (h : n.Chain) {req : InstallSnapshotRequest Id}
    (hi : n.lastApplied < req.lastIncludedIndex) :
    (n.adoptSnapshot req).Chain ∧ n.Advances (n.adoptSnapshot req) := by
  obtain ⟨hba, hac, hcl⟩ := h
  unfold lastLogIndex at hcl
  refine ⟨⟨?_, ?_, ?_⟩, ?_, ?_⟩
  all_goals simp only [Node.adoptSnapshot, lastLogIndex, List.length_drop]
  all_goals split_ifs <;> omega

theorem Chain.handleInstallSnapshot {n : Node Id} (h : n.Chain) (req : InstallSnapshotRequest Id) :
    (n.handleInstallSnapshot req).1.Chain ∧ n.Advances (n.handleInstallSnapshot req).1 := by
  have hcore := (follow_quiet n req.term req.leaderID).core
  obtain ⟨hfollow, hadv⟩ := h.congr hcore
  unfold Node.handleInstallSnapshot
  dsimp only
  split_ifs with ht hi
  · exact ⟨h, .refl n⟩
  · obtain ⟨hchain, hadv'⟩ := hfollow.adoptSnapshot hi
    exact ⟨hchain, hadv.trans hadv'⟩
  · exact ⟨hfollow, hadv⟩

omit [DecidableEq Id] in
theorem Chain.compactLog {n : Node Id} (h : n.Chain) {idx : ℕ} (hidx : idx ≤ n.lastApplied)
    (label : ℤ) : (n.compactLog idx label).Chain ∧ n.Advances (n.compactLog idx label) := by
  obtain ⟨hba, hac, hcl⟩ := h
  unfold Node.compactLog
  split
  · exact ⟨⟨hba, hac, hcl⟩, .refl n⟩
  · unfold lastLogIndex at hcl
    have hlog : (if idx ≥ n.lastLogIndex then []
        else n.log.drop (idx - n.lastIncludedIndex)).length = n.lastLogIndex - idx := by
      unfold lastLogIndex
      split_ifs
      · exact (Nat.sub_eq_zero_of_le ‹_›).symm
      · rw [List.length_drop]
        omega
    refine ⟨⟨?_, ?_, ?_⟩, ?_, ?_⟩
    all_goals simp only [lastLogIndex] at hlog ⊢
    all_goals split_ifs at hlog ⊢ <;> omega

omit [DecidableEq Id] in
theorem Chain.markApplied {n : Node Id} (h : n.Chain) {idx : ℕ} (hidx : idx ≤ n.commitIndex) :
    (n.markApplied idx).Chain ∧ n.Advances (n.markApplied idx) :=
  ⟨⟨h.base_le.trans (le_max_left _ _), max_le h.applied_le hidx, h.commit_le⟩, le_rfl,
    le_max_left _ _⟩

omit [DecidableEq Id] in
theorem Chain.appendEntry {n : Node Id} (h : n.Chain) (cmd : Storage.Command) :
    (n.appendEntry cmd).Chain ∧ n.Advances (n.appendEntry cmd) := by
  obtain ⟨hba, hac, hcl⟩ := h
  unfold lastLogIndex at hcl
  unfold Node.appendEntry
  dsimp only
  split <;> refine ⟨⟨hba, ?_, ?_⟩, ?_, le_rfl⟩ <;>
    simp only [lastLogIndex, List.length_append, List.length_singleton] <;> omega

/-- `maybeCommit` raises the commit index to an index of the log. -/
theorem commitTarget_bounds (n : Node Id) (h : n.commitIndex ≤ n.lastLogIndex) :
    n.commitIndex ≤ n.commitTarget ∧ n.commitTarget ≤ n.lastLogIndex := by
  unfold commitTarget
  split_ifs with hrole hthr
  · exact ⟨le_rfl, h⟩
  · exact ⟨le_rfl, h⟩
  · split
    · exact ⟨le_rfl, h⟩
    · next en hen =>
      split_ifs
      · exact ⟨le_rfl, h⟩
      · refine ⟨(not_le.mp hthr).le, ?_⟩
        -- the log has an entry at the threshold
        unfold entryAt logOffset at hen
        dsimp only at hen
        split_ifs at hen with hoff
        · cases hen
        · unfold lastLogIndex
          omega

theorem Chain.maybeCommit {n : Node Id} (h : n.Chain) :
    n.maybeCommit.Chain ∧ n.Advances n.maybeCommit := by
  obtain ⟨hle, hlast⟩ := n.commitTarget_bounds h.commit_le
  exact ⟨⟨h.base_le, h.applied_le.trans hle, hlast⟩, hle, le_rfl⟩

theorem Chain.acknowledge {n : Node Id} (h : n.Chain) (q : Id) (k : ℕ) :
    (n.acknowledge q k).Chain ∧ n.Advances (n.acknowledge q k) :=
  Chain.maybeCommit (n := { n with repl := _ }) ⟨h.base_le, h.applied_le, h.commit_le⟩

theorem Chain.handleAppendResponse {n : Node Id} (h : n.Chain) (q : Id)
    (req : AppendEntriesRequest Id) (resp : AppendEntriesResponse) :
    (n.handleAppendResponse q req resp).Chain ∧ n.Advances (n.handleAppendResponse q req resp) := by
  unfold Node.handleAppendResponse
  dsimp only
  split_ifs
  · exact h.congr rfl
  · exact h.congr rfl
  · have hq : (n.setInFlight q false).Chain ∧ n.Advances (n.setInFlight q false) := h.congr rfl
    exact hq.1.acknowledge q _
  · exact h.congr rfl

theorem Chain.handleSnapshotResponse {n : Node Id} (h : n.Chain) (q : Id)
    (req : InstallSnapshotRequest Id) (resp : InstallSnapshotResponse) :
    (n.handleSnapshotResponse q req resp).Chain ∧
      n.Advances (n.handleSnapshotResponse q req resp) := by
  unfold Node.handleSnapshotResponse
  dsimp only
  split_ifs
  · exact h.congr rfl
  · exact h.congr rfl
  · have hq : (n.setInFlight q false).Chain ∧ n.Advances (n.setInFlight q false) := h.congr rfl
    exact hq.1.acknowledge q _

end Node

/-! ## One process -/

/-- The index the apply loop has in hand. -/
def ApplyPhase.index : ApplyPhase → ℕ
  | .idle => 0
  | .picked idx _ => idx
  | .running idx _ => idx
  | .finished idx => idx

/-- The request that the section handles, if it is one of `HandleAppendEntries`. -/
def Input.appendRequest? : Input Id → Option (AppendEntriesRequest Id)
  | .appendEntries req => some req
  | _ => none

/-- The index the compactor has read. -/
def CompactorPhase.index : CompactorPhase → ℕ
  | .idle => 0
  | .indexed idx => idx
  | .labelled idx _ => idx

namespace Process

variable {p : Process Id} {inp : Input Id} {e : Effect Id}

/-- The section is no accepted request that ends before the commit index. -/
def KeepsCommitted (p : Process Id) : Input Id → Prop
  | .appendEntries req => p.node.KeepsCommitted req
  | _ => True

theorem keepsCommitted_iff (p : Process Id) (inp : Input Id) :
    (∀ req ∈ inp.appendRequest?, p.node.KeepsCommitted req) ↔ p.KeepsCommitted inp := by
  cases inp <;> simp [Input.appendRequest?, KeepsCommitted]

variable [DecidableEq Id]

instance (p : Process Id) (inp : Input Id) : Decidable (p.KeepsCommitted inp) :=
  decidable_of_iff _ (p.keepsCommitted_iff inp)

/-- The chain, and the indices that the apply loop and the compactor have read. -/
structure IndexInv (p : Process Id) : Prop where
  chain : p.node.Chain
  apply_le : p.apply.index ≤ p.node.commitIndex
  compactor_le : p.compactor.index ≤ p.node.lastApplied

/-- What a section does to the four indices of the node. -/
theorem IndexInv.node (h : p.IndexInv) (hstep : p.step inp = some e) (hr : inp ≠ .restart)
    (hk : p.KeepsCommitted inp) : e.proc.node.Chain ∧ p.node.Advances e.proc.node := by
  have hcomp := h.compactor_le
  have happly := h.apply_le
  by_cases hq : inp.quiet = true
  · exact h.chain.congr (quiet_of_step hstep hq).core
  cases inp with
  | endElection =>
    simp only [step] at hstep
    split at hstep <;> try contradiction
    split at hstep <;> cases hstep
    unfold endElection
    split_ifs <;> exact h.chain.congr rfl
  | appendEntries req =>
    rw [appendEntries_node hstep]
    exact (h.chain.appendEntries_iff req).mpr hk
  | installSnapshot req =>
    rw [installSnapshot_node hstep]
    exact h.chain.handleInstallSnapshot req
  | propose cmd =>
    simp only [step] at hstep
    split at hstep <;> cases hstep
    exact h.chain.appendEntry cmd
  | appendResponse q req resp =>
    simp only [step] at hstep
    split at hstep <;> cases hstep
    exact h.chain.handleAppendResponse q req resp
  | snapshotResponse q req resp =>
    simp only [step] at hstep
    split at hstep <;> cases hstep
    exact h.chain.handleSnapshotResponse q req resp
  | applyCheck =>
    simp only [step] at hstep
    split at hstep <;> try contradiction
    next idx entry hp =>
    rw [hp] at happly
    repeat' split at hstep
    all_goals cases hstep
    · exact ⟨h.chain, .refl _⟩
    · exact h.chain.markApplied happly
    · exact ⟨h.chain, .refl _⟩
  | applyDone =>
    simp only [step] at hstep
    split at hstep <;> cases hstep
    next idx hp =>
    rw [hp] at happly
    exact h.chain.markApplied happly
  | compactLog =>
    simp only [step] at hstep
    split at hstep <;> cases hstep
    next idx label hp =>
    rw [hp] at hcomp
    exact h.chain.compactLog hcomp label
  | _ => first | exact absurd rfl hq | exact absurd rfl hr

/-- What the apply loop and the compactor have in hand stays within bounds. -/
theorem IndexInv.phases (h : p.IndexInv) (hstep : p.step inp = some e) (hr : inp ≠ .restart)
    (hadv : p.node.Advances e.proc.node) :
    e.proc.apply.index ≤ e.proc.node.commitIndex ∧
      e.proc.compactor.index ≤ e.proc.node.lastApplied := by
  have happly := h.apply_le.trans hadv.1
  have hcomp := h.compactor_le.trans hadv.2
  by_cases hb : bystander inp = true
  · have hprog := progress_of_step hstep hb
    simp only [progress, Prod.mk.injEq] at hprog
    rw [hprog.2.2.1, hprog.2.2.2]
    exact ⟨happly, hcomp⟩
  cases inp with
  | installSnapshot req =>
    simp only [step] at hstep
    split at hstep <;> cases hstep <;> exact ⟨happly, hcomp⟩
  | applyPick =>
    simp only [step] at hstep
    split_ifs at hstep with hg
    cases hstep
    exact ⟨hg.2, hcomp⟩
  | applyCheck =>
    simp only [step] at hstep
    split at hstep <;> try contradiction
    next idx entry hp =>
    rw [hp] at happly
    repeat' split at hstep
    all_goals cases hstep
    · exact ⟨Nat.zero_le _, hcomp⟩
    · exact ⟨Nat.zero_le _, hcomp⟩
    · exact ⟨happly, hcomp⟩
  | applyRun =>
    simp only [step] at hstep
    split at hstep <;> cases hstep
    next idx cmd hp =>
    rw [hp] at happly
    exact ⟨happly, hcomp⟩
  | applyDone =>
    simp only [step] at hstep
    split at hstep <;> cases hstep
    exact ⟨Nat.zero_le _, hcomp⟩
  | compactIndex =>
    simp only [step] at hstep
    split at hstep <;> cases hstep
    exact ⟨happly, le_refl _⟩
  | compactTerm =>
    simp only [step] at hstep
    split at hstep <;> cases hstep
    next idx hp =>
    rw [hp] at hcomp
    exact ⟨happly, hcomp⟩
  | compactLog =>
    simp only [step] at hstep
    split at hstep <;> cases hstep
    exact ⟨happly, Nat.zero_le _⟩
  | _ => first | exact absurd rfl hb | exact absurd rfl hr

omit [DecidableEq Id] in
/-- A restarted process has applied and committed what its store has compacted. -/
theorem IndexInv.restart (p : Process Id) : p.restart.IndexInv := by
  obtain ⟨happ, hcommit⟩ := p.restart_indices
  refine ⟨⟨happ.ge, (happ.trans hcommit.symm).le, ?_⟩, Nat.zero_le _, Nat.zero_le _⟩
  rw [hcommit]
  exact Nat.le_add_right _ _

theorem IndexInv.step (h : p.IndexInv) (hstep : p.step inp = some e) (hk : p.KeepsCommitted inp) :
    e.proc.IndexInv := by
  by_cases hr : inp = .restart
  · subst hr
    cases hstep
    exact .restart p
  · obtain ⟨hchain, hadv⟩ := h.node hstep hr hk
    obtain ⟨happly, hcomp⟩ := h.phases hstep hr hadv
    exact ⟨hchain, happly, hcomp⟩

/-- A section keeps the chain, and what has been committed and applied within a lifetime,
    exactly if it is no request that ends before the commit index. -/
theorem IndexInv.step_iff (h : p.IndexInv) (hstep : p.step inp = some e) :
    (e.proc.node.Chain ∧ (inp ≠ .restart → p.node.Advances e.proc.node)) ↔
      p.KeepsCommitted inp := by
  constructor
  · rintro ⟨hchain, hadv⟩
    unfold KeepsCommitted
    split
    · next req =>
      rw [appendEntries_node hstep] at hchain hadv
      exact (h.chain.appendEntries_iff req).mp ⟨hchain, hadv (by simp)⟩
    · trivial
  · intro hk
    exact ⟨(h.step hstep hk).chain, fun hr => (h.node hstep hr hk).2⟩

end Process

/-! ## Every run -/

variable [DecidableEq Id]

namespace Cluster

variable {cfg : Config Id} {c : Cluster Id}

/-- The step is no accepted request that ends before the commit index of its receiver. -/
def keepsCommitted (c : Cluster Id) (i : Id) (inp : Input Id) : Prop :=
  (c.proc i).KeepsCommitted inp

instance (c : Cluster Id) (i : Id) (inp : Input Id) : Decidable (c.keepsCommitted i inp) :=
  inferInstanceAs (Decidable ((c.proc i).KeepsCommitted inp))

/-- Every process has its indices in order. -/
def Indexed (c : Cluster Id) : Prop := ∀ i, (c.proc i).IndexInv

theorem Indexed.update (h : c.Indexed) {i : Id} {inp : Input Id} {e : Process.Effect Id}
    (hk : c.keepsCommitted i inp) (hstep : (c.proc i).step inp = some e) :
    (c.update i e).Indexed := by
  intro j
  by_cases hj : j = i
  · subst hj
    rw [update_proc_self]
    exact (h j).step hstep hk
  · rw [update_proc_ne c e hj]
    exact h j

theorem Reachable.indexed (h : Reachable cfg keepsCommitted c) : c.Indexed := by
  have hinit : Indexed (Cluster.init cfg) := fun i =>
    ⟨⟨le_rfl, le_rfl, le_rfl⟩, le_rfl, le_rfl⟩
  exact h.invariant hinit fun c i inp e hc hk _ _ hstep => hc.update hk hstep

/-- In every run in which no accepted request ends before the commit index of its receiver the
    chain of indices holds on every node. A step from there keeps it, and does not take back
    what has been committed or applied within the lifetime of the process, exactly if it is no
    such request. -/
theorem index_chain (h : Reachable cfg keepsCommitted c) :
    (∀ i, (c.proc i).node.Chain) ∧
      ∀ i inp c', c.step cfg i inp = some c' →
        (((c'.proc i).node.Chain ∧
            (inp ≠ .restart → (c.proc i).node.Advances (c'.proc i).node)) ↔
          c.keepsCommitted i inp) := by
  refine ⟨fun i => (h.indexed i).chain, fun i inp c' hstep => ?_⟩
  obtain ⟨-, -, e, he, rfl⟩ := step_eq_some hstep
  rw [update_proc_self]
  exact (h.indexed i).step_iff he

/-! ## A run that keeps the chain, and one that breaks it -/

theorem index_chain_two_replicas :
    ∃ c, Reachable Config.three keepsCommitted c ∧ (c.proc 1).node.commitIndex = 1 ∧
      ∀ i, (c.proc i).node.Chain := by
  have hrun : ((init Config.three).run Config.three keepsCommitted
      (firstElection ++ firstWrite ++ secondApply)).map (fun c => (c.proc 1).node.commitIndex) =
        some 1 := by
    decide +kernel
  obtain ⟨c, hc, hcommit⟩ := Option.map_eq_some_iff.mp hrun
  have hreach := Reachable.init.run hc
  exact ⟨c, hreach, hcommit, (index_chain hreach).1⟩

/-- The empty request of `firstWrite` reaches node 1 after node 1 has committed and applied the
    write: the log of node 1 ends at 0, its commit index stays at 1. -/
theorem chain_broken :
    ∃ c, Reachable Config.three (fun _ _ inp => inp.saved = true ∧ inp ≠ .restart) c ∧
      (c.proc 1).node.lastLogIndex = 0 ∧ (c.proc 1).node.commitIndex = 1 ∧
      ¬ (c.proc 1).node.Chain := by
  have hrun : ((init Config.three).run Config.three
      (fun _ _ inp => inp.saved = true ∧ inp ≠ .restart)
      (firstElection ++ firstWrite ++ secondApply ++ [(1, .appendEntries ⟨1, 0, 0, 0, [], 0⟩)])).map
        (fun c => ((c.proc 1).node.lastLogIndex, (c.proc 1).node.commitIndex)) = some (0, 1) := by
    decide +kernel
  obtain ⟨c, hc, hshow⟩ := Option.map_eq_some_iff.mp hrun
  simp only [Prod.mk.injEq] at hshow
  obtain ⟨hlast, hcommit⟩ := hshow
  refine ⟨c, Reachable.init.run hc, hlast, hcommit, fun hchain => ?_⟩
  have hle := hchain.commit_le
  omega

end Cluster

end KvStore.Raft
