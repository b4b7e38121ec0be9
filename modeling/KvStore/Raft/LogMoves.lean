import KvStore.Raft.FollowerSections
import KvStore.Raft.NodeRuns

/-!
# What one critical section can do to the log

`Process.logMove`: a section leaves the log and its base alone, or it is one of the six
that change them: a leader starts its reign with the log it has, a proposal, an accepted
`AppendEntries`, an installed snapshot, a compaction, a restart. How far a node has applied
and compacted is changed by the apply loop, the compactor, an installed snapshot and a
restart only (`Process.progress_of_step`). Every section that may make a node a candidate
raises its term (`Process.candidate_of_step`).
-/

namespace KvStore.Raft

open KvStore.Storage (Command)

variable {Id : Type}

/-- The log and its base stay. -/
structure Node.SameLog (n n' : Node Id) : Prop where
  log : n'.log = n.log
  base : n'.lastIncludedIndex = n.lastIncludedIndex
  baseTerm : n'.lastIncludedTerm = n.lastIncludedTerm

theorem Node.SameLog.holds {n n' : Node Id} (h : SameLog n n') {l : List Entry} (hl : n.Holds l) :
    n'.Holds l := hl.congr h.log h.base h.baseTerm

theorem Node.SameLog.entryAt {n n' : Node Id} (h : SameLog n n') (k : ℤ) :
    n'.entryAt k = n.entryAt k := by
  unfold Node.entryAt Node.logOffset
  rw [h.log, h.base]

theorem Node.SameLog.logTermAt {n n' : Node Id} (h : SameLog n n') (k : ℤ) :
    n'.logTermAt k = n.logTermAt k := by
  unfold Node.logTermAt
  rw [h.entryAt, h.base, h.baseTerm]

variable [DecidableEq Id]

theorem Node.Quiet.sameLog {n n' : Node Id} (h : Node.Quiet n n') : SameLog n n' := by
  obtain ⟨h1, h2, h3, -⟩ := h.fields
  exact ⟨h1, h2, h3⟩

omit [DecidableEq Id] in
theorem Node.appendEntry_log (n : Node Id) (cmd : Command) :
    (n.appendEntry cmd).log = n.log ++ [⟨n.term, cmd⟩] := by
  unfold appendEntry
  dsimp only
  split_ifs <;> rfl

/-- An `AppendEntries` leaves the base and what has been applied alone. -/
theorem Node.handleAppendEntries_progress (n : Node Id) (req : AppendEntriesRequest Id) :
    (n.handleAppendEntries req).1.lastApplied = n.lastApplied ∧
      (n.handleAppendEntries req).1.lastIncludedIndex = n.lastIncludedIndex := by
  obtain ⟨-, hbase, -, -, happlied⟩ := (Node.follow_quiet n req.term req.leaderID).fields
  by_cases ht : req.term < n.term
  · rw [(Node.handleAppendEntries_stale ht).1]
    exact ⟨rfl, rfl⟩
  · by_cases hc : (n.follow req.term req.leaderID).checkPrevLog req.prevLogIndex
        req.prevLogTerm = true
    · obtain ⟨-, hbase', -, happlied', -⟩ := Node.handleAppendEntries_accepted ht hc
      exact ⟨happlied', hbase'.trans hbase⟩
    · rw [(Node.handleAppendEntries_rejected ht (Bool.eq_false_iff.mpr hc)).1]
      exact ⟨happlied, hbase⟩

omit [DecidableEq Id] in
/-- How far a compaction leaves the base and what has been applied. -/
theorem Node.compactLog_progress (n : Node Id) (idx : ℕ) (label : ℤ) :
    (n.compactLog idx label).lastIncludedIndex = max n.lastIncludedIndex idx ∧
      (n.lastIncludedIndex ≤ n.lastApplied →
        (n.compactLog idx label).lastApplied = max n.lastApplied idx) := by
  unfold compactLog
  split
  · next h => exact ⟨(max_eq_left h).symm, fun hb => (max_eq_left (h.trans hb)).symm⟩
  · next h =>
    refine ⟨(max_eq_right (not_le.mp h).le).symm, fun _ => ?_⟩
    dsimp only
    split_ifs <;> omega

namespace Process

/-- The node that a section leaves, as far as the log and the leadership go. -/
inductive LogMove (p : Process Id) : Input Id → Node Id → Prop
  | keep {inp : Input Id} {n' : Node Id} (hi : inp ≠ .restart) (hl : Node.SameLog p.node n')
      (ha : p.node.lastApplied ≤ n'.lastApplied)
      (hr : n'.role = .leader → p.node.role = .leader ∧ n'.term = p.node.term) :
      LogMove p inp n'
  | elected (el : Election Id) (h : p.election = some el) (hc : el.campaigning = true)
      (hv : majority p.node.peers ≤ el.votes) (hr : p.node.role = .candidate)
      (ht : p.node.term = el.req.term) : LogMove p .endElection p.node.becomeLeader
  | propose (cmd : Command) (h : p.node.role = .leader) :
      LogMove p (.propose cmd) (p.node.appendEntry cmd)
  | accept (req : AppendEntriesRequest Id) (ht : ¬ req.term < p.node.term)
      (hc : p.node.checkPrevLog req.prevLogIndex req.prevLogTerm = true) :
      LogMove p (.appendEntries req) (p.node.handleAppendEntries req).1
  | install (req : InstallSnapshotRequest Id) (ht : ¬ req.term < p.node.term)
      (hi : p.node.lastApplied < req.lastIncludedIndex) :
      LogMove p (.installSnapshot req) ((p.node.follow req.term req.leaderID).adoptSnapshot req)
  | compact (idx : ℕ) (label : ℤ) (h : p.compactor = .labelled idx label) :
      LogMove p .compactLog (p.node.compactLog idx label)
  | restart : LogMove p .restart p.restart.node

variable {p : Process Id} {inp : Input Id} {e : Effect Id}

theorem LogMove.of_quiet {n' : Node Id} (hi : inp ≠ .restart) (h : Node.Quiet p.node n') :
    LogMove p inp n' :=
  .keep hi h.sameLog h.fields.2.2.2.2.ge fun hr => ⟨(h.leads hr).1, (h.leads hr).2.1⟩

/-- Answers of peers leave the log alone. -/
theorem LogMove.of_appendResponse (q : Id) (req : AppendEntriesRequest Id)
    (resp : AppendEntriesResponse) :
    LogMove p (.appendResponse q req resp) (p.node.handleAppendResponse q req resp) := by
  unfold Node.handleAppendResponse
  dsimp only
  split_ifs
  · exact .of_quiet (by simp) (.of_follower rfl (by simp [Node.becomeFollower]))
  all_goals exact .keep (by simp) ⟨rfl, rfl, rfl⟩ (le_refl _) fun hr => ⟨hr, rfl⟩

theorem LogMove.of_snapshotResponse (q : Id) (req : InstallSnapshotRequest Id)
    (resp : InstallSnapshotResponse) :
    LogMove p (.snapshotResponse q req resp) (p.node.handleSnapshotResponse q req resp) := by
  unfold Node.handleSnapshotResponse
  dsimp only
  split_ifs
  · exact .of_quiet (by simp) (.of_follower rfl (by simp [Node.becomeFollower]))
  all_goals exact .keep (by simp) ⟨rfl, rfl, rfl⟩ (le_refl _) fun hr => ⟨hr, rfl⟩

omit [DecidableEq Id] in
theorem LogMove.of_markApplied (hi : inp ≠ .restart) (k : ℕ) :
    LogMove p inp (p.node.markApplied k) :=
  .keep hi ⟨rfl, rfl, rfl⟩ (le_max_left _ _) fun hr => ⟨hr, rfl⟩

theorem LogMove.of_appendEntries (req : AppendEntriesRequest Id) :
    LogMove p (.appendEntries req) (p.node.handleAppendEntries req).1 := by
  by_cases ht : req.term < p.node.term
  · rw [(Node.handleAppendEntries_stale ht).1]
    exact .of_quiet (by simp) (.refl _)
  · by_cases hc : p.node.checkPrevLog req.prevLogIndex req.prevLogTerm = true
    · exact .accept req ht hc
    · rw [← Node.follow_checkPrevLog p.node req.term req.leaderID] at hc
      rw [(Node.handleAppendEntries_rejected ht (Bool.eq_false_iff.mpr hc)).1]
      exact .of_quiet (by simp) (Node.follow_quiet _ _ _)

theorem LogMove.of_installSnapshot {req : InstallSnapshotRequest Id}
    (ht : ¬ req.term < p.node.term) :
    LogMove p (.installSnapshot req) (p.node.handleInstallSnapshot req).1 := by
  have hla := (Node.follow_quiet p.node req.term req.leaderID).fields.2.2.2.2
  simp only [Node.handleInstallSnapshot, ht, ite_false]
  split_ifs with hi
  · exact .install req ht (hla ▸ hi)
  · exact .of_quiet (by simp) (Node.follow_quiet _ _ _)

/-- What every section may do to the log. -/
theorem logMove (hstep : p.step inp = some e) : LogMove p inp e.proc.node := by
  cases inp with
  | endElection =>
    simp only [step] at hstep
    split at hstep <;> try contradiction
    next el hel =>
    split at hstep <;> cases hstep
    next hc =>
    unfold endElection
    split_ifs with hw
    · exact .elected el hel hc.1 hw.1 hw.2.1 hw.2.2
    · exact .of_quiet (by simp) (Node.becomeFollower_quiet _ _ _)
  | appendEntries req =>
    rw [Process.appendEntries_node hstep]
    exact .of_appendEntries req
  | installSnapshot req =>
    simp only [step] at hstep
    split at hstep <;> cases hstep
    · exact .of_quiet (by simp) (.refl _)
    · next ht => exact .of_installSnapshot ht
  | propose cmd =>
    simp only [step] at hstep
    split at hstep <;> cases hstep
    next hl => exact .propose cmd hl
  | appendResponse q req resp =>
    simp only [step] at hstep
    split at hstep <;> cases hstep
    exact .of_appendResponse q req resp
  | snapshotResponse q req resp =>
    simp only [step] at hstep
    split at hstep <;> cases hstep
    exact .of_snapshotResponse q req resp
  | applyCheck =>
    simp only [step] at hstep
    repeat' split at hstep
    all_goals try cases hstep
    · exact .of_quiet (by simp) (.refl _)
    · exact .of_markApplied (by simp) _
    · exact .of_quiet (by simp) (.refl _)
  | applyDone =>
    simp only [step] at hstep
    split at hstep <;> cases hstep
    exact .of_markApplied (by simp) _
  | compactLog =>
    simp only [step] at hstep
    split at hstep <;> cases hstep
    next idx label h => exact .compact idx label h
  | restart =>
    cases hstep
    exact .restart
  | _ => exact .of_quiet (by simp) (quiet_of_step hstep rfl)

/-! ## Applying and compacting -/

omit [DecidableEq Id] in
/-- `SetRaftStore` on a new node: what the store has compacted has been applied and committed. -/
theorem restart_indices (p : Process Id) :
    p.restart.node.lastApplied = p.disk.lastIncludedIndex ∧
      p.restart.node.commitIndex = p.disk.lastIncludedIndex := by
  have h : (if 0 < p.disk.lastIncludedIndex then p.disk.lastIncludedIndex else 0) =
      p.disk.lastIncludedIndex := by
    split_ifs <;> omega
  exact ⟨h, h⟩

/-- The sections that leave the apply loop, the compactor, and how far they are, alone. -/
def bystander : Input Id → Bool
  | .applyPick => false
  | .applyCheck => false
  | .applyRun => false
  | .applyDone => false
  | .compactIndex => false
  | .compactTerm => false
  | .compactLog => false
  | .installSnapshot _ => false
  | .restart => false
  | _ => true

/-- How far a process has applied and compacted, and where its two goroutines stand. -/
def progress (p : Process Id) : ℕ × ℕ × ApplyPhase × CompactorPhase :=
  (p.node.lastApplied, p.node.lastIncludedIndex, p.apply, p.compactor)

theorem progress_of_step (hstep : p.step inp = some e) (h : bystander inp = true) :
    e.proc.progress = p.progress := by
  have hphase : e.proc.apply = p.apply ∧ e.proc.compactor = p.compactor := by
    cases inp with
    | voteResponse q req resp =>
      simp only [step] at hstep
      split at hstep <;> try contradiction
      split at hstep <;> cases hstep
      unfold voteResponse
      split <;> exact ⟨rfl, rfl⟩
    | endElection =>
      simp only [step] at hstep
      split at hstep <;> try contradiction
      split at hstep <;> cases hstep
      unfold endElection
      split <;> exact ⟨rfl, rfl⟩
    | persistPropose index term cmd saved =>
      simp only [step] at hstep
      split at hstep <;> cases hstep
      split <;> exact ⟨rfl, rfl⟩
    | _ =>
      first
      | (simp only [step] at hstep
         repeat' split at hstep
         all_goals try cases hstep
         all_goals exact ⟨rfl, rfl⟩)
      | cases h
  have hnode : e.proc.node.lastApplied = p.node.lastApplied ∧
      e.proc.node.lastIncludedIndex = p.node.lastIncludedIndex := by
    by_cases hq : inp.quiet = true
    · obtain ⟨-, hbase, -, -, happlied⟩ := (quiet_of_step hstep hq).fields
      exact ⟨happlied, hbase⟩
    cases inp with
    | endElection =>
      simp only [step] at hstep
      split at hstep <;> try contradiction
      split at hstep <;> cases hstep
      unfold endElection
      split_ifs <;> exact ⟨rfl, rfl⟩
    | appendEntries req =>
      rw [Process.appendEntries_node hstep]
      exact p.node.handleAppendEntries_progress req
    | propose cmd =>
      simp only [step] at hstep
      split at hstep <;> cases hstep
      obtain ⟨-, -, -, -, hbase, happlied, -⟩ := p.node.appendEntry_frame cmd
      exact ⟨happlied, hbase⟩
    | appendResponse q req resp =>
      simp only [step] at hstep
      split at hstep <;> cases hstep
      simp only [next, Node.handleAppendResponse]
      split_ifs <;> exact ⟨rfl, rfl⟩
    | snapshotResponse q req resp =>
      simp only [step] at hstep
      split at hstep <;> cases hstep
      simp only [next, Node.handleSnapshotResponse]
      split_ifs <;> exact ⟨rfl, rfl⟩
    | _ => first | exact absurd rfl hq | cases h
  simp only [progress, hphase, hnode]

/-! ## Candidates -/

/-- A section that forgets a vote leaves a follower. -/
theorem follower_of_forgetsVote (hstep : p.step inp = some e) (h : p.forgetsVote inp) :
    e.proc.node.role = .follower := by
  obtain ⟨hin, hcand, -⟩ := h
  cases inp with
  | stepDown =>
    simp only [step] at hstep
    split_ifs at hstep
    cases hstep
    rfl
  | endElection =>
    simp only [step] at hstep
    split at hstep <;> try contradiction
    split_ifs at hstep
    cases hstep
    unfold endElection
    rw [if_neg fun hw => hcand hw.2.1]
    rfl
  | appendEntries req =>
    have ht : ¬ req.term < p.node.term := by
      simp only [stepsDownInPlace, decide_eq_true_eq] at hin
      omega
    have hb := congrArg (fun b => b.2.2) (Node.handleAppendEntries_ballot ht)
    rw [Process.appendEntries_node hstep]
    exact hb.trans (Node.follow_role _ _ _)
  | installSnapshot req =>
    have ht : ¬ req.term < p.node.term := by
      simp only [stepsDownInPlace, decide_eq_true_eq] at hin
      omega
    have hb := congrArg (fun b => b.2.2) (Node.handleInstallSnapshot_ballot ht)
    simp only [step, ht, ite_false, Option.some.injEq] at hstep
    rw [← hstep]
    exact hb.trans (Node.follow_role _ _ _)
  | _ => simp [stepsDownInPlace] at hin

/-- A node is a candidate after a section if it was one before, or if the section raised
    its term. -/
theorem candidate_of_step (hstep : p.step inp = some e) (hr : inp ≠ .restart)
    (hc : e.proc.node.role = .candidate) :
    p.node.role = .candidate ∨ p.node.term < e.proc.node.term := by
  by_cases hf : p.forgetsVote inp
  · rw [follower_of_forgetsVote hstep hf] at hc
    cases hc
  · cases voteMove hstep hr hf with
    | quiet hb => exact .inl ((congrArg (fun b => b.2.2) hb).symm.trans hc)
    | raise ht _ => exact .inr ht
    | grant _ _ _ _ hr' => exact .inl (hr'.symm.trans hc)
    | quit _ hr' _ _ => rw [hr'] at hc; cases hc
    | elected _ _ _ hr' => rw [hr'] at hc; cases hc

end Process

end KvStore.Raft
