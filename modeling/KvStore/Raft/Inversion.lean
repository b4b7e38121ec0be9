import KvStore.Raft.Cluster

/-!
# What one critical section can start, send and show

Inversion of `Process.step`: a goroutine that exists after a section existed
before or was started by it (`Spawn`), a message that was sent by it is one of
`Send`, an event it shows is one of `Show`. Every later proof about tasks,
messages or events splits on these instead of on the step function.
-/

namespace KvStore.Raft

open KvStore.Storage (Command Bytes)

variable {Id : Type} [DecidableEq Id]

namespace Process

/-- The goroutines a section starts. -/
inductive Spawn (p : Process Id) : Input Id → Task Id → Prop
  | vote (req : VoteRequest Id) (h : (p.node.handleRequestVote req).2.voteGranted = true) :
      Spawn p (.requestVote req) (.vote req (p.node.handleRequestVote req).2)
  | append (req : AppendEntriesRequest Id) (h : (p.node.handleAppendEntries req).2.2 = true) :
      Spawn p (.appendEntries req) (.append req (p.node.handleAppendEntries req).2.1)
  | snapshot (req : InstallSnapshotRequest Id) (h : ¬ req.term < p.node.term) :
      Spawn p (.installSnapshot req) (.snapshot req (p.node.handleInstallSnapshot req).2.1)
  | propose (cmd : Command) (h : p.node.role = .leader) (hp : p.node.peers ≠ []) :
      Spawn p (.propose cmd) (.propose (p.node.appendEntry cmd).lastLogIndex
        (p.node.appendEntry cmd).term cmd)
  | inline (cmd : Command) (h : p.node.role = .leader) (hp : p.node.peers = []) :
      Spawn p (.propose cmd) (.inline (p.node.appendEntry cmd).lastLogIndex cmd)
  | proposed (index : ℕ) (term : ℤ) (cmd : Command) (saved : Bool)
      (h : .propose index term cmd ∈ p.tasks) (hs : (p.persist saved).1 = true) :
      Spawn p (.persistPropose index term cmd saved) (.proposed index term cmd)
  | awaitAppend (peer : Id) (h : p.node.role = .leader) (hp : peer ∈ p.node.peers)
      (hf : p.node.firstIndex ≤ p.node.withRepl.nextFor peer) :
      Spawn p (.replicate peer) (.awaitAppend peer (p.node.withRepl.appendRequest peer))
  | installing (peer : Id) (h : p.node.role = .leader) (hp : peer ∈ p.node.peers) :
      Spawn p (.replicate peer) (.installing peer)
  | snapIndex (peer : Id) (h : .installing peer ∈ p.tasks) :
      Spawn p (.snapshotBegin peer) (.snapIndex peer)
  | snapTerm (peer : Id) (h : .snapIndex peer ∈ p.tasks) :
      Spawn p (.snapshotIndex peer) (.snapTerm peer p.node.lastApplied)
  | snapSend (peer : Id) (idx : ℕ) (data : Bytes) (h : .snapTerm peer idx ∈ p.tasks) :
      Spawn p (.snapshotTerm peer idx data) (.snapSend peer idx (p.node.logTermAt idx) data)
  | awaitSnap (peer : Id) (idx : ℕ) (label : ℤ) (data : Bytes)
      (h : .snapSend peer idx label data ∈ p.tasks) :
      Spawn p (.snapshotSend peer idx label data)
        (.awaitSnap peer (p.node.snapshotRequest idx label data))

/-- The messages a section sends. -/
inductive Send (p : Process Id) : Input Id → Msg Id → Prop
  | voteReq (el : Election Id) (saved : Bool) (q : Id) (h : p.election = some el)
      (hq : q ∈ el.waiting) (hs : (p.persist saved).1 = true) :
      Send p (.persistElection saved) (.voteReq q el.req)
  | voteDenied (req : VoteRequest Id) (h : (p.node.handleRequestVote req).2.voteGranted = false) :
      Send p (.requestVote req)
        (.voteResp p.node.id req.candidateID req (p.node.handleRequestVote req).2)
  | voteSaved (req : VoteRequest Id) (resp : VoteResponse) (saved : Bool)
      (h : .vote req resp ∈ p.tasks) (hs : (p.persist saved).1 = true) :
      Send p (.persistVote req resp saved) (.voteResp p.node.id req.candidateID req resp)
  | voteUnsaved (req : VoteRequest Id) (resp : VoteResponse) (saved : Bool)
      (h : .vote req resp ∈ p.tasks) :
      Send p (.persistVote req resp saved)
        (.voteResp p.node.id req.candidateID req ⟨p.node.term, false⟩)
  | appendAnswer (req : AppendEntriesRequest Id) (h : (p.node.handleAppendEntries req).2.2 = false) :
      Send p (.appendEntries req)
        (.appendResp p.node.id req.leaderID req (p.node.handleAppendEntries req).2.1)
  | appendSaved (req : AppendEntriesRequest Id) (resp : AppendEntriesResponse) (saved : Bool)
      (h : .append req resp ∈ p.tasks) (hs : (p.persist saved).1 = true) :
      Send p (.persistAppend req resp saved) (.appendResp p.node.id req.leaderID req resp)
  | appendUnsaved (req : AppendEntriesRequest Id) (resp : AppendEntriesResponse) (saved : Bool)
      (h : .append req resp ∈ p.tasks) :
      Send p (.persistAppend req resp saved)
        (.appendResp p.node.id req.leaderID req ⟨p.node.term, false⟩)
  | snapStale (req : InstallSnapshotRequest Id) (h : req.term < p.node.term) :
      Send p (.installSnapshot req) (.snapResp p.node.id req.leaderID req ⟨p.node.term, false⟩)
  | snapAnswer (req : InstallSnapshotRequest Id) (resp : InstallSnapshotResponse) (saved : Bool)
      (h : .snapshot req resp ∈ p.tasks) :
      Send p (.persistSnapshot req resp saved) (.snapResp p.node.id req.leaderID req resp)
  | appendReq (peer : Id) (h : p.node.role = .leader) (hp : peer ∈ p.node.peers)
      (hf : p.node.firstIndex ≤ p.node.withRepl.nextFor peer) :
      Send p (.replicate peer) (.appendReq peer (p.node.withRepl.appendRequest peer))
  | snapReq (peer : Id) (idx : ℕ) (label : ℤ) (data : Bytes)
      (h : .snapSend peer idx label data ∈ p.tasks) :
      Send p (.snapshotSend peer idx label data)
        (.snapReq peer (p.node.snapshotRequest idx label data))

/-- The events a section shows. -/
inductive Show (p : Process Id) : Input Id → Event Id → Prop
  | becameLeader (el : Election Id) (h : p.election = some el) (hc : el.campaigning = true)
      (hv : majority p.node.peers ≤ el.votes) (hr : p.node.role = .candidate)
      (ht : p.node.term = el.req.term) :
      Show p .endElection (.becameLeader p.node.id p.node.term)
  | applied (idx : ℕ) (cmd : Command) (h : p.apply = .running idx cmd) :
      Show p .applyRun (.applied p.node.id idx cmd)
  | appliedInline (idx : ℕ) (cmd : Command) (h : .inline idx cmd ∈ p.tasks) :
      Show p (.applyInline idx cmd) (.applied p.node.id idx cmd)
  | returned (idx : ℕ) (term : ℤ) (cmd : Command) (h : .proposed idx term cmd ∈ p.tasks) :
      Show p (.returnPropose idx term cmd) (.returned p.node.id idx term cmd)

theorem next_tasks {p : Process Id} {t t' : Task Id} {new : List (Task Id)}
    (h : t' ∈ p.tasks.erase t ++ new) : t' ∈ p.tasks ∨ t' ∈ new := by
  rcases List.mem_append.mp h with h | h
  · exact .inl (List.mem_of_mem_erase h)
  · exact .inr h

variable {p : Process Id} {inp : Input Id} {e : Effect Id}

theorem spawned {t t' : Task Id} (h : t ∈ p.tasks ∨ t ∈ [t']) (hinp : inp ≠ .restart)
    (ht' : Spawn p inp t') : (t ∈ p.tasks ∧ inp ≠ .restart) ∨ Spawn p inp t := by
  rcases h with h | h
  · exact .inl ⟨h, hinp⟩
  · rw [List.mem_singleton.mp h]
    exact .inr ht'

theorem task_of_step (hstep : p.step inp = some e) {t : Task Id} (h : t ∈ e.proc.tasks) :
    (t ∈ p.tasks ∧ inp ≠ .restart) ∨ Spawn p inp t := by
  cases inp with
  | restart =>
    simp only [step, Option.some.injEq] at hstep
    rw [← hstep] at h
    cases h
  | requestVote req =>
    simp only [step] at hstep
    split at hstep
    · next hg =>
      cases hstep
      exact spawned (List.mem_append.mp h) (by simp) (.vote req hg)
    · cases hstep
      exact .inl ⟨h, by simp⟩
  | appendEntries req =>
    simp only [step] at hstep
    split at hstep
    · next hg =>
      cases hstep
      exact spawned (List.mem_append.mp h) (by simp) (.append req hg)
    · cases hstep
      exact .inl ⟨h, by simp⟩
  | installSnapshot req =>
    simp only [step] at hstep
    split at hstep
    · cases hstep
      exact .inl ⟨h, by simp⟩
    · next hg =>
      cases hstep
      exact spawned (List.mem_append.mp h) (by simp) (.snapshot req hg)
  | propose cmd =>
    simp only [step] at hstep
    split at hstep <;> try contradiction
    next hl =>
    cases hstep
    refine spawned (List.mem_append.mp h) (by simp) ?_
    split
    · next hp => exact .inline cmd hl hp
    · next hp => exact .propose cmd hl hp
  | persistPropose index term cmd saved =>
    simp only [step] at hstep
    split at hstep <;> try contradiction
    next ht =>
    cases hstep
    split at h
    · next hs =>
      rcases List.mem_append.mp h with h | h
      · exact .inl ⟨(next_tasks h).resolve_right (by simp), by simp⟩
      · rw [List.mem_singleton.mp h]
        exact .inr (.proposed index term cmd saved ht hs)
    · exact .inl ⟨(next_tasks h).resolve_right (by simp), by simp⟩
  | replicate peer =>
    simp only [step] at hstep
    split at hstep <;> try contradiction
    next hl =>
    split at hstep
    · cases hstep
      exact spawned (List.mem_append.mp h) (by simp) (.installing peer hl.1 hl.2.1)
    · next hn =>
      cases hstep
      exact spawned (List.mem_append.mp h) (by simp) (.awaitAppend peer hl.1 hl.2.1 (not_lt.mp hn))
  | snapshotBegin peer =>
    simp only [step] at hstep
    split at hstep <;> try contradiction
    next ht =>
    split at hstep <;> cases hstep
    · exact spawned (next_tasks h) (by simp) (.snapIndex peer ht)
    · exact .inl ⟨(next_tasks h).resolve_right (by simp), by simp⟩
  | snapshotIndex peer =>
    simp only [step] at hstep
    split at hstep <;> try contradiction
    next ht =>
    cases hstep
    exact spawned (next_tasks h) (by simp) (.snapTerm peer ht)
  | snapshotTerm peer idx data =>
    simp only [step] at hstep
    split at hstep <;> try contradiction
    next ht =>
    cases hstep
    exact spawned (next_tasks h) (by simp) (.snapSend peer idx data ht)
  | snapshotSend peer idx label data =>
    simp only [step] at hstep
    split at hstep <;> try contradiction
    next ht =>
    split at hstep <;> cases hstep
    · exact .inl ⟨(next_tasks h).resolve_right (by simp), by simp⟩
    · exact spawned (next_tasks h) (by simp) (.awaitSnap peer idx label data ht)
  | voteResponse q req resp =>
    simp only [step] at hstep
    split at hstep <;> try contradiction
    split at hstep <;> cases hstep
    unfold voteResponse at h
    split at h <;> exact .inl ⟨h, by simp⟩
  | endElection =>
    simp only [step] at hstep
    split at hstep <;> try contradiction
    split at hstep <;> cases hstep
    unfold endElection at h
    split at h <;> exact .inl ⟨h, by simp⟩
  | _ =>
    -- the section replaces its own task by nothing, or has none
    refine .inl ⟨?_, by simp⟩
    simp only [step] at hstep
    repeat' split at hstep
    all_goals try cases hstep
    all_goals first
      | exact h
      | exact (next_tasks h).resolve_right (by simp)

theorem send_of_step (hstep : p.step inp = some e) {m : Msg Id} (h : m ∈ e.sent) :
    Send p inp m := by
  cases inp with
  | persistElection saved =>
    simp only [step] at hstep
    split at hstep <;> try contradiction
    next el hel =>
    split at hstep <;> try contradiction
    split at hstep <;> cases hstep
    · next hs =>
      obtain ⟨q, hq, rfl⟩ := List.mem_map.mp h
      exact .voteReq el saved q hel hq hs
    · cases h
  | requestVote req =>
    simp only [step] at hstep
    split at hstep <;> cases hstep
    · cases h
    · next hg =>
      rw [List.mem_singleton.mp h]
      exact .voteDenied req (by simpa using hg)
  | persistVote req resp saved =>
    simp only [step] at hstep
    split at hstep <;> cases hstep
    next ht =>
    rw [List.mem_singleton.mp h]
    split
    · next hs => exact .voteSaved req resp saved ht hs
    · exact .voteUnsaved req resp saved ht
  | appendEntries req =>
    simp only [step] at hstep
    split at hstep <;> cases hstep
    · cases h
    · next hg =>
      rw [List.mem_singleton.mp h]
      exact .appendAnswer req (by simpa using hg)
  | persistAppend req resp saved =>
    simp only [step] at hstep
    split at hstep <;> cases hstep
    next ht =>
    rw [List.mem_singleton.mp h]
    split
    · next hs => exact .appendSaved req resp saved ht hs
    · exact .appendUnsaved req resp saved ht
  | installSnapshot req =>
    simp only [step] at hstep
    split at hstep <;> cases hstep
    · next hlt =>
      rw [List.mem_singleton.mp h]
      simp only [Node.handleInstallSnapshot, hlt, ite_true]
      exact .snapStale req hlt
    · cases h
  | persistSnapshot req resp saved =>
    simp only [step] at hstep
    split at hstep <;> cases hstep
    next ht =>
    rw [List.mem_singleton.mp h]
    exact .snapAnswer req resp saved ht
  | replicate peer =>
    simp only [step] at hstep
    split at hstep <;> try contradiction
    next hl =>
    split at hstep <;> cases hstep
    · cases h
    · next hn =>
      rw [List.mem_singleton.mp h]
      exact .appendReq peer hl.1 hl.2.1 (not_lt.mp hn)
  | snapshotSend peer idx label data =>
    simp only [step] at hstep
    split at hstep <;> try contradiction
    next ht =>
    split at hstep <;> cases hstep
    · cases h
    · rw [List.mem_singleton.mp h]
      exact .snapReq peer idx label data ht
  | endElection =>
    simp only [step] at hstep
    split at hstep <;> try contradiction
    split at hstep <;> cases hstep
    unfold endElection at h
    split at h <;> cases h
  | _ =>
    exfalso
    simp only [step] at hstep
    repeat' split at hstep
    all_goals try cases hstep
    all_goals cases h

theorem show_of_step (hstep : p.step inp = some e) {ev : Event Id} (h : ev ∈ e.events) :
    Show p inp ev := by
  cases inp with
  | endElection =>
    simp only [step] at hstep
    split at hstep <;> try contradiction
    next el hel =>
    split at hstep <;> cases hstep
    next hc =>
    unfold endElection at h
    split at h
    · next hw =>
      rw [List.mem_singleton.mp h]
      exact .becameLeader el hel hc.1 hw.1 hw.2.1 hw.2.2
    · cases h
  | applyRun =>
    simp only [step] at hstep
    split at hstep <;> cases hstep
    next idx cmd hr =>
    rw [List.mem_singleton.mp h]
    exact .applied idx cmd hr
  | applyInline idx cmd =>
    simp only [step] at hstep
    split at hstep <;> cases hstep
    next ht =>
    rw [List.mem_singleton.mp h]
    exact .appliedInline idx cmd ht
  | returnPropose idx term cmd =>
    simp only [step] at hstep
    split at hstep <;> cases hstep
    next ht =>
    rw [List.mem_singleton.mp h]
    exact .returned idx term cmd ht
  | _ =>
    exfalso
    simp only [step] at hstep
    repeat' split at hstep
    all_goals try cases hstep
    all_goals cases h

end Process

end KvStore.Raft
