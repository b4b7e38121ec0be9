import KvStore.Server.Host
import KvStore.Storage.RestoreSnapshot

/-!
# A snapshot that cannot be restored

`HandleInstallSnapshot` (pkg/raft/snapshot.go:142) moves the log, its base, `commitIndex` and
`lastApplied` to the snapshot, and then hands the data to the snapshot sink. An error of the
sink is written to the server's log and goes no further: the new state is persisted, and the
answer is the one that was prepared before the sink was called.

* `Replica.handleInstallSnapshot`: the whole call, and the sections of `Raft.Process` it
  consists of (`handleInstallSnapshot_eq_steps`).
* `handleInstallSnapshot_of_installs`: what the call answers and leaves behind does not depend
  on the outcome of the restore.
* `failed_restore_refused_iff`: on the store of the server, a failed restore stays without
  effect only if there is none: the document can be read and no write fails.
-/

namespace KvStore

open KvStore.Storage (Bytes DiskStore Document RestorePoint RestoreError)
open KvStore.Raft (Node RaftState InstallSnapshotRequest InstallSnapshotResponse Process Task)

/-- A node, its `RaftStore` and the store behind it. -/
structure Replica (Id σ : Type) where
  node : Node Id
  disk : RaftState Id
  store : σ

/-- `SnapshotSink` (pkg/raft/snapshot.go:26): the error of `ApplySnapshot` and the store it
    leaves. -/
abbrev SnapshotSink (σ ε : Type) := Bytes → σ → Option ε × σ

/-- `ApplySnapshot` of the bridge (cmd/server/snapshot_bridge.go:37). `read` is the JSON text of
    a document, and `fault` the write that fails. -/
def snapshotBridge (read : Bytes → Document) (fault : Option RestorePoint) :
    SnapshotSink DiskStore RestoreError :=
  fun data d => d.tryRestore (read data) fault

variable {Id : Type} [DecidableEq Id] {σ ε : Type}

namespace Replica

/-- `HandleInstallSnapshot` (pkg/raft/snapshot.go:142) on a node with a snapshot sink; `saved` is
    the outcome of `Save`. -/
def handleInstallSnapshot (sink : SnapshotSink σ ε) (saved : Bool) (r : Replica Id σ)
    (req : InstallSnapshotRequest Id) : InstallSnapshotResponse × Replica Id σ :=
  let locked := r.node.handleInstallSnapshot req
  if req.term < r.node.term then (locked.2.1, r)
  else
    -- an error of `ApplySnapshot` is only printed, and so is one of `persist`
    let store := if locked.2.2 then (sink req.data r.store).2 else r.store
    let persisted := locked.1.persist r.disk saved
    (locked.2.1, { node := persisted.2.1, disk := persisted.2.2, store := store })

/-- The call runs the two sections of `Raft.Process` one after the other. -/
theorem handleInstallSnapshot_eq_steps {p : Process Id} {req : InstallSnapshotRequest Id}
    (ht : ¬ req.term < p.node.term) (sink : SnapshotSink σ ε) (saved : Bool) (s : σ) :
    let r := (Replica.mk p.node p.disk s).handleInstallSnapshot sink saved req
    ∃ e e', p.step (.installSnapshot req) = some e ∧
      e.proc.step (.persistSnapshot req r.1 saved) = some e' ∧
      e'.proc.node = r.2.node ∧ e'.proc.disk = r.2.disk ∧
      e'.sent = [.snapResp e.proc.node.id req.leaderID req r.1] := by
  have hmem : Task.snapshot req (p.node.handleInstallSnapshot req).2.1 ∈
      p.tasks ++ [Task.snapshot req (p.node.handleInstallSnapshot req).2.1] := by simp
  have hinstall : p.step (.installSnapshot req) = some
      { proc := { p with
          node := (p.node.handleInstallSnapshot req).1
          tasks := p.tasks ++ [.snapshot req (p.node.handleInstallSnapshot req).2.1] } } := by
    simp only [Process.step, if_neg ht]
  dsimp only
  rw [handleInstallSnapshot]
  dsimp only
  rw [if_neg ht]
  exact ⟨_, _, hinstall, if_pos hmem, rfl, rfl, rfl⟩

/-! ## The call when the snapshot is ahead -/

/-- The call that a failed restore should be: no answer with `Success`, the log and the indices
    as they were, in memory and in the `RaftStore`, and the store still the effect of the
    commands up to `lastApplied`. -/
structure Refused (before after : Replica Id σ) (resp : InstallSnapshotResponse) : Prop where
  answer : resp.success ≠ true
  log : after.node.log = before.node.log
  base : after.node.lastIncludedIndex = before.node.lastIncludedIndex
  baseTerm : after.node.lastIncludedTerm = before.node.lastIncludedTerm
  commitIndex : after.node.commitIndex = before.node.commitIndex
  lastApplied : after.node.lastApplied = before.node.lastApplied
  savedLog : after.disk.log = before.disk.log
  savedBase : after.disk.lastIncludedIndex = before.disk.lastIncludedIndex
  savedBaseTerm : after.disk.lastIncludedTerm = before.disk.lastIncludedTerm
  /-- `effect i` is what the commands up to `i` make of the store -/
  store : ∀ effect : ℕ → σ → Prop, effect before.node.lastApplied before.store →
    effect after.node.lastApplied after.store

/-- A restore that fails, of a snapshot that is ahead of the node, is refused. -/
def FailedRestoreRefused (sink : SnapshotSink σ ε) (saved : Bool) (r : Replica Id σ)
    (req : InstallSnapshotRequest Id) : Prop :=
  Host.installs r.node req → (sink req.data r.store).1.isSome →
    Refused r (r.handleInstallSnapshot sink saved req).2 (r.handleInstallSnapshot sink saved req).1

/-- A snapshot that is ahead of the node is acknowledged and its index adopted, whatever the sink
    returns. -/
theorem handleInstallSnapshot_of_installs {r : Replica Id σ} {req : InstallSnapshotRequest Id}
    (h : Host.installs r.node req) (sink : SnapshotSink σ ε) (saved : Bool) :
    (r.handleInstallSnapshot sink saved req).1.success = true ∧
      ((r.handleInstallSnapshot sink saved req).2.node.lastApplied : ℤ) = req.lastIncludedIndex := by
  obtain ⟨ht, hla⟩ := h
  have happ := (Node.follow_quiet r.node req.term req.leaderID).fields.2.2.2.2
  have hpersist : ∀ n : Node Id, (n.persist r.disk saved).2.1.lastApplied = n.lastApplied := by
    intro n
    unfold Node.persist
    split_ifs <;> rfl
  have hlt : r.node.lastApplied < req.lastIncludedIndex.toNat := by omega
  rw [handleInstallSnapshot]
  dsimp only
  rw [if_neg (not_lt.mpr ht)]
  dsimp only
  rw [hpersist]
  simp only [Node.handleInstallSnapshot, if_neg (not_lt.mpr ht), happ, gt_iff_lt, if_pos hla,
    Node.adoptSnapshot, if_pos hlt]
  exact ⟨trivial, Int.toNat_of_nonneg (by omega)⟩

/-- No failed restore is refused. -/
theorem failedRestoreRefused_iff (sink : SnapshotSink σ ε) (saved : Bool) (r : Replica Id σ)
    (req : InstallSnapshotRequest Id) :
    FailedRestoreRefused sink saved r req ↔
      (Host.installs r.node req → (sink req.data r.store).1 = none) := by
  constructor
  · intro h hi
    by_contra herr
    have hrefused := h hi (Option.isSome_iff_ne_none.mpr herr)
    exact hrefused.answer (handleInstallSnapshot_of_installs hi sink saved).1
  · intro h hi herr
    rw [h hi] at herr
    cases herr

end Replica

/-! ## The store of the server -/

/-- When `ApplySnapshot` of the bridge returns `nil`. -/
theorem snapshotBridge_eq_none_iff (read : Bytes → Document) (fault : Option RestorePoint)
    (data : Bytes) (d : DiskStore) :
    (snapshotBridge read fault data d).1 = none ↔
      (read data).decode ≠ none ∧ Storage.fails d.cipher fault = false := by
  rw [snapshotBridge]
  cases hdec : (read data).decode with
  | none => simp [DiskStore.tryRestore, hdec]
  | some fresh =>
    obtain ⟨herr, -⟩ := Storage.tryRestore_spec (t := 0) (d := d) hdec fault
    rw [← herr]
    simp

/-- For every node, every store and every request: a failed restore is refused only in the sense
    that none fails. -/
theorem failed_restore_refused_iff (read : Bytes → Document) (fault : Option RestorePoint)
    (saved : Bool) (r : Replica Id DiskStore) (req : InstallSnapshotRequest Id) :
    r.FailedRestoreRefused (snapshotBridge read fault) saved req ↔
      (Host.installs r.node req →
        (read req.data).decode ≠ none ∧ Storage.fails r.store.cipher fault = false) := by
  rw [Replica.failedRestoreRefused_iff, snapshotBridge_eq_none_iff]

/-- A new node and its empty store. -/
def newReplica : Replica ℕ DiskStore := ⟨Node.new 1 [2, 3], .empty, .new none⟩

/-- The leader sends a document up to 5 that cannot be read. The node answers with `Success` and
    has saved the base 5; its store is as empty as before. -/
theorem failed_restore_acknowledged :
    ¬ newReplica.FailedRestoreRefused (snapshotBridge (fun _ => .malformed) none) true
        { term := 1, leaderID := 2, lastIncludedIndex := 5, lastIncludedTerm := 1, data := [] } := by
  intro h
  exact (h (by decide) rfl).answer rfl

end KvStore
