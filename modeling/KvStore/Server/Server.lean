import KvStore.Server.Host
import KvStore.Storage.Execution
import KvStore.Storage.Replicas

/-!
# A server: a raft node on its store

`cmd/server/main.go` runs a raft node (`Raft.Process`) whose state machine is a
`DiskStore`. The two keep their progress in different files: the node restarts from its
`RaftStore` with `lastApplied` at the compaction base (`SetRaftStore`,
pkg/raft/persistence.go:183), the store from its log with everything it had executed
(`openDiskStore`, pkg/storage/wal.go:458).

`Server.step` executes one critical section of the node, the restore of an installed
snapshot, one action of the store's own goroutines, or a crash and restart of both.
Readings of the clock never go back.

What "each command once" means is recorded on the way: `done` has, for every index that the
store has reached, the command and the reading of the execution with which it reached the
index for the first time. Of the commands behind a snapshot it has the executions of the
server that took it.
-/

namespace KvStore.Storage

/-- The reading at which the command takes effect: `Expire` looks a second time. -/
def Command.reading (cmd : Command) (now later : Int64) : Int64 :=
  if cmd.op = .expire then later else now

end KvStore.Storage

namespace KvStore

open KvStore.Storage (Bytes Command DiskStore MemStore Nonce Record AtRestCipher openDiskStore)
open KvStore.Raft (Process Input ApplyPhase InstallSnapshotRequest InstallSnapshotResponse)

variable {Id : Type} [DecidableEq Id]

/-- The node, its store, the installed snapshots whose data has not been restored yet, and the
    last reading of the clock. On the side: the last execution of a command; the executions that
    have been counted; the records of `wal.log`, each with the reading at which the store has
    executed it last. -/
structure Server (Id : Type) where
  proc : Process Id
  store : DiskStore
  restores : List (InstallSnapshotRequest Id)
  clock : Int64
  last : Option (Command × Int64)
  done : List (Command × Int64)
  trail : List (Record × Int64)

/-- What a server may do next, with the readings and the nonce it takes. -/
inductive Act (Id : Type) where
  | raft (inp : Input Id)
  /-- `applyLoop` executes the command it has picked (pkg/raft/apply.go:163). -/
  | apply (nonce : Nonce) (now later : Int64)
  /-- `propose` on a node without peers executes its command (pkg/raft/leader.go:142). -/
  | inline (index : ℕ) (cmd : Command) (nonce : Nonce) (now later : Int64)
  /-- The section of `HandleInstallSnapshot` under `n.mu` (pkg/raft/snapshot.go:143). -/
  | install (req : InstallSnapshotRequest Id)
  /-- Its section under `applyMu` (pkg/raft/snapshot.go:187); on the side, the executions behind
      the data. -/
  | restore (req : InstallSnapshotRequest Id) (calls : List (Command × Int64))
  /-- Its last section, `persist` (pkg/raft/snapshot.go:197). -/
  | persist (req : InstallSnapshotRequest Id) (resp : InstallSnapshotResponse) (saved : Bool)
  | get (key : Bytes) (now later : Int64)
  /-- `expireLoop`. -/
  | sweep (now : Int64)
  /-- `Compact`, by `startSnapshotCompactor` or by `snapshotLoop`. -/
  | compact
  /-- A crash and a restart of the process. -/
  | restart (now : Int64)

namespace Server

/-- A server that has just started on an empty data directory. -/
def init (id : Id) (peers : List Id) (cipher : Option AtRestCipher) (now : Int64) : Server Id :=
  { proc := Process.init id peers, store := DiskStore.new cipher, restores := [], clock := now
    last := none, done := [], trail := [] }

/-- `applyMu` is held by the apply loop. -/
def applying (s : Server Id) : Bool :=
  match s.proc.apply with
  | .running _ _ => true
  | .finished _ => true
  | _ => false

/-- The counted executions after `lastApplied` has been raised. -/
def counted (s : Server Id) : List (Command × Int64) :=
  match s.proc.apply with
  | .finished idx => if idx = s.done.length + 1 then s.done ++ s.last.toList else s.done
  | _ => s.done

/-- The records of the log after a command has been executed. -/
def logged (s : Server Id) (cmd : Command) (now later : Int64) : List (Record × Int64) :=
  s.trail ++ ((cmd.logged now (s.store.mem.cell cmd.key)).map
    fun r => (r, cmd.reading now later)).toList

/-- A command is executed on the store. -/
def execute (s : Server Id) (inp : Input Id) (cmd : Command) (nonce : Nonce) (now later : Int64) :
    Option (Server Id) :=
  if s.clock ≤ now ∧ now ≤ later then
    (s.proc.step inp).map fun e =>
      { s with
        proc := e.proc, store := s.store.applyCmd cmd nonce now later, clock := later
        last := some (cmd, cmd.reading now later), trail := s.logged cmd now later }
  else none

/-- The data of an installed snapshot replaces the store; data that cannot be read does not. -/
def restored (s : Server Id) (req : InstallSnapshotRequest Id) (calls : List (Command × Int64)) :
    Option (List (Bytes × Storage.Entry)) → Server Id
  | some data =>
    { s with
      store := s.store.restoreSnapshot data, restores := s.restores.erase req, trail := []
      done := calls ++ s.done.drop calls.length }
  | none => { s with restores := s.restores.erase req }

/-- One step. `none` means that it cannot happen in this state. `decode` reads the JSON text of a
    snapshot, which the model of the store does not spell out. -/
def step (decode : Bytes → Option (List (Bytes × Storage.Entry))) (s : Server Id) :
    Act Id → Option (Server Id)
  | .raft inp =>
    if storeless inp then
      (s.proc.step inp).map fun e =>
        { s with proc := e.proc, done := if inp = .applyDone then s.counted else s.done }
    else none
  | .apply nonce now later =>
    match s.proc.apply with
    | .running _ cmd => s.execute .applyRun cmd nonce now later
    | _ => none
  | .inline index cmd nonce now later => s.execute (.applyInline index cmd) cmd nonce now later
  | .install req =>
    (s.proc.step (.installSnapshot req)).map fun e =>
      { s with
        proc := e.proc
        restores := if Host.installs s.proc.node req then s.restores ++ [req] else s.restores }
  | .restore req calls =>
    if req ∈ s.restores ∧ s.applying = false then some (s.restored req calls (decode req.data))
    else none
  | .persist req resp saved =>
    -- the restore of the same call has come first
    if s.restores.count req < s.proc.tasks.count (.snapshot req resp) then
      (s.proc.step (.persistSnapshot req resp saved)).map fun e => { s with proc := e.proc }
    else none
  | .get key now later =>
    if s.clock ≤ now ∧ now ≤ later then
      some { s with store := s.store.step (.get key now later), clock := later }
    else none
  | .sweep now =>
    if s.clock ≤ now then some { s with store := s.store.step (.sweep now), clock := now } else none
  | .compact => some { s with store := s.store.step .compact, trail := [] }
  | .restart now =>
    if s.clock ≤ now then
      match openDiskStore s.store.cipher s.store.snapshot s.store.wal now with
      | .ok d =>
        -- the whole log has been executed at the reading of the restart
        some { s with
          proc := s.proc.restart, store := d, restores := [], clock := now, last := none
          trail := s.trail.map fun p => (p.1, now) }
      -- the server does not start
      | .error _ => none
    else none

section Reach

variable {decode : Bytes → Option (List (Bytes × Storage.Entry))}

/-- `s` is reached from `s₀` by a run whose steps all meet `ok` in the state before them. -/
inductive Reachable (decode : Bytes → Option (List (Bytes × Storage.Entry)))
    (ok : Server Id → Act Id → Prop) (s₀ : Server Id) : Server Id → Prop
  | init : Reachable decode ok s₀ s₀
  | step {s s' : Server Id} {a : Act Id} :
      Reachable decode ok s₀ s → ok s a → s.step decode a = some s' → Reachable decode ok s₀ s'

/-- The state after a run all of whose steps meet `ok` in the state before them. -/
def run (decode : Bytes → Option (List (Bytes × Storage.Entry))) (ok : Server Id → Act Id → Prop)
    [∀ s a, Decidable (ok s a)] (s : Server Id) : List (Act Id) → Option (Server Id)
  | [] => some s
  | a :: acts => if ok s a then (s.step decode a).bind fun s' => s'.run decode ok acts else none

theorem Reachable.run {ok : Server Id → Act Id → Prop} [∀ s a, Decidable (ok s a)]
    {s₀ s s' : Server Id} (h : Reachable decode ok s₀ s) {acts : List (Act Id)}
    (hr : s.run decode ok acts = some s') : Reachable decode ok s₀ s' := by
  induction acts generalizing s with
  | nil =>
    obtain rfl := Option.some.inj hr
    exact h
  | cons a acts ih =>
    rw [Server.run] at hr
    split_ifs at hr with hok
    obtain ⟨t, ht, hr⟩ := Option.bind_eq_some_iff.mp hr
    exact ih (.step h hok ht) hr

theorem Reachable.mono {ok ok' : Server Id → Act Id → Prop} (hok : ∀ s a, ok s a → ok' s a)
    {s₀ s : Server Id} (h : Reachable decode ok s₀ s) : Reachable decode ok' s₀ s := by
  induction h with
  | init => exact .init
  | step _ ha hs ih => exact ih.step (hok _ _ ha) hs

end Reach

end Server

end KvStore
