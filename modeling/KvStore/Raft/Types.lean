import KvStore.Storage.Engine

/-!
# Raft state, messages and role transitions

Model of `pkg/raft/types.go`, of the follower-side log handling
(`pkg/raft/follower.go`), of the commit rule (`pkg/raft/commit.go`) and of the
durable state (`pkg/raft/persistence.go`).

* A node identifier (an address string in the source) is only ever compared
  for equality, so it is a type parameter `Id`.
* Terms are `ℤ`: `logTermAt` returns `-1` for an unknown index and that value
  can reach a message. The integers of a request are `ℤ` as well, since a
  request is decoded from the wire.
* The indices a node holds (`lastIncludedIndex`, `commitIndex`, `lastApplied`,
  `nextIndex`, `matchIndex`) start at `0` and never become negative; they are `ℕ`.
* `n.log[:k]` is `List.take`, `n.log[k:]` is `List.drop`.
-/

namespace KvStore.Raft

open KvStore.Storage (Command)

/-- The clusters of the concrete runs have three members; their numerals rest on this instance. -/
instance neZeroThree : NeZero 3 := ⟨by decide⟩

/-- `Role` (pkg/raft/types.go:26). -/
inductive Role where
  | follower
  | candidate
  | leader
  deriving DecidableEq, Repr

/-- `Entry` (pkg/raft/types.go:37). -/
structure Entry where
  term : ℤ
  cmd : Command
  deriving DecidableEq, Repr

/-- `VoteRequest` (pkg/raft/types.go:42). -/
structure VoteRequest (Id : Type) where
  term : ℤ
  candidateID : Id
  lastLogIndex : ℤ
  lastLogTerm : ℤ
  deriving DecidableEq, Repr

/-- `VoteResponse` (pkg/raft/types.go:49). -/
structure VoteResponse where
  term : ℤ
  voteGranted : Bool
  deriving DecidableEq, Repr

/-- `AppendEntriesRequest` (pkg/raft/types.go:54). -/
structure AppendEntriesRequest (Id : Type) where
  term : ℤ
  leaderID : Id
  prevLogIndex : ℤ
  prevLogTerm : ℤ
  entries : List Entry
  leaderCommit : ℤ
  deriving DecidableEq, Repr

/-- `AppendEntriesResponse` (pkg/raft/types.go:63). -/
structure AppendEntriesResponse where
  term : ℤ
  success : Bool
  deriving DecidableEq, Repr

/-- `InstallSnapshotRequest` (pkg/raft/types.go:71). -/
structure InstallSnapshotRequest (Id : Type) where
  term : ℤ
  leaderID : Id
  lastIncludedIndex : ℤ
  lastIncludedTerm : ℤ
  data : Storage.Bytes
  deriving DecidableEq, Repr

/-- `InstallSnapshotResponse` (pkg/raft/types.go:79). -/
structure InstallSnapshotResponse where
  term : ℤ
  success : Bool
  deriving DecidableEq, Repr

/-- `replicationState` (pkg/raft/leader.go:22). A Go map with a zero default
    is a total function. -/
structure ReplicationState (Id : Type) where
  nextIndex : Id → ℕ
  matchIndex : Id → ℕ
  inFlight : Id → Bool
  backoff : Id → ℕ

/-- `Node` (pkg/raft/types.go:86): the protocol state guarded by `n.mu`.
    The collaborators (`transport`, `store`, `raftStore`, `snapshotter`,
    `snapshotSink`, `applyTr`), the channels and the clock `lastQuorumAck` are
    not part of it. -/
structure Node (Id : Type) where
  id : Id
  peers : List Id
  role : Role
  term : ℤ
  votedFor : Option Id
  leaderID : Option Id
  log : List Entry
  commitIndex : ℕ
  lastApplied : ℕ
  repl : Option (ReplicationState Id)
  dirty : Bool
  lastIncludedIndex : ℕ
  lastIncludedTerm : ℤ

/-- `RaftState` (pkg/raft/persistence.go:22), what a `RaftStore` holds. -/
structure RaftState (Id : Type) where
  term : ℤ
  votedFor : Option Id
  log : List Entry
  lastIncludedIndex : ℕ
  lastIncludedTerm : ℤ
  deriving DecidableEq

/-- What `Load` returns before the first `Save`: the zero `RaftState`
    (pkg/raft/persistence.go:83). -/
def RaftState.empty {Id : Type} : RaftState Id :=
  { term := 0, votedFor := none, log := [], lastIncludedIndex := 0, lastIncludedTerm := 0 }

variable {Id : Type}

namespace Node

/-- `NewNode` (pkg/raft/types.go:134): a node without peers starts as leader. -/
def new (id : Id) (peers : List Id) : Node Id :=
  { id := id, peers := peers
    role := if peers = [] then .leader else .follower
    term := 0, votedFor := none
    leaderID := if peers = [] then some id else none
    log := [], commitIndex := 0, lastApplied := 0, repl := none, dirty := false
    lastIncludedIndex := 0, lastIncludedTerm := 0 }

/-! ## The log and its compaction base -/

/-- `lastLogIndex` (pkg/raft/types.go:181). -/
def lastLogIndex (n : Node Id) : ℕ := n.lastIncludedIndex + n.log.length

/-- `lastLogTerm` (pkg/raft/types.go:186). -/
def lastLogTerm (n : Node Id) : ℤ :=
  match n.log.getLast? with
  | some e => e.term
  | none => n.lastIncludedTerm

/-- `firstIndex` (pkg/raft/types.go:195). -/
def firstIndex (n : Node Id) : ℕ := n.lastIncludedIndex + 1

/-- `logOffset` (pkg/raft/types.go:201); the `-1` of the source is `none`. -/
def logOffset (n : Node Id) (index : ℤ) : Option ℕ :=
  let off := index - n.lastIncludedIndex - 1
  if off < 0 ∨ off ≥ n.log.length then none else some off.toNat

/-- `entryAt` (pkg/raft/types.go:210). -/
def entryAt (n : Node Id) (index : ℤ) : Option Entry :=
  (n.logOffset index).bind fun off => n.log[off]?

/-- `logTermAt` (pkg/raft/types.go:219). -/
def logTermAt (n : Node Id) (index : ℤ) : ℤ :=
  if index = 0 then 0
  else if index = n.lastIncludedIndex then n.lastIncludedTerm
  else match n.entryAt index with
    | some e => e.term
    | none => -1

/-! ## Role transitions -/

/-- `becomeCandidate` (pkg/raft/types.go:234). -/
def becomeCandidate (n : Node Id) : Node Id :=
  { n with role := .candidate, term := n.term + 1, votedFor := some n.id, leaderID := none
           dirty := true }

/-- `becomeLeader` (pkg/raft/types.go:244). -/
def becomeLeader (n : Node Id) : Node Id := { n with role := .leader, leaderID := some n.id }

/-- `becomeFollower` (pkg/raft/types.go:251): every call clears the vote. -/
def becomeFollower (n : Node Id) (term : ℤ) (leaderID : Option Id) : Node Id :=
  { n with role := .follower, term := term, votedFor := none, leaderID := leaderID, dirty := true }

/-! ## Durable state -/

/-- The `RaftState` literal `persist` saves (pkg/raft/persistence.go:217). -/
def raftState (n : Node Id) : RaftState Id :=
  { term := n.term, votedFor := n.votedFor, log := n.log
    lastIncludedIndex := n.lastIncludedIndex, lastIncludedTerm := n.lastIncludedTerm }

/-- `persist` (pkg/raft/persistence.go:211) on a node with a `RaftStore` that
    holds `disk`; `saved` is the outcome of `Save` should it be called. Returns
    whether `persist` returned `nil`, the node and the store. -/
def persist (n : Node Id) (disk : RaftState Id) (saved : Bool) : Bool × Node Id × RaftState Id :=
  if n.dirty = false then (true, n, disk)
  else if saved then (true, { n with dirty := false }, n.raftState)
  else (false, n, disk)

/-- `SetRaftStore` (pkg/raft/persistence.go:183) when `Load` returns `st`. -/
def setRaftStore (n : Node Id) (st : RaftState Id) : Node Id :=
  { n with
    term := st.term, votedFor := st.votedFor, log := st.log
    lastIncludedIndex := st.lastIncludedIndex, lastIncludedTerm := st.lastIncludedTerm
    commitIndex := if n.commitIndex < st.lastIncludedIndex then st.lastIncludedIndex
      else n.commitIndex
    lastApplied := if n.lastApplied < st.lastIncludedIndex then st.lastIncludedIndex
      else n.lastApplied }

/-! ## Follower-side log handling -/

/-- `checkPrevLog` (pkg/raft/follower.go:11). -/
def checkPrevLog (n : Node Id) (prevLogIndex prevLogTerm : ℤ) : Bool :=
  if prevLogIndex > n.lastLogIndex then false
  else if prevLogIndex > 0 ∧ n.logTermAt prevLogIndex ≠ prevLogTerm then false
  else true

/-- The `for i, e := range req.Entries` loop of `mergeEntries`
    (pkg/raft/follower.go:38) from the entry at raft index `idx` on; the last
    argument is `req.Entries[i:]`. Returns the new log and `changed`. -/
def mergeLoop (n : Node Id) (changed : Bool) : ℤ → List Entry → List Entry × Bool
  | _, [] => (n.log, changed)
  | idx, e :: rest =>
    -- already covered by the compaction base
    if idx ≤ n.lastIncludedIndex then mergeLoop n changed (idx + 1) rest
    else if idx ≤ n.lastLogIndex then
      if n.logTermAt idx = e.term then mergeLoop n changed (idx + 1) rest
      else (n.log.take (idx - n.lastIncludedIndex - 1).toNat ++ e :: rest, true)
    else (n.log ++ e :: rest, true)

/-- The first statement of `mergeEntries` (pkg/raft/follower.go:30): the suffix
    beyond `end` is dropped, whatever its terms. -/
def dropSuffix (n : Node Id) (stop : ℤ) : Node Id :=
  if stop < n.lastLogIndex then { n with log := n.log.take (stop - n.lastIncludedIndex).toNat }
  else n

/-- `mergeEntries` (pkg/raft/follower.go:27). -/
def mergeEntries (n : Node Id) (req : AppendEntriesRequest Id) : Node Id × Bool :=
  let stop := req.prevLogIndex + req.entries.length
  let merged := mergeLoop (n.dropSuffix stop) (decide (stop < n.lastLogIndex))
    (req.prevLogIndex + 1) req.entries
  ({ n with log := merged.1 }, merged.2)

end Node

/-! ## The commit rule -/

/-- `majority` (pkg/raft/election.go:176). -/
def majority (peers : List Id) : ℕ := (peers.length + 1) / 2 + 1

namespace Node

/-- `replState` (pkg/raft/leader.go:31): the bookkeeping, created on first use. -/
def replState [DecidableEq Id] (n : Node Id) : ReplicationState Id :=
  match n.repl with
  | some st => st
  | none =>
    { nextIndex := fun p => if p ∈ n.peers then n.lastLogIndex + 1 else 0
      matchIndex := fun _ => 0, inFlight := fun _ => false, backoff := fun _ => 0 }

/-- The node after a call of `replState`. -/
def withRepl [DecidableEq Id] (n : Node Id) : Node Id := { n with repl := some n.replState }

/-- The value `match[len(match)-majority(n.peers)]` of `maybeCommit`
    (pkg/raft/commit.go:29). -/
def threshold [DecidableEq Id] (n : Node Id) : ℕ :=
  let reached := n.lastLogIndex :: n.peers.map n.replState.matchIndex
  (reached.insertionSort (· ≤ ·)).getD (reached.length - majority n.peers) 0

/-- The commit index `maybeCommit` leaves behind (pkg/raft/commit.go:13). -/
def commitTarget [DecidableEq Id] (n : Node Id) : ℕ :=
  if n.role ≠ .leader then n.commitIndex
  else if n.threshold ≤ n.commitIndex then n.commitIndex
  -- here `threshold > commitIndex ≥ 0`, so the `threshold > 0` test always passes
  else match n.entryAt n.threshold with
    | none => n.commitIndex
    | some e => if e.term ≠ n.term then n.commitIndex else n.threshold

/-- `maybeCommit` (pkg/raft/commit.go:13). -/
def maybeCommit [DecidableEq Id] (n : Node Id) : Node Id :=
  { n with
    repl := if n.role ≠ .leader then n.repl else some n.replState
    commitIndex := n.commitTarget }

end Node

end KvStore.Raft
