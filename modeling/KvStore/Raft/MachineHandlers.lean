import KvStore.Machine.Slice
import KvStore.Raft.Handlers

/-!
# The inbound handlers on machine integers

Model of the same code as `KvStore.Raft.Types` and `KvStore.Raft.Handlers`, with the integers and
the slices of the source: `pkg/raft/types.go`, `pkg/raft/follower.go`, and the inbound handlers of
`pkg/raft/node.go` and `pkg/raft/snapshot.go`.

* An `int` is an `Int64` whose sums and differences wrap; `n.log` is a `Slice` with its capacity.
* Every slice operation can fail. One that is out of range panics with `n.mu` held, so it leaves the
  node locked for good: a run ends there.
* What the runtime does when `append` needs a new array, and whether the store's `Save` succeeds,
  are inputs of a call (`Environment`).
-/

namespace KvStore.Raft.Machine

open KvStore.Machine
open KvStore.Storage (Command)

/-- `Entry` (pkg/raft/types.go:37). -/
structure Entry where
  term : Int64
  cmd : Command
  deriving DecidableEq, Repr

/-- The zero value of `Entry`, which fills the spare cells of a new array. -/
def Entry.zero : Entry := { term := 0, cmd := { op := .other 0, key := [] } }

/-- `VoteRequest` (pkg/raft/types.go:42). -/
structure VoteRequest (Id : Type) where
  term : Int64
  candidateID : Id
  lastLogIndex : Int64
  lastLogTerm : Int64

/-- `VoteResponse` (pkg/raft/types.go:49). -/
structure VoteResponse where
  term : Int64
  voteGranted : Bool
  deriving DecidableEq, Repr

/-- `AppendEntriesRequest` (pkg/raft/types.go:54). -/
structure AppendEntriesRequest (Id : Type) where
  term : Int64
  leaderID : Id
  prevLogIndex : Int64
  prevLogTerm : Int64
  entries : Slice Entry
  leaderCommit : Int64

/-- `AppendEntriesResponse` (pkg/raft/types.go:63). -/
structure AppendEntriesResponse where
  term : Int64
  success : Bool
  deriving DecidableEq, Repr

/-- `InstallSnapshotRequest` (pkg/raft/types.go:71). -/
structure InstallSnapshotRequest (Id : Type) where
  term : Int64
  leaderID : Id
  lastIncludedIndex : Int64
  lastIncludedTerm : Int64
  data : Storage.Bytes

/-- `InstallSnapshotResponse` (pkg/raft/types.go:79). -/
structure InstallSnapshotResponse where
  term : Int64
  success : Bool
  deriving DecidableEq, Repr

/-- The fields of `Node` (pkg/raft/types.go:86) that the inbound handlers use. -/
structure Node (Id : Type) where
  id : Id
  peers : List Id
  role : Role
  term : Int64
  votedFor : Option Id
  leaderID : Option Id
  log : Slice Entry
  commitIndex : Int64
  lastApplied : Int64
  dirty : Bool
  lastIncludedIndex : Int64
  lastIncludedTerm : Int64
  deriving DecidableEq

/-- `RaftState` (pkg/raft/persistence.go:22); `Save` gets a copy of the log. -/
structure RaftState (Id : Type) where
  term : Int64
  votedFor : Option Id
  log : List Entry
  lastIncludedIndex : Int64
  lastIncludedTerm : Int64
  deriving DecidableEq

variable {Id : Type}

namespace Node

/-- `NewNode` (pkg/raft/types.go:134): a node without peers starts as leader. -/
def new (id : Id) (peers : List Id) : Node Id :=
  { id := id, peers := peers
    role := if peers = [] then .leader else .follower
    term := 0, votedFor := none
    leaderID := if peers = [] then some id else none
    log := .nil, commitIndex := 0, lastApplied := 0, dirty := false
    lastIncludedIndex := 0, lastIncludedTerm := 0 }

/-! ## The log and its compaction base -/

/-- `lastLogIndex` (pkg/raft/types.go:181). -/
def lastLogIndex (n : Node Id) : Int64 := n.lastIncludedIndex + n.log.len

/-- `lastLogTerm` (pkg/raft/types.go:186). -/
def lastLogTerm (n : Node Id) : Except Fault Int64 :=
  if n.log.len > 0 then Entry.term <$> n.log.get (n.log.len - 1)
  else pure n.lastIncludedTerm

/-- `logOffset` (pkg/raft/types.go:201). -/
def logOffset (n : Node Id) (index : Int64) : Int64 :=
  let off := index - n.lastIncludedIndex - 1
  if off < 0 ∨ off ≥ n.log.len then -1 else off

/-- `entryAt` (pkg/raft/types.go:210). -/
def entryAt (n : Node Id) (index : Int64) : Except Fault (Option Entry) :=
  if n.logOffset index ≥ 0 then some <$> n.log.get (n.logOffset index) else pure none

/-- `logTermAt` (pkg/raft/types.go:219). -/
def logTermAt (n : Node Id) (index : Int64) : Except Fault Int64 :=
  if index = 0 then pure 0
  else if index = n.lastIncludedIndex then pure n.lastIncludedTerm
  else (fun e => (e.map Entry.term).getD (-1)) <$> n.entryAt index

/-- `becomeFollower` (pkg/raft/types.go:251). -/
def becomeFollower (n : Node Id) (term : Int64) (leaderID : Option Id) : Node Id :=
  { n with role := .follower, term := term, votedFor := none, leaderID := leaderID, dirty := true }

/-! ## Follower-side log handling -/

/-- `checkPrevLog` (pkg/raft/follower.go:11). -/
def checkPrevLog (n : Node Id) (prevLogIndex prevLogTerm : Int64) : Except Fault Bool :=
  if prevLogIndex > n.lastLogIndex then pure false
  else if prevLogIndex > 0 then
    (fun term => decide (term = prevLogTerm)) <$> n.logTermAt prevLogIndex
  else pure true

/-- The first statement of `mergeEntries` (pkg/raft/follower.go:30), and `changed` after it. -/
def dropSuffix (n : Node Id) (stop : Int64) : Except Fault (Node Id × Bool) :=
  if stop < n.lastLogIndex then
    let keep := stop - n.lastIncludedIndex
    (fun log => ({ n with log := log }, true)) <$> n.log.upTo (if keep < 0 then 0 else keep)
  else pure (n, false)

/-- The loop of `mergeEntries` (pkg/raft/follower.go:38) from the entry at raft index `idx` on; the
    last argument is `req.Entries[i:]`. Returns the new log and `changed`. -/
def mergeLoop (n : Node Id) (room : Option ℕ) (changed : Bool) :
    Int64 → List Entry → Except Fault (Slice Entry × Bool)
  | _, [] => pure (n.log, changed)
  | idx, e :: rest =>
    -- already covered by the compaction base
    if idx ≤ n.lastIncludedIndex then n.mergeLoop room changed (idx + 1) rest
    else if idx ≤ n.lastLogIndex then do
      let term ← n.logTermAt idx
      if term = e.term then n.mergeLoop room changed (idx + 1) rest
      else do
        let kept ← n.log.upTo (idx - n.lastIncludedIndex - 1)
        (fun log => (log, true)) <$> kept.append .zero (e :: rest) room
    else (fun log => (log, true)) <$> n.log.append .zero (e :: rest) room

/-- `mergeEntries` (pkg/raft/follower.go:27). -/
def mergeEntries (n : Node Id) (room : Option ℕ) (req : AppendEntriesRequest Id) :
    Except Fault (Node Id × Bool) := do
  let cut ← n.dropSuffix (req.prevLogIndex + req.entries.len)
  let merged ← cut.1.mergeLoop room cut.2 (req.prevLogIndex + 1) req.entries.elems
  pure ({ cut.1 with log := merged.1 }, merged.2)

/-! ## The locked part of each handler -/

section

variable [DecidableEq Id]

/-- `notVotedYet && logFresh` of `HandleRequestVote` (pkg/raft/node.go:51). -/
def grants (n : Node Id) (req : VoteRequest Id) : Except Fault Bool :=
  (fun lastLogTerm =>
    decide ((n.votedFor = none ∨ n.votedFor = some req.candidateID) ∧
      (req.lastLogTerm > lastLogTerm ∨
        (req.lastLogTerm = lastLogTerm ∧ req.lastLogIndex ≥ n.lastLogIndex)))) <$> n.lastLogTerm

/-- The step-down of `HandleRequestVote` on a higher term (pkg/raft/node.go:47). -/
def adoptTerm (n : Node Id) (term : Int64) : Node Id :=
  if term > n.term then n.becomeFollower term none else n

/-- The locked part of `HandleRequestVote` (pkg/raft/node.go:40). -/
def handleRequestVote (n : Node Id) (req : VoteRequest Id) :
    Except Fault (Node Id × VoteResponse) :=
  if req.term < n.term then pure (n, ⟨n.term, false⟩)
  else
    let n := n.adoptTerm req.term
    (fun granted =>
      if granted then
        ({ n with votedFor := some req.candidateID, dirty := true }, ⟨n.term, true⟩)
      else (n, ⟨n.term, false⟩)) <$> n.grants req

end

/-- The prologue shared by `HandleAppendEntries` (pkg/raft/node.go:94) and `HandleInstallSnapshot`
    (pkg/raft/snapshot.go:150). -/
def follow (n : Node Id) (term : Int64) (leader : Id) : Node Id :=
  if term > n.term ∨ n.role ≠ .follower then n.becomeFollower term (some leader)
  else { n with leaderID := some leader }

/-- The commit-index advance of `HandleAppendEntries` (pkg/raft/node.go:111). -/
def advanceCommit (n : Node Id) (leaderCommit : Int64) : Node Id :=
  { n with
    commitIndex := if leaderCommit < n.lastLogIndex then leaderCommit else n.lastLogIndex
    dirty := true }

/-- What `HandleAppendEntries` does after `mergeEntries` (pkg/raft/node.go:107): the node, the
    response, and whether `persist` runs before the response is returned. -/
def commitMerged (n : Node Id) (merged : Bool) (leaderCommit : Int64) :
    Node Id × AppendEntriesResponse × Bool :=
  let n := if merged then { n with dirty := true } else n
  if leaderCommit > n.commitIndex then (n.advanceCommit leaderCommit, ⟨n.term, true⟩, true)
  else (n, ⟨n.term, true⟩, merged)

/-- The locked part of `HandleAppendEntries` (pkg/raft/node.go:86). -/
def handleAppendEntries (n : Node Id) (room : Option ℕ) (req : AppendEntriesRequest Id) :
    Except Fault (Node Id × AppendEntriesResponse × Bool) :=
  if req.term < n.term then pure (n, ⟨n.term, false⟩, false)
  else
    let n := n.follow req.term req.leaderID
    do
      let accepted ← n.checkPrevLog req.prevLogIndex req.prevLogTerm
      if accepted then
        (fun m => m.1.commitMerged m.2 req.leaderCommit) <$> n.mergeEntries room req
      else pure (n, ⟨n.term, false⟩, false)

/-- The adoption of a snapshot's base by `HandleInstallSnapshot` (pkg/raft/snapshot.go:165). -/
def adoptSnapshot (n : Node Id) (req : InstallSnapshotRequest Id) : Except Fault (Node Id) :=
  let drop := req.lastIncludedIndex - n.lastIncludedIndex
  (fun log =>
    { n with
      log := log
      lastIncludedIndex := req.lastIncludedIndex, lastIncludedTerm := req.lastIncludedTerm
      commitIndex := if n.commitIndex < req.lastIncludedIndex then req.lastIncludedIndex
        else n.commitIndex
      lastApplied := if n.lastApplied < req.lastIncludedIndex then req.lastIncludedIndex
        else n.lastApplied
      dirty := true }) <$> n.log.dropFrom (if drop > n.log.len then n.log.len else drop)

/-- The locked part of `HandleInstallSnapshot` (pkg/raft/snapshot.go:142): the node, the response,
    and `installed`. -/
def handleInstallSnapshot (n : Node Id) (req : InstallSnapshotRequest Id) :
    Except Fault (Node Id × InstallSnapshotResponse × Bool) :=
  if req.term < n.term then pure (n, ⟨n.term, false⟩, false)
  else
    let n := n.follow req.term req.leaderID
    if req.lastIncludedIndex > n.lastApplied then
      (fun m => (m, ⟨n.term, true⟩, true)) <$> n.adoptSnapshot req
    else pure (n, ⟨n.term, true⟩, false)

end Node

/-! ## Serving requests -/

/-- A request of a peer (pkg/raft/transport_http.go:76). -/
inductive Request (Id : Type) where
  | vote (req : VoteRequest Id)
  | append (req : AppendEntriesRequest Id)
  | snapshot (req : InstallSnapshotRequest Id)

/-- The answer to a request. -/
inductive Response where
  | vote (resp : VoteResponse)
  | append (resp : AppendEntriesResponse)
  | snapshot (resp : InstallSnapshotResponse)
  deriving DecidableEq, Repr

/-- What a call finds: how many spare cells a new array gets, if there is memory for one, and
    whether a `Save` succeeds. -/
structure Environment where
  room : Option ℕ
  saved : Bool

/-- A node and what its `RaftStore` holds; none if there is no store. -/
structure Host (Id : Type) where
  node : Node Id
  disk : Option (RaftState Id)
  deriving DecidableEq

namespace Host

/-- `persist` (pkg/raft/persistence.go:211), and whether it returns nil. -/
def persist (h : Host Id) (saved : Bool) : Host Id × Bool :=
  if h.disk.isNone ∨ h.node.dirty = false then (h, true)
  else if saved then
    ({ node := { h.node with dirty := false }
       disk := some
        { term := h.node.term, votedFor := h.node.votedFor, log := h.node.log.elems
          lastIncludedIndex := h.node.lastIncludedIndex
          lastIncludedTerm := h.node.lastIncludedTerm } }, true)
  else (h, false)

variable [DecidableEq Id]

/-- One request, from the decoded value to the response. A vote and a log change count only once
    they are saved; a snapshot is acknowledged even if `persist` fails. -/
def serve (h : Host Id) (env : Environment) : Request Id → Except Fault (Host Id × Response)
  | .vote req =>
    (fun r =>
      if r.2.voteGranted then
        let p := persist { h with node := r.1 } env.saved
        (p.1, .vote (if p.2 then r.2 else ⟨r.1.term, false⟩))
      else ({ h with node := r.1 }, .vote r.2)) <$> h.node.handleRequestVote req
  | .append req =>
    (fun r =>
      if r.2.2 then
        let p := persist { h with node := r.1 } env.saved
        (p.1, .append (if p.2 then r.2.1 else ⟨r.1.term, false⟩))
      else ({ h with node := r.1 }, .append r.2.1)) <$> h.node.handleAppendEntries env.room req
  | .snapshot req =>
    (fun r =>
      if r.2.1.success then ((persist { h with node := r.1 } env.saved).1, .snapshot r.2.1)
      else ({ h with node := r.1 }, .snapshot r.2.1)) <$> h.node.handleInstallSnapshot req

/-- A node that has just been made, and its store. -/
def fresh (id : Id) (peers : List Id) (disk : Option (RaftState Id)) : Host Id :=
  { node := .new id peers, disk := disk }

/-- The requests one after the other; the run ends at a fault. -/
def run (h : Host Id) (calls : List (Request Id × Environment)) : Except Fault (Host Id) :=
  calls.foldlM (fun h call => Prod.fst <$> h.serve call.2 call.1) h

end Host

end KvStore.Raft.Machine
