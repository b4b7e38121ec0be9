import KvStore.Raft.Types

/-!
# The critical sections of a raft node

Every definition here is the effect of one `n.mu`-protected section of the
source on the node: the inbound handlers (`pkg/raft/node.go`,
`pkg/raft/snapshot.go`), the leader side (`pkg/raft/leader.go`) and log
compaction. What happens between two sections (waiting for an RPC, calling
`persist`, restoring a snapshot) is the business of `KvStore.Raft.Process`.
-/

namespace KvStore.Raft

open KvStore.Storage (Command)

variable {Id : Type} [DecidableEq Id]

namespace Node

/-! ## Votes -/

/-- The `VoteRequest` built by `startElection` (pkg/raft/election.go:72). -/
def voteRequest (n : Node Id) : VoteRequest Id :=
  { term := n.term, candidateID := n.id, lastLogIndex := n.lastLogIndex
    lastLogTerm := n.lastLogTerm }

/-- `notVotedYet && logFresh` of `HandleRequestVote` (pkg/raft/node.go:51). -/
def grants (n : Node Id) (req : VoteRequest Id) : Bool :=
  (n.votedFor = none ∨ n.votedFor = some req.candidateID) ∧
    (req.lastLogTerm > n.lastLogTerm ∨
      (req.lastLogTerm = n.lastLogTerm ∧ req.lastLogIndex ≥ n.lastLogIndex))

/-- The step-down of `HandleRequestVote` on a higher term (pkg/raft/node.go:47). -/
def adoptTerm (n : Node Id) (term : ℤ) : Node Id :=
  if term > n.term then n.becomeFollower term none else n

/-- The locked part of `HandleRequestVote` (pkg/raft/node.go:40). A granted vote
    still has to be persisted before the response is returned. -/
def handleRequestVote (n : Node Id) (req : VoteRequest Id) : Node Id × VoteResponse :=
  if req.term < n.term then (n, ⟨n.term, false⟩)
  else
    let n := n.adoptTerm req.term
    if n.grants req then
      ({ n with votedFor := some req.candidateID, dirty := true }, ⟨n.term, true⟩)
    else (n, ⟨n.term, false⟩)

/-! ## Following a leader -/

/-- The prologue shared by `HandleAppendEntries` (pkg/raft/node.go:94) and
    `HandleInstallSnapshot` (pkg/raft/snapshot.go:150): follow the sender. -/
def follow (n : Node Id) (term : ℤ) (leader : Id) : Node Id :=
  if term > n.term ∨ n.role ≠ .follower then n.becomeFollower term (some leader)
  else { n with leaderID := some leader }

/-- The commit-index advance of `HandleAppendEntries` (pkg/raft/node.go:111). -/
def advanceCommit (n : Node Id) (leaderCommit : ℤ) : Node Id :=
  { n with
    commitIndex := if leaderCommit < n.lastLogIndex then leaderCommit.toNat else n.lastLogIndex
    dirty := true }

/-- The locked part of `HandleAppendEntries` (pkg/raft/node.go:86): the node, the
    response, and whether `persist` runs before the response is returned. -/
def handleAppendEntries (n : Node Id) (req : AppendEntriesRequest Id) :
    Node Id × AppendEntriesResponse × Bool :=
  if req.term < n.term then (n, ⟨n.term, false⟩, false)
  else
    let n := n.follow req.term req.leaderID
    if n.checkPrevLog req.prevLogIndex req.prevLogTerm then
      let (m, merged) := n.mergeEntries req
      let m := if merged then { m with dirty := true } else m
      if req.leaderCommit > m.commitIndex then
        (m.advanceCommit req.leaderCommit, ⟨m.term, true⟩, true)
      else (m, ⟨m.term, true⟩, merged)
    else (n, ⟨n.term, false⟩, false)

/-- The adoption of a snapshot's base by `HandleInstallSnapshot`
    (pkg/raft/snapshot.go:165). -/
def adoptSnapshot (n : Node Id) (req : InstallSnapshotRequest Id) : Node Id :=
  let index := req.lastIncludedIndex.toNat
  { n with
    log := n.log.drop (min (index - n.lastIncludedIndex) n.log.length)
    lastIncludedIndex := index, lastIncludedTerm := req.lastIncludedTerm
    commitIndex := if n.commitIndex < index then index else n.commitIndex
    lastApplied := if n.lastApplied < index then index else n.lastApplied
    dirty := true }

/-- The locked part of `HandleInstallSnapshot` (pkg/raft/snapshot.go:142): the
    node, the response, and `installed`. -/
def handleInstallSnapshot (n : Node Id) (req : InstallSnapshotRequest Id) :
    Node Id × InstallSnapshotResponse × Bool :=
  if req.term < n.term then (n, ⟨n.term, false⟩, false)
  else
    let n := n.follow req.term req.leaderID
    if req.lastIncludedIndex > n.lastApplied then (n.adoptSnapshot req, ⟨n.term, true⟩, true)
    else (n, ⟨n.term, true⟩, false)

/-! ## Leading -/

/-- The append of `propose` and `proposeWait` (pkg/raft/leader.go:134). A cluster
    of one node commits at once. -/
def appendEntry (n : Node Id) (cmd : Command) : Node Id :=
  let m := { n with log := n.log ++ [⟨n.term, cmd⟩], dirty := true }
  if n.peers = [] then { m with commitIndex := m.lastLogIndex } else m

/-- `st.inFlight[peer] = b`. -/
def setInFlight (n : Node Id) (peer : Id) (b : Bool) : Node Id :=
  let st := n.replState
  { n with repl := some { st with inFlight := Function.update st.inFlight peer b } }

/-- `st.nextIndex[peer]`, raised to 1 (pkg/raft/leader.go:254). -/
def nextFor (n : Node Id) (peer : Id) : ℕ := max (n.replState.nextIndex peer) 1

/-- The request built by `replicateToPeer` (pkg/raft/leader.go:264). -/
def appendRequest (n : Node Id) (peer : Id) : AppendEntriesRequest Id :=
  let next := n.nextFor peer
  { term := n.term, leaderID := n.id
    prevLogIndex := (next - 1 : ℕ), prevLogTerm := n.logTermAt (next - 1 : ℕ)
    entries := n.log.drop (next - n.firstIndex)
    leaderCommit := n.commitIndex }

/-- `maxReplBackoff` (pkg/raft/leader.go:18). -/
def maxReplBackoff : ℕ := 64

/-- The rejection branch of `replicateToPeer` (pkg/raft/leader.go:302). -/
def rewind (n : Node Id) (peer : Id) : Node Id :=
  let st := n.replState
  let step := if st.backoff peer = 0 then 1 else st.backoff peer
  let next := if st.nextIndex peer > step then st.nextIndex peer - step else 1
  { n with repl := some { st with
      nextIndex := Function.update st.nextIndex peer next
      backoff := if step < maxReplBackoff then Function.update st.backoff peer (step * 2)
        else st.backoff } }

/-- The success branch of `replicateToPeer` (pkg/raft/leader.go:323) and of
    `installSnapshot` (pkg/raft/snapshot.go:123): the peer holds everything up to
    `matched`. -/
def acknowledge (n : Node Id) (peer : Id) (matched : ℕ) : Node Id :=
  let st := n.replState
  maybeCommit { n with repl := some { st with
    backoff := Function.update st.backoff peer 0
    matchIndex := Function.update st.matchIndex peer (max (st.matchIndex peer) matched)
    nextIndex := Function.update st.nextIndex peer (max (st.nextIndex peer) (matched + 1)) } }

/-- The section of `replicateToPeer` that handles a response
    (pkg/raft/leader.go:287). -/
def handleAppendResponse (n : Node Id) (peer : Id) (req : AppendEntriesRequest Id)
    (resp : AppendEntriesResponse) : Node Id :=
  let n := n.setInFlight peer false
  if resp.term > n.term then n.becomeFollower resp.term none
  else if resp.term < n.term then n
  else if resp.success then n.acknowledge peer (req.prevLogIndex + req.entries.length).toNat
  else n.rewind peer

/-- The request built by `installSnapshot` (pkg/raft/snapshot.go:98) from the
    snapshot `(index, label, data)`. -/
def snapshotRequest (n : Node Id) (index : ℕ) (label : ℤ) (data : Storage.Bytes) :
    InstallSnapshotRequest Id :=
  { term := n.term, leaderID := n.id, lastIncludedIndex := index, lastIncludedTerm := label
    data := data }

/-- The section of `installSnapshot` that handles a response
    (pkg/raft/snapshot.go:115). -/
def handleSnapshotResponse (n : Node Id) (peer : Id) (req : InstallSnapshotRequest Id)
    (resp : InstallSnapshotResponse) : Node Id :=
  let n := n.setInFlight peer false
  if resp.term > n.term then n.becomeFollower resp.term none
  else if resp.term < n.term ∨ resp.success = false then n
  else n.acknowledge peer req.lastIncludedIndex.toNat

/-! ## Applying and compacting -/

/-- `n.lastApplied = idx` when `idx` is larger (pkg/raft/apply.go:167). -/
def markApplied (n : Node Id) (idx : ℕ) : Node Id :=
  { n with lastApplied := max n.lastApplied idx }

/-- `CompactLog` (pkg/raft/snapshot.go:47). -/
def compactLog (n : Node Id) (index : ℕ) (label : ℤ) : Node Id :=
  if index ≤ n.lastIncludedIndex then n
  else
    { n with
      log := if index ≥ n.lastLogIndex then [] else n.log.drop (index - n.lastIncludedIndex)
      lastIncludedIndex := index
      lastIncludedTerm := if index ≥ n.lastLogIndex then n.lastLogTerm else label
      commitIndex := if n.commitIndex < index then index else n.commitIndex
      lastApplied := if n.lastApplied < index then index else n.lastApplied
      dirty := true }

end Node

end KvStore.Raft
