import KvStore.Raft.Handlers

/-!
# One raft process and its goroutines

A `Process` is a node together with its `RaftStore` and the goroutines that run
on it: the election started by `Loop`, the apply loop, the snapshot compactor,
the RPC handlers that have left their critical section and still have to call
`persist`, and the outbound RPCs whose answer is awaited. `Process.step` executes
one `n.mu`-protected section, so every interleaving of sections is a list of
`Input`s.

Time is abstract: a timer may fire and an RPC may fail at any moment. The state
machine is outside the model: `applyCmd` shows up as an `Event`, and the data of
a snapshot is whatever the provider returns.
-/

namespace KvStore.Raft

open KvStore.Storage (Command Bytes)

/-- An RPC message on the network. A response carries the request it answers:
    a caller only reads the answer of its own call. -/
inductive Msg (Id : Type) where
  | voteReq (dst : Id) (req : VoteRequest Id)
  | voteResp (src dst : Id) (req : VoteRequest Id) (resp : VoteResponse)
  | appendReq (dst : Id) (req : AppendEntriesRequest Id)
  | appendResp (src dst : Id) (req : AppendEntriesRequest Id) (resp : AppendEntriesResponse)
  | snapReq (dst : Id) (req : InstallSnapshotRequest Id)
  | snapResp (src dst : Id) (req : InstallSnapshotRequest Id) (resp : InstallSnapshotResponse)
  deriving DecidableEq

/-- What a run is observed by. -/
inductive Event (Id : Type) where
  /-- The node executed `becomeLeader` in this term. -/
  | becameLeader (node : Id) (term : ℤ)
  /-- The node ran `applyCmd` on the command at this log index. -/
  | applied (node : Id) (index : ℕ) (cmd : Command)
  /-- `propose` returned `nil` for the entry `(index, term, cmd)`. -/
  | returned (node : Id) (index : ℕ) (term : ℤ) (cmd : Command)
  deriving DecidableEq

/-- The `startElection` in progress (pkg/raft/election.go:69): its request, the
    peers whose RPC has not come back, the votes, and whether the new term has
    been persisted and the requests sent. -/
structure Election (Id : Type) where
  req : VoteRequest Id
  waiting : List Id
  votes : ℕ
  campaigning : Bool

/-- Where `applyLoop` (pkg/raft/apply.go:117) stands between its sections. -/
inductive ApplyPhase where
  | idle
  | picked (idx : ℕ) (entry : Option Entry)
  | running (idx : ℕ) (cmd : Command)
  | finished (idx : ℕ)
  deriving DecidableEq

/-- Where `startSnapshotCompactor` (cmd/server/snapshot_bridge.go:46) stands: the
    index and then its term have been read. -/
inductive CompactorPhase where
  | idle
  | indexed (idx : ℕ)
  | labelled (idx : ℕ) (label : ℤ)
  deriving DecidableEq

/-- A goroutine between two critical sections. -/
inductive Task (Id : Type) where
  /-- `HandleRequestVote` before `persist` (pkg/raft/node.go:66). -/
  | vote (req : VoteRequest Id) (resp : VoteResponse)
  /-- `HandleAppendEntries` before `persist` (pkg/raft/node.go:128). -/
  | append (req : AppendEntriesRequest Id) (resp : AppendEntriesResponse)
  /-- `HandleInstallSnapshot` before restore and `persist` (pkg/raft/snapshot.go:184). -/
  | snapshot (req : InstallSnapshotRequest Id) (resp : InstallSnapshotResponse)
  /-- `propose` before `persist` (pkg/raft/leader.go:152). -/
  | propose (index : ℕ) (term : ℤ) (cmd : Command)
  /-- `propose` before `return nil` (pkg/raft/leader.go:161). -/
  | proposed (index : ℕ) (term : ℤ) (cmd : Command)
  /-- `propose` on a single node before `applyCmd` (pkg/raft/leader.go:142). -/
  | inline (index : ℕ) (cmd : Command)
  /-- `replicateToPeer` inside `transport.AppendEntries` (pkg/raft/leader.go:279). -/
  | awaitAppend (peer : Id) (req : AppendEntriesRequest Id)
  /-- `installSnapshot` about to run (pkg/raft/leader.go:262). -/
  | installing (peer : Id)
  /-- `Snapshot` of the bridge before `ApplyIndex` (cmd/server/snapshot_bridge.go:23). -/
  | snapIndex (peer : Id)
  /-- `Snapshot` of the bridge before `LogTerm` (cmd/server/snapshot_bridge.go:24). -/
  | snapTerm (peer : Id) (idx : ℕ)
  /-- `installSnapshot` with a snapshot in hand (pkg/raft/snapshot.go:92). -/
  | snapSend (peer : Id) (idx : ℕ) (label : ℤ) (data : Bytes)
  /-- `installSnapshot` inside `transport.InstallSnapshot` (pkg/raft/snapshot.go:108). -/
  | awaitSnap (peer : Id) (req : InstallSnapshotRequest Id)
  deriving DecidableEq

/-- A process: volatile node, durable store, goroutines. -/
structure Process (Id : Type) where
  node : Node Id
  disk : RaftState Id
  election : Option (Election Id)
  apply : ApplyPhase
  compactor : CompactorPhase
  tasks : List (Task Id)

/-- The critical sections, with the environment's choices as arguments: the
    message received, the outcome `saved` of `RaftStore.Save`, the command
    proposed, the data of a snapshot. -/
inductive Input (Id : Type) where
  | startElection
  | persistElection (saved : Bool)
  | voteResponse (peer : Id) (req : VoteRequest Id) (resp : VoteResponse)
  | voteError (peer : Id)
  | endElection
  | stepDown
  | requestVote (req : VoteRequest Id)
  | persistVote (req : VoteRequest Id) (resp : VoteResponse) (saved : Bool)
  | appendEntries (req : AppendEntriesRequest Id)
  | persistAppend (req : AppendEntriesRequest Id) (resp : AppendEntriesResponse) (saved : Bool)
  | installSnapshot (req : InstallSnapshotRequest Id)
  | persistSnapshot (req : InstallSnapshotRequest Id) (resp : InstallSnapshotResponse)
      (saved : Bool)
  | propose (cmd : Command)
  | persistPropose (index : ℕ) (term : ℤ) (cmd : Command) (saved : Bool)
  | returnPropose (index : ℕ) (term : ℤ) (cmd : Command)
  | applyInline (index : ℕ) (cmd : Command)
  | replicate (peer : Id)
  | appendResponse (peer : Id) (req : AppendEntriesRequest Id) (resp : AppendEntriesResponse)
  | appendError (peer : Id) (req : AppendEntriesRequest Id)
  | snapshotBegin (peer : Id)
  | snapshotIndex (peer : Id)
  | snapshotTerm (peer : Id) (idx : ℕ) (data : Bytes)
  | snapshotSend (peer : Id) (idx : ℕ) (label : ℤ) (data : Bytes)
  | snapshotResponse (peer : Id) (req : InstallSnapshotRequest Id)
      (resp : InstallSnapshotResponse)
  | snapshotError (peer : Id) (req : InstallSnapshotRequest Id)
  | applyPick
  | applyCheck
  | applyRun
  | applyDone
  | compactIndex
  | compactTerm
  | compactLog
  | flush (saved : Bool)
  | restart
  deriving DecidableEq

variable {Id : Type} [DecidableEq Id]

/-- The message an input consumes at the process `self`, if any. -/
def Input.msg (self : Id) : Input Id → Option (Msg Id)
  | .voteResponse peer req resp => some (.voteResp peer self req resp)
  | .requestVote req => some (.voteReq self req)
  | .appendEntries req => some (.appendReq self req)
  | .installSnapshot req => some (.snapReq self req)
  | .appendResponse peer req resp => some (.appendResp peer self req resp)
  | .snapshotResponse peer req resp => some (.snapResp peer self req resp)
  | _ => none

/-- The outcome of the `Save` a section runs; `true` if it runs none. -/
def Input.saved : Input Id → Bool
  | .persistElection saved => saved
  | .persistVote _ _ saved => saved
  | .persistAppend _ _ saved => saved
  | .persistSnapshot _ _ saved => saved
  | .persistPropose _ _ _ saved => saved
  | .flush saved => saved
  | _ => true

namespace Process

/-- A process that has just started on an empty `RaftStore`. -/
def init (id : Id) (peers : List Id) : Process Id :=
  { node := Node.new id peers, disk := RaftState.empty, election := none, apply := .idle
    compactor := .idle, tasks := [] }

/-- What one section does to the process, sends and shows. -/
structure Effect (Id : Type) where
  proc : Process Id
  sent : List (Msg Id) := []
  events : List (Event Id) := []

/-- The process after a section of the task `t` has left the node as `n` and the
    goroutine at `new`. -/
def next (p : Process Id) (t : Task Id) (n : Node Id) (new : List (Task Id)) : Process Id :=
  { p with node := n, tasks := p.tasks.erase t ++ new }

/-- `persist` run by a goroutine of the process; also says whether it returned `nil`. -/
def persist (p : Process Id) (saved : Bool) : Bool × Process Id :=
  let r := p.node.persist p.disk saved
  (r.1, { p with node := r.2.1, disk := r.2.2 })

/-- The final section of `startElection` (pkg/raft/election.go:127). -/
def endElection (p : Process Id) (e : Election Id) : Effect Id :=
  if e.votes ≥ majority p.node.peers ∧ p.node.role = .candidate ∧ p.node.term = e.req.term then
    { proc := { p with node := p.node.becomeLeader, election := none }
      events := [.becameLeader p.node.id p.node.term] }
  else { proc := { p with node := p.node.becomeFollower p.node.term none, election := none } }

/-- The section of `startElection` that handles one response
    (pkg/raft/election.go:107). -/
def voteResponse (p : Process Id) (e : Election Id) (peer : Id) (resp : VoteResponse) :
    Process Id :=
  if resp.term > p.node.term then
    { p with node := p.node.becomeFollower resp.term none, election := none }
  else
    { p with election := some { e with
        waiting := e.waiting.erase peer
        votes := if resp.voteGranted then e.votes + 1 else e.votes } }

/-- The process after a crash and a restart through `NewNode` and `SetRaftStore`. -/
def restart (p : Process Id) : Process Id :=
  { init p.node.id p.node.peers with
    node := (Node.new p.node.id p.node.peers).setRaftStore p.disk, disk := p.disk }

/-- One critical section. `none` means that the section cannot run in this state. -/
def step (p : Process Id) : Input Id → Option (Effect Id)
  -- the election goroutine; `Loop` runs one election at a time and none while leader
  | .startElection =>
    if p.node.role ≠ .leader ∧ p.election.isNone then
      let n := p.node.becomeCandidate
      some { proc := { p with
        node := n
        election := some ⟨n.voteRequest, n.peers, 1, false⟩ } }
    else none
  | .persistElection saved =>
    match p.election with
    | some e =>
      if e.campaigning then none
      else
        let r := p.persist saved
        if r.1 then
          some { proc := { r.2 with election := some { e with campaigning := true } }
                 sent := e.waiting.map fun q => .voteReq q e.req }
        else some { proc := { r.2 with election := none } }
    | none => none
  | .voteResponse peer req resp =>
    match p.election with
    | some e =>
      if e.campaigning ∧ peer ∈ e.waiting ∧ e.req = req ∧ e.votes < majority p.node.peers then
        some { proc := p.voteResponse e peer resp }
      else none
    | none => none
  | .voteError peer =>
    match p.election with
    | some e =>
      if e.campaigning then
        some { proc := { p with election := some { e with waiting := e.waiting.erase peer } } }
      else none
    | none => none
  | .endElection =>
    match p.election with
    | some e =>
      if e.campaigning ∧ (e.votes ≥ majority p.node.peers ∨ e.waiting = []) then
        some (p.endElection e)
      else none
    | none => none
  | .stepDown =>
    if p.node.role = .leader ∧ p.election.isNone then
      some { proc := { p with node := p.node.becomeFollower p.node.term none } }
    else none
  -- the inbound handlers
  | .requestVote req =>
    let r := p.node.handleRequestVote req
    if r.2.voteGranted then
      some { proc := { p with node := r.1, tasks := p.tasks ++ [.vote req r.2] } }
    else
      some { proc := { p with node := r.1 }
             sent := [.voteResp p.node.id req.candidateID req r.2] }
  | .persistVote req resp saved =>
    if .vote req resp ∈ p.tasks then
      let r := (p.next (.vote req resp) p.node []).persist saved
      some { proc := r.2
             sent := [.voteResp p.node.id req.candidateID req
               (if r.1 then resp else ⟨p.node.term, false⟩)] }
    else none
  | .appendEntries req =>
    let r := p.node.handleAppendEntries req
    if r.2.2 then
      some { proc := { p with node := r.1, tasks := p.tasks ++ [.append req r.2.1] } }
    else
      some { proc := { p with node := r.1 }
             sent := [.appendResp p.node.id req.leaderID req r.2.1] }
  | .persistAppend req resp saved =>
    if .append req resp ∈ p.tasks then
      let r := (p.next (.append req resp) p.node []).persist saved
      some { proc := r.2
             sent := [.appendResp p.node.id req.leaderID req
               (if r.1 then resp else ⟨p.node.term, false⟩)] }
    else none
  | .installSnapshot req =>
    let r := p.node.handleInstallSnapshot req
    if req.term < p.node.term then
      some { proc := p, sent := [.snapResp p.node.id req.leaderID req r.2.1] }
    else some { proc := { p with node := r.1, tasks := p.tasks ++ [.snapshot req r.2.1] } }
  | .persistSnapshot req resp saved =>
    if .snapshot req resp ∈ p.tasks then
      some { proc := ((p.next (.snapshot req resp) p.node []).persist saved).2
             sent := [.snapResp p.node.id req.leaderID req resp] }
    else none
  -- client writes
  | .propose cmd =>
    if p.node.role = .leader then
      let n := p.node.appendEntry cmd
      let t : Task Id := if p.node.peers = [] then .inline n.lastLogIndex cmd
        else .propose n.lastLogIndex n.term cmd
      some { proc := { p with node := n, tasks := p.tasks ++ [t] } }
    else none
  | .persistPropose index term cmd saved =>
    if .propose index term cmd ∈ p.tasks then
      let r := (p.next (.propose index term cmd) p.node []).persist saved
      some { proc := if r.1 then { r.2 with tasks := r.2.tasks ++ [.proposed index term cmd] }
        else r.2 }
    else none
  | .returnPropose index term cmd =>
    if .proposed index term cmd ∈ p.tasks then
      some { proc := p.next (.proposed index term cmd) p.node []
             events := [.returned p.node.id index term cmd] }
    else none
  | .applyInline index cmd =>
    if .inline index cmd ∈ p.tasks then
      some { proc := p.next (.inline index cmd) p.node []
             events := [.applied p.node.id index cmd] }
    else none
  -- replication
  | .replicate peer =>
    if p.node.role = .leader ∧ peer ∈ p.node.peers ∧ p.node.replState.inFlight peer = false then
      let n := p.node.withRepl
      if n.nextFor peer < n.firstIndex then
        some { proc := { p with node := n, tasks := p.tasks ++ [.installing peer] } }
      else
        let req := n.appendRequest peer
        some { proc := { p with
                 node := n.setInFlight peer true
                 tasks := p.tasks ++ [.awaitAppend peer req] }
               sent := [.appendReq peer req] }
    else none
  | .appendResponse peer req resp =>
    if .awaitAppend peer req ∈ p.tasks then
      some { proc := p.next (.awaitAppend peer req) (p.node.handleAppendResponse peer req resp) [] }
    else none
  | .appendError peer req =>
    if .awaitAppend peer req ∈ p.tasks then
      some { proc := p.next (.awaitAppend peer req) (p.node.setInFlight peer false) [] }
    else none
  -- snapshot transfer
  | .snapshotBegin peer =>
    if .installing peer ∈ p.tasks then
      if p.node.role = .leader ∧ p.node.replState.inFlight peer = false then
        some { proc := p.next (.installing peer) p.node.withRepl [.snapIndex peer] }
      else some { proc := p.next (.installing peer) p.node [] }
    else none
  | .snapshotIndex peer =>
    if .snapIndex peer ∈ p.tasks then
      some { proc := p.next (.snapIndex peer) p.node [.snapTerm peer p.node.lastApplied] }
    else none
  | .snapshotTerm peer idx data =>
    if .snapTerm peer idx ∈ p.tasks then
      some { proc := p.next (.snapTerm peer idx) p.node
               [.snapSend peer idx (p.node.logTermAt idx) data] }
    else none
  | .snapshotSend peer idx label data =>
    if .snapSend peer idx label data ∈ p.tasks then
      if p.node.replState.inFlight peer then
        some { proc := p.next (.snapSend peer idx label data) p.node [] }
      else
        -- no role check here: the request goes out under whatever term the node has now
        let req := p.node.snapshotRequest idx label data
        some { proc := p.next (.snapSend peer idx label data) (p.node.setInFlight peer true)
                 [.awaitSnap peer req]
               sent := [.snapReq peer req] }
    else none
  | .snapshotResponse peer req resp =>
    if .awaitSnap peer req ∈ p.tasks then
      some { proc := p.next (.awaitSnap peer req) (p.node.handleSnapshotResponse peer req resp) [] }
    else none
  | .snapshotError peer req =>
    if .awaitSnap peer req ∈ p.tasks then
      some { proc := p.next (.awaitSnap peer req) (p.node.setInFlight peer false) [] }
    else none
  -- the apply loop
  | .applyPick =>
    if p.apply = .idle ∧ p.node.lastApplied < p.node.commitIndex then
      let idx := p.node.lastApplied + 1
      some { proc := { p with apply := .picked idx (p.node.entryAt idx) } }
    else none
  | .applyCheck =>
    match p.apply with
    | .picked idx entry =>
      if p.node.lastApplied ≥ idx then some { proc := { p with apply := .idle } }
      else match entry with
        | none => some { proc := { p with apply := .idle, node := p.node.markApplied idx } }
        | some e => some { proc := { p with apply := .running idx e.cmd } }
    | _ => none
  | .applyRun =>
    match p.apply with
    | .running idx cmd =>
      some { proc := { p with apply := .finished idx }
             events := [.applied p.node.id idx cmd] }
    | _ => none
  | .applyDone =>
    match p.apply with
    | .finished idx =>
      some { proc := { p with apply := .idle, node := p.node.markApplied idx } }
    | _ => none
  -- the snapshot compactor
  | .compactIndex =>
    if p.compactor = .idle then
      some { proc := { p with compactor := .indexed p.node.lastApplied } }
    else none
  | .compactTerm =>
    match p.compactor with
    | .indexed idx => some { proc := { p with compactor := .labelled idx (p.node.logTermAt idx) } }
    | _ => none
  | .compactLog =>
    match p.compactor with
    | .labelled idx label =>
      some { proc := { p with compactor := .idle, node := p.node.compactLog idx label } }
    | _ => none
  | .flush saved => some { proc := (p.persist saved).2 }
  | .restart => some { proc := p.restart }

/-! ## The node after a message -/

section

variable {p : Process Id} {e : Effect Id}

theorem requestVote_node {req : VoteRequest Id} (hstep : p.step (.requestVote req) = some e) :
    e.proc.node = (p.node.handleRequestVote req).1 := by
  simp only [step] at hstep
  split at hstep <;> (cases hstep; rfl)

theorem appendEntries_node {req : AppendEntriesRequest Id}
    (hstep : p.step (.appendEntries req) = some e) :
    e.proc.node = (p.node.handleAppendEntries req).1 := by
  simp only [step] at hstep
  split at hstep <;> (cases hstep; rfl)

theorem installSnapshot_node {req : InstallSnapshotRequest Id}
    (hstep : p.step (.installSnapshot req) = some e) :
    e.proc.node = (p.node.handleInstallSnapshot req).1 := by
  simp only [step] at hstep
  split at hstep
  · next hstale =>
    cases hstep
    rw [Node.handleInstallSnapshot, if_pos hstale]
  · cases hstep
    rfl

theorem appendResponse_node {peer : Id} {req : AppendEntriesRequest Id}
    {resp : AppendEntriesResponse} (hstep : p.step (.appendResponse peer req resp) = some e) :
    e.proc.node = p.node.handleAppendResponse peer req resp := by
  simp only [step] at hstep
  split at hstep <;> cases hstep
  rfl

theorem snapshotResponse_node {peer : Id} {req : InstallSnapshotRequest Id}
    {resp : InstallSnapshotResponse}
    (hstep : p.step (.snapshotResponse peer req resp) = some e) :
    e.proc.node = p.node.handleSnapshotResponse peer req resp := by
  simp only [step] at hstep
  split at hstep <;> cases hstep
  rfl

end

end Process

end KvStore.Raft
