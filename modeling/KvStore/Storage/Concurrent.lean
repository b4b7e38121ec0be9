import KvStore.Storage.FailedWrites
import KvStore.Storage.RestoreSnapshot
import KvStore.Storage.Sweeps

/-!
# The goroutines of a `DiskStore`

Any number of goroutines call the operations of a `DiskStore` (`pkg/storage/wal.go`). A write goes
through `submit`: it takes `closeMu` for reading, sends the request on `batchChan` and waits on
`errChan`. `batchLoop` (`pkg/storage/batcher.go`) receives the requests, writes and executes them
and answers. `Close` takes `closeMu` for writing before it closes the channel. Reads go to the
memory directly, and compactions, sweeps and the clock run in between.

One `step` is a section during which the goroutine holds a lock, a send, a receive, or a
computation on data of its own; a run is any interleaving. An append, a `Sync` or a compaction may
fail. `errChan` has room for one answer; a send on a closed channel and the second close of one
panic.

* `Sys.step`: one step.
* `Moves`, `step_moves`: every branch a step can take.
-/

namespace KvStore.Concurrent

open KvStore.Storage
open KvStore.Expiring (live)

/-! ## Calls -/

/-- The errors of `submit` (pkg/storage/wal.go:563). -/
inductive SubmitError where
  /-- `ErrClosed` -/
  | closed
  | write (e : WriteError)
  deriving DecidableEq

/-- What a write returns. -/
abbrev Outcome := Except SubmitError Value

/-- The operations that only read the memory. -/
inductive Read where
  | get (key : Bytes)
  | scan (cursor : Bytes) (count : ℤ) (pattern : Bytes)
  | size
  deriving DecidableEq

/-- What a read returns. -/
inductive Reading where
  | value (r : Except Err Bytes)
  | page (r : Option (List (Bytes × Bytes) × Bytes))
  | count (n : ℕ)

/-- A call of an operation. -/
inductive Call where
  | write (cmd : Command)
  | read (r : Read)

/-- What a call returns. -/
inductive Out where
  | wrote (o : Outcome)
  | saw (r : Reading)

/-- What can be observed from outside. -/
inductive Event (Client : Type) where
  | call (c : Client) (k : Call)
  | ret (c : Client) (o : Out)
  | tick (t : Int64)
  /-- `Close` is called. -/
  | closing
  /-- `Close` returns, with an error or without. -/
  | closed (ok : Bool)

/-! ## Goroutines -/

/-- Where a goroutine that calls the operations of the store stands. -/
inductive Phase where
  | idle
  /-- `submit` before `closeMu.RLock` (pkg/storage/wal.go:564) -/
  | entering (req : Request)
  /-- `submit` before the send (pkg/storage/wal.go:570) -/
  | entered (req : Request)
  /-- `submit` at `<-req.errChan` (pkg/storage/wal.go:571) -/
  | waiting (req : Request)
  /-- `submit` before `closeMu.RUnlock` -/
  | answered (o : Outcome)
  /-- a read before it takes `mem.mu` -/
  | reading (r : Read)
  /-- `Get` that has found a dead entry (pkg/storage/memstore.go:47) -/
  | reaping (key : Bytes)
  /-- a read before it returns -/
  | seen (r : Reading)

/-- The goroutine holds `closeMu` for reading. -/
def Phase.holds : Phase → Bool
  | .entered _ | .waiting _ | .answered _ => true
  | _ => false

/-- A request with the goroutine that waits for its answer. -/
structure Job (Client : Type) where
  client : Client
  req : Request

/-- What `batchLoop` does once the batch is written. -/
inductive After (Client : Type) where
  | again
  | single (job : Job Client)
  /-- `close(s.batchDone)` -/
  | finish

/-- Where `batchLoop` (pkg/storage/batcher.go:33) stands. -/
inductive Loop (Client : Type) where
  /-- the `select`; `timer` says whether the timer runs -/
  | select (batch : List (Job Client)) (timer : Bool)
  /-- `writeBatch` before `snapMu.Lock` -/
  | write (batch : List (Job Client)) (after : After Client)
  /-- `writeBatch` with the log synced: `todo` is still to be executed -/
  | apply (executed todo : List (Job Client)) (after : After Client)
  /-- `writeBatch` after `snapMu.Unlock`: `todo` is still to be answered -/
  | answer (todo : List (Job Client)) (ok : Bool) (after : After Client)
  /-- `writeSingle` before `snapMu.Lock` -/
  | single (job : Job Client)
  /-- `writeSingle` of a `CAS` or an `Expire` that has found its key -/
  | checked (job : Job Client)
  /-- `writeSingle` with the log synced -/
  | logged (job : Job Client)
  /-- `writeSingle` after `snapMu.Unlock` -/
  | reply (job : Job Client) (o : Outcome)
  | done

/-- The loop holds `snapMu`. -/
def Loop.locked {Client : Type} : Loop Client → Bool
  | .apply _ _ _ | .checked _ | .logged _ => true
  | _ => false

/-- Where the loop goes on. -/
def After.loop {Client : Type} : After Client → Loop Client
  | .again => .select [] false
  | .single job => .single job
  | .finish => .done

/-- Where `Close` (pkg/storage/wal.go:581) stands. -/
inductive Closer where
  | running
  /-- at `<-s.snapDone` -/
  | stoppingSnapshots
  /-- at `<-s.expDone` -/
  | stoppingSweeps
  /-- at `s.closeMu.Lock()` -/
  | locking
  /-- at `<-s.batchDone` -/
  | draining
  /-- at `s.compact()` -/
  | compacting
  | done
  deriving DecidableEq

/-- `Close` has set `closed`. -/
def Closer.past : Closer → Bool
  | .draining | .compacting | .done => true
  | _ => false

/-- The store and everything that runs on it. -/
structure Sys (Client : Type) where
  disk : DiskStore
  clock : Int64
  phase : Client → Phase
  /-- the holders of `closeMu` for reading -/
  readers : List Client
  batchChan : List (Job Client)
  chanClosed : Bool
  closed : Bool
  loop : Loop Client
  closer : Closer
  /-- `snapshotLoop` and `expireLoop` have not ended -/
  snapshotLoop : Bool
  expireLoop : Bool
  panicked : Bool
  history : List (Event Client)

/-- The steps, with what the environment chooses: who runs, which call is made, how an append and
    a `Sync` end. -/
inductive Act (Client : Type) where
  | submit (c : Client) (req : Request)
  | enter (c : Client)
  | send (c : Client)
  | read (c : Client) (r : Read)
  | look (c : Client)
  | reap (c : Client)
  | finish (c : Client)
  | receive
  | timer
  | write (attempts : List Attempt) (synced : Bool)
  | begin (cut : Option ℕ) (synced : Bool)
  | log (cut : Option ℕ) (synced : Bool)
  | execute
  | answer
  | compact (byLoop : Bool) (fault : Option RestorePoint)
  | sweep
  | tick (t : Int64)
  | close
  | stopSnapshots
  | stopSweeps
  | lock
  | drained
  | compactLast (fault : Option RestorePoint) (closedFile : Bool)

variable {Client : Type} [DecidableEq Client]

namespace Sys

/-- A store that has just been opened at the clock reading `t`. -/
def init (d : DiskStore) (t : Int64) : Sys Client :=
  { disk := d, clock := t, phase := fun _ => .idle, readers := [], batchChan := []
    chanClosed := false, closed := false, loop := .select [] false, closer := .running
    snapshotLoop := true, expireLoop := true, panicked := false, history := [] }

def setPhase (s : Sys Client) (c : Client) (p : Phase) : Sys Client :=
  { s with phase := Function.update s.phase c p }

def observe (s : Sys Client) (e : Event Client) : Sys Client := { s with history := s.history ++ [e] }

/-! ## Calls of the goroutines -/

/-- `closeMu.RLock` and the look at `closed`; a waiting writer keeps new readers out. -/
def enter (s : Sys Client) (c : Client) : Option (Sys Client) :=
  match s.phase c with
  | .entering req =>
    if s.closer = .locking then none
    else
      some ({ s with readers := c :: s.readers }.setPhase c
        (if s.closed then .answered (.error .closed) else .entered req))
  | _ => none

/-- `s.batchChan <- req`; the channel has room for `2*maxBatchSize` requests. -/
def send (s : Sys Client) (c : Client) : Option (Sys Client) :=
  match s.phase c with
  | .entered req =>
    if s.chanClosed then some { s with panicked := true }
    else if s.batchChan.length < 2 * maxBatchSize then
      some ({ s with batchChan := s.batchChan ++ [Job.mk c req] }.setPhase c (.waiting req))
    else none
  | _ => none

/-- A read: `Scan`, `Size`, or the part of `Get` under `mem.mu.RLock`. -/
def look (s : Sys Client) (c : Client) : Option (Sys Client) :=
  match s.phase c with
  | .reading (.get key) =>
    match s.disk.mem.cell key with
    | none => some (s.setPhase c (.seen (.value (.error .notFound))))
    | some e =>
      if entryExpired e s.clock then some (s.setPhase c (.reaping key))
      else some (s.setPhase c (.seen (.value (.ok e.value))))
  | .reading (.scan cursor count pattern) =>
    some (s.setPhase c (.seen (.page (s.disk.mem.scan cursor count pattern s.clock))))
  | .reading .size => some (s.setPhase c (.seen (.count (s.disk.mem.size s.clock))))
  | _ => none

/-- The part of `Get` under `mem.mu.Lock` (pkg/storage/memstore.go:50). -/
def reap (s : Sys Client) (c : Client) : Option (Sys Client) :=
  match s.phase c with
  | .reaping key =>
    some ({ s with disk := { s.disk with mem := (s.disk.mem.lookup key s.clock).2 } }.setPhase c
      (.seen (.value (.error .notFound))))
  | _ => none

/-- The call returns. -/
def finish (s : Sys Client) (c : Client) : Option (Sys Client) :=
  match s.phase c with
  | .answered o =>
    some (({ s with readers := s.readers.erase c }.setPhase c .idle).observe (.ret c (.wrote o)))
  | .seen r => some ((s.setPhase c .idle).observe (.ret c (.saw r)))
  | _ => none

/-! ## The batch loop -/

/-- `case req, ok := <-s.batchChan` (pkg/storage/batcher.go:40). -/
def receive (s : Sys Client) : Option (Sys Client) :=
  match s.loop, s.batchChan with
  | .select batch _, job :: rest =>
    some { s with
      batchChan := rest
      loop :=
        if job.req.cmd.op.conditional then .write batch (.single job)
        else if (batch ++ [job]).length ≥ maxBatchSize then .write (batch ++ [job]) .again
        else .select (batch ++ [job]) true }
  | .select batch _, [] => if s.chanClosed then some { s with loop := .write batch .finish } else none
  | _, _ => none

/-- `case <-timerC` (pkg/storage/batcher.go:69). -/
def timer (s : Sys Client) : Option (Sys Client) :=
  match s.loop with
  | .select batch true => some { s with loop := .write batch .again }
  | _ => none

/-- The part of `writeBatch` up to the `Sync`: the attempts are those of the batch. -/
def write (s : Sys Client) (attempts : List Attempt) (synced : Bool) : Option (Sys Client) :=
  match s.loop with
  | .write [] after => some { s with loop := after.loop }
  | .write batch after =>
    if attempts.map (fun a => (a.cmd, a.nonce)) = batch.map fun job => (job.req.cmd, job.req.nonce) then
      let r := s.disk.tryAppends attempts
      some { s with
        disk := r.2
        loop := if r.1 && synced then .apply [] batch after else .answer batch false after }
    else none
  | _ => none

/-- The record of a `CAS` or an `Expire` that has found its key. -/
def checkedRecord (cmd : Command) : Record :=
  match cmd.op with
  | .cas => .cas cmd.key cmd.old cmd.value
  | _ => .expire cmd.key cmd.expiresAt

/-- An append and a `Sync` of `writeSingle`. -/
def append (s : Sys Client) (job : Job Client) (r : Record) (cut : Option ℕ) (synced : Bool) :
    Sys Client :=
  let w := s.disk.tryAppend r job.req.nonce cut
  { s with
    disk := w.2
    loop := if w.1 && synced then .logged job else .reply job (.error (.write .file)) }

/-- `writeSingle` (pkg/storage/batcher.go:81) up to the `Sync` of an `Incr` and up to the check of
    a `CAS` or an `Expire`. -/
def begin (s : Sys Client) (cut : Option ℕ) (synced : Bool) : Option (Sys Client) :=
  match s.loop with
  | .single job =>
    let cmd := job.req.cmd
    match cmd.op with
    | .incr => some (s.append job (.incr cmd.key) cut synced)
    | .cas | .expire =>
      match s.disk.mem.get cmd.key s.clock s.clock with
      | (.error e, m) =>
        some { s with
          disk := { s.disk with mem := m }, loop := .reply job (.error (.write (.store e))) }
      | (.ok cur, m) =>
        some { s with
          disk := { s.disk with mem := m }
          loop := if cmd.op = .cas ∧ cur ≠ cmd.old then .reply job (.ok (.bool false))
            else .checked job }
    | _ => some { s with loop := .reply job (.error (.write (.store .unknownOp))) }
  | _ => none

/-- The append of a `CAS` or an `Expire`. -/
def log (s : Sys Client) (cut : Option ℕ) (synced : Bool) : Option (Sys Client) :=
  match s.loop with
  | .checked job => some (s.append job (checkedRecord job.req.cmd) cut synced)
  | _ => none

/-- What `writeSingle` does to the memory once the record is synced. -/
def executeSingle (m : MemStore) (cmd : Command) (t : Int64) : Except Err Value × MemStore :=
  match cmd.op with
  | .incr => ((m.incr cmd.key t).1.map .int, (m.incr cmd.key t).2)
  | .cas => (.ok (.bool true), m.put cmd.key cmd.value)
  | _ =>
    ((m.expire cmd.key cmd.expiresAt t).1.map fun _ => .none, (m.expire cmd.key cmd.expiresAt t).2)

/-- The memory, one request at a time. -/
def execute (s : Sys Client) : Option (Sys Client) :=
  match s.loop with
  | .apply executed (job :: todo) after =>
    some { s with
      disk := { s.disk with mem := DiskStore.applyBatched s.disk.mem job.req.cmd }
      loop := .apply (executed ++ [job]) todo after }
  | .apply executed [] after => some { s with loop := .answer executed true after }
  | .logged job =>
    let r := executeSingle s.disk.mem job.req.cmd s.clock
    some { s with
      disk := { s.disk with mem := r.2 }
      loop := .reply job (r.1.mapError fun e => .write (.store e)) }
  | _ => none

/-- What `writeBatch` answers to every request of a batch. -/
def batchOutcome (ok : Bool) : Outcome := if ok then .ok .none else .error (.write .file)

/-- `req.errChan <- finalErr`. -/
def answer (s : Sys Client) : Option (Sys Client) :=
  match s.loop with
  | .answer (job :: todo) ok after =>
    match s.phase job.client with
    | .waiting _ =>
      some ({ s with loop := .answer todo ok after }.setPhase job.client
        (.answered (batchOutcome ok)))
    | _ => none
  | .answer [] _ after => some { s with loop := after.loop }
  | .reply job o =>
    match s.phase job.client with
    | .waiting _ =>
      some ({ s with loop := .select [] false }.setPhase job.client (.answered o))
    | _ => none
  | _ => none

/-! ## Close -/

/-- `closeMu.Lock`, `closed = true`, `close(batchChan)`. -/
def lock (s : Sys Client) : Option (Sys Client) :=
  if s.closer = .locking ∧ s.readers = [] then
    some { s with
      closed := true, chanClosed := true, panicked := s.panicked || s.chanClosed
      closer := .draining }
  else none

/-- `compact` and the close of the log file. -/
def compactLast (s : Sys Client) (fault : Option RestorePoint) (closedFile : Bool) :
    Option (Sys Client) :=
  if s.closer = .compacting then
    let r := s.disk.tryCompact fault
    some ({ s with disk := r.2, closer := .done }.observe (.closed (r.1.isNone && closedFile)))
  else none

/-- One step. `none` means that it cannot be taken in this state. -/
def step (s : Sys Client) : Act Client → Option (Sys Client)
  | .submit c req =>
    match s.phase c with
    | .idle => some ((s.setPhase c (.entering req)).observe (.call c (.write req.cmd)))
    | _ => none
  | .read c r =>
    match s.phase c with
    | .idle => some ((s.setPhase c (.reading r)).observe (.call c (.read r)))
    | _ => none
  | .enter c => s.enter c
  | .send c => s.send c
  | .look c => s.look c
  | .reap c => s.reap c
  | .finish c => s.finish c
  | .receive => s.receive
  | .timer => s.timer
  | .write attempts synced => s.write attempts synced
  | .begin cut synced => s.begin cut synced
  | .log cut synced => s.log cut synced
  | .execute => s.execute
  | .answer => s.answer
  -- by `snapshotLoop`, which has seen a large log before, or by a call of `Compact`
  | .compact byLoop fault =>
    if s.loop.locked = false ∧ (byLoop = true → s.snapshotLoop = true) then
      some { s with disk := (s.disk.tryCompact fault).2 }
    else none
  | .sweep =>
    if s.expireLoop then
      some { s with disk := { s.disk with mem := (s.disk.mem.sweepExpired s.clock).2 } }
    else none
  | .tick t => if s.clock ≤ t then some ({ s with clock := t }.observe (.tick t)) else none
  | .close =>
    if s.closer = .running then some ({ s with closer := .stoppingSnapshots }.observe .closing)
    else none
  | .stopSnapshots =>
    if s.closer = .stoppingSnapshots then
      some { s with snapshotLoop := false, closer := .stoppingSweeps }
    else none
  | .stopSweeps =>
    if s.closer = .stoppingSweeps then some { s with expireLoop := false, closer := .locking }
    else none
  | .lock => s.lock
  | .drained =>
    match s.closer, s.loop with
    | .draining, .done => some { s with closer := .compacting }
    | _, _ => none
  | .compactLast fault closedFile => s.compactLast fault closedFile

end Sys

/-! ## What a step can do -/

/-- The result of a read that takes place at the clock reading `t`. -/
def Read.result (m : MemStore) (t : Int64) : Read → Reading
  | .get key => .value (m.get key t t).1
  | .scan cursor count pattern => .page (m.scan cursor count pattern t)
  | .size => .count (m.size t)

/-- The state after the step `a`, one constructor for each branch of the code. -/
inductive Moves (s : Sys Client) : Act Client → Sys Client → Prop
  | submit {c : Client} {req : Request} (hp : s.phase c = .idle) :
      Moves s (.submit c req) ((s.setPhase c (.entering req)).observe (.call c (.write req.cmd)))
  | read {c : Client} {r : Read} (hp : s.phase c = .idle) :
      Moves s (.read c r) ((s.setPhase c (.reading r)).observe (.call c (.read r)))
  | refuse {c : Client} {req : Request} (hp : s.phase c = .entering req)
      (hlock : s.closer ≠ .locking) (hc : s.closed = true) :
      Moves s (.enter c)
        ({ s with readers := c :: s.readers }.setPhase c (.answered (.error .closed)))
  | enter {c : Client} {req : Request} (hp : s.phase c = .entering req)
      (hlock : s.closer ≠ .locking) (hc : s.closed = false) :
      Moves s (.enter c) ({ s with readers := c :: s.readers }.setPhase c (.entered req))
  | panic {c : Client} {req : Request} (hp : s.phase c = .entered req) (hc : s.chanClosed = true) :
      Moves s (.send c) { s with panicked := true }
  | send {c : Client} {req : Request} (hp : s.phase c = .entered req) (hc : s.chanClosed = false) :
      Moves s (.send c)
        ({ s with batchChan := s.batchChan ++ [Job.mk c req] }.setPhase c (.waiting req))
  | look {c : Client} {r : Read} (hp : s.phase c = .reading r) :
      Moves s (.look c) (s.setPhase c (.seen (r.result s.disk.mem s.clock)))
  | dead {c : Client} {key : Bytes} (hp : s.phase c = .reading (.get key))
      (hd : (s.disk.mem.get key s.clock s.clock).1 = .error .notFound) :
      Moves s (.look c) (s.setPhase c (.reaping key))
  | reap {c : Client} {key : Bytes} (hp : s.phase c = .reaping key) :
      Moves s (.reap c)
        ({ s with disk := { s.disk with mem := (s.disk.mem.lookup key s.clock).2 } }.setPhase c
          (.seen (.value (.error .notFound))))
  | finish {c : Client} {o : Outcome} (hp : s.phase c = .answered o) :
      Moves s (.finish c)
        (({ s with readers := s.readers.erase c }.setPhase c .idle).observe (.ret c (.wrote o)))
  | finishRead {c : Client} {r : Reading} (hp : s.phase c = .seen r) :
      Moves s (.finish c) ((s.setPhase c .idle).observe (.ret c (.saw r)))
  | receiveSingle {batch rest : List (Job Client)} {timer : Bool} {job : Job Client}
      (hl : s.loop = .select batch timer) (hq : s.batchChan = job :: rest)
      (hop : job.req.cmd.op.conditional = true) :
      Moves s .receive { s with batchChan := rest, loop := .write batch (.single job) }
  | receiveFull {batch rest : List (Job Client)} {timer : Bool} {job : Job Client}
      (hl : s.loop = .select batch timer) (hq : s.batchChan = job :: rest)
      (hop : job.req.cmd.op.conditional = false) (hlen : maxBatchSize ≤ (batch ++ [job]).length) :
      Moves s .receive { s with batchChan := rest, loop := .write (batch ++ [job]) .again }
  | receive {batch rest : List (Job Client)} {timer : Bool} {job : Job Client}
      (hl : s.loop = .select batch timer) (hq : s.batchChan = job :: rest)
      (hop : job.req.cmd.op.conditional = false) (hlen : (batch ++ [job]).length < maxBatchSize) :
      Moves s .receive { s with batchChan := rest, loop := .select (batch ++ [job]) true }
  | receiveClosed {batch : List (Job Client)} {timer : Bool} (hl : s.loop = .select batch timer)
      (hq : s.batchChan = []) (hc : s.chanClosed = true) :
      Moves s .receive { s with loop := .write batch .finish }
  | timer {batch : List (Job Client)} (hl : s.loop = .select batch true) :
      Moves s .timer { s with loop := .write batch .again }
  | writeNone {after : After Client} {attempts : List Attempt} {synced : Bool}
      (hl : s.loop = .write [] after) : Moves s (.write attempts synced) { s with loop := after.loop }
  | writeFailed {batch : List (Job Client)} {after : After Client} {attempts : List Attempt}
      {synced : Bool} (hl : s.loop = .write batch after) (hne : batch ≠ []) :
      Moves s (.write attempts synced)
        { s with disk := (s.disk.tryAppends attempts).2, loop := .answer batch false after }
  | write {batch : List (Job Client)} {after : After Client} {attempts : List Attempt}
      {synced : Bool} (hl : s.loop = .write batch after) (hne : batch ≠ []) :
      Moves s (.write attempts synced)
        { s with disk := (s.disk.tryAppends attempts).2, loop := .apply [] batch after }
  | beginFailed {job : Job Client} {cut : Option ℕ} {synced : Bool} (hl : s.loop = .single job)
      (hop : job.req.cmd.op = .incr) :
      Moves s (.begin cut synced)
        { s with
          disk := (s.disk.tryAppend (.incr job.req.cmd.key) job.req.nonce cut).2
          loop := .reply job (.error (.write .file)) }
  | beginIncr {job : Job Client} {cut : Option ℕ} {synced : Bool} (hl : s.loop = .single job)
      (hop : job.req.cmd.op = .incr) :
      Moves s (.begin cut synced)
        { s with
          disk := (s.disk.tryAppend (.incr job.req.cmd.key) job.req.nonce cut).2
          loop := .logged job }
  | beginMissing {job : Job Client} {cut : Option ℕ} {synced : Bool} (hl : s.loop = .single job)
      (hop : job.req.cmd.op = .cas ∨ job.req.cmd.op = .expire)
      (hd : live s.clock (s.disk.mem.cell job.req.cmd.key) = none) :
      Moves s (.begin cut synced)
        { s with
          disk := { s.disk with mem := (s.disk.mem.get job.req.cmd.key s.clock s.clock).2 }
          loop := .reply job (.error (.write (.store .notFound))) }
  | beginMismatch {job : Job Client} {cut : Option ℕ} {synced : Bool} {e : Entry}
      (hl : s.loop = .single job) (hop : job.req.cmd.op = .cas)
      (he : live s.clock (s.disk.mem.cell job.req.cmd.key) = some e) (hv : e.value ≠ job.req.cmd.old) :
      Moves s (.begin cut synced) { s with loop := .reply job (.ok (.bool false)) }
  | beginChecked {job : Job Client} {cut : Option ℕ} {synced : Bool} {e : Entry}
      (hl : s.loop = .single job) (hop : job.req.cmd.op = .cas ∨ job.req.cmd.op = .expire)
      (he : live s.clock (s.disk.mem.cell job.req.cmd.key) = some e)
      (hv : job.req.cmd.op = .cas → e.value = job.req.cmd.old) :
      Moves s (.begin cut synced) { s with loop := .checked job }
  | beginOther {job : Job Client} {cut : Option ℕ} {synced : Bool} (hl : s.loop = .single job)
      (hop : job.req.cmd.op.conditional = false) :
      Moves s (.begin cut synced) { s with loop := .reply job (.error (.write (.store .unknownOp))) }
  | logFailed {job : Job Client} {cut : Option ℕ} {synced : Bool} (hl : s.loop = .checked job) :
      Moves s (.log cut synced)
        { s with
          disk := (s.disk.tryAppend (Sys.checkedRecord job.req.cmd) job.req.nonce cut).2
          loop := .reply job (.error (.write .file)) }
  | log {job : Job Client} {cut : Option ℕ} {synced : Bool} (hl : s.loop = .checked job) :
      Moves s (.log cut synced)
        { s with
          disk := (s.disk.tryAppend (Sys.checkedRecord job.req.cmd) job.req.nonce cut).2
          loop := .logged job }
  | execute {executed todo : List (Job Client)} {job : Job Client} {after : After Client}
      (hl : s.loop = .apply executed (job :: todo) after) :
      Moves s .execute
        { s with
          disk := { s.disk with mem := DiskStore.applyBatched s.disk.mem job.req.cmd }
          loop := .apply (executed ++ [job]) todo after }
  | executed {executed : List (Job Client)} {after : After Client}
      (hl : s.loop = .apply executed [] after) :
      Moves s .execute { s with loop := .answer executed true after }
  | executeSingle {job : Job Client} (hl : s.loop = .logged job) :
      Moves s .execute
        { s with
          disk := { s.disk with mem := (Sys.executeSingle s.disk.mem job.req.cmd s.clock).2 }
          loop := .reply job ((Sys.executeSingle s.disk.mem job.req.cmd s.clock).1.mapError
            fun e => .write (.store e)) }
  | answer {todo : List (Job Client)} {job : Job Client} {ok : Bool} {after : After Client}
      {req : Request} (hl : s.loop = .answer (job :: todo) ok after)
      (hp : s.phase job.client = .waiting req) :
      Moves s .answer
        ({ s with loop := .answer todo ok after }.setPhase job.client
          (.answered (Sys.batchOutcome ok)))
  | answered {ok : Bool} {after : After Client} (hl : s.loop = .answer [] ok after) :
      Moves s .answer { s with loop := after.loop }
  | reply {job : Job Client} {o : Outcome} {req : Request} (hl : s.loop = .reply job o)
      (hp : s.phase job.client = .waiting req) :
      Moves s .answer ({ s with loop := .select [] false }.setPhase job.client (.answered o))
  | compact {byLoop : Bool} {fault : Option RestorePoint} (hl : s.loop.locked = false) :
      Moves s (.compact byLoop fault) { s with disk := (s.disk.tryCompact fault).2 }
  | sweep : Moves s .sweep
      { s with disk := { s.disk with mem := (s.disk.mem.sweepExpired s.clock).2 } }
  | tick {t : Int64} (ht : s.clock ≤ t) : Moves s (.tick t) ({ s with clock := t }.observe (.tick t))
  | close (hc : s.closer = .running) :
      Moves s .close ({ s with closer := .stoppingSnapshots }.observe .closing)
  | stopSnapshots (hc : s.closer = .stoppingSnapshots) :
      Moves s .stopSnapshots { s with snapshotLoop := false, closer := .stoppingSweeps }
  | stopSweeps (hc : s.closer = .stoppingSweeps) :
      Moves s .stopSweeps { s with expireLoop := false, closer := .locking }
  | lock (hc : s.closer = .locking) (hr : s.readers = []) :
      Moves s .lock
        { s with
          closed := true, chanClosed := true, panicked := s.panicked || s.chanClosed
          closer := .draining }
  | drained (hc : s.closer = .draining) (hl : s.loop = .done) :
      Moves s .drained { s with closer := .compacting }
  | compactLast {fault : Option RestorePoint} {closedFile : Bool} (hc : s.closer = .compacting) :
      Moves s (.compactLast fault closedFile)
        ({ s with disk := (s.disk.tryCompact fault).2, closer := .done }.observe
          (.closed ((s.disk.tryCompact fault).1.isNone && closedFile)))

namespace Sys

variable {s s' : Sys Client}

theorem moves_enter {c : Client} (h : s.enter c = some s') : Moves s (.enter c) s' := by
  unfold enter at h
  split at h
  · next req hp =>
    split_ifs at h with hlock hc <;> cases h
    · exact .refuse hp hlock hc
    · exact .enter hp hlock (by simpa using hc)
  · cases h

theorem moves_send {c : Client} (h : s.send c = some s') : Moves s (.send c) s' := by
  unfold send at h
  split at h
  · next req hp =>
    split_ifs at h with hc <;> cases h
    · exact .panic hp hc
    · exact .send hp (by simpa using hc)
  · cases h

theorem moves_look {c : Client} (h : s.look c = some s') : Moves s (.look c) s' := by
  unfold look at h
  split at h
  · next key hp =>
    -- the three ends of the section that reads the entry
    have hget := MemStore.get_fst s.disk.mem key s.clock s.clock
    split at h
    · next hcell =>
      rw [hcell, Expiring.live_none] at hget
      cases h
      simpa only [Read.result, hget, Option.elim_none] using Moves.look hp
    · next e hcell =>
      split_ifs at h with hd <;> cases h
      · rw [hcell, Expiring.live_some_of_dead hd] at hget
        exact .dead hp hget
      · rw [hcell, Expiring.live_some_of_not_dead (by simpa using hd)] at hget
        simpa only [Read.result, hget, Option.elim_some] using Moves.look hp
  · next cursor count pattern hp =>
    cases h
    exact .look hp
  · next hp =>
    cases h
    exact .look hp
  · cases h

theorem moves_receive (h : s.receive = some s') : Moves s .receive s' := by
  unfold receive at h
  split at h
  · next batch timer job rest hl hq =>
    cases h
    split_ifs with hop hlen
    · exact .receiveSingle hl hq hop
    · exact .receiveFull hl hq (by simpa using hop) hlen
    · exact .receive hl hq (by simpa using hop) (by omega)
  · next batch timer hl hq =>
    split_ifs at h with hc
    cases h
    exact .receiveClosed hl hq hc
  · cases h

theorem moves_write {attempts : List Attempt} {synced : Bool}
    (h : s.write attempts synced = some s') : Moves s (.write attempts synced) s' := by
  unfold write at h
  split at h
  · next after hl =>
    cases h
    exact .writeNone hl
  · next batch after hne hl =>
    split_ifs at h
    cases h
    split_ifs
    · exact .write hl hne
    · exact .writeFailed hl hne
  · cases h

theorem moves_begin {cut : Option ℕ} {synced : Bool} (h : s.begin cut synced = some s') :
    Moves s (.begin cut synced) s' := by
  unfold begin at h
  split at h
  · next job hl =>
    dsimp only at h
    split at h
    · next hop =>
      cases h
      unfold append
      dsimp only
      split_ifs
      · exact .beginIncr hl hop
      · exact .beginFailed hl hop
    all_goals try
      next hop =>
        cases hlive : live s.clock (s.disk.mem.cell job.req.cmd.key) with
        | none =>
          rw [DiskStore.get_of_gone hlive s.clock] at h
          cases h
          exact .beginMissing hl (by simp [hop]) hlive
        | some e =>
          rw [DiskStore.get_of_live hlive] at h
          cases h
          split_ifs with hv
          · exact .beginMismatch hl hv.1 hlive hv.2
          · exact .beginChecked hl (by simp [hop]) hlive fun hc => by
              by_contra hne
              exact hv ⟨hc, hne⟩
    · next hincr hcas hexpire =>
      cases h
      refine .beginOther hl ?_
      cases hop : job.req.cmd.op with
      | incr => exact absurd hop hincr
      | cas => exact absurd hop hcas
      | expire => exact absurd hop hexpire
      | _ => rfl
  · cases h

theorem moves_execute (h : s.execute = some s') : Moves s .execute s' := by
  unfold execute at h
  split at h
  · next hl => cases h; exact .execute hl
  · next hl => cases h; exact .executed hl
  · next hl => cases h; exact .executeSingle hl
  · cases h

theorem moves_answer (h : s.answer = some s') : Moves s .answer s' := by
  unfold answer at h
  split at h
  · next hl =>
    split at h
    · next hp => cases h; exact .answer hl hp
    · cases h
  · next hl => cases h; exact .answered hl
  · next hl =>
    split at h
    · next hp => cases h; exact .reply hl hp
    · cases h
  · cases h

/-- Every step is one of the branches. -/
theorem step_moves {a : Act Client} (h : s.step a = some s') : Moves s a s' := by
  cases a with
  | submit c req =>
    simp only [step] at h
    split at h
    · next hp => cases h; exact .submit hp
    · cases h
  | read c r =>
    simp only [step] at h
    split at h
    · next hp => cases h; exact .read hp
    · cases h
  | enter c => exact moves_enter h
  | send c => exact moves_send h
  | look c => exact moves_look h
  | reap c =>
    simp only [step, reap] at h
    split at h
    · next hp => cases h; exact .reap hp
    · cases h
  | finish c =>
    simp only [step, finish] at h
    split at h
    · next hp => cases h; exact .finish hp
    · next hp => cases h; exact .finishRead hp
    · cases h
  | receive => exact moves_receive h
  | timer =>
    simp only [step, timer] at h
    split at h
    · next hl => cases h; exact .timer hl
    · cases h
  | write attempts synced => exact moves_write h
  | begin cut synced => exact moves_begin h
  | log cut synced =>
    simp only [step, log] at h
    split at h
    · next job hl =>
      cases h
      unfold append
      dsimp only
      split_ifs
      · exact .log hl
      · exact .logFailed hl
    · cases h
  | execute => exact moves_execute h
  | answer => exact moves_answer h
  | compact byLoop fault =>
    simp only [step] at h
    split_ifs at h with hc
    cases h
    exact .compact hc.1
  | sweep =>
    simp only [step] at h
    split_ifs at h
    cases h
    exact .sweep
  | tick t =>
    simp only [step] at h
    split_ifs at h with ht
    cases h
    exact .tick ht
  | close =>
    simp only [step] at h
    split_ifs at h with hc
    cases h
    exact .close hc
  | stopSnapshots =>
    simp only [step] at h
    split_ifs at h with hc
    cases h
    exact .stopSnapshots hc
  | stopSweeps =>
    simp only [step] at h
    split_ifs at h with hc
    cases h
    exact .stopSweeps hc
  | lock =>
    simp only [step, lock] at h
    split_ifs at h with hc
    cases h
    exact .lock hc.1 hc.2
  | drained =>
    simp only [step] at h
    split at h
    · next hc hl => cases h; exact .drained hc hl
    · cases h
  | compactLast fault closedFile =>
    simp only [step, compactLast] at h
    split_ifs at h with hc
    cases h
    exact .compactLast hc

end Sys

end KvStore.Concurrent
