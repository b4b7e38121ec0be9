import KvStore.Storage.Concurrent
import KvStore.Transition.Reach

/-!
# No goroutine of a `DiskStore` is stuck

Invariants of the goroutines of a `DiskStore`, over every interleaving, and the way to rest.

* `Held`: the holders of `closeMu` for reading.
* `Queued`: a goroutine waits for `errChan` exactly while its request is in the channel or in the
  hands of `batchLoop`, and it has one request at most.
* `Shaped`: what the batch is at each point of the loop; it never has more than `maxBatchSize`
  requests, and the timer runs exactly while it has any. The loop never answers `closed`.
* `Shut`: what `Close` has reached. When it closes the channel nobody is inside `submit`, so there
  is nothing left to write.
* `Running.consistent`: they hold in every state of every run; in particular nothing panics.
* `Moves.cost_lt`: every step that is not a new call, a tick or background work takes the store
  closer to rest.
* `Consistent.at_rest`: where no such step is left, every call has returned.
-/

namespace KvStore.Concurrent

open KvStore.Storage

variable {Client : Type}

/-! ## Requests that are not answered yet -/

def After.jobs : After Client → List (Job Client)
  | .single job => [job]
  | _ => []

/-- The requests in the hands of the loop, in the order of their arrival. -/
def Loop.jobs : Loop Client → List (Job Client)
  | .select batch _ => batch
  | .write batch after => batch ++ after.jobs
  | .apply executed todo after => executed ++ todo ++ after.jobs
  | .answer todo _ after => todo ++ after.jobs
  | .single job | .checked job | .logged job | .reply job _ => [job]
  | .done => []

@[simp] theorem After.jobs_loop (after : After Client) : after.loop.jobs = after.jobs := by
  cases after <;> rfl

/-- All requests that have been sent and are not answered yet. -/
def Sys.jobs (s : Sys Client) : List (Job Client) := s.loop.jobs ++ s.batchChan

variable [DecidableEq Client] {s s' : Sys Client} {c : Client} {p : Phase}

/-- Every goroutine that waits has one request on its way, and nobody else has. -/
structure Queued (s : Sys Client) : Prop where
  nodup : (s.jobs.map Job.client).Nodup
  waiting : ∀ c req, s.phase c = .waiting req ↔ Job.mk c req ∈ s.jobs

omit [DecidableEq Client] in
theorem Queued.quiet (h : Queued s) (hphase : s'.phase = s.phase) (hjobs : s'.jobs = s.jobs) :
    Queued s' := by
  refine ⟨by rw [hjobs]; exact h.nodup, fun c req => ?_⟩
  rw [hjobs, hphase]
  exact h.waiting c req

/-- A goroutine that does not wait moves on without a request. -/
theorem Queued.set (h : Queued s) (hphase : s'.phase = Function.update s.phase c p)
    (hjobs : s'.jobs = s.jobs) (hw : ∀ req, s.phase c ≠ .waiting req)
    (hp : ∀ req, p ≠ .waiting req) : Queued s' := by
  refine ⟨by rw [hjobs]; exact h.nodup, fun c' req => ?_⟩
  rw [hjobs, hphase, ← h.waiting c' req]
  by_cases hc : c' = c
  · subst hc
    rw [Function.update_self]
    exact iff_of_false (hp req) (hw req)
  · rw [Function.update_of_ne hc]

omit [DecidableEq Client] in
theorem Queued.not_mem (h : Queued s) (hw : ∀ req, s.phase c ≠ .waiting req) :
    c ∉ s.jobs.map Job.client := by
  intro hmem
  obtain ⟨⟨c', req⟩, hjob, rfl⟩ := List.mem_map.mp hmem
  exact hw req ((h.waiting _ req).mpr hjob)

/-- A request is sent. -/
theorem Queued.send (h : Queued s) {req : Request}
    (hphase : s'.phase = Function.update s.phase c (.waiting req))
    (hjobs : s'.jobs = s.jobs ++ [Job.mk c req]) (hw : ∀ req, s.phase c ≠ .waiting req) :
    Queued s' := by
  have hc := h.not_mem hw
  constructor
  · rw [hjobs, List.map_append]
    exact List.nodup_append.mpr ⟨h.nodup, by simp, by
      intro a ha b hb hab
      obtain rfl : b = c := by simpa using hb
      exact hc (hab ▸ ha)⟩
  · intro c' req'
    rw [hjobs, hphase, List.mem_append, List.mem_singleton]
    by_cases hcc : c' = c
    · subst hcc
      rw [Function.update_self]
      have hnot : Job.mk c' req' ∉ s.jobs := fun hmem => hc (List.mem_map.mpr ⟨_, hmem, rfl⟩)
      simp [hnot, eq_comm]
    · rw [Function.update_of_ne hcc, ← h.waiting c' req']
      simp [hcc]

/-- The oldest request is answered. -/
theorem Queued.answer (h : Queued s) {job : Job Client} {o : Outcome}
    (hphase : s'.phase = Function.update s.phase job.client (.answered o))
    (hjobs : s.jobs = job :: s'.jobs) : Queued s' := by
  have hnodup := h.nodup
  rw [hjobs, List.map_cons, List.nodup_cons] at hnodup
  refine ⟨hnodup.2, fun c req => ?_⟩
  rw [hphase]
  by_cases hc : c = job.client
  · subst hc
    rw [Function.update_self]
    refine iff_of_false (by simp) fun hmem => hnodup.1 (List.mem_map.mpr ⟨_, hmem, rfl⟩)
  · rw [Function.update_of_ne hc, h.waiting c req, hjobs, List.mem_cons]
    refine or_iff_right ?_
    rintro rfl
    exact hc rfl

/-! ## The readers of `closeMu` -/

/-- The lock is held by those whose phase says so. -/
structure Held (s : Sys Client) : Prop where
  nodup : s.readers.Nodup
  holds : ∀ c, c ∈ s.readers ↔ (s.phase c).holds = true

omit [DecidableEq Client] in
theorem Held.quiet (h : Held s) (hphase : s'.phase = s.phase) (hr : s'.readers = s.readers) :
    Held s' := by
  refine ⟨by rw [hr]; exact h.nodup, fun c => ?_⟩
  rw [hr, hphase]
  exact h.holds c

theorem Held.set (h : Held s) (hphase : s'.phase = Function.update s.phase c p)
    (hr : s'.readers = s.readers) (hp : p.holds = (s.phase c).holds) : Held s' := by
  refine ⟨by rw [hr]; exact h.nodup, fun c' => ?_⟩
  rw [hr, hphase, h.holds c']
  by_cases hc : c' = c
  · subst hc
    rw [Function.update_self, hp]
  · rw [Function.update_of_ne hc]

theorem Held.acquire (h : Held s) (hphase : s'.phase = Function.update s.phase c p)
    (hr : s'.readers = c :: s.readers) (hfree : (s.phase c).holds = false) (hp : p.holds = true) :
    Held s' := by
  have hc : c ∉ s.readers := fun hmem => by
    rw [(h.holds c).mp hmem] at hfree
    cases hfree
  refine ⟨by rw [hr]; exact List.nodup_cons.mpr ⟨hc, h.nodup⟩, fun c' => ?_⟩
  rw [hr, hphase, List.mem_cons, h.holds c']
  by_cases hcc : c' = c
  · subst hcc
    simp [hp]
  · simp [hcc]

theorem Held.release (h : Held s) (hphase : s'.phase = Function.update s.phase c p)
    (hr : s'.readers = s.readers.erase c) (hp : p.holds = false) : Held s' := by
  refine ⟨by rw [hr]; exact h.nodup.erase c, fun c' => ?_⟩
  rw [hr, hphase, h.nodup.mem_erase_iff, h.holds c']
  by_cases hcc : c' = c
  · subst hcc
    simp [hp]
  · simp [hcc]

/-! ## The batch -/

/-- The requests of a batch do not look at the memory. -/
def Blind (batch : List (Job Client)) : Prop := ∀ job ∈ batch, job.req.cmd.op.conditional = false

/-- The write that a batch was flushed for does. -/
def After.Conditional : After Client → Prop
  | .single job => job.req.cmd.op.conditional = true
  | _ => True

/-- What `batchLoop` has in hand at each of its points. -/
def Loop.Shaped : Loop Client → Prop
  | .select batch timer => (timer = true ↔ batch ≠ []) ∧ Blind batch ∧ batch.length < maxBatchSize
  | .write batch after => Blind batch ∧ batch.length ≤ maxBatchSize ∧ after.Conditional
  | .apply executed todo after => executed ++ todo ≠ [] ∧ Blind (executed ++ todo) ∧
      after.Conditional
  | .answer todo _ after => Blind todo ∧ after.Conditional
  | .single job | .logged job => job.req.cmd.op.conditional = true
  | .checked job => job.req.cmd.op = .cas ∨ job.req.cmd.op = .expire
  | .reply _ o => o ≠ .error .closed
  | .done => True

omit [DecidableEq Client] in
theorem shaped_select : (Loop.select ([] : List (Job Client)) false).Shaped := by
  refine ⟨by simp, by simp [Blind], ?_⟩
  rw [List.length_nil, maxBatchSize]
  norm_num

omit [DecidableEq Client] in
theorem After.shaped_loop {after : After Client} (h : after.Conditional) : after.loop.Shaped := by
  cases after with
  | again => exact shaped_select
  | single job => exact h
  | finish => trivial

omit [DecidableEq Client] in
theorem Blind.append {batch : List (Job Client)} {job : Job Client} (h : Blind batch)
    (hop : job.req.cmd.op.conditional = false) : Blind (batch ++ [job]) := by
  intro j hj
  rcases List.mem_append.mp hj with hj | hj
  · exact h j hj
  · rw [List.mem_singleton.mp hj]
    exact hop

/-- One step of the loop. -/
theorem Moves.shaped {a : Act Client} (h : Moves s a s') (hs : s.loop.Shaped) : s'.loop.Shaped := by
  cases h with
  | receiveSingle hl hq hop =>
    rw [hl] at hs
    exact ⟨hs.2.1, hs.2.2.le, hop⟩
  | receiveFull hl hq hop hlen =>
    rw [hl] at hs
    have hlt := hs.2.2
    refine ⟨hs.2.1.append hop, ?_, trivial⟩
    rw [List.length_append, List.length_singleton]
    exact hlt
  | receive hl hq hop hlen =>
    rw [hl] at hs
    exact ⟨by simp, hs.2.1.append hop, hlen⟩
  | receiveClosed hl hq hc =>
    rw [hl] at hs
    exact ⟨hs.2.1, hs.2.2.le, trivial⟩
  | timer hl =>
    rw [hl] at hs
    exact ⟨hs.2.1, hs.2.2.le, trivial⟩
  | writeNone hl =>
    rw [hl] at hs
    exact After.shaped_loop hs.2.2
  | writeFailed hl hne =>
    rw [hl] at hs
    exact ⟨hs.1, hs.2.2⟩
  | write hl hne =>
    rw [hl] at hs
    exact ⟨hne, hs.1, hs.2.2⟩
  | beginIncr hl hop =>
    show Op.conditional _ = true
    rw [hop]
    rfl
  | beginChecked hl hop he hv => exact hop
  | log hl =>
    rw [hl] at hs
    show Op.conditional _ = true
    rcases hs with hop | hop <;> rw [hop] <;> rfl
  | @execute executed todo job after hl =>
    rw [hl] at hs
    rwa [Loop.Shaped, List.append_assoc, List.singleton_append]
  | @executed executed after hl =>
    rw [hl, Loop.Shaped, List.append_nil] at hs
    exact hs.2
  | answer hl hp =>
    rw [hl] at hs
    exact ⟨fun j hj => hs.1 j (List.mem_cons_of_mem _ hj), hs.2⟩
  | answered hl =>
    rw [hl] at hs
    exact After.shaped_loop hs.2
  | reply hl hp => exact shaped_select
  | beginFailed | beginMissing | beginMismatch | beginOther | logFailed => simp [Loop.Shaped]
  | @executeSingle job hl =>
    show Except.mapError _ _ ≠ _
    cases (Sys.executeSingle s.disk.mem job.req.cmd s.clock).1 <;> simp [Except.mapError]
  | _ => exact hs

/-! ## `Close` -/

def After.ends : After Client → Bool
  | .finish => true
  | _ => false

/-- The loop has seen that the channel is closed. -/
def Loop.ending : Loop Client → Bool
  | .write _ after | .apply _ _ after | .answer _ _ after => after.ends
  | .done => true
  | _ => false

omit [DecidableEq Client] in
theorem After.ending_loop (after : After Client) : after.loop.ending = after.ends := by
  cases after <;> rfl

/-- How far `Close` has come, and what that says about everybody else. -/
structure Shut (s : Sys Client) : Prop where
  chan : s.chanClosed = s.closed
  closed : s.closed = s.closer.past
  left : s.closed = true → ∀ c req, s.phase c ≠ .entered req ∧ s.phase c ≠ .waiting req
  ending : s.loop.ending = true → s.chanClosed = true ∧ s.batchChan = []
  drained : s.closer = .compacting ∨ s.closer = .done → s.loop = .done
  calm : s.panicked = false

omit [DecidableEq Client] in
/-- The loop moves on and takes the channel as it was. -/
theorem Shut.moveLoop (h : Shut s) {l : Loop Client} (d : DiskStore)
    (hend : l.ending = true → s.loop.ending = true) (hne : s.loop ≠ .done) :
    Shut { s with disk := d, loop := l } :=
  ⟨h.chan, h.closed, h.left, fun he => h.ending (hend he), fun hc => absurd (h.drained hc) hne,
    h.calm⟩

omit [DecidableEq Client] in
/-- The loop takes a request out of the channel. -/
theorem Shut.takeJob (h : Shut s) {l : Loop Client} {rest : List (Job Client)}
    (hend : l.ending = false) (hne : s.loop ≠ .done) :
    Shut { s with batchChan := rest, loop := l } :=
  ⟨h.chan, h.closed, h.left, fun he => absurd (hend.symm.trans he) (by simp),
    fun hc => absurd (h.drained hc) hne, h.calm⟩

/-- What `Shut` looks at besides the goroutines. -/
def Sys.gate (s : Sys Client) :
    Bool × Bool × Closer × Loop Client × List (Job Client) × Bool :=
  (s.chanClosed, s.closed, s.closer, s.loop, s.batchChan, s.panicked)

omit [DecidableEq Client] in
theorem Shut.frame (h : Shut s) (hgate : s'.gate = s.gate)
    (hleft : s.closed = true → ∀ c req, s'.phase c ≠ .entered req ∧ s'.phase c ≠ .waiting req) :
    Shut s' := by
  obtain ⟨h1, h2, h3, h4, h5, h6⟩ : s'.chanClosed = s.chanClosed ∧ s'.closed = s.closed ∧
      s'.closer = s.closer ∧ s'.loop = s.loop ∧ s'.batchChan = s.batchChan ∧
      s'.panicked = s.panicked := by
    simpa only [Sys.gate, Prod.mk.injEq] using hgate
  exact ⟨by rw [h1, h2]; exact h.chan, by rw [h2, h3]; exact h.closed,
    fun hc => hleft (by rw [← h2]; exact hc), by rw [h4, h1, h5]; exact h.ending,
    by rw [h3, h4]; exact h.drained, by rw [h6]; exact h.calm⟩

omit [DecidableEq Client] in
theorem Shut.quiet (h : Shut s) (hgate : s'.gate = s.gate) (hphase : s'.phase = s.phase) :
    Shut s' := h.frame hgate (by rw [hphase]; exact h.left)

/-- A goroutine moves on to a point where it may be after the close. -/
theorem Shut.set (h : Shut s) (hphase : s'.phase = Function.update s.phase c p)
    (hgate : s'.gate = s.gate) (hp : ∀ req, p ≠ .entered req ∧ p ≠ .waiting req) : Shut s' := by
  refine h.frame hgate fun hc c' req => ?_
  rw [hphase]
  by_cases hcc : c' = c
  · subst hcc
    rw [Function.update_self]
    exact hp req
  · rw [Function.update_of_ne hcc]
    exact h.left hc c' req

/-- One step keeps what `Close` has reached. -/
theorem Moves.shut {a : Act Client} (h : Moves s a s') (hs : Shut s) (hheld : Held s) : Shut s' := by
  cases h with
  | submit hp => exact hs.set rfl rfl (by simp)
  | read hp => exact hs.set rfl rfl (by simp)
  | refuse hp hlock hc => exact hs.set rfl rfl (by simp)
  | enter hp hlock hc => exact hs.frame rfl fun hc' => absurd (hc.symm.trans hc') (by simp)
  | panic hp hc => exact absurd hp (hs.left (hs.chan ▸ hc) _ _).1
  | send hp hc =>
    have hopen : s.closed = false := by rw [← hs.chan]; exact hc
    refine ⟨hs.chan, hs.closed, fun hc' => absurd (hopen.symm.trans hc') (by simp),
      fun he => absurd (hc.symm.trans (hs.ending he).1) (by simp), hs.drained, hs.calm⟩
  | look hp => exact hs.set rfl rfl (by simp)
  | dead hp hd => exact hs.set rfl rfl (by simp)
  | reap hp => exact hs.set rfl rfl (by simp)
  | finish hp => exact hs.set rfl rfl (by simp)
  | finishRead hp => exact hs.set rfl rfl (by simp)
  | receiveSingle hl hq hop => exact hs.takeJob rfl (by simp [hl])
  | receiveFull hl hq hop hlen => exact hs.takeJob rfl (by simp [hl])
  | receive hl hq hop hlen => exact hs.takeJob rfl (by simp [hl])
  | receiveClosed hl hq hc =>
    refine ⟨hs.chan, hs.closed, hs.left, fun _ => ⟨hc, hq⟩, fun hd => ?_, hs.calm⟩
    rw [hs.drained hd] at hl
    cases hl
  | timer hl => exact hs.moveLoop _ (by simp [Loop.ending, After.ends]) (by simp [hl])
  | writeNone hl => exact hs.moveLoop _ (by rw [hl, After.ending_loop]; exact id) (by simp [hl])
  | writeFailed hl hne => exact hs.moveLoop _ (by rw [hl]; exact id) (by simp [hl])
  | write hl hne => exact hs.moveLoop _ (by rw [hl]; exact id) (by simp [hl])
  | beginFailed hl hop => exact hs.moveLoop _ (by simp [Loop.ending]) (by simp [hl])
  | beginIncr hl hop => exact hs.moveLoop _ (by simp [Loop.ending]) (by simp [hl])
  | beginMissing hl hop hd => exact hs.moveLoop _ (by simp [Loop.ending]) (by simp [hl])
  | beginMismatch hl hop he hv => exact hs.moveLoop _ (by simp [Loop.ending]) (by simp [hl])
  | beginChecked hl hop he hv => exact hs.moveLoop _ (by simp [Loop.ending]) (by simp [hl])
  | beginOther hl hop => exact hs.moveLoop _ (by simp [Loop.ending]) (by simp [hl])
  | logFailed hl => exact hs.moveLoop _ (by simp [Loop.ending]) (by simp [hl])
  | log hl => exact hs.moveLoop _ (by simp [Loop.ending]) (by simp [hl])
  | execute hl => exact hs.moveLoop _ (by rw [hl]; exact id) (by simp [hl])
  | executed hl => exact hs.moveLoop _ (by rw [hl]; exact id) (by simp [hl])
  | executeSingle hl => exact hs.moveLoop _ (by simp [Loop.ending]) (by simp [hl])
  | answer hl hp =>
    exact (hs.moveLoop s.disk (by rw [hl]; exact id) (by simp [hl])).set rfl rfl (by simp)
  | answered hl => exact hs.moveLoop _ (by rw [hl, After.ending_loop]; exact id) (by simp [hl])
  | reply hl hp =>
    exact (hs.moveLoop s.disk (by simp [Loop.ending]) (by simp [hl])).set rfl rfl (by simp)
  | close hc =>
    refine ⟨hs.chan, ?_, hs.left, hs.ending, by simp [Sys.observe], hs.calm⟩
    show s.closed = false
    rw [hs.closed, hc]
    rfl
  | stopSnapshots hc =>
    refine ⟨hs.chan, ?_, hs.left, hs.ending, by simp, hs.calm⟩
    show s.closed = false
    rw [hs.closed, hc]
    rfl
  | stopSweeps hc =>
    refine ⟨hs.chan, ?_, hs.left, hs.ending, by simp, hs.calm⟩
    show s.closed = false
    rw [hs.closed, hc]
    rfl
  | lock hc hr =>
    have hopen : s.chanClosed = false := by rw [hs.chan, hs.closed, hc]; rfl
    refine ⟨rfl, rfl, fun _ c req => ?_, fun he => ⟨rfl, (hs.ending he).2⟩, by simp, ?_⟩
    · -- a reader would be in `readers`
      have hfree : (s.phase c).holds = false := by
        by_contra hh
        have hmem := (hheld.holds c).mpr (by simpa using hh)
        rw [hr] at hmem
        cases hmem
      constructor <;> intro hp <;> rw [hp] at hfree <;> cases hfree
    · show (s.panicked || s.chanClosed) = false
      rw [hs.calm, hopen]
      rfl
  | drained hc hl =>
    refine ⟨hs.chan, ?_, hs.left, hs.ending, fun _ => hl, hs.calm⟩
    show s.closed = true
    rw [hs.closed, hc]
    rfl
  | compactLast hc =>
    refine ⟨hs.chan, ?_, hs.left, hs.ending, fun _ => hs.drained (.inl hc), hs.calm⟩
    show s.closed = true
    rw [hs.closed, hc]
    rfl
  | compact hl => exact hs.quiet rfl rfl
  | sweep => exact hs.quiet rfl rfl
  | tick ht => exact hs.quiet rfl rfl

/-! ## All of them -/

theorem Moves.held {a : Act Client} (h : Moves s a s') (hs : Held s) : Held s' := by
  cases h with
  | submit hp => exact hs.set rfl rfl (by rw [hp]; rfl)
  | read hp => exact hs.set rfl rfl (by rw [hp]; rfl)
  | refuse hp hlock hc => exact hs.acquire rfl rfl (by rw [hp]; rfl) rfl
  | enter hp hlock hc => exact hs.acquire rfl rfl (by rw [hp]; rfl) rfl
  | send hp hc => exact hs.set rfl rfl (by rw [hp]; rfl)
  | look hp => exact hs.set rfl rfl (by rw [hp]; rfl)
  | dead hp hd => exact hs.set rfl rfl (by rw [hp]; rfl)
  | reap hp => exact hs.set rfl rfl (by rw [hp]; rfl)
  | finish hp => exact hs.release rfl rfl rfl
  | finishRead hp => exact hs.set rfl rfl (by rw [hp]; rfl)
  | answer hl hp => exact hs.set rfl rfl (by rw [hp]; rfl)
  | reply hl hp => exact hs.set rfl rfl (by rw [hp]; rfl)
  | _ => exact hs.quiet rfl rfl

theorem Moves.queued {a : Act Client} (h : Moves s a s') (hs : Queued s) : Queued s' := by
  cases h with
  | submit hp => exact hs.set rfl rfl (by simp [hp]) (by simp)
  | read hp => exact hs.set rfl rfl (by simp [hp]) (by simp)
  | refuse hp hlock hc => exact hs.set rfl rfl (by simp [hp]) (by simp)
  | enter hp hlock hc => exact hs.set rfl rfl (by simp [hp]) (by simp)
  | send hp hc =>
    refine hs.send rfl ?_ (by simp [hp])
    exact (List.append_assoc _ _ _).symm
  | look hp => exact hs.set rfl rfl (by simp [hp]) (by simp)
  | dead hp hd => exact hs.set rfl rfl (by simp [hp]) (by simp)
  | reap hp => exact hs.set rfl rfl (by simp [hp]) (by simp)
  | finish hp => exact hs.set rfl rfl (by simp [hp]) (by simp)
  | finishRead hp => exact hs.set rfl rfl (by simp [hp]) (by simp)
  | answer hl hp => exact hs.answer rfl (by simp [Sys.jobs, Loop.jobs, hl, Sys.setPhase])
  | reply hl hp => exact hs.answer rfl (by simp [Sys.jobs, Loop.jobs, hl, Sys.setPhase])
  | receiveSingle hl hq hop =>
    exact hs.quiet rfl (by simp [Sys.jobs, Loop.jobs, After.jobs, hl, hq])
  | receiveFull hl hq hop hlen =>
    exact hs.quiet rfl (by simp [Sys.jobs, Loop.jobs, After.jobs, hl, hq])
  | receive hl hq hop hlen => exact hs.quiet rfl (by simp [Sys.jobs, Loop.jobs, hl, hq])
  | receiveClosed hl hq hc => exact hs.quiet rfl (by simp [Sys.jobs, Loop.jobs, After.jobs, hl])
  | timer hl => exact hs.quiet rfl (by simp [Sys.jobs, Loop.jobs, After.jobs, hl])
  | writeNone hl => exact hs.quiet rfl (by rw [Sys.jobs, Sys.jobs, After.jobs_loop, hl]; rfl)
  | answered hl => exact hs.quiet rfl (by rw [Sys.jobs, Sys.jobs, After.jobs_loop, hl]; rfl)
  | writeFailed hl _ | write hl _ | beginFailed hl _ | beginIncr hl _ | beginMissing hl _ _
  | beginMismatch hl _ _ _ | beginChecked hl _ _ _ | beginOther hl _ | logFailed hl | log hl
  | execute hl | executed hl | executeSingle hl =>
    exact hs.quiet rfl (by simp [Sys.jobs, Loop.jobs, hl])
  | _ => exact hs.quiet rfl rfl

/-- The state of a store whose goroutines keep to their protocol. -/
structure Consistent (s : Sys Client) : Prop where
  held : Held s
  queued : Queued s
  shaped : s.loop.Shaped
  shut : Shut s

omit [DecidableEq Client] in
theorem consistent_init (d : DiskStore) (t : Int64) : Consistent (Sys.init d t : Sys Client) where
  held := ⟨List.nodup_nil, by simp [Sys.init, Phase.holds]⟩
  queued := ⟨List.nodup_nil, by simp [Sys.init, Sys.jobs, Loop.jobs]⟩
  shaped := shaped_select
  shut := ⟨rfl, rfl, by simp [Sys.init], by simp [Sys.init, Loop.ending], by simp [Sys.init], rfl⟩

theorem Consistent.step (h : Consistent s) {a : Act Client} (ha : s.step a = some s') :
    Consistent s' :=
  have hm := Sys.step_moves ha
  ⟨hm.held h.held, hm.queued h.queued, hm.shaped h.shaped, hm.shut h.shut h.held⟩

/-- The states that a store opened as `d` at the clock reading `t` can be in. -/
abbrev Running (d : DiskStore) (t : Int64) : Sys Client → Prop :=
  Transition.Reach Sys.step (fun _ _ => True) (Sys.init d t)

theorem Running.consistent {d : DiskStore} {t : Int64} (h : Running d t s) : Consistent s :=
  h.invariant (consistent_init d t) fun hc _ hs => hc.step hs

omit [DecidableEq Client] in
/-- Once the channel is closed there is no request left. -/
theorem Consistent.jobs_eq_nil (h : Consistent s) (hc : s.closed = true) : s.jobs = [] := by
  refine List.eq_nil_iff_forall_not_mem.mpr fun job hjob => ?_
  exact (h.shut.left hc job.client job.req).2 ((h.queued.waiting _ _).mpr hjob)

/-! ## The way to rest -/

/-- A step of work that has been begun: not a new call, not a tick, no background work. -/
def Act.finishes : Act Client → Bool
  | .submit _ _ | .read _ _ | .compact _ _ | .sweep | .tick _ | .close => false
  | _ => true

/-- How many steps a goroutine may still need, with those the loop takes for its request. -/
def Phase.cost : Phase → ℕ
  | .idle => 0
  | .entering _ => 70
  | .entered _ => 69
  | .waiting _ => 3
  | .answered _ => 1
  | .reading _ => 3
  | .reaping _ => 2
  | .seen _ => 1

def After.cost : After Client → ℕ
  | .again => 2
  | .single _ => 20
  | .finish => 0

/-- The same for the requests in the hands of the loop. -/
def Loop.cost : Loop Client → ℕ
  | .select batch _ => 3 + 40 * batch.length
  | .write batch after => 2 + 30 * batch.length + after.cost
  | .apply executed todo after => 2 + 20 * executed.length + 21 * todo.length + after.cost
  | .answer todo _ after => 2 + 10 * todo.length + after.cost
  | .single _ => 15
  | .checked _ => 12
  | .logged _ => 9
  | .reply _ _ => 6
  | .done => 0

def Closer.cost : Closer → ℕ
  | .running => 0
  | .stoppingSnapshots => 5
  | .stoppingSweeps => 4
  | .locking => 3
  | .draining => 2
  | .compacting => 1
  | .done => 0

omit [DecidableEq Client] in
theorem After.cost_loop_lt (after : After Client) : after.loop.cost < 2 + after.cost := by
  cases after <;> simp [After.loop, Loop.cost, After.cost]

section Rest

variable [Fintype Client]

/-- A bound on the steps that are left to do. -/
def Sys.cost (s : Sys Client) : ℕ :=
  ∑ c, (s.phase c).cost + 50 * s.batchChan.length + s.loop.cost + s.closer.cost

/-- What the goroutines need after one of them has moved. -/
theorem sum_cost_update (phase : Client → Phase) (c : Client) (p : Phase) :
    ∑ x, (Function.update phase c p x).cost + (phase c).cost = ∑ x, (phase x).cost + p.cost := by
  have hrest : ∑ x ∈ Finset.univ.erase c, (Function.update phase c p x).cost =
      ∑ x ∈ Finset.univ.erase c, (phase x).cost := by
    refine Finset.sum_congr rfl fun x hx => ?_
    rw [Function.update_of_ne (Finset.ne_of_mem_erase hx)]
  have hnew := Finset.add_sum_erase Finset.univ (fun x => (Function.update phase c p x).cost)
    (Finset.mem_univ c)
  have hold := Finset.add_sum_erase Finset.univ (fun x => (phase x).cost) (Finset.mem_univ c)
  rw [Function.update_self, hrest] at hnew
  omega

/-- **One step of work** takes the store closer to rest. -/
theorem Moves.cost_lt {a : Act Client} (h : Moves s a s') (hs : Consistent s)
    (ha : a.finishes = true) : s'.cost < s.cost := by
  have hsum := sum_cost_update s.phase
  unfold Sys.cost
  cases h with
  | @refuse c req hp hlock hc =>
    have := hsum c (.answered (.error .closed))
    rw [hp] at this
    simp only [Sys.setPhase, Phase.cost] at this ⊢
    omega
  | @enter c req hp hlock hc =>
    have := hsum c (.entered req)
    rw [hp] at this
    simp only [Sys.setPhase, Phase.cost] at this ⊢
    omega
  | panic hp hc => exact absurd hp (hs.shut.left (hs.shut.chan ▸ hc) _ _).1
  | @send c req hp hc =>
    have := hsum c (.waiting req)
    rw [hp] at this
    simp only [Sys.setPhase, Phase.cost, List.length_append, List.length_singleton] at this ⊢
    omega
  | @look c r hp =>
    have := hsum c (.seen (r.result s.disk.mem s.clock))
    rw [hp] at this
    simp only [Sys.setPhase, Phase.cost] at this ⊢
    omega
  | @dead c key hp hd =>
    have := hsum c (.reaping key)
    rw [hp] at this
    simp only [Sys.setPhase, Phase.cost] at this ⊢
    omega
  | @reap c key hp =>
    have := hsum c (.seen (.value (.error .notFound)))
    rw [hp] at this
    simp only [Sys.setPhase, Phase.cost] at this ⊢
    omega
  | @finish c o hp =>
    have := hsum c .idle
    rw [hp] at this
    simp only [Sys.setPhase, Sys.observe, Phase.cost] at this ⊢
    omega
  | @finishRead c r hp =>
    have := hsum c .idle
    rw [hp] at this
    simp only [Sys.setPhase, Sys.observe, Phase.cost] at this ⊢
    omega
  | receiveSingle hl hq hop =>
    simp only [hl, hq, Loop.cost, After.cost, List.length_cons]
    omega
  | receiveFull hl hq hop hlen =>
    simp only [hl, hq, Loop.cost, After.cost, List.length_cons, List.length_append, List.length_nil]
    omega
  | receive hl hq hop hlen =>
    simp only [hl, hq, Loop.cost, List.length_cons, List.length_append, List.length_nil]
    omega
  | receiveClosed hl hq hc =>
    simp only [hl, Loop.cost, After.cost]
    omega
  | @timer batch hl =>
    have hshape := hs.shaped
    rw [hl] at hshape
    have hlen := List.length_pos_iff.mpr (hshape.1.mp rfl)
    simp only [hl, Loop.cost, After.cost]
    omega
  | @writeNone after attempts synced hl =>
    have hlt := after.cost_loop_lt
    have hold : s.loop.cost = 2 + after.cost := by rw [hl]; simp [Loop.cost]
    dsimp only
    omega
  | writeFailed hl hne =>
    have hlen := List.length_pos_iff.mpr hne
    simp only [hl, Loop.cost]
    omega
  | write hl hne =>
    have hlen := List.length_pos_iff.mpr hne
    simp only [hl, Loop.cost, List.length_nil]
    omega
  | executed hl =>
    have hshape := hs.shaped
    rw [hl, Loop.Shaped, List.append_nil] at hshape
    have hlen := List.length_pos_iff.mpr hshape.1
    simp only [hl, Loop.cost, List.length_nil]
    omega
  | @answer todo job ok after req hl hp =>
    have := hsum job.client (.answered (Sys.batchOutcome ok))
    rw [hp] at this
    simp only [Sys.setPhase, hl, Loop.cost, Phase.cost, List.length_cons] at this ⊢
    omega
  | @answered ok after hl =>
    have hlt := after.cost_loop_lt
    have hold : s.loop.cost = 2 + after.cost := by rw [hl]; simp [Loop.cost]
    dsimp only
    omega
  | @reply job o req hl hp =>
    have := hsum job.client (.answered o)
    rw [hp] at this
    simp only [Sys.setPhase, hl, Loop.cost, Phase.cost, List.length_nil] at this ⊢
    omega
  | execute hl =>
    simp only [hl, Loop.cost, List.length_cons, List.length_append, List.length_nil]
    omega
  | beginFailed hl _ | beginIncr hl _ | beginMissing hl _ _ | beginMismatch hl _ _ _
  | beginChecked hl _ _ _ | beginOther hl _ | logFailed hl | log hl | executeSingle hl =>
    simp only [hl, Loop.cost]
    omega
  | stopSnapshots hc | stopSweeps hc | lock hc _ | drained hc _ | compactLast hc =>
    simp only [hc, Closer.cost, Sys.observe]
    omega
  | submit | read | compact | sweep | tick | close => cases ha

end Rest

/-! ## No deadlock -/

/-- The loop can go on unless it has ended, or waits for a request in an open channel. -/
theorem Consistent.loop_at_rest (h : Consistent s)
    (hstuck : ∀ a : Act Client, a.finishes = true → s.step a = none) :
    s.loop = .done ∨ s.loop = .select [] false ∧ s.batchChan = [] ∧ s.chanClosed = false := by
  -- the goroutine of the oldest request is there to take the answer
  have hfirst : ∀ (job : Job Client) rest, s.loop.jobs = job :: rest →
      s.phase job.client = .waiting job.req := fun job rest hj =>
    (h.queued.waiting job.client job.req).mpr (by simp [Sys.jobs, hj])
  have hshaped := h.shaped
  cases hl : s.loop with
  | select batch timer =>
    rw [hl] at hshaped
    refine .inr ?_
    have hreceive := hstuck .receive rfl
    simp only [Sys.step, Sys.receive, hl] at hreceive
    cases hq : s.batchChan with
    | cons job rest => rw [hq] at hreceive; cases hreceive
    | nil =>
      rw [hq] at hreceive
      have htimer := hstuck .timer rfl
      simp only [Sys.step, Sys.timer, hl] at htimer
      cases timer with
      | true => cases htimer
      | false =>
        have hbatch : batch = [] := by
          by_contra hne
          exact absurd (hshaped.1.mpr hne) (by simp)
        refine ⟨by rw [hbatch], rfl, ?_⟩
        cases hc : s.chanClosed with
        | false => rfl
        | true => rw [hc] at hreceive; cases hreceive
  | write batch after =>
    have hwrite := hstuck (.write (batch.map fun job => ⟨job.req.cmd, job.req.nonce, none⟩) true) rfl
    simp only [Sys.step, Sys.write, hl] at hwrite
    cases batch with
    | nil => cases hwrite
    | cons job batch => simp at hwrite
  | apply batch todo after =>
    have hexec := hstuck .execute rfl
    simp only [Sys.step, Sys.execute, hl] at hexec
    cases todo <;> cases hexec
  | answer todo ok after =>
    have hans := hstuck .answer rfl
    simp only [Sys.step, Sys.answer, hl] at hans
    cases todo with
    | nil => cases hans
    | cons job todo =>
      dsimp only at hans
      rw [hfirst job (todo ++ after.jobs) (by rw [hl]; rfl)] at hans
      cases hans
  | single job =>
    have hbegin := hstuck (.begin none true) rfl
    simp only [Sys.step, Sys.begin, hl] at hbegin
    split at hbegin
    · cases hbegin
    · split at hbegin <;> cases hbegin
    · split at hbegin <;> cases hbegin
    · cases hbegin
  | checked job =>
    have hlog := hstuck (.log none true) rfl
    simp only [Sys.step, Sys.log, hl] at hlog
    cases hlog
  | logged job =>
    have hexec := hstuck .execute rfl
    simp only [Sys.step, Sys.execute, hl] at hexec
    cases hexec
  | reply job o =>
    have hans := hstuck .answer rfl
    simp only [Sys.step, Sys.answer, hl] at hans
    rw [hfirst job [] (by rw [hl]; rfl)] at hans
    cases hans
  | done => exact .inl rfl

omit [DecidableEq Client] in
/-- At that point no request is left. -/
theorem Consistent.no_waiting (h : Consistent s)
    (hrest : s.loop = .done ∨ s.loop = .select [] false ∧ s.batchChan = [] ∧ s.chanClosed = false)
    (c : Client) (req : Request) : s.phase c ≠ .waiting req := by
  intro hp
  have hjob := (h.queued.waiting c req).mp hp
  have hjobs : s.jobs = [] := by
    rcases hrest with hl | ⟨hl, hq, -⟩
    · have hq := (h.shut.ending (by rw [hl]; rfl)).2
      rw [Sys.jobs, hl, hq]
      rfl
    · rw [Sys.jobs, hl, hq]
      rfl
  rw [hjobs] at hjob
  cases hjob

/-- A goroutine inside `submit` can go on, so nobody holds `closeMu` for ever. -/
theorem Consistent.not_holding (h : Consistent s)
    (hstuck : ∀ a : Act Client, a.finishes = true → s.step a = none) (c : Client) :
    (s.phase c).holds = false := by
  have hrest := h.loop_at_rest hstuck
  cases hp : s.phase c with
  | waiting req => exact absurd hp (h.no_waiting hrest c req)
  | answered o =>
    have hfin := hstuck (.finish c) rfl
    simp [Sys.step, Sys.finish, hp] at hfin
  | entered req =>
    have hopen : s.chanClosed = false := by
      by_contra hc
      rw [Bool.not_eq_false, h.shut.chan] at hc
      exact (h.shut.left hc c req).1 hp
    have hq : s.batchChan = [] := by
      rcases hrest with hl | ⟨-, hq, -⟩
      · exact (h.shut.ending (by rw [hl]; rfl)).2
      · exact hq
    have hsend := hstuck (.send c) rfl
    simp [Sys.step, Sys.send, hp, hopen, hq, maxBatchSize] at hsend
  | _ => rfl

/-- **No deadlock**: if no step of begun work is possible, every call has returned, and so has
    `Close` if it was called. -/
theorem Consistent.at_rest (h : Consistent s)
    (hstuck : ∀ a : Act Client, a.finishes = true → s.step a = none) :
    (∀ c, s.phase c = .idle) ∧ (s.closer = .running ∨ s.closer = .done) := by
  have hfree := h.not_holding hstuck
  have hreaders : s.readers = [] := by
    refine List.eq_nil_iff_forall_not_mem.mpr fun c hc => ?_
    rw [h.held.holds c, hfree c] at hc
    cases hc
  -- so `Close` cannot be waiting for the lock
  have hlock : s.closer ≠ .locking := by
    intro hc
    have hlock := hstuck .lock rfl
    simp [Sys.step, Sys.lock, hc, hreaders] at hlock
  constructor
  · intro c
    cases hp : s.phase c with
    | idle => rfl
    | entering req =>
      have henter := hstuck (.enter c) rfl
      simp [Sys.step, Sys.enter, hp, hlock] at henter
    | reading r =>
      have hlook := hstuck (.look c) rfl
      cases r with
      | get key =>
        simp only [Sys.step, Sys.look, hp] at hlook
        split at hlook
        · cases hlook
        · split_ifs at hlook
      | scan cursor count pattern => simp [Sys.step, Sys.look, hp] at hlook
      | size => simp [Sys.step, Sys.look, hp] at hlook
    | reaping key =>
      have hreap := hstuck (.reap c) rfl
      simp [Sys.step, Sys.reap, hp] at hreap
    | seen r =>
      have hfin := hstuck (.finish c) rfl
      simp [Sys.step, Sys.finish, hp] at hfin
    | entered req => have := hfree c; rw [hp] at this; cases this
    | waiting req => have := hfree c; rw [hp] at this; cases this
    | answered o => have := hfree c; rw [hp] at this; cases this
  · cases hc : s.closer with
    | running => exact .inl rfl
    | done => exact .inr rfl
    | locking => exact absurd hc hlock
    | stoppingSnapshots =>
      have hstop := hstuck .stopSnapshots rfl
      simp [Sys.step, hc] at hstop
    | stoppingSweeps =>
      have hstop := hstuck .stopSweeps rfl
      simp [Sys.step, hc] at hstop
    | draining =>
      rcases h.loop_at_rest hstuck with hl | ⟨-, -, hopen⟩
      · have hdrained := hstuck .drained rfl
        simp [Sys.step, hc, hl] at hdrained
      · rw [h.shut.chan, h.shut.closed, hc] at hopen
        cases hopen
    | compacting =>
      have hlast := hstuck (.compactLast none true) rfl
      simp [Sys.step, Sys.compactLast, hc] at hlast

end KvStore.Concurrent
