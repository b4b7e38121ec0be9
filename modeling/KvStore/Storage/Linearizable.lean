import KvStore.Storage.Atomic
import KvStore.Storage.Shutdown

/-!
# A `DiskStore` behaves as one atomic store

The goroutines of a `DiskStore` are related to the `Atomic` store by what each of them can still
expect (`Sys.view`): a write takes effect when `batchLoop` changes the memory, long before its
caller hears of it, and the sweeps and the lazy expiry of reads do not show.

* `Related.step`: one step of the goroutines is at most one step of the atomic store.
* `store_linearizable`: whatever the interleaving, the calls, returns and clock readings that are
  observed are those of a run of the atomic store. The one exception is a `CAS` whose key expires
  between its check and its write (`CasAlive`).
* `expired_cas_not_linearizable`: with such a `CAS` there may be no such run.
-/

namespace KvStore.Concurrent

open KvStore.Storage
open KvStore.Expiring (live)
open KvStore.Transition (Reach)

/-! ## What the goroutines can still expect -/

variable {Client : Type} [DecidableEq Client]

/-- The requests that have been executed and not yet answered. A batch that has failed counts as
    not executed until each request is told. -/
def Loop.settled : Loop Client → List (Client × Outcome)
  | .apply executed _ _ => executed.map fun job => (job.client, .ok .none)
  | .answer todo true _ => todo.map fun job => (job.client, .ok .none)
  | .reply job o => [(job.client, o)]
  | _ => []

/-- Where the call of a goroutine stands in the atomic store. -/
def Sys.view (s : Sys Client) (c : Client) : Atomic.Phase :=
  match s.phase c with
  | .idle => .idle
  | .entering req | .entered req => .called (.write req.cmd)
  | .waiting req =>
    match s.loop.settled.lookup c with
    | some o => .done (.wrote o)
    | none => .called (.write req.cmd)
  | .answered o => .done (.wrote o)
  | .reading r => .called (.read r)
  | .reaping _ => .done (.saw (.value (.error .notFound)))
  | .seen r => .done (.saw r)

/-- Where `Close` stands in the atomic store. -/
def Closer.view : Closer → Atomic.Close
  | .running => .opened
  | .stoppingSnapshots | .stoppingSweeps | .locking => .closing
  | .draining | .compacting => .sealed
  | .done => .returned

/-- The atomic store shows what the goroutines work on. -/
structure Related (s : Sys Client) (a : Atomic.State Client) : Prop where
  clock : a.clock = s.clock
  history : a.history = s.history
  store : MemStore.SameAt s.clock s.disk.mem a.store
  close : a.close = s.closer.view
  phase : ∀ c, a.phase c = s.view c

variable {s s' : Sys Client} {a : Atomic.State Client} {c : Client}

/-- The view of a goroutine that does not move, while the loop does nothing for it. -/
theorem view_congr {c : Client} (hp : s'.phase c = s.phase c)
    (hl : s'.loop.settled.lookup c = s.loop.settled.lookup c) : s'.view c = s.view c := by
  rw [Sys.view, Sys.view, hp, hl]

omit [DecidableEq Client] in
theorem Loop.settled_after (after : After Client) : after.loop.settled = [] := by
  cases after <;> rfl

theorem lookup_map_client (jobs : List (Job Client)) (o : Outcome) (c : Client) :
    (jobs.map fun job => (job.client, o)).lookup c =
      if c ∈ jobs.map Job.client then some o else none := by
  induction jobs with
  | nil => rfl
  | cons job jobs ih =>
    rw [List.map_cons, List.lookup_cons, ih, List.map_cons]
    by_cases hc : c = job.client
    · simp [hc]
    · have hbeq : (c == job.client) = false := by simpa using hc
      simp [hbeq, hc]

/-- Only requests in the hands of the loop are settled. -/
theorem lookup_settled_of_not_mem (l : Loop Client) {c : Client} (hc : c ∉ l.jobs.map Job.client) :
    l.settled.lookup c = none := by
  cases l with
  | apply executed todo after =>
    rw [Loop.settled, lookup_map_client, if_neg]
    intro hmem
    rw [Loop.jobs, List.map_append, List.map_append] at hc
    exact hc (List.mem_append_left _ (List.mem_append_left _ hmem))
  | answer todo ok after =>
    cases ok with
    | false => rfl
    | true =>
      rw [Loop.settled, lookup_map_client, if_neg]
      intro hmem
      rw [Loop.jobs, List.map_append] at hc
      exact hc (List.mem_append_left _ hmem)
  | reply job o =>
    have hne : (c == job.client) = false := by simpa [Loop.jobs] using hc
    simp [Loop.settled, List.lookup_cons, hne]
  | _ => rfl

/-! ## Operations on stores that look alike -/

/-- A command on stores that look alike. -/
theorem sameAt_apply {t : Int64} {m m' : MemStore} (h : MemStore.SameAt t m m') (cmd : Command) :
    (m.apply cmd t).1 = (m'.apply cmd t).1 ∧
      MemStore.SameAt t (m.apply cmd t).2 (m'.apply cmd t).2 := by
  refine ⟨?_, (MemStore.apply_sameAt_iff (Int64.le_refl t) h).mpr (cmd.harmless_self t _)⟩
  rw [MemStore.apply_result, MemStore.apply_result]
  cases hop : cmd.op.conditional with
  | true => rw [Command.onCell_congr hop (h cmd.key)]
  | false =>
    unfold Command.onCell
    cases hop' : cmd.op <;> first | rfl | simp [hop', Op.conditional] at hop

/-- A request of a batch does what the operation of `MemStore` does. -/
theorem apply_batched {req : Request} (hop : req.cmd.op.conditional = false) (m : MemStore)
    (t : Int64) : m.apply req.cmd t = (.ok .none, DiskStore.applyBatched m req.cmd) := by
  unfold MemStore.apply DiskStore.applyBatched
  cases hop' : req.cmd.op with
  | other code => exact absurd hop' (req.known code)
  | incr => simp [hop', Op.conditional] at hop
  | cas => simp [hop', Op.conditional] at hop
  | expire => simp [hop', Op.conditional] at hop
  | _ => rfl

/-- `writeSingle` does what the operation of `MemStore` does, if the key of a `CAS` still has the
    value it was checked for. -/
theorem executeSingle_eq {m : MemStore} {cmd : Command} {t : Int64}
    (hop : cmd.op.conditional = true)
    (hcas : cmd.op = .cas → ∃ e, live t (m.cell cmd.key) = some e ∧ e.value = cmd.old) :
    Sys.executeSingle m cmd t = m.apply cmd t := by
  unfold Sys.executeSingle MemStore.apply
  cases hop' : cmd.op with
  | incr => rfl
  | expire => rfl
  | cas =>
    obtain ⟨e, he, hv⟩ := hcas hop'
    obtain ⟨hcell, hd⟩ := Expiring.live_eq_some_iff.mp he
    rw [dead_eq] at hd
    simp [MemStore.cas, MemStore.lookup, hcell, hd, hv, Except.map]
  | _ => simp [hop', Op.conditional] at hop

/-- A `CAS` or an `Expire` of a key that is not there. -/
theorem apply_missing {m : MemStore} {cmd : Command} {t : Int64}
    (hop : cmd.op = .cas ∨ cmd.op = .expire) (hd : live t (m.cell cmd.key) = none) :
    (m.apply cmd t).1 = .error .notFound ∧ MemStore.SameAt t (m.apply cmd t).2 m := by
  constructor
  · rw [MemStore.apply_result]
    rcases hop with hop | hop <;> simp [Command.onCell, hop, hd]
  · refine Command.sameAt_of_not_logged ?_
    rcases hop with hop | hop <;> simp [Command.logged, hop, hd]

/-- A `CAS` that does not find the value it expects. -/
theorem apply_mismatch {m : MemStore} {cmd : Command} {t : Int64} {e : Entry} (hop : cmd.op = .cas)
    (he : live t (m.cell cmd.key) = some e) (hv : e.value ≠ cmd.old) :
    (m.apply cmd t).1 = .ok (.bool false) ∧ MemStore.SameAt t (m.apply cmd t).2 m := by
  constructor
  · rw [MemStore.apply_result]
    simp [Command.onCell, hop, he, hv]
  · exact Command.sameAt_of_not_logged (by simp [Command.logged, hop, he, hv])

/-- A read of stores that look alike. -/
theorem Read.result_congr {t : Int64} {m m' : MemStore} (h : MemStore.SameAt t m m') (r : Read) :
    r.result m t = r.result m' t := by
  cases r with
  | get key => exact congrArg Reading.value (h.get (Int64.le_refl t) key).result
  | scan cursor count pattern => exact congrArg Reading.page (h.scan_eq cursor count pattern)
  | size => exact congrArg Reading.count h.size_eq

theorem mem_tryAppends (d : DiskStore) (attempts : List Attempt) :
    (d.tryAppends attempts).2.mem = d.mem := by
  rw [DiskStore.tryAppends_eq]
  rfl

theorem mem_tryAppend (d : DiskStore) (r : Record) (nonce : Nonce) (cut : Option ℕ) :
    (d.tryAppend r nonce cut).2.mem = d.mem := by
  cases cut <;> rfl

theorem mem_tryCompact (d : DiskStore) (fault : Option RestorePoint) :
    (d.tryCompact fault).2.mem = d.mem := by
  unfold DiskStore.tryCompact
  cases d.cipher with
  | none => split_ifs <;> rfl
  | some cipher => split_ifs <;> rfl

/-! ## The `CAS` in two sections -/

/-- The key of a `CAS` that is about to be written. -/
def Loop.casKey? : Loop Client → Option Bytes
  | .logged job => if job.req.cmd.op = .cas then some job.req.cmd.key else none
  | _ => none

def Act.executes : Act Client → Bool
  | .execute => true
  | _ => false

/-- A `CAS` writes while the key it has checked is alive. -/
def CasAlive (s : Sys Client) (b : Act Client) : Prop :=
  b.executes = true → ∀ key ∈ s.loop.casKey?, (live s.clock (s.disk.mem.cell key)).isSome = true

instance (s : Sys Client) (b : Act Client) : Decidable (CasAlive s b) :=
  inferInstanceAs (Decidable (_ → _))

/-- While a `CAS` is between its check and its write, its key has the value that was checked, or
    has expired. -/
def CasKept (s : Sys Client) : Prop :=
  ∀ job, s.loop = .checked job ∨ s.loop = .logged job → job.req.cmd.op = .cas →
    ∀ e, live s.clock (s.disk.mem.cell job.req.cmd.key) = some e → e.value = job.req.cmd.old

omit [DecidableEq Client] in
theorem CasKept.quiet (h : CasKept s) (hl : s'.loop = s.loop)
    (hlive : ∀ k e, live s'.clock (s'.disk.mem.cell k) = some e →
      live s.clock (s.disk.mem.cell k) = some e) : CasKept s' := by
  intro job hjob hop e he
  rw [hl] at hjob
  exact h job hjob hop e (hlive _ e he)

omit [DecidableEq Client] in
theorem casKept_of_elsewhere (hc : ∀ job, s.loop ≠ .checked job) (hl : ∀ job, s.loop ≠ .logged job) :
    CasKept s := by
  rintro job (h | h)
  · exact absurd h (hc job)
  · exact absurd h (hl job)

/-- Nobody else writes in between. -/
theorem Moves.casKept {b : Act Client} (h : Moves s b s') (hs : CasKept s) : CasKept s' := by
  cases h with
  | reap hp =>
    refine hs.quiet rfl fun k e he => ?_
    rw [← MemStore.sameAt_lookup (m := s.disk.mem) _ k]
    exact he
  | sweep =>
    refine hs.quiet rfl fun k e he => ?_
    rw [← s.disk.mem.sameAt_sweepExpired (Int64.le_refl s.clock) k]
    exact he
  | tick ht =>
    refine hs.quiet rfl fun k e he => ?_
    -- what is alive later was alive before
    obtain ⟨hcell, hd⟩ := Expiring.live_eq_some_iff.mp he
    refine Expiring.live_eq_some_iff.mpr ⟨hcell, ?_⟩
    by_contra hdead
    have hlater := Expiring.Mortal.dead_mono ht (Bool.eq_true_of_not_eq_false hdead)
    exact absurd (hd.symm.trans hlater) (by simp)
  | beginIncr hl hop =>
    rintro job (hj | hj) hcas
    · cases hj
    · cases hj
      rw [hop] at hcas
      cases hcas
  | beginChecked hl hop he hv =>
    rintro job (hj | hj) hcas e' he'
    · cases hj
      obtain rfl := Option.some.inj (he.symm.trans he')
      exact hv hcas
    · cases hj
  | log hl =>
    rintro job (hj | hj) hcas e he
    · cases hj
    · cases hj
      dsimp only at he
      rw [mem_tryAppend] at he
      exact hs _ (.inl hl) hcas e he
  | compact hl | compactLast hl =>
    refine hs.quiet rfl fun k e he => ?_
    simpa only [mem_tryCompact, Sys.observe] using he
  | @writeNone after _ _ hl =>
    refine casKept_of_elsewhere ?_ ?_ <;> intro job hj <;> cases after <;> cases hj
  | @answered _ after hl =>
    refine casKept_of_elsewhere ?_ ?_ <;> intro job hj <;> cases after <;> cases hj
  | receiveSingle | receiveFull | receive | receiveClosed | timer | writeFailed | write | beginFailed
  | beginMissing | beginMismatch | beginOther | logFailed | execute | executed | executeSingle
  | answer | reply =>
    refine casKept_of_elsewhere ?_ ?_ <;> intro job hj <;> cases hj
  | _ => exact hs.quiet rfl fun k e he => he

/-! ## One step -/

/-- The atomic store does nothing. -/
theorem Related.stutter (h : Related s a) (hclock : s'.clock = s.clock)
    (hhist : s'.history = s.history) (hstore : MemStore.SameAt s.clock s'.disk.mem s.disk.mem)
    (hclose : s'.closer.view = s.closer.view) (hview : ∀ c, s'.view c = s.view c) : Related s' a where
  clock := by rw [hclock, h.clock]
  history := by rw [hhist, h.history]
  store := by
    rw [hclock]
    exact hstore.trans h.store
  close := by rw [hclose, h.close]
  phase c := by rw [hview, h.phase]

/-- The call of `c` moves on. -/
theorem Related.move (h : Related s a) {m : MemStore} {p : Atomic.Phase}
    {taken : List (Atomic.Taken Client)} {history : List (Event Client)} (c : Client) (hclock : s'.clock = s.clock)
    (hhist : history = s'.history) (hstore : MemStore.SameAt s.clock s'.disk.mem m)
    (hclose : s'.closer.view = s.closer.view) (hself : s'.view c = p)
    (hother : ∀ c', c' ≠ c → s'.view c' = s.view c') :
    Related s'
      { store := m, clock := a.clock, phase := Function.update a.phase c p, close := a.close
        taken := taken, history := history } where
  clock := by rw [hclock]; exact h.clock
  history := hhist
  store := by
    rw [hclock]
    exact hstore
  close := by rw [hclose]; exact h.close
  phase c' := by
    by_cases hc : c' = c
    · subst hc
      exact (Function.update_self ..).trans hself.symm
    · exact (Function.update_of_ne hc ..).trans ((h.phase c').trans (hother c' hc).symm)

theorem view_of_ne {p : Phase} {c c' : Client} (hphase : s'.phase = Function.update s.phase c p)
    (hl : s'.loop.settled.lookup c' = s.loop.settled.lookup c') (hne : c' ≠ c) :
    s'.view c' = s.view c' :=
  view_congr (by rw [hphase, Function.update_of_ne hne]) hl

/-- A request that is not answered yet is still possible, unless it has been executed. -/
theorem Consistent.view_pending (h : Consistent s) {job : Job Client} (hjob : job ∈ s.jobs)
    (hl : s.loop.settled.lookup job.client = none) : s.view job.client = .called (.write job.req.cmd) := by
  rw [Sys.view, (h.queued.waiting job.client job.req).mpr hjob]
  simp [hl]

/-- While there are requests `Close` has not taken effect. -/
theorem Related.opened (hr : Related s a) (h : Consistent s) {job : Job Client}
    (hjob : job ∈ s.jobs) : a.Open := by
  show a.close = .opened ∨ a.close = .closing
  rw [hr.close]
  have hopen : s.closer.past = false := by
    by_contra hc
    rw [Bool.not_eq_false, ← h.shut.closed] at hc
    rw [h.jobs_eq_nil hc] at hjob
    cases hjob
  cases hcl : s.closer <;> rw [hcl] at hopen <;> first | exact .inl rfl | exact .inr rfl | cases hopen

omit [DecidableEq Client] in
theorem mem_jobs_of_loop {job : Job Client} (h : job ∈ s.loop.jobs) : job ∈ s.jobs :=
  List.mem_append_left _ h

theorem lookup_reply_self (job : Job Client) (o : Outcome) :
    (Loop.reply job o).settled.lookup job.client = some o := by
  simp [Loop.settled]

theorem lookup_reply_of_ne {job : Job Client} {c : Client} (hne : c ≠ job.client) (o : Outcome) :
    (Loop.reply job o).settled.lookup c = none :=
  lookup_settled_of_not_mem _ (by simpa [Loop.jobs] using hne)

theorem Related.called (h : Related s a) (hc : Consistent s) {job : Job Client} (hjob : job ∈ s.jobs)
    (hpending : s.loop.settled.lookup job.client = none) :
    a.phase job.client = .called (.write job.req.cmd) := by
  rw [h.phase, hc.view_pending hjob hpending]

/-- The atomic store comes to a state that shows what the goroutines work on. -/
def Followed (loose : Bool) (a : Atomic.State Client) (s' : Sys Client) : Prop :=
  ∃ a', Atomic.Runs loose a a' ∧ Related s' a'

section Step

variable {loose : Bool} {job : Job Client}

/-- The atomic store takes one step. -/
theorem Followed.single {b : Atomic.Act Client} {a' : Atomic.State Client} (hb : b.swaps = false)
    (hstep : a.step b = some a') (hr : Related s' a') : Followed loose a s' :=
  ⟨a', .single (fun h => absurd (h.symm.trans hb) (by simp)) hstep, hr⟩

/-- It does nothing. -/
theorem Related.quiet (h : Related s a) (hclock : s'.clock = s.clock) (hhist : s'.history = s.history)
    (hstore : MemStore.SameAt s.clock s'.disk.mem s.disk.mem)
    (hclose : s'.closer.view = s.closer.view) (hview : ∀ c, s'.view c = s.view c) :
    Followed loose a s' :=
  ⟨a, .refl, h.stutter hclock hhist hstore hclose hview⟩

/-- The loop moves on, and does nothing for anybody. -/
theorem Related.loop (h : Related s a) {d : DiskStore} {jobs : List (Job Client)} {l : Loop Client}
    (hmem : d.mem = s.disk.mem) (hl : l.settled = s.loop.settled) :
    Followed loose a { s with disk := d, batchChan := jobs, loop := l } := by
  refine h.quiet rfl rfl ?_ rfl fun c => view_congr rfl (congrArg (List.lookup c) hl)
  rw [hmem]
  exact .refl _

/-- The loop settles a request: the call of its goroutine takes effect. -/
theorem Related.settle (h : Related s a) (hc : Consistent s) (hjob : job ∈ s.jobs) {m m' : MemStore}
    {o : Outcome} {l : Loop Client}
    (hrun : Atomic.Runs loose a (a.settle job.client (.write job.req.cmd) m' (.wrote o)))
    (hstore : MemStore.SameAt s.clock m m') (hself : l.settled.lookup job.client = some o)
    (hother : ∀ c, c ≠ job.client → l.settled.lookup c = s.loop.settled.lookup c) {d : DiskStore}
    (hd : d.mem = m) : Followed loose a { s with disk := d, loop := l } := by
  refine ⟨_, hrun, h.move job.client rfl h.history (hd ▸ hstore) rfl ?_ fun c' hne => ?_⟩
  · rw [Sys.view, (hc.queued.waiting job.client job.req).mpr hjob]
    simp [hself]
  · exact view_congr rfl (hother c' hne)

/-- It does what the operation of `MemStore` does. -/
theorem Related.effect (h : Related s a) (hc : Consistent s) (hjob : job ∈ s.jobs)
    (hpending : s.loop.settled.lookup job.client = none) {m : MemStore} {l : Loop Client}
    (hstore : MemStore.SameAt s.clock m (s.disk.mem.apply job.req.cmd s.clock).2)
    (hself : l.settled.lookup job.client =
      some (Atomic.outcome (s.disk.mem.apply job.req.cmd s.clock).1))
    (hother : ∀ c, c ≠ job.client → l.settled.lookup c = s.loop.settled.lookup c) {d : DiskStore}
    (hd : d.mem = m) : Followed loose a { s with disk := d, loop := l } := by
  obtain ⟨hresult, hsame⟩ := sameAt_apply h.store job.req.cmd
  refine h.settle hc hjob (.single (by simp [Atomic.Act.swaps])
    (Atomic.State.step_effect (h.called hc hjob hpending) (h.opened hc hjob))) ?_ ?_ hother hd
  · rw [h.clock]
    exact hstore.trans hsame
  · rw [h.clock, ← hresult]
    exact hself

/-- `writeSingle` has the request in its hands and has not executed it. -/
structure Alone (s : Sys Client) (job : Job Client) : Prop where
  jobs : s.loop.jobs = [job]
  settled : s.loop.settled = []

omit [DecidableEq Client] in
theorem Alone.mem (hjob : Alone s job) : job ∈ s.jobs := mem_jobs_of_loop (by simp [hjob.jobs])

theorem Alone.pending (hjob : Alone s job) (c : Client) : s.loop.settled.lookup c = none := by
  rw [hjob.settled]
  rfl

theorem Alone.other (hjob : Alone s job) (o : Outcome) (c : Client) (hne : c ≠ job.client) :
    (Loop.reply job o).settled.lookup c = s.loop.settled.lookup c := by
  rw [hjob.pending, lookup_reply_of_ne hne]

/-- `writeSingle` answers what the operation of `MemStore` does. -/
theorem Related.replies (h : Related s a) (hc : Consistent s) (hjob : Alone s job) {m : MemStore}
    {o : Outcome} (hstore : MemStore.SameAt s.clock m (s.disk.mem.apply job.req.cmd s.clock).2)
    (ho : o = Atomic.outcome (s.disk.mem.apply job.req.cmd s.clock).1) {d : DiskStore}
    (hd : d.mem = m) : Followed loose a { s with disk := d, loop := .reply job o } := by
  refine h.effect hc hjob.mem (hjob.pending _) hstore ?_ (hjob.other o) hd
  rw [← ho]
  exact lookup_reply_self job o

/-- The file does not take the record. -/
theorem Related.failsSingle (h : Related s a) (hc : Consistent s) (hjob : Alone s job) {d : DiskStore}
    (hd : d.mem = s.disk.mem) :
    Followed loose a { s with disk := d, loop := .reply job (.error (.write .file)) } :=
  h.settle hc hjob.mem (.single (by simp [Atomic.Act.swaps])
    (Atomic.State.step_fail (h.called hc hjob.mem (hjob.pending _)) (h.opened hc hjob.mem))) h.store
    (lookup_reply_self job _) (hjob.other _) hd

/-- A `CAS` writes after its key has expired. -/
theorem Related.swap (h : Related s a) (hc : Consistent s) (hjob : Alone s job)
    (hop : job.req.cmd.op = .cas) (hd : live s.clock (s.disk.mem.cell job.req.cmd.key) = none) :
    Followed true a
      { s with
        disk := { s.disk with mem := (Sys.executeSingle s.disk.mem job.req.cmd s.clock).2 }
        loop := .reply job ((Sys.executeSingle s.disk.mem job.req.cmd s.clock).1.mapError
          fun e => .write (.store e)) } := by
  have hexec : Sys.executeSingle s.disk.mem job.req.cmd s.clock =
      (.ok (.bool true), s.disk.mem.put job.req.cmd.key job.req.cmd.value) := by
    simp [Sys.executeSingle, hop]
  have hd' : live a.clock (a.store.cell job.req.cmd.key) = none := by
    rw [h.clock, ← h.store]
    exact hd
  rw [hexec]
  exact h.settle hc hjob.mem (.single (fun _ => rfl) (Atomic.State.step_swap
    (h.called hc hjob.mem (hjob.pending _)) (h.opened hc hjob.mem) hop hd')) (h.store.put _ _)
    (lookup_reply_self job _) (hjob.other _) rfl

/-- `writeSingle` executes its request. -/
theorem Related.executesSingle (h : Related s a) (hc : Consistent s) (hkept : CasKept s)
    (hb : loose = false → CasAlive s .execute) (hl : s.loop = .logged job) :
    Followed loose a
      { s with
        disk := { s.disk with mem := (Sys.executeSingle s.disk.mem job.req.cmd s.clock).2 }
        loop := .reply job ((Sys.executeSingle s.disk.mem job.req.cmd s.clock).1.mapError
          fun e => .write (.store e)) } := by
  have hjob : Alone s job := ⟨by rw [hl]; rfl, by rw [hl]; rfl⟩
  have hshaped := hc.shaped
  rw [hl] at hshaped
  by_cases hexpired : job.req.cmd.op = .cas ∧ live s.clock (s.disk.mem.cell job.req.cmd.key) = none
  · have hloose : loose = true := by
      by_contra hstrict
      have halive := hb (by simpa using hstrict) rfl job.req.cmd.key
        (by simp [hl, Loop.casKey?, hexpired.1])
      rw [hexpired.2] at halive
      cases halive
    subst hloose
    exact h.swap hc hjob hexpired.1 hexpired.2
  · have happly : Sys.executeSingle s.disk.mem job.req.cmd s.clock =
        s.disk.mem.apply job.req.cmd s.clock := by
      refine executeSingle_eq hshaped fun hop => ?_
      obtain ⟨e, he⟩ := Option.ne_none_iff_exists'.mp fun hd => hexpired ⟨hop, hd⟩
      exact ⟨e, he, hkept job (.inr hl) hop e he⟩
    rw [happly]
    exact h.replies hc hjob (.refl _) rfl rfl

/-- `writeBatch` executes its next request. -/
theorem Related.executes (h : Related s a) (hc : Consistent s) {executed todo : List (Job Client)}
    {after : After Client} (hl : s.loop = .apply executed (job :: todo) after) :
    Followed loose a
      { s with
        disk := { s.disk with mem := DiskStore.applyBatched s.disk.mem job.req.cmd }
        loop := .apply (executed ++ [job]) todo after } := by
  have hjob : job ∈ s.jobs := mem_jobs_of_loop (by simp [hl, Loop.jobs])
  have hshaped := hc.shaped
  rw [hl] at hshaped
  have happly := apply_batched (hshaped.2.1 job (by simp)) s.disk.mem s.clock
  -- no other request of the goroutine has been executed
  have hfresh : job.client ∉ executed.map Job.client := by
    have hnodup := hc.queued.nodup
    rw [Sys.jobs, hl, Loop.jobs] at hnodup
    simp only [List.map_append, List.map_cons, List.append_assoc] at hnodup
    intro hmem
    exact (List.disjoint_of_nodup_append hnodup) hmem (by simp)
  refine h.effect hc hjob ?_ ?_ ?_ (fun c' hne => ?_) rfl
  · rw [hl, Loop.settled, lookup_map_client, if_neg hfresh]
  · rw [happly]
    exact .refl _
  · rw [happly, Loop.settled, lookup_map_client, if_pos (by simp)]
    rfl
  · rw [hl, Loop.settled, Loop.settled, lookup_map_client, lookup_map_client]
    simp [hne]

/-- One goroutine moves on, and still expects what it expected. -/
theorem view_moved {p : Phase} (hphase : s'.phase = Function.update s.phase c p)
    (hl : ∀ c', c' ≠ c → s'.loop.settled.lookup c' = s.loop.settled.lookup c')
    (hself : s'.view c = s.view c) (c' : Client) : s'.view c' = s.view c' := by
  by_cases hcc : c' = c
  · rw [hcc, hself]
  · exact view_of_ne hphase (hl c' hcc) hcc

/-- A request is queued. -/
theorem Related.sends (h : Related s a) (hc : Consistent s) {req : Request}
    (hp : s.phase c = .entered req) :
    Followed loose a
      ({ s with batchChan := s.batchChan ++ [Job.mk c req] }.setPhase c (.waiting req)) := by
  -- it is not among those of the loop yet
  have hnot : c ∉ s.loop.jobs.map Job.client := fun hmem =>
    hc.queued.not_mem (c := c) (by simp [hp]) (by
      rw [Sys.jobs, List.map_append]
      exact List.mem_append_left _ hmem)
  refine h.quiet rfl rfl (.refl _) rfl (view_moved rfl (fun _ _ => rfl) ?_)
  simp [Sys.view, Sys.setPhase, hp, lookup_settled_of_not_mem s.loop hnot]

/-- A goroutine is told the outcome of its batch. -/
theorem Related.answers (h : Related s a) (hc : Consistent s) {todo : List (Job Client)} {ok : Bool}
    {after : After Client} {req : Request} (hl : s.loop = .answer (job :: todo) ok after)
    (hp : s.phase job.client = .waiting req) :
    Followed loose a
      ({ s with loop := .answer todo ok after }.setPhase job.client
        (.answered (Sys.batchOutcome ok))) := by
  cases ok with
  | true =>
    refine h.quiet rfl rfl (.refl _) rfl (view_moved rfl (fun c' hne => ?_) ?_)
    · have hbeq : (c' == job.client) = false := by simpa using hne
      rw [hl]
      simp [Sys.setPhase, Loop.settled, List.lookup_cons, hbeq]
    · simp [Sys.view, Sys.setPhase, hp, hl, Loop.settled, Sys.batchOutcome]
  | false =>
    -- a batch that has failed fails for each request on its own
    have hjob : job ∈ s.jobs := mem_jobs_of_loop (by simp [hl, Loop.jobs])
    refine .single rfl (Atomic.State.step_fail (h.called hc hjob (by rw [hl]; rfl)) (h.opened hc hjob))
      (h.move job.client rfl h.history h.store rfl ?_ fun c' => view_of_ne rfl (by rw [hl]; rfl))
    simp [Sys.view, Sys.setPhase, Sys.batchOutcome]

/-- **One step** of the goroutines is at most one step of the atomic store. -/
theorem Related.step {b : Act Client} (h : Related s a) (hc : Consistent s) (hkept : CasKept s)
    (hb : loose = false → CasAlive s b) (hm : Moves s b s') : Followed loose a s' := by
  have same : MemStore.SameAt s.clock s.disk.mem s.disk.mem := .refl _
  cases hm with
  | @submit c req hp =>
    refine .single rfl (Atomic.State.step_call (c := c) ?_ (.write req.cmd))
      (h.move c rfl (congrArg (· ++ _) h.history) h.store rfl ?_ fun c' => view_of_ne rfl rfl)
    · rw [h.phase, Sys.view, hp]
    · simp [Sys.view, Sys.setPhase, Sys.observe]
  | @read c r hp =>
    refine .single rfl (Atomic.State.step_call (c := c) ?_ (.read r))
      (h.move c rfl (congrArg (· ++ _) h.history) h.store rfl ?_ fun c' => view_of_ne rfl rfl)
    · rw [h.phase, Sys.view, hp]
    · simp [Sys.view, Sys.setPhase, Sys.observe]
  | @refuse c req hp hlock hclosed =>
    have hsealed : ¬ a.Open := by
      rw [hc.shut.closed] at hclosed
      rw [Atomic.State.Open, h.close]
      cases hcl : s.closer <;> rw [hcl] at hclosed <;> simp [Closer.view, Closer.past] at hclosed ⊢
    have hphase : a.phase c = .called (.write req.cmd) := by rw [h.phase, Sys.view, hp]
    refine .single rfl (Atomic.State.step_refuse hphase hsealed)
      (h.move c rfl h.history h.store rfl ?_ fun c' => view_of_ne rfl rfl)
    simp [Sys.view, Sys.setPhase]
  | enter hp =>
    refine h.quiet rfl rfl same rfl (view_moved rfl (fun _ _ => rfl) ?_)
    simp [Sys.view, Sys.setPhase, hp]
  | panic hp hclosed => exact absurd hp (hc.shut.left (hc.shut.chan ▸ hclosed) _ _).1
  | send hp => exact h.sends hc hp
  | @look c r hp =>
    have hphase : a.phase c = .called (.read r) := by rw [h.phase, Sys.view, hp]
    refine .single rfl (Atomic.State.step_look hphase)
      (h.move c rfl h.history h.store rfl ?_ fun c' => view_of_ne rfl rfl)
    rw [h.clock, ← Read.result_congr h.store r]
    simp [Sys.view, Sys.setPhase]
  | @dead c key hp hd =>
    have hphase : a.phase c = .called (.read (.get key)) := by rw [h.phase, Sys.view, hp]
    refine .single rfl (Atomic.State.step_look hphase)
      (h.move c rfl h.history h.store rfl ?_ fun c' => view_of_ne rfl rfl)
    rw [h.clock, ← Read.result_congr h.store (.get key), Read.result, hd]
    simp [Sys.view, Sys.setPhase]
  | reap hp =>
    refine h.quiet rfl rfl (MemStore.sameAt_lookup _) rfl (view_moved rfl (fun _ _ => rfl) ?_)
    simp [Sys.view, Sys.setPhase, hp]
  | @finish c o hp =>
    have hphase : a.phase c = .done (.wrote o) := by rw [h.phase, Sys.view, hp]
    refine .single rfl (Atomic.State.step_ret hphase)
      (h.move c rfl (congrArg (· ++ _) h.history) h.store rfl ?_ fun c' => view_of_ne rfl rfl)
    simp [Sys.view, Sys.setPhase, Sys.observe]
  | @finishRead c r hp =>
    have hphase : a.phase c = .done (.saw r) := by rw [h.phase, Sys.view, hp]
    refine .single rfl (Atomic.State.step_ret hphase)
      (h.move c rfl (congrArg (· ++ _) h.history) h.store rfl ?_ fun c' => view_of_ne rfl rfl)
    simp [Sys.view, Sys.setPhase, Sys.observe]
  | receiveSingle hl | receiveFull hl | receive hl | receiveClosed hl | timer hl | beginChecked hl
  | executed hl => exact h.loop rfl (by rw [hl]; rfl)
  | writeNone hl => exact h.loop rfl (by rw [hl, Loop.settled_after]; rfl)
  | writeFailed hl | write hl => exact h.loop (mem_tryAppends ..) (by rw [hl]; rfl)
  | beginIncr hl | log hl => exact h.loop (mem_tryAppend ..) (by rw [hl]; rfl)
  | beginFailed hl | logFailed hl =>
    exact h.failsSingle hc ⟨by rw [hl]; rfl, by rw [hl]; rfl⟩ (mem_tryAppend ..)
  | beginMissing hl hop hd =>
    obtain ⟨hresult, hsame⟩ := apply_missing hop hd
    exact h.replies hc ⟨by rw [hl]; rfl, by rw [hl]; rfl⟩
      ((s.disk.mem.sameAt_get _ (Int64.le_refl _)).trans hsame.symm) (by rw [hresult]; rfl) rfl
  | beginMismatch hl hop he hv =>
    obtain ⟨hresult, hsame⟩ := apply_mismatch hop he hv
    exact h.replies hc ⟨by rw [hl]; rfl, by rw [hl]; rfl⟩ hsame.symm (by rw [hresult]; rfl) rfl
  | beginOther hl hop =>
    have hshaped := hc.shaped
    rw [hl, Loop.Shaped, hop] at hshaped
    cases hshaped
  | execute hl => exact h.executes hc hl
  | executeSingle hl => exact h.executesSingle hc hkept hb hl
  | answer hl hp => exact h.answers hc hl hp
  | @answered ok after hl =>
    have hsettled : (Loop.answer [] ok after).settled = [] := by cases ok <;> rfl
    exact h.loop rfl (by rw [hl, hsettled, Loop.settled_after])
  | reply hl hp =>
    refine h.quiet rfl rfl same rfl (view_moved rfl (fun c' hne => ?_) ?_)
    · rw [hl, lookup_reply_of_ne hne]
      rfl
    · simp [Sys.view, Sys.setPhase, hp, hl, Loop.settled]
  | compact hl => exact h.loop (mem_tryCompact ..) rfl
  | sweep =>
    exact h.quiet rfl rfl (s.disk.mem.sameAt_sweepExpired (Int64.le_refl _)) rfl
      fun c' => view_congr rfl rfl
  | @tick t ht =>
    have hle : a.clock ≤ t := by rw [h.clock]; exact ht
    exact .single rfl (Atomic.State.step_tick hle) ⟨rfl, congrArg (· ++ _) h.history, h.store.mono ht,
      h.close, fun c' => (h.phase c').trans (view_congr rfl rfl).symm⟩
  | close hcl =>
    have hopen : a.close = .opened := by rw [h.close, hcl]; rfl
    exact .single rfl (Atomic.State.step_close hopen) ⟨h.clock, congrArg (· ++ _) h.history, h.store, rfl,
      fun c' => (h.phase c').trans (view_congr rfl rfl).symm⟩
  | stopSnapshots hcl | stopSweeps hcl | drained hcl =>
    exact h.quiet rfl rfl same (by rw [hcl]; rfl) fun c' => view_congr rfl rfl
  | lock hcl hr =>
    have hclosing : a.close = .closing := by rw [h.close, hcl]; rfl
    exact .single rfl (Atomic.State.step_shut hclosing) ⟨h.clock, h.history, h.store, rfl,
      fun c' => (h.phase c').trans (view_congr rfl rfl).symm⟩
  | @compactLast fault closedFile hcl =>
    have hsealed : a.close = .sealed := by rw [h.close, hcl]; rfl
    refine .single rfl (Atomic.State.step_closed hsealed _) ⟨h.clock, congrArg (· ++ _) h.history, ?_, rfl,
      fun c' => (h.phase c').trans (view_congr rfl rfl).symm⟩
    show MemStore.SameAt s.clock (s.disk.tryCompact fault).2.mem a.store
    rw [mem_tryCompact]
    exact h.store

end Step

/-! ## Runs -/

theorem related_init (d : DiskStore) (t : Int64) :
    Related (Sys.init d t : Sys Client) (Atomic.State.init d.mem t) :=
  ⟨rfl, rfl, .refl _, rfl, fun _ => rfl⟩

omit [DecidableEq Client] in
theorem casKept_init (d : DiskStore) (t : Int64) : CasKept (Sys.init d t : Sys Client) :=
  casKept_of_elsewhere (by simp [Sys.init]) (by simp [Sys.init])

theorem Running.casKept {d : DiskStore} {t : Int64} (h : Running d t s) : CasKept s :=
  h.invariant (casKept_init d t) fun hk _ hs => (Sys.step_moves hs).casKept hk

/-- Every run of the goroutines is matched by one of the atomic store. -/
theorem Related.run (loose : Bool) {ok : Sys Client → Act Client → Prop} {s₀ : Sys Client}
    {a₀ : Atomic.State Client} (h : Reach Sys.step ok s₀ s)
    (hok : ∀ s b, ok s b → loose = false → CasAlive s b) (hc : Consistent s₀) (hk : CasKept s₀)
    (hr : Related s₀ a₀) : ∃ a, Atomic.Runs loose a₀ a ∧ Related s a :=
  h.simulated (P := fun s => Consistent s ∧ CasKept s) (R := Related) ⟨hc, hk⟩ hr
    (fun hP _ hs => ⟨hP.1.step hs, (Sys.step_moves hs).casKept hP.2⟩)
    (fun hP hR hb hs => hR.step hP.1 hP.2 (hok _ _ hb) (Sys.step_moves hs))

/-- **A `DiskStore` is linearizable**: the calls, returns and clock readings of any interleaving,
    with writes that fail and with `Close`, are those of a run of the atomic store, which holds
    what the memory shows. No `CAS` may find its key expired between check and write. -/
theorem store_linearizable {d : DiskStore} {t : Int64}
    (h : Reach Sys.step CasAlive (Sys.init d t) s) :
    ∃ a, Atomic.Runs false (Atomic.State.init d.mem t) a ∧ a.history = s.history ∧
      MemStore.SameAt s.clock s.disk.mem a.store := by
  obtain ⟨a, ha, hrel⟩ := Related.run false h (fun s b hb _ => hb) (consistent_init d t)
    (casKept_init d t) (related_init d t)
  exact ⟨a, ha, hrel.history, hrel.store⟩

/-- `Put k v`. -/
def putRequest : Request := ⟨{ op := .put, key := [107], value := [118] }, zeroNonce, put_known⟩

/-- One goroutine calls `Put`, another one `Get` and a third one `Close`, which waits for the answer
    of the first; the read takes place before it. -/
def putGetClose : List (Act Bool) :=
  [.submit true putRequest, .enter true, .send true, .read false (.get [107]), .close,
    .receive, .stopSnapshots, .stopSweeps, .timer,
    .write [⟨putRequest.cmd, putRequest.nonce, none⟩] true, .execute, .look false, .finish false,
    .execute, .answer, .answer, .finish true, .lock, .receive, .write [] true, .drained,
    .compactLast none true]

/-- The read sees the value. -/
theorem putGetClose_linearizable : ∃ (s : Sys Bool) (a : Atomic.State Bool),
    Reach Sys.step CasAlive (Sys.init (.new none) 0) s ∧
      Atomic.told false s.history =
        [.inl (.read (.get [107])), .inr (.saw (.value (.ok [118])))] ∧
      Atomic.Runs false (Atomic.State.init .new 0) a ∧ a.history = s.history := by
  obtain ⟨s, hs, hread⟩ := Option.map_eq_some_iff.mp
    (show (Transition.run Sys.step CasAlive (.init (.new none) 0) putGetClose).map
      (fun s => Atomic.told false s.history) =
        some [.inl (.read (.get [107])), .inr (.saw (.value (.ok [118])))] by rfl)
  obtain ⟨a, ha, hhist, -⟩ := store_linearizable (.of_run hs)
  exact ⟨s, a, .of_run hs, hread, ha, hhist⟩

/-! ## A `CAS` whose key expires -/

namespace Atomic

/-- A `CAS` that answers `true` writes a value that never expires. -/
theorem Does.cas_true {m m' : MemStore} {t : Int64} {cmd : Command} (hop : cmd.op = .cas)
    (h : Does false m t (.write cmd) (.wrote (.ok (.bool true))) m') :
    (live t (m.cell cmd.key)).isSome = true ∧ m'.cell cmd.key = some { value := cmd.value } := by
  generalize hk : Call.write cmd = k at h
  generalize ho : Out.wrote (.ok (.bool true)) = o at h
  cases h with
  | read | fail | refuse => cases ho
  | swap hloose => cases hloose
  | write cmd' =>
    cases hk
    have hresult : (m.apply cmd t).1 = .ok (.bool true) := by
      cases hr : (m.apply cmd t).1 with
      | error e => rw [hr] at ho; cases ho
      | ok v => rw [hr] at ho; cases ho; rfl
    rw [MemStore.apply_result] at hresult
    rw [MemStore.apply_cell, if_pos (.inr rfl)]
    unfold Command.onCell at hresult ⊢
    rw [hop] at hresult ⊢
    cases hl : live t (m.cell cmd.key) with
    | none => rw [hl] at hresult; cases hresult
    | some e =>
      rw [hl] at hresult
      dsimp only at hresult ⊢
      split_ifs at hresult ⊢ with hv
      · cases hresult
      · exact ⟨rfl, rfl⟩

/-- A `Get` that finds nothing. -/
theorem Does.get_notFound {m m' : MemStore} {t : Int64} {key : Bytes}
    (h : Does false m t (.read (.get key)) (.saw (.value (.error .notFound))) m') :
    live t (m.cell key) = none ∧ m' = m := by
  generalize hk : Call.read (.get key) = k at h
  generalize ho : Out.saw (.value (.error .notFound)) = o at h
  cases h with
  | write | fail | refuse | swap => cases hk
  | read r =>
    cases hk
    refine ⟨?_, rfl⟩
    by_contra hl
    obtain ⟨e, he⟩ := Option.ne_none_iff_exists'.mp hl
    simp [Read.result, DiskStore.get_of_live he] at ho

/-- With two goroutines. -/
theorem length_taken (l : List (Taken Bool)) :
    l.length = (ends true l).length + (ends false l).length := by
  induction l with
  | nil => rfl
  | cons e l ih =>
    obtain ⟨c, k, t, o⟩ := e
    cases c <;> simp [ends] at ih ⊢ <;> omega

/-- On the atomic store a `CAS` is not successful if a concurrent `Get` of its key finds nothing:
    before the `CAS` the key is there, and after it the key never expires. -/
theorem Runs.not_cas_and_notFound {m : MemStore} {t : Int64} {a : State Bool}
    (h : Runs false (.init m t) a) {cmd : Command} (hop : cmd.op = .cas)
    (hcas : told true a.history = answered [(.write cmd, .wrote (.ok (.bool true)))])
    (hget : told false a.history =
      answered [(.read (.get cmd.key), .saw (.value (.error .notFound)))]) : False := by
  have hk := h.kept rfl
  have hends : ∀ c l, told c a.history = answered l → ends c a.taken = l := by
    intro c l htold
    obtain ⟨ext, hext, hshows⟩ := hk.shows
    have hs := hshows c [] [] rfl
    rw [List.nil_append, List.nil_append, show ext = a.history from hext.symm, htold] at hs
    exact hs.eq_of_answered
  have hcas := hends true _ hcas
  have hget := hends false _ hget
  have hlen := length_taken a.taken
  rw [hcas, hget] at hlen
  obtain ⟨e₁, e₂, htaken⟩ := List.length_eq_two.mp hlen
  have hexplains := hk.explains
  rw [htaken] at hcas hget hexplains
  -- the store before the first call and between the two
  obtain ⟨m₁, hfirst, hle, hsecond⟩ := Explains.last (l := [e₁]) hexplains
  obtain ⟨m₀, hnil, -, hfirst⟩ := Explains.last (l := []) hfirst
  have hle := hle e₁ (by simp)
  obtain ⟨c₁, k₁, t₁, o₁⟩ := e₁
  obtain ⟨c₂, k₂, t₂, o₂⟩ := e₂
  cases c₁ <;> cases c₂ <;> simp [ends] at hcas hget
  · -- the `Get` comes first: the key is dead, then and at the `CAS`
    obtain ⟨rfl, rfl⟩ := hcas
    obtain ⟨rfl, rfl⟩ := hget
    obtain ⟨hdead, rfl⟩ := hfirst.get_notFound
    have halive := (hsecond.cas_true hop).1
    rw [Expiring.live_eq_none_of_le hle hdead] at halive
    cases halive
  · -- the `CAS` comes first
    obtain ⟨rfl, rfl⟩ := hcas
    obtain ⟨rfl, rfl⟩ := hget
    have hdead := hsecond.get_notFound.1
    rw [(hfirst.cas_true hop).2] at hdead
    simp [live] at hdead

end Atomic

/-- A store in which `k` is `v` until 5. -/
def expiringStore : DiskStore :=
  { DiskStore.new none with mem := ((MemStore.new.put [107] [118]).expire [107] 5 0).2 }.compact

/-- `CAS k v w`. -/
def casRequest : Request :=
  ⟨{ op := .cas, key := [107], old := [118], value := [119] }, zeroNonce, cas_known⟩

/-- The `CAS` finds its key at 4 and writes at 6; in between another goroutine finds it expired. -/
def expiredCas : List (Act Bool) :=
  [.submit true casRequest, .enter true, .send true, .receive, .write [] true, .begin none true,
    .tick 6, .read false (.get [107]), .look false, .reap false, .finish false, .log none true,
    .execute, .answer, .finish true]

/-- **The exception is real**: no run of the atomic store has the history of `expiredCas`. -/
theorem expired_cas_not_linearizable : ∃ s : Sys Bool, Running expiringStore 4 s ∧
    ∀ a, Atomic.Runs false (Atomic.State.init expiringStore.mem 4) a → a.history ≠ s.history := by
  obtain ⟨s, hs, htold⟩ := Option.map_eq_some_iff.mp
    (show (Transition.run Sys.step (fun _ _ => True) (.init expiringStore 4) expiredCas).map
      (fun s => (Atomic.told true s.history, Atomic.told false s.history)) =
        some (Atomic.answered [(.write casRequest.cmd, .wrote (.ok (.bool true)))],
          Atomic.answered [(.read (.get [107]), .saw (.value (.error .notFound)))]) by rfl)
  obtain ⟨hcas, hget⟩ := Prod.mk.inj htold
  refine ⟨s, .of_run hs, fun a ha hhist => ?_⟩
  rw [← hhist] at hcas hget
  exact ha.not_cas_and_notFound rfl hcas hget

end KvStore.Concurrent
