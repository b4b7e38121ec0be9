import KvStore.Storage.FakeEngine

/-!
# Expiry does not show

A dead entry stays in the map of a `MemStore` until some call comes across it: `SweepExpired`,
a `Get` of its key, or `Incr`, `CAS` and `Expire`, each with its own copy of the check
(`pkg/storage/memstore.go`). When that happens depends on the active-expiration loop and on
other clients. Here the calls of one client are compared with the same calls among any number
of sweeps and reads of others.

* `SameAt.perform`: stores that look alike at the first reading of a call answer it alike, and
  look alike at its last reading.
* `sameAt_performExtra`: a sweep or a read leaves a store that looks as before.
* `extras_unobservable`: over whole sequences of calls at non-decreasing readings.
-/

namespace KvStore.Storage

open KvStore.Expiring (live)

namespace MemStore

/-- `Size` (pkg/storage/memstore.go:89). -/
def size (m : MemStore) (now : Int64) : ℕ := m.data.toList.countP fun p => !entryExpired p.2 now

end MemStore

/-- A call whose result is compared. -/
inductive MemCall where
  | engine (op : EngineOp)
  | size

/-- A call that others make in between. -/
inductive Extra where
  | sweepExpired
  | get (key : Bytes)

/-- The result of a call. -/
inductive Answer where
  | reply (r : Reply)
  | count (n : ℕ)
  deriving DecidableEq

namespace MemStore

/-- A call; `Get` reads the clock at `now` and, before it drops a dead key, at `later`. -/
def perform (m : MemStore) (now later : Int64) : MemCall → Answer × MemStore
  | .engine (.get key) =>
    match m.get key now later with
    | (.ok v, m) => (.reply (.value v), m)
    | (.error e, m) => (.reply (.error e), m)
  | .engine op =>
    let r := m.call now op
    (.reply r.1, r.2)
  | .size => (.count (m.size now), m)

/-- A call of somebody else; its result goes to them. -/
def performExtra (m : MemStore) (now later : Int64) : Extra → MemStore
  | .sweepExpired => (m.sweepExpired now).2
  | .get key => (m.get key now later).2

end MemStore

/-- A call with the first and the last reading of the clock it takes. -/
structure Timed where
  call : MemCall ⊕ Extra
  now : Int64
  later : Int64

/-- The readings of the clock, in the order in which they are taken. -/
def readings (calls : List Timed) : List Int64 := calls.flatMap fun c => [c.now, c.later]

namespace MemStore

/-- The results of the compared calls. -/
def answers (m : MemStore) : List Timed → List Answer
  | [] => []
  | ⟨.inl call, now, later⟩ :: calls =>
    let r := m.perform now later call
    r.1 :: answers r.2 calls
  | ⟨.inr extra, now, later⟩ :: calls => answers (m.performExtra now later extra) calls

end MemStore

/-- The sequence before the calls of others were inserted. -/
def compared (calls : List Timed) : List Timed := calls.filter fun c => c.call.isLeft

/-! ## One call -/

namespace MemStore

variable {m m' : MemStore} {t now later : Int64}

theorem SameAt.insert (h : SameAt t m m') (key : Bytes) (e : Entry) (n n' : UInt64) :
    SameAt t ⟨m.data.insert key e, n⟩ ⟨m'.data.insert key e, n'⟩ := by
  intro k
  rw [cell_insert, cell_insert]
  split_ifs
  · rfl
  · exact h k

theorem SameAt.put (h : SameAt t m m') (key value : Bytes) :
    SameAt t (m.put key value) (m'.put key value) := h.insert key _ _ _

theorem SameAt.delete (h : SameAt t m m') (key : Bytes) :
    SameAt t (m.delete key) (m'.delete key) := by
  intro k
  rw [cell_delete, cell_delete]
  split_ifs
  · rfl
  · exact h k

theorem sameAt_clear : SameAt t m.clear m'.clear := by
  intro k
  rw [cell_clear, cell_clear]

/-- Two calls that come back with the same, on stores that look alike at `t` afterwards. -/
structure Alike {α : Type} (t : Int64) (r r' : α × MemStore) : Prop where
  result : r.1 = r'.1
  store : SameAt t r.2 r'.2

theorem Alike.split {α : Type} {r r' : α × MemStore} (h : Alike t r r') :
    ∃ a n n', r = (a, n) ∧ r' = (a, n') ∧ SameAt t n n' :=
  ⟨r.1, r.2, r'.2, rfl, Prod.ext h.result.symm rfl, h.store⟩

theorem Alike.mono {α : Type} {r r' : α × MemStore} (h : Alike now r r') (hl : now ≤ later) :
    Alike later r r' := ⟨h.result, h.store.mono hl⟩

/-- The check of `Incr`, `CAS` and `Expire` drops only what is dead. -/
theorem sameAt_lookup (key : Bytes) : SameAt now (m.lookup key now).2 m := by
  intro k
  rw [cell_lookup]
  split_ifs
  · exact Expiring.live_live_of_le (Int64.le_refl now)
  · rfl

/-- It finds the same entry in both stores. -/
theorem SameAt.lookup (h : SameAt now m m') (key : Bytes) :
    Alike now (m.lookup key now) (m'.lookup key now) where
  result := by rw [lookup_fst, lookup_fst, h key]
  store := (sameAt_lookup key).trans (h.trans (sameAt_lookup key).symm)

/-- What is alive is the same map. -/
theorem SameAt.filter_eq (h : SameAt now m m') :
    (m.data.toList.filter fun p => !entryExpired p.2 now) =
      m'.data.toList.filter fun p => !entryExpired p.2 now := by
  have hswept : (m.sweepExpired now).2.data = (m'.sweepExpired now).2.data := by
    apply ext_cell
    intro k
    rw [cell_sweepExpired, cell_sweepExpired, h k]
  have hlist := congrArg Std.ExtTreeMap.toList hswept
  simpa only [sweepExpired, Std.ExtTreeMap.toList_filter] using hlist

theorem SameAt.scan_eq (h : SameAt now m m') (cursor : Bytes) (count : ℤ) (pattern : Bytes) :
    m.scan cursor count pattern now = m'.scan cursor count pattern now := by
  have hscanned : m.scanned cursor pattern now = m'.scanned cursor pattern now := by
    simp only [scanned, Bool.and_comm (!_), ← List.filter_filter, h.filter_eq]
  rw [scan, scan, hscanned]

theorem SameAt.size_eq (h : SameAt now m m') : m.size now = m'.size now := by
  rw [size, size, List.countP_eq_length_filter, List.countP_eq_length_filter, h.filter_eq]

/-- `Get` answers by what is alive at its first reading. -/
theorem get_fst (m : MemStore) (key : Bytes) (now later : Int64) :
    (m.get key now later).1 =
      (live now (m.cell key)).elim (.error .notFound) fun e => .ok e.value := by
  unfold get
  cases h : m.cell key with
  | none => rfl
  | some e =>
    cases he : entryExpired e now with
    | true => rw [Expiring.live_some_of_dead he]; simp [he]
    | false => rw [Expiring.live_some_of_not_dead he]; simp [he]

theorem SameAt.get (h : SameAt now m m') (hl : now ≤ later) (key : Bytes) :
    Alike later (m.get key now later) (m'.get key now later) where
  result := by rw [get_fst, get_fst, h key]
  store := by
    have hle := Int64.le_refl later
    exact (sameAt_get m key hle).trans ((h.mono hl).trans (sameAt_get m' key hle).symm)

theorem SameAt.incr (h : SameAt now m m') (key : Bytes) :
    Alike now (m.incr key now) (m'.incr key now) := by
  obtain ⟨o, n, n', hm, hm', hn⟩ := (h.lookup key).split
  rw [MemStore.incr, MemStore.incr, hm, hm']
  cases o with
  | none => exact ⟨rfl, hn.put key _⟩
  | some e =>
    cases hp : parseInt e.value with
    | none => simpa only [hp] using ⟨rfl, hn⟩
    | some v =>
      by_cases hv : v = maxInt64
      · simpa only [hp, if_pos hv] using ⟨rfl, hn⟩
      · simpa only [hp, if_neg hv] using ⟨rfl, hn.put key _⟩

theorem SameAt.cas (h : SameAt now m m') (key old new : Bytes) :
    Alike now (m.cas key old new now) (m'.cas key old new now) := by
  obtain ⟨o, n, n', hm, hm', hn⟩ := (h.lookup key).split
  rw [MemStore.cas, MemStore.cas, hm, hm']
  cases o with
  | none => exact ⟨rfl, hn⟩
  | some e =>
    by_cases hv : e.value ≠ old
    · simpa only [if_pos hv] using ⟨rfl, hn⟩
    · simpa only [if_neg hv] using ⟨rfl, hn.put key new⟩

theorem SameAt.expire (h : SameAt now m m') (key : Bytes) (expiresAt : Int64) :
    Alike now (m.expire key expiresAt now) (m'.expire key expiresAt now) := by
  obtain ⟨o, n, n', hm, hm', hn⟩ := (h.lookup key).split
  rw [MemStore.expire, MemStore.expire, hm, hm']
  cases o with
  | none => exact ⟨rfl, hn⟩
  | some e => exact ⟨rfl, hn.insert key _ _ _⟩

/-- The operations of `Engine` that read the clock once. -/
theorem SameAt.call (h : SameAt now m m') (op : EngineOp) :
    Alike now (m.call now op) (m'.call now op) := by
  cases op with
  | get key =>
    obtain ⟨o, n, n', hm, hm', hn⟩ := (h.get (Int64.le_refl now) key).split
    rw [MemStore.call, MemStore.call, hm, hm']
    cases o with
    | ok v => exact ⟨rfl, hn⟩
    | error e => exact ⟨rfl, hn⟩
  | put key value => exact ⟨rfl, h.put key value⟩
  | delete key => exact ⟨rfl, h.delete key⟩
  | clear => exact ⟨rfl, sameAt_clear⟩
  | incr key =>
    obtain ⟨o, n, n', hm, hm', hn⟩ := (h.incr key).split
    rw [MemStore.call, MemStore.call, hm, hm']
    cases o with
    | ok v => exact ⟨rfl, hn⟩
    | error e => exact ⟨rfl, hn⟩
  | cas key old new =>
    obtain ⟨o, n, n', hm, hm', hn⟩ := (h.cas key old new).split
    rw [MemStore.call, MemStore.call, hm, hm']
    cases o with
    | ok v => exact ⟨rfl, hn⟩
    | error e => exact ⟨rfl, hn⟩
  | expire key expiresAt =>
    obtain ⟨o, n, n', hm, hm', hn⟩ := (h.expire key expiresAt).split
    rw [MemStore.call, MemStore.call, hm, hm']
    cases o with
    | ok v => exact ⟨rfl, hn⟩
    | error e => exact ⟨rfl, hn⟩
  | scan cursor count pattern =>
    rw [MemStore.call, MemStore.call, h.scan_eq]
    cases m'.scan cursor count pattern now with
    | none => exact ⟨rfl, h⟩
    | some page => exact ⟨rfl, h⟩

/-- **One call** on stores that look alike at its first reading. -/
theorem SameAt.perform (h : SameAt now m m') (hl : now ≤ later) (call : MemCall) :
    Alike later (m.perform now later call) (m'.perform now later call) := by
  cases call with
  | size => exact ⟨congrArg Answer.count h.size_eq, h.mono hl⟩
  | engine op =>
    have hcall := (h.call op).mono hl
    cases op with
    | get key =>
      obtain ⟨o, n, n', hm, hm', hn⟩ := (h.get hl key).split
      rw [MemStore.perform, MemStore.perform, hm, hm']
      cases o with
      | ok v => exact ⟨rfl, hn⟩
      | error e => exact ⟨rfl, hn⟩
    | _ => exact ⟨congrArg Answer.reply hcall.result, hcall.store⟩

/-- **One call of somebody else**: the store looks as before. -/
theorem sameAt_performExtra (m : MemStore) (hl : now ≤ later) (extra : Extra) :
    SameAt later (m.performExtra now later extra) m := by
  cases extra with
  | sweepExpired => exact m.sameAt_sweepExpired hl
  | get key => exact m.sameAt_get key (Int64.le_refl later)

/-! ## Sequences of calls -/

/-- From stores that look alike at a time before all readings. -/
theorem SameAt.answers_eq (calls : List Timed) (h : SameAt t m m')
    (hclock : (t :: readings calls).Pairwise (· ≤ ·)) :
    m.answers calls = m'.answers (compared calls) := by
  -- the stores look alike at the last reading taken
  induction calls generalizing t m m' with
  | nil => rfl
  | cons c calls ih =>
    obtain ⟨call, now, later⟩ := c
    have hclock' : (t :: now :: later :: readings calls).Pairwise (· ≤ ·) := hclock
    obtain ⟨hfirst, hrest⟩ := List.pairwise_cons.mp hclock'
    obtain ⟨hsecond, hrest⟩ := List.pairwise_cons.mp hrest
    have hnow : SameAt now m m' := h.mono (hfirst now (List.mem_cons_self ..))
    have hl : now ≤ later := hsecond later (List.mem_cons_self ..)
    cases call with
    | inl call =>
      obtain ⟨hresult, hstore⟩ := hnow.perform hl call
      exact congrArg₂ List.cons hresult (ih hstore hrest)
    | inr extra =>
      exact ih ((m.sameAt_performExtra hl extra).trans (hnow.mono hl)) hrest

/-- **Expiry sweeps and the reads of others are unobservable**: the calls of a sequence at
    non-decreasing readings of the clock have the results they have without the sweeps and reads
    that were inserted into it. -/
theorem extras_unobservable (m : MemStore) (calls : List Timed)
    (hclock : (readings calls).Pairwise (· ≤ ·)) :
    m.answers calls = m.answers (compared calls) := by
  have hstart : (Int64.minValue :: readings calls).Pairwise (· ≤ ·) :=
    List.pairwise_cons.mpr ⟨fun t _ => Int64.minValue_le t, hclock⟩
  exact (SameAt.refl m).answers_eq calls hstart

/-- A key with the deadline 5: a sweep at 6 drops it, and an `Incr` at 7 starts from 1 with and
    without the sweep. -/
theorem extras_unobservable_sweep :
    (readings [⟨.inl (.engine (.expire [107] 5)), 1, 1⟩, ⟨.inr .sweepExpired, 6, 6⟩,
      ⟨.inl (.engine (.incr [107])), 7, 7⟩]).Pairwise (· ≤ ·) ∧
    (new.put [107] [49]).answers [⟨.inl (.engine (.expire [107] 5)), 1, 1⟩,
        ⟨.inr .sweepExpired, 6, 6⟩, ⟨.inl (.engine (.incr [107])), 7, 7⟩] =
      (new.put [107] [49]).answers [⟨.inl (.engine (.expire [107] 5)), 1, 1⟩,
        ⟨.inl (.engine (.incr [107])), 7, 7⟩] :=
  ⟨by decide, extras_unobservable _ _ (by decide)⟩

end MemStore
end KvStore.Storage
