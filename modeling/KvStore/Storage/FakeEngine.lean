import KvStore.Storage.Recovery
import KvStore.Storage.Scan
import KvStore.Transition.Guarded

/-!
# The contract fake

Model of `FakeEngine` (`pkg/storage/fake.go`), which the tests of the other packages use instead
of a store. It keeps values and deadlines in two maps; `MemStore` keeps them in one, and there
the deadline 0 means none. Both take the same readings of the clock.

* `FakeEngine.Mirrors`: the two hold the same values and deadlines.
* `Mirrors.call`: an operation that meets `Faithful` is answered alike and keeps the relation.
* `fake_mirrors_iff`: all initial pieces of a sequence of operations, each followed by a `Get`,
  are answered alike exactly if every operation meets `Faithful`.
* `fake_differs`: an `Incr` that keeps its deadline, a deadline of 0, and a page of no items.
-/

namespace KvStore.Storage

open KvStore.Expiring (live)

/-- The operations of `Engine` (pkg/storage/engine.go:7). -/
inductive EngineOp where
  | get (key : Bytes)
  | put (key value : Bytes)
  | delete (key : Bytes)
  | clear
  | incr (key : Bytes)
  | cas (key old new : Bytes)
  | expire (key : Bytes) (expiresAt : Int64)
  | scan (cursor : Bytes) (count : ℤ) (pattern : Bytes)

/-- What an operation comes back with; an index out of range ends the caller. -/
inductive Reply where
  | done
  | value (v : Bytes)
  | int (v : ℤ)
  | swapped (b : Bool)
  | page (items : List (Bytes × Bytes)) (next : Bytes)
  | error (e : Err)
  /-- `scan: count must be positive` -/
  | badCount
  | panics
  deriving DecidableEq

/-- An operation on a `MemStore` at the clock reading `now`. -/
def MemStore.call (m : MemStore) (now : Int64) : EngineOp → Reply × MemStore
  | .get key =>
    match m.get key now now with
    | (.ok v, m) => (.value v, m)
    | (.error e, m) => (.error e, m)
  | .put key value => (.done, m.put key value)
  | .delete key => (.done, m.delete key)
  | .clear => (.done, m.clear)
  | .incr key =>
    match m.incr key now with
    | (.ok v, m) => (.int v, m)
    | (.error e, m) => (.error e, m)
  | .cas key old new =>
    match m.cas key old new now with
    | (.ok b, m) => (.swapped b, m)
    | (.error e, m) => (.error e, m)
  | .expire key expiresAt =>
    match m.expire key expiresAt now with
    | (.ok _, m) => (.done, m)
    | (.error e, m) => (.error e, m)
  | .scan cursor count pattern =>
    match m.scan cursor count pattern now with
    | some (items, next) => (.page items next, m)
    | none => (.badCount, m)

/-! ## The fake -/

/-- `FakeEngine` (pkg/storage/fake.go:13) without its lock. -/
structure FakeEngine where
  data : Std.ExtTreeMap Bytes Bytes compare
  expires : Std.ExtTreeMap Bytes Int64 compare
  cleared : Bool

namespace FakeEngine

/-- `NewFakeEngine` (pkg/storage/fake.go:21). -/
def new : FakeEngine := { data := ∅, expires := ∅, cleared := false }

/-- `expiredLocked` (pkg/storage/fake.go:164). -/
def expiredLocked (f : FakeEngine) (key : Bytes) (now : Int64) : Bool :=
  match f.expires[key]? with
  | none => false
  | some exp => exp ≤ now

/-- A key out of both maps. -/
def drop (f : FakeEngine) (key : Bytes) : FakeEngine :=
  { f with data := f.data.erase key, expires := f.expires.erase key }

/-- The first lines of `Incr`, `CAS` and `Expire` (pkg/storage/fake.go:79). -/
def dropExpired (f : FakeEngine) (key : Bytes) (now : Int64) : FakeEngine :=
  if f.expiredLocked key now then f.drop key else f

/-- `Get` (pkg/storage/fake.go:25). -/
def get (f : FakeEngine) (key : Bytes) (now : Int64) : Except Err Bytes × FakeEngine :=
  if f.expiredLocked key now then (.error .notFound, f.drop key)
  else
    match f.data[key]? with
    | none => (.error .notFound, f)
    | some v => (.ok v, f)

/-- `Put` (pkg/storage/fake.go:40). -/
def put (f : FakeEngine) (key value : Bytes) : FakeEngine :=
  { f with data := f.data.insert key value, expires := f.expires.erase key }

/-- `Delete` (pkg/storage/fake.go:48). -/
def delete (f : FakeEngine) (key : Bytes) : FakeEngine := f.drop key

/-- `Clear` (pkg/storage/fake.go:56). -/
def clear (_f : FakeEngine) : FakeEngine := { data := ∅, expires := ∅, cleared := true }

/-- `Incr` (pkg/storage/fake.go:76): the deadline of the key stays. -/
def incr (f : FakeEngine) (key : Bytes) (now : Int64) : Except Err ℤ × FakeEngine :=
  let f := f.dropExpired key now
  match f.data[key]? with
  | none => (.ok 1, { f with data := f.data.insert key [49] })
  | some cur =>
    match parseInt cur with
    | none => (.error .notNumeric, f)
    | some v =>
      if v = maxInt64 then (.error .overflow, f)
      else (.ok (v + 1), { f with data := f.data.insert key (formatInt (v + 1)) })

/-- `CAS` (pkg/storage/fake.go:99). -/
def cas (f : FakeEngine) (key old new : Bytes) (now : Int64) : Except Err Bool × FakeEngine :=
  let f := f.dropExpired key now
  match f.data[key]? with
  | none => (.error .notFound, f)
  | some cur => if cur ≠ old then (.ok false, f) else (.ok true, f.put key new)

/-- `Expire` (pkg/storage/fake.go:118). -/
def expire (f : FakeEngine) (key : Bytes) (expiresAt now : Int64) : Except Err Unit × FakeEngine :=
  let f := f.dropExpired key now
  match f.data[key]? with
  | none => (.error .notFound, f)
  | some _ => (.ok (), { f with expires := f.expires.insert key expiresAt })

/-- `Scan` (pkg/storage/fake.go:132); `none` is an index out of range, in `keys[:count]` or in
    `items[len(items)-1]`. -/
def scan (f : FakeEngine) (cursor : Bytes) (count : ℤ) (pattern : Bytes) (now : Int64) :
    Option (List (Bytes × Bytes) × Bytes) :=
  let items := f.data.toList.filter fun p =>
    !f.expiredLocked p.1 now && selected cursor pattern p.1
  if count < 0 then none
  else
    let items := items.take count.toNat
    if items.length = count then
      match items.getLast? with
      | none => none
      | some last => some (items, last.1)
    else some (items, [])

/-- An operation on a fake at the clock reading `now`. -/
def call (f : FakeEngine) (now : Int64) : EngineOp → Reply × FakeEngine
  | .get key =>
    match f.get key now with
    | (.ok v, f) => (.value v, f)
    | (.error e, f) => (.error e, f)
  | .put key value => (.done, f.put key value)
  | .delete key => (.done, f.delete key)
  | .clear => (.done, f.clear)
  | .incr key =>
    match f.incr key now with
    | (.ok v, f) => (.int v, f)
    | (.error e, f) => (.error e, f)
  | .cas key old new =>
    match f.cas key old new now with
    | (.ok b, f) => (.swapped b, f)
    | (.error e, f) => (.error e, f)
  | .expire key expiresAt =>
    match f.expire key expiresAt now with
    | (.ok _, f) => (.done, f)
    | (.error e, f) => (.error e, f)
  | .scan cursor count pattern =>
    match f.scan cursor count pattern now with
    | some (items, next) => (.page items next, f)
    | none => (.panics, f)

/-! ## The relation -/

/-- The deadline of an entry, if it has one. -/
def deadline (e : Entry) : Option Int64 := if e.exp = 0 then none else some e.exp

/-- The fake holds the values and the deadlines of the store. -/
structure Mirrors (f : FakeEngine) (m : MemStore) : Prop where
  data : ∀ k, f.data[k]? = (m.cell k).map Entry.value
  expires : ∀ k, f.expires[k]? = (m.cell k).bind deadline

theorem mirrors_new : Mirrors .new .new where
  data k := by simp [new]
  expires k := by simp [new]

variable {f : FakeEngine} {m : MemStore} {key : Bytes} {now : Int64}

theorem getElem?_insert' {V : Type} (d : Std.ExtTreeMap Bytes V compare) (key k : Bytes) (v : V) :
    (d.insert key v)[k]? = if key = k then some v else d[k]? := by
  simp only [Std.ExtTreeMap.getElem?_insert, Std.LawfulEqCmp.compare_eq_iff_eq]

theorem getElem?_erase' {V : Type} (d : Std.ExtTreeMap Bytes V compare) (key k : Bytes) :
    (d.erase key)[k]? = if key = k then none else d[k]? := by
  simp only [Std.ExtTreeMap.getElem?_erase, Std.LawfulEqCmp.compare_eq_iff_eq]

theorem Mirrors.expiredLocked_eq (h : Mirrors f m) (key : Bytes) (now : Int64) :
    f.expiredLocked key now = (m.cell key).any fun e => entryExpired e now := by
  unfold expiredLocked
  rw [h.expires]
  cases m.cell key with
  | none => rfl
  | some e =>
    by_cases he : e.exp = 0
    · simp [deadline, he, entryExpired]
    · simp [deadline, he, entryExpired]

/-- Dropping a key is dropping it from the store. -/
theorem Mirrors.drop (h : Mirrors f m) (key : Bytes) (n : UInt64) :
    Mirrors (f.drop key) ⟨m.data.erase key, n⟩ where
  data k := by
    rw [FakeEngine.drop, getElem?_erase', MemStore.cell_erase, h.data]
    split_ifs <;> rfl
  expires k := by
    rw [FakeEngine.drop, getElem?_erase', MemStore.cell_erase, h.expires]
    split_ifs <;> rfl

theorem Mirrors.dropExpired (h : Mirrors f m) (key : Bytes) (now : Int64) :
    Mirrors (f.dropExpired key now) (m.lookup key now).2 ∧
      (f.dropExpired key now).data[key]? = (m.lookup key now).1.map Entry.value := by
  unfold FakeEngine.dropExpired MemStore.lookup
  rw [h.expiredLocked_eq]
  cases hcell : m.cell key with
  | none =>
    refine ⟨h, ?_⟩
    simp [h.data, hcell]
  | some e =>
    cases he : entryExpired e now with
    | true =>
      simp only [Option.any_some, he, ↓reduceIte, Option.map_none]
      refine ⟨h.drop key _, ?_⟩
      rw [FakeEngine.drop, getElem?_erase', if_pos rfl]
    | false =>
      simp only [Option.any_some, he, Bool.false_eq_true, ↓reduceIte, Option.map_some]
      exact ⟨h, by rw [h.data, hcell]; rfl⟩

/-- A value under a key that has no deadline, or loses it. -/
theorem Mirrors.insert (h : Mirrors f m) (key v : Bytes) {expires : Std.ExtTreeMap Bytes Int64 compare}
    (hkey : expires[key]? = none) (hrest : ∀ k, key ≠ k → expires[k]? = f.expires[k]?) :
    Mirrors { f with data := f.data.insert key v, expires := expires } (m.put key v) where
  data k := by
    rw [getElem?_insert', MemStore.cell_put, h.data]
    split_ifs <;> rfl
  expires k := by
    rw [MemStore.cell_put]
    split_ifs with hk
    · rw [← hk, hkey]
      rfl
    · rw [hrest k hk, h.expires]

theorem Mirrors.put (h : Mirrors f m) (key v : Bytes) : Mirrors (f.put key v) (m.put key v) := by
  refine h.insert key v ?_ fun k hk => ?_
  · rw [getElem?_erase', if_pos rfl]
  · rw [getElem?_erase', if_neg hk]

/-- A deadline other than 0. -/
theorem Mirrors.expire (h : Mirrors f m) {e : Entry} (hcell : m.cell key = some e)
    {expiresAt : Int64} (hne : expiresAt ≠ 0) :
    Mirrors { f with expires := f.expires.insert key expiresAt }
      { m with data := m.data.insert key { value := e.value, exp := expiresAt } } where
  data k := by
    rw [MemStore.cell_insert]
    split_ifs with hk
    · rw [← hk, h.data, hcell]
      rfl
    · exact h.data k
  expires k := by
    rw [MemStore.cell_insert, getElem?_insert']
    split_ifs with hk
    · simp [deadline, hne]
    · exact h.expires k

/-! ## One operation -/

/-- The operations on which the fake agrees with the store `m`: no `Incr` that succeeds on a key with
    a deadline, no deadline of 0 for a key that is alive, no `Scan` for less than one item. -/
def Faithful (m : MemStore) (now : Int64) : EngineOp → Prop
  | .incr key => ∀ e v, live now (m.cell key) = some e → parseInt e.value = some v → v ≠ maxInt64 →
      e.exp = 0
  | .expire key expiresAt => expiresAt = 0 → live now (m.cell key) = none
  | .scan _ count _ => 0 < count
  | _ => True

/-- Both scans collect the same items. -/
theorem Mirrors.scanned_eq (h : Mirrors f m) (cursor pattern : Bytes) (now : Int64) :
    (f.data.toList.filter fun p => !f.expiredLocked p.1 now && selected cursor pattern p.1) =
      m.scanned cursor pattern now := by
  have hdata : f.data = m.data.map fun _ e => e.value := by
    refine Std.ExtTreeMap.ext_getElem? fun k => ?_
    rw [Std.ExtTreeMap.getElem?_map]
    exact h.data k
  rw [hdata, Std.ExtTreeMap.toList_map, List.filter_map, MemStore.scanned]
  refine congrArg _ (List.filter_congr fun p hp => ?_)
  have hcell : m.cell p.1 = some p.2 := m.mem_toList_iff.mp hp
  simp [h.expiredLocked_eq, hcell]

theorem Mirrors.scan_eq (h : Mirrors f m) (cursor pattern : Bytes) {count : ℤ} (hpos : 0 < count)
    (now : Int64) : f.scan cursor count pattern now = m.scan cursor count pattern now := by
  have hnot : ¬ count < 0 := by omega
  have hnot' : ¬ count ≤ 0 := by omega
  unfold FakeEngine.scan MemStore.scan page
  rw [h.scanned_eq, if_neg hnot, if_neg hnot']
  dsimp only
  generalize (m.scanned cursor pattern now).take count.toNat = items
  by_cases hfull : (items.length : ℤ) = count
  · have hfull' : items.length = count.toNat := by omega
    rw [if_pos hfull, if_pos hfull']
    cases hlast : items.getLast? with
    | none =>
      rw [List.getLast?_eq_none_iff.mp hlast] at hfull
      simp at hfull
      omega
    | some last => rfl
  · have hfull' : ¬ items.length = count.toNat := by omega
    rw [if_neg hfull, if_neg hfull']

/-- What `lookup` leaves in the cell is what it has found. -/
theorem cell_lookup_self (m : MemStore) (key : Bytes) (now : Int64) :
    (m.lookup key now).2.cell key = (m.lookup key now).1 := by
  rw [m.lookup_fst, m.cell_lookup, if_pos rfl]

/-- The operation is answered alike, and the relation is kept. -/
def Agree (f : FakeEngine) (m : MemStore) (now : Int64) (op : EngineOp) : Prop :=
  (f.call now op).1 = (m.call now op).1 ∧ Mirrors (f.call now op).2 (m.call now op).2

theorem Mirrors.agree_get (h : Mirrors f m) (key : Bytes) (now : Int64) :
    Agree f m now (.get key) := by
  unfold Agree FakeEngine.call MemStore.call FakeEngine.get MemStore.get
  dsimp only
  rw [h.expiredLocked_eq, h.data]
  cases hcell : m.cell key with
  | none => exact ⟨rfl, h⟩
  | some e =>
    cases he : entryExpired e now with
    | true => simpa [he] using h.drop key (m.expired + 1)
    | false => simpa [he] using h

theorem Mirrors.agree_incr (h : Mirrors f m) {key : Bytes} (hop : Faithful m now (.incr key)) :
    Agree f m now (.incr key) := by
  obtain ⟨hdrop, hfound⟩ := h.dropExpired key now
  have hlive : (m.lookup key now).1 = live now (m.cell key) := m.lookup_fst key now
  have hcell := cell_lookup_self m key now
  unfold Agree FakeEngine.call MemStore.call FakeEngine.incr MemStore.incr
  dsimp only
  rw [hfound]
  generalize f.dropExpired key now = f' at hdrop
  rcases hr : m.lookup key now with ⟨- | e, m'⟩
  · rw [hr] at hdrop hcell
    refine ⟨rfl, hdrop.insert key [49] ?_ fun _ _ => rfl⟩
    rw [hdrop.expires, hcell]
    rfl
  · rw [hr] at hdrop hcell hlive
    cases hp : parseInt e.value with
    | none => simpa [hp] using hdrop
    | some v =>
      by_cases hv : v = maxInt64
      · simpa [hp, hv] using hdrop
      · have hexp := hop e v hlive.symm hp hv
        have hnone : f'.expires[key]? = none := by
          rw [hdrop.expires, hcell]
          simp [deadline, hexp]
        simpa [hp, hv] using hdrop.insert key (formatInt (v + 1)) hnone fun _ _ => rfl

theorem Mirrors.agree_cas (h : Mirrors f m) (key old new : Bytes) (now : Int64) :
    Agree f m now (.cas key old new) := by
  obtain ⟨hdrop, hfound⟩ := h.dropExpired key now
  unfold Agree FakeEngine.call MemStore.call FakeEngine.cas MemStore.cas
  dsimp only
  rw [hfound]
  generalize f.dropExpired key now = f' at hdrop
  rcases hr : m.lookup key now with ⟨- | e, m'⟩
  · rw [hr] at hdrop
    exact ⟨rfl, hdrop⟩
  · rw [hr] at hdrop
    by_cases hv : e.value = old
    · simpa [hv] using hdrop.put key new
    · simpa [hv] using hdrop

theorem Mirrors.agree_expire (h : Mirrors f m) {key : Bytes} {expiresAt : Int64}
    (hop : Faithful m now (.expire key expiresAt)) : Agree f m now (.expire key expiresAt) := by
  obtain ⟨hdrop, hfound⟩ := h.dropExpired key now
  have hlive : (m.lookup key now).1 = live now (m.cell key) := m.lookup_fst key now
  have hcell := cell_lookup_self m key now
  unfold Agree FakeEngine.call MemStore.call FakeEngine.expire MemStore.expire
  dsimp only
  rw [hfound]
  generalize f.dropExpired key now = f' at hdrop
  rcases hr : m.lookup key now with ⟨- | e, m'⟩
  · rw [hr] at hdrop
    exact ⟨rfl, hdrop⟩
  · rw [hr] at hdrop hcell hlive
    have hne : expiresAt ≠ 0 := by
      intro hzero
      rw [hop hzero] at hlive
      cases hlive
    exact ⟨rfl, hdrop.expire hcell hne⟩

/-- A faithful operation is answered alike and keeps the relation. -/
theorem Mirrors.call (h : Mirrors f m) {op : EngineOp} (hop : Faithful m now op) :
    Agree f m now op := by
  cases op with
  | get key => exact h.agree_get key now
  | put key value => exact ⟨rfl, h.put key value⟩
  | delete key => exact ⟨rfl, h.drop key m.expired⟩
  | clear =>
    refine ⟨rfl, ?_, ?_⟩ <;> intro k <;>
      simp [FakeEngine.call, MemStore.call, FakeEngine.clear, MemStore.clear, MemStore.cell]
  | incr key => exact h.agree_incr hop
  | cas key old new => exact h.agree_cas key old new now
  | expire key expiresAt => exact h.agree_expire hop
  | scan cursor count pattern =>
    unfold Agree FakeEngine.call MemStore.call
    dsimp only
    rw [h.scan_eq cursor pattern hop now]
    cases hs : m.scan cursor count pattern now with
    | none => rw [MemStore.scan, if_neg (not_le.mpr hop)] at hs; cases hs
    | some r => exact ⟨rfl, h⟩

/-! ## Where they part -/

/-- A key with a value and no deadline in the store, and with a deadline in the fake: a `Get` at that
    deadline tells them apart. -/
theorem get_differs {v : Bytes} {x t : Int64} (hcell : m.cell key = some ⟨v, 0⟩)
    (hexp : f.expires[key]? = some x) (ht : x ≤ t) :
    (f.call t (.get key)).1 ≠ (m.call t (.get key)).1 := by
  have hfake : f.expiredLocked key t = true := by simp [expiredLocked, hexp, ht]
  simp [FakeEngine.call, MemStore.call, FakeEngine.get, MemStore.get, hcell, hfake]

/-- A key that is live in the store is there in the fake. -/
theorem Mirrors.of_live (h : Mirrors f m) {key : Bytes} {e : Entry}
    (hlive : live now (m.cell key) = some e) :
    m.cell key = some e ∧ entryExpired e now = false ∧ f.dropExpired key now = f ∧
      f.data[key]? = some e.value := by
  obtain ⟨hcell, hdead⟩ := Expiring.live_eq_some_iff.mp hlive
  rw [dead_eq] at hdead
  refine ⟨hcell, by simpa using hdead, ?_, ?_⟩
  · rw [FakeEngine.dropExpired, h.expiredLocked_eq, hcell]
    simp [hdead]
  · rw [h.data, hcell]
    rfl

/-- The answers to some `Get` differ. -/
def Differ (f : FakeEngine) (m : MemStore) (now : Int64) : Prop :=
  ∃ key t, now ≤ t ∧ (f.call t (.get key)).1 ≠ (m.call t (.get key)).1

/-- The fake keeps the deadline of a counter. -/
theorem Mirrors.differ_incr (h : Mirrors f m) {key : Bytes}
    (hop : ¬ Faithful m now (.incr key)) :
    Differ (f.call now (.incr key)).2 (m.call now (.incr key)).2 now := by
  simp only [Faithful, not_forall] at hop
  obtain ⟨e, v, hlive, hp, hv, hexp⟩ := hop
  obtain ⟨hcell, hdead, hkept, hdata⟩ := h.of_live hlive
  refine ⟨key, e.exp, ?_, get_differs (v := formatInt (v + 1)) (x := e.exp) ?_ ?_ (Int64.le_refl _)⟩
  · rcases Int64.le_total e.exp now with hle | hle
    · simp [entryExpired, hexp, hle] at hdead
    · exact hle
  · simp [MemStore.call, MemStore.incr, MemStore.lookup, hcell, hdead, hp, hv, MemStore.cell_put]
  · have hexpires : (f.incr key now).2.expires = f.expires := by
      simp [FakeEngine.incr, hkept, hdata, hp, hv]
    have hcall : (f.call now (.incr key)).2 = (f.incr key now).2 := by
      unfold FakeEngine.call
      dsimp only
      rcases f.incr key now with ⟨- | _, _⟩ <;> rfl
    rw [hcall, hexpires, h.expires, hcell]
    simp [deadline, hexp]

/-- The fake takes the deadline 0 for one that has passed. -/
theorem Mirrors.differ_expire (h : Mirrors f m) {key : Bytes} {expiresAt : Int64}
    (hop : ¬ Faithful m now (.expire key expiresAt)) :
    Differ (f.call now (.expire key expiresAt)).2 (m.call now (.expire key expiresAt)).2 now := by
  simp only [Faithful, Classical.not_imp] at hop
  obtain ⟨rfl, hne⟩ := hop
  obtain ⟨e, hlive⟩ := Option.ne_none_iff_exists'.mp hne
  obtain ⟨hcell, hdead, hkept, hdata⟩ := h.of_live hlive
  have hexp : (f.call now (.expire key 0)).2.expires[key]? = some 0 := by
    simp [FakeEngine.call, FakeEngine.expire, hkept, hdata]
  have hstore : (m.call now (.expire key 0)).2.cell key = some ⟨e.value, 0⟩ := by
    simp [MemStore.call, MemStore.expire, MemStore.lookup, hcell, hdead, MemStore.cell_insert]
  rcases Int64.le_total 0 now with hle | hle
  · exact ⟨key, now, Int64.le_refl _, get_differs hstore hexp hle⟩
  · exact ⟨key, 0, hle, get_differs hstore hexp (Int64.le_refl _)⟩

/-- An operation that is not faithful is answered differently, or a `Get` behind it is. -/
theorem Mirrors.differs (h : Mirrors f m) {op : EngineOp} (hop : ¬ Faithful m now op) :
    (f.call now op).1 ≠ (m.call now op).1 ∨ Differ (f.call now op).2 (m.call now op).2 now := by
  cases op with
  | incr key => exact .inr (h.differ_incr hop)
  | expire key expiresAt => exact .inr (h.differ_expire hop)
  | scan cursor count pattern =>
    left
    have hle : count ≤ 0 := not_lt.mp hop
    have hfake : f.scan cursor count pattern now = none := by
      unfold FakeEngine.scan
      dsimp only
      split_ifs with hneg hzero
      · rfl
      · have hnil : count.toNat = 0 := by omega
        rw [hnil, List.take_zero]
        rfl
      · exfalso
        have hnil : count.toNat = 0 := by omega
        rw [hnil, List.take_zero] at hzero
        simp at hzero
        omega
    simp [FakeEngine.call, MemStore.call, hfake, MemStore.scan, hle]
  | _ => exact absurd trivial hop

end FakeEngine

/-! ## Sequences -/

/-- The answers of a store to operations, each with the reading of the clock it takes. -/
def MemStore.replies : MemStore → List (EngineOp × Int64) → List Reply
  | _, [] => []
  | m, p :: ops => (m.call p.2 p.1).1 :: replies (m.call p.2 p.1).2 ops

/-- The answers of a fake. -/
def FakeEngine.replies : FakeEngine → List (EngineOp × Int64) → List Reply
  | _, [] => []
  | f, p :: ops => (f.call p.2 p.1).1 :: replies (f.call p.2 p.1).2 ops

/-- The fake mirrors the store along `ops`: the operations up to any point, followed by a `Get` of any
    key at a reading that is not earlier, are answered alike by both, started empty. -/
def Mirrored (ops : List (EngineOp × Int64)) : Prop :=
  ∀ pre key t, pre <+: ops → (∀ p ∈ pre, p.2 ≤ t) →
    FakeEngine.new.replies (pre ++ [(.get key, t)]) = MemStore.new.replies (pre ++ [(.get key, t)])

/-- Every operation is faithful in the state that it meets. -/
abbrev AllFaithful (m : MemStore) (ops : List (EngineOp × Int64)) : Prop :=
  Transition.AllMeet (fun m p => (m.call p.2 p.1).2) (fun m p => FakeEngine.Faithful m p.2 p.1) m ops

namespace FakeEngine

/-- A sequence of faithful operations is answered alike. -/
theorem Mirrors.replies_eq {f : FakeEngine} {m : MemStore} (h : Mirrors f m)
    {ops : List (EngineOp × Int64)} (hops : AllFaithful m ops) : f.replies ops = m.replies ops := by
  induction ops generalizing f m with
  | nil => rfl
  | cons p ops ih =>
    obtain ⟨hp, hrest⟩ := Transition.allMeet_cons.mp hops
    obtain ⟨hreply, hnext⟩ := h.call hp
    rw [FakeEngine.replies, MemStore.replies, hreply, ih hnext hrest]

/-- If all initial pieces, followed by a `Get` not before `last`, are answered alike, then all
    operations are faithful. -/
theorem Mirrors.allFaithful {f : FakeEngine} {m : MemStore} (h : Mirrors f m)
    {ops : List (EngineOp × Int64)} (last : Int64) (hlast : ∀ p ∈ ops, last ≤ p.2)
    (hmono : ops.Pairwise fun p q => p.2 ≤ q.2)
    (hsame : ∀ pre key t, pre <+: ops → (∀ p ∈ pre, p.2 ≤ t) → last ≤ t →
      f.replies (pre ++ [(.get key, t)]) = m.replies (pre ++ [(.get key, t)])) :
    AllFaithful m ops := by
  induction ops generalizing f m last with
  | nil => exact Transition.allMeet_nil
  | cons p ops ih =>
    obtain ⟨hfirst, hrest⟩ := List.pairwise_cons.mp hmono
    have hp : last ≤ p.2 := hlast p List.mem_cons_self
    -- one operation and a `Get` show whether it was faithful
    have hfaithful : Faithful m p.2 p.1 := by
      by_contra hnot
      have htwo : ∀ key t, p.2 ≤ t →
          f.replies ([p] ++ [(.get key, t)]) = m.replies ([p] ++ [(.get key, t)]) := by
        intro key t ht
        refine hsame [p] key t ⟨ops, rfl⟩ ?_ (Int64.le_trans hp ht)
        intro q hq
        rw [List.mem_singleton.mp hq]
        exact ht
      rcases h.differs hnot with hreply | ⟨key, t, ht, hreply⟩
      · exact hreply (List.cons.inj (htwo [] p.2 (Int64.le_refl _))).1
      · have htail := (List.cons.inj (htwo key t ht)).2
        exact hreply (List.cons.inj htail).1
    obtain ⟨hreply, hnext⟩ := h.call hfaithful
    refine Transition.allMeet_cons.mpr ⟨hfaithful, ih hnext p.2 hfirst hrest fun pre key t hpre hle ht => ?_⟩
    have hcons := hsame (p :: pre) key t (List.cons_prefix_cons.mpr ⟨rfl, hpre⟩)
      (List.forall_mem_cons.mpr ⟨ht, hle⟩) (Int64.le_trans hp ht)
    exact (List.cons.inj hcons).2

end FakeEngine

/-- Along a sequence of operations at non-decreasing clock readings the fake mirrors the store exactly
    if every operation is faithful. -/
theorem fake_mirrors_iff (ops : List (EngineOp × Int64)) (hmono : ops.Pairwise fun p q => p.2 ≤ q.2) :
    Mirrored ops ↔ AllFaithful .new ops := by
  constructor
  · intro h
    refine FakeEngine.mirrors_new.allFaithful Int64.minValue ?_ hmono ?_
    · intro p _
      exact Int64.minValue_le p.2
    · intro pre key t hpre hle _
      exact h pre key t hpre hle
  · rintro h pre key t ⟨rest, rfl⟩ -
    exact FakeEngine.mirrors_new.replies_eq
      (Transition.allMeet_concat.mpr ⟨h.of_append, trivial⟩)

/-- `Put k 1`, a deadline, `CAS` of the value, `Incr`, and a page. -/
def commonCalls : List (EngineOp × Int64) :=
  [(.put [107] [49], 1), (.expire [107] 10, 2), (.cas [107] [49] [53], 3), (.incr [107], 4),
    (.scan [] 2 [], 20)]

theorem common_calls_mirrored : Mirrored commonCalls := by
  refine (fake_mirrors_iff commonCalls (by decide)).mpr ?_
  simp only [commonCalls, AllFaithful, Transition.allMeet_cons]
  refine ⟨trivial, ?_, trivial, ?_, show (0 : ℤ) < 2 by decide, Transition.allMeet_nil⟩
  · intro hzero
    exact absurd hzero (by decide)
  · intro e v hlive _ _
    have hcell : (live 4 (((((MemStore.new.call 1 (.put [107] [49])).2.call 2
        (.expire [107] 10)).2.call 3 (.cas [107] [49] [53])).2).cell [107])).map Entry.exp = some 0 := by
      decide
    rw [hlive] at hcell
    exact Option.some.inj hcell

/-- The three ways in which the fake differs. `Incr` on a key with a deadline keeps the deadline; the
    deadline 0 is one that has passed; `Scan` for no items is an index out of range. -/
theorem fake_differs :
    FakeEngine.new.replies
        [(.put [107] [49], 1), (.expire [107] 10, 2), (.incr [107], 3), (.get [107], 10)] ≠
      MemStore.new.replies
        [(.put [107] [49], 1), (.expire [107] 10, 2), (.incr [107], 3), (.get [107], 10)] ∧
    FakeEngine.new.replies [(.put [107] [49], 1), (.expire [107] 0, 2), (.get [107], 3)] ≠
      MemStore.new.replies [(.put [107] [49], 1), (.expire [107] 0, 2), (.get [107], 3)] ∧
    FakeEngine.new.replies [(.scan [] 0 [], 1)] ≠ MemStore.new.replies [(.scan [] 0 [], 1)] := by
  decide

end KvStore.Storage
