import KvStore.Journal.Expiring
import KvStore.Storage.Engine

/-!
# The in-memory store

Model of `pkg/storage/memstore.go`. The map is a `Std.ExtTreeMap`, so that two
stores with the same entries are equal; the order of its keys is the byte order
`json.Marshal` and `Scan` sort by. A method that reads the clock takes its reading
as an argument; `Get` reads it a second time before it drops a dead key.

An operation touches one key, or, for `Clear`, all of them. What it does to the
cell of a key is `Command.onCell`, and `apply_data` and `apply_result` say that the
store is the product of its cells: everything about expiry is proved on one cell.
-/

namespace KvStore.Storage

open KvStore.Expiring (live)

/-- `entry` (pkg/storage/memstore.go:14); `exp = 0` means that the key never expires. -/
structure Entry where
  value : Bytes
  exp : Int64 := 0
  deriving DecidableEq, Repr

/-- `entryExpired` (pkg/storage/memstore.go:33). -/
def entryExpired (e : Entry) (now : Int64) : Bool := e.exp ≠ 0 && e.exp ≤ now

instance : Expiring.Mortal Int64 Entry where
  dead := entryExpired
  dead_mono := by
    intro e s t hst h
    simp only [entryExpired, Bool.and_eq_true, decide_eq_true_eq] at h ⊢
    exact ⟨h.1, Int64.le_trans h.2 hst⟩

@[simp] theorem dead_eq (e : Entry) (t : Int64) : Expiring.Mortal.dead e t = entryExpired e t := rfl

@[simp] theorem entryExpired_zero (v : Bytes) (t : Int64) : entryExpired ⟨v, 0⟩ t = false := by
  simp [entryExpired]

theorem live_never_expires (t : Int64) (v : Bytes) :
    live t (some (⟨v, 0⟩ : Entry)) = some ⟨v, 0⟩ :=
  Expiring.live_some_of_not_dead (entryExpired_zero v t)

/-! ## Counters -/

/-- `math.MaxInt64`. -/
def maxInt64 : ℤ := 2 ^ 63 - 1

/-- The value of a run of ASCII digits; `none` on any other byte. -/
def parseDigits (s : Bytes) : Option ℕ :=
  s.foldlM (fun n b => if 48 ≤ b ∧ b ≤ 57 then some (10 * n + (b.toNat - 48)) else none) 0

/-- `strconv.ParseInt(s, 10, 64)`; `none` is a syntax or a range error. -/
def parseInt (s : Bytes) : Option ℤ :=
  let (neg, digits) : Bool × Bytes := match s with
    | 43 :: rest => (false, rest)
    | 45 :: rest => (true, rest)
    | _ => (false, s)
  if digits = [] then none
  else (parseDigits digits).bind fun n =>
    let v : ℤ := if neg then -n else n
    if -(2 ^ 63) ≤ v ∧ v ≤ maxInt64 then some v else none

/-- `strconv.FormatInt(v, 10)`. -/
def formatInt (v : ℤ) : Bytes :=
  let digits : Bytes := match v.natAbs with
    | 0 => [48]
    | n => (Nat.digits 10 n).reverse.map fun d => 48 + d.toUInt8
  if v < 0 then 45 :: digits else digits

example : parseInt [45, 49, 50] = some (-12) ∧ formatInt (-12) = [45, 49, 50] := by decide

theorem formatInt_one : formatInt 1 = [49] := by decide

theorem zero_ne_maxInt64 : (0 : ℤ) ≠ maxInt64 := by decide

/-! ## The store -/

/-- `MemStore` (pkg/storage/memstore.go:21) without its lock. -/
structure MemStore where
  data : Std.ExtTreeMap Bytes Entry compare
  expired : UInt64
  deriving DecidableEq

namespace MemStore

/-- `NewMemStore` (pkg/storage/memstore.go:29). -/
def new : MemStore := { data := ∅, expired := 0 }

/-- The cell of a key. -/
def cell (m : MemStore) (key : Bytes) : Option Entry := m.data[key]?

/-- `Get` (pkg/storage/memstore.go:37); `later` is the reading under the write lock. -/
def get (m : MemStore) (key : Bytes) (now later : Int64) : Except Err Bytes × MemStore :=
  match m.cell key with
  | none => (.error .notFound, m)
  | some e =>
    if entryExpired e now then
      (.error .notFound,
        if entryExpired e later then { data := m.data.erase key, expired := m.expired + 1 } else m)
    else (.ok e.value, m)

/-- `Put` (pkg/storage/memstore.go:60). -/
def put (m : MemStore) (key value : Bytes) : MemStore :=
  { m with data := m.data.insert key { value := value } }

/-- `Delete` (pkg/storage/memstore.go:68). -/
def delete (m : MemStore) (key : Bytes) : MemStore := { m with data := m.data.erase key }

/-- `Clear` (pkg/storage/memstore.go:76). -/
def clear (m : MemStore) : MemStore := { m with data := ∅ }

/-- The first lines of `Incr`, `CAS` and `Expire` (pkg/storage/memstore.go:106): the
    entry of the key, after a dead one has been dropped and counted. -/
def lookup (m : MemStore) (key : Bytes) (now : Int64) : Option Entry × MemStore :=
  match m.cell key with
  | none => (none, m)
  | some e =>
    if entryExpired e now then (none, { data := m.data.erase key, expired := m.expired + 1 })
    else (some e, m)

/-- `Incr` (pkg/storage/memstore.go:102). -/
def incr (m : MemStore) (key : Bytes) (now : Int64) : Except Err ℤ × MemStore :=
  match m.lookup key now with
  | (none, m) => (.ok 1, m.put key [49])
  | (some e, m) =>
    match parseInt e.value with
    | none => (.error .notNumeric, m)
    | some v =>
      if v = maxInt64 then (.error .overflow, m) else (.ok (v + 1), m.put key (formatInt (v + 1)))

/-- `CAS` (pkg/storage/memstore.go:127). -/
def cas (m : MemStore) (key old new : Bytes) (now : Int64) : Except Err Bool × MemStore :=
  match m.lookup key now with
  | (none, m) => (.error .notFound, m)
  | (some e, m) => if e.value ≠ old then (.ok false, m) else (.ok true, m.put key new)

/-- `Expire` (pkg/storage/memstore.go:147). -/
def expire (m : MemStore) (key : Bytes) (expiresAt now : Int64) : Except Err Unit × MemStore :=
  match m.lookup key now with
  | (none, m) => (.error .notFound, m)
  | (some e, m) => (.ok (), { m with data := m.data.insert key { value := e.value, exp := expiresAt } })

/-- `SweepExpired` (pkg/storage/memstore.go:167). -/
def sweepExpired (m : MemStore) (now : Int64) : ℕ × MemStore :=
  let kept := m.data.filter fun _ e => !entryExpired e now
  let n := m.data.size - kept.size
  (n, { data := kept, expired := m.expired + n.toUInt64 })

/-- `applyCmd` (pkg/raft/leader.go:340) on a `MemStore`, at the clock reading `now`. -/
def apply (m : MemStore) (cmd : Command) (now : Int64) : Except Err Value × MemStore :=
  match cmd.op with
  | .put => (.ok .none, m.put cmd.key cmd.value)
  | .delete => (.ok .none, m.delete cmd.key)
  | .clear => (.ok .none, m.clear)
  | .incr => let r := m.incr cmd.key now; (r.1.map .int, r.2)
  | .cas => let r := m.cas cmd.key cmd.old cmd.value now; (r.1.map .bool, r.2)
  | .expire => let r := m.expire cmd.key cmd.expiresAt now; (r.1.map fun _ => .none, r.2)
  | .other _ => (.error .unknownOp, m)

end MemStore

/-! ## Cells -/

/-- The operations whose outcome depends on the content of the key (`opIncr` and
    above in the batcher, pkg/storage/batcher.go:46). -/
def Op.conditional : Op → Bool
  | .incr | .cas | .expire => true
  | _ => false

namespace Command

/-- What `apply` does to the cell of a key the command touches. -/
def onCell (cmd : Command) (now : Int64) (c : Option Entry) : Except Err Value × Option Entry :=
  match cmd.op with
  | .put => (.ok .none, some { value := cmd.value })
  | .delete => (.ok .none, none)
  | .clear => (.ok .none, none)
  | .incr =>
    match live now c with
    | none => (.ok (.int 1), some { value := [49] })
    | some e =>
      match parseInt e.value with
      | none => (.error .notNumeric, some e)
      | some v =>
        if v = maxInt64 then (.error .overflow, some e)
        else (.ok (.int (v + 1)), some { value := formatInt (v + 1) })
  | .cas =>
    match live now c with
    | none => (.error .notFound, none)
    | some e =>
      if e.value ≠ cmd.old then (.ok (.bool false), some e)
      else (.ok (.bool true), some { value := cmd.value })
  | .expire =>
    match live now c with
    | none => (.error .notFound, none)
    | some e => (.ok .none, some { value := e.value, exp := cmd.expiresAt })
  | .other _ => (.error .unknownOp, c)

/-- The result and the new content of a cell only depend on what is visible in it. -/
theorem onCell_congr {cmd : Command} (h : cmd.op.conditional = true) {c d : Option Entry}
    {s t : Int64} (hview : live s c = live t d) : cmd.onCell s c = cmd.onCell t d := by
  unfold onCell
  cases hop : cmd.op with
  | incr => simp only [hview]
  | cas => simp only [hview]
  | expire => simp only [hview]
  | _ => simp [hop, Op.conditional] at h

theorem onCell_none {cmd : Command} (h : cmd.op.conditional = true) (s t : Int64) :
    cmd.onCell s none = cmd.onCell t none :=
  onCell_congr h (by rw [Expiring.live_none, Expiring.live_none])

/-- Unconditional commands do not look at the clock. -/
theorem onCell_blind {cmd : Command} (h : cmd.op.conditional = false) (c : Option Entry)
    (s t : Int64) : cmd.onCell s c = cmd.onCell t c := by
  unfold onCell
  cases hop : cmd.op with
  | incr => simp [hop, Op.conditional] at h
  | cas => simp [hop, Op.conditional] at h
  | expire => simp [hop, Op.conditional] at h
  | _ => rfl

/-- The command may change the cell of `k`. -/
def Touches (cmd : Command) (k : Bytes) : Prop := cmd.op = .clear ∨ cmd.key = k

instance (cmd : Command) (k : Bytes) : Decidable (cmd.Touches k) := by
  unfold Touches; infer_instance

end Command

namespace MemStore

variable (m : MemStore) (key k : Bytes) (now : Int64)

@[simp] theorem cell_new : new.cell k = none := by simp [cell, new]

theorem ext_cell {m m' : MemStore} (h : ∀ k, m.cell k = m'.cell k) : m.data = m'.data :=
  Std.ExtTreeMap.ext_getElem? h

theorem cell_congr {m m' : MemStore} (h : m.data = m'.data) (k : Bytes) : m.cell k = m'.cell k := by
  rw [cell, cell, h]

theorem cell_insert (d : Std.ExtTreeMap Bytes Entry compare) (n : UInt64) (e : Entry) :
    cell ⟨d.insert key e, n⟩ k = if key = k then some e else d[k]? := by
  simp only [cell, Std.ExtTreeMap.getElem?_insert, Std.LawfulEqCmp.compare_eq_iff_eq]

theorem cell_erase (d : Std.ExtTreeMap Bytes Entry compare) (n : UInt64) :
    cell ⟨d.erase key, n⟩ k = if key = k then none else d[k]? := by
  simp only [cell, Std.ExtTreeMap.getElem?_erase, Std.LawfulEqCmp.compare_eq_iff_eq]

theorem cell_put (v : Bytes) :
    (m.put key v).cell k = if key = k then some { value := v } else m.cell k :=
  cell_insert key k m.data m.expired _

theorem cell_delete : (m.delete key).cell k = if key = k then none else m.cell k :=
  cell_erase key k m.data m.expired

@[simp] theorem cell_clear : m.clear.cell k = none := by simp [cell, clear]

theorem lookup_fst : (m.lookup key now).1 = live now (m.cell key) := by
  unfold lookup
  cases h : m.cell key with
  | none => rfl
  | some e =>
    cases he : entryExpired e now with
    | true => rw [Expiring.live_some_of_dead he]; simp [he]
    | false => rw [Expiring.live_some_of_not_dead he]; simp [he]

theorem cell_lookup :
    (m.lookup key now).2.cell k = if key = k then live now (m.cell k) else m.cell k := by
  by_cases hk : key = k
  · subst hk
    rw [if_pos rfl, ← lookup_fst]
    unfold lookup
    cases h : m.cell key with
    | none => simpa using h
    | some e => cases he : entryExpired e now <;> simp [he, cell_erase, h]
  · rw [if_neg hk]
    unfold lookup
    cases h : m.cell key with
    | none => rfl
    | some e =>
      cases he : entryExpired e now with
      | true => simp only [he, ↓reduceIte, cell_erase, if_neg hk]; rfl
      | false => simp [he]

/-- Writing the key the lookup was for: the other cells are as before both. -/
theorem cell_insert_lookup (e : Entry) (n : UInt64) :
    cell ⟨(m.lookup key now).2.data.insert key e, n⟩ k =
      if key = k then some e else m.cell k := by
  rw [cell_insert]
  by_cases hk : key = k
  · rw [if_pos hk, if_pos hk]
  · rw [if_neg hk, if_neg hk]
    exact (cell_lookup m key k now).trans (if_neg hk)

/-- `Incr`, `CAS` and `Expire` as one operation on the cell of the key. -/
theorem conditional_spec (cmd : Command) (h : cmd.op.conditional = true) :
    (m.apply cmd now).1 = (cmd.onCell now (m.cell cmd.key)).1 ∧
      (m.apply cmd now).2.cell k =
        if cmd.key = k then (cmd.onCell now (m.cell k)).2 else m.cell k := by
  have hfst := lookup_fst m cmd.key now
  have hcell := cell_lookup m cmd.key k now
  have hins := fun e n => cell_insert_lookup m cmd.key k now e n
  -- the cell only enters through what the lookup found
  have hsubst : (if cmd.key = k then (cmd.onCell now (m.cell k)).2 else m.cell k) =
      if cmd.key = k then (cmd.onCell now (m.cell cmd.key)).2 else m.cell k := by
    split_ifs with hk
    · rw [hk]
    · rfl
  have hsubst' : (if cmd.key = k then live now (m.cell k) else m.cell k) =
      if cmd.key = k then live now (m.cell cmd.key) else m.cell k := by
    split_ifs with hk
    · rw [hk]
    · rfl
  rw [hsubst]
  rw [hsubst'] at hcell
  unfold apply Command.onCell
  cases hop : cmd.op with
  | incr =>
    simp only [incr, ← hfst] at hcell hins ⊢
    generalize m.lookup cmd.key now = r at hcell hins ⊢
    rcases r with ⟨- | e, m'⟩
    · exact ⟨rfl, hins _ _⟩
    · cases hp : parseInt e.value with
      | none => simpa [hp, Except.map] using hcell
      | some v =>
        by_cases hv : v = maxInt64
        · simpa [hp, hv, Except.map] using hcell
        · simpa [hp, hv, Except.map, put] using hins _ _
  | cas =>
    simp only [cas, ← hfst] at hcell hins ⊢
    generalize m.lookup cmd.key now = r at hcell hins ⊢
    rcases r with ⟨- | e, m'⟩
    · exact ⟨rfl, hcell⟩
    · by_cases hv : e.value = cmd.old
      · simpa [hv, Except.map, put] using hins _ _
      · simpa [hv, Except.map] using hcell
  | expire =>
    simp only [expire, ← hfst] at hcell hins ⊢
    generalize m.lookup cmd.key now = r at hcell hins ⊢
    rcases r with ⟨- | e, m'⟩
    · exact ⟨rfl, hcell⟩
    · exact ⟨rfl, hins _ _⟩
  | _ => simp [hop, Op.conditional] at h

/-- The store is the product of its cells: the result of a command. -/
theorem apply_result (cmd : Command) :
    (m.apply cmd now).1 = (cmd.onCell now (m.cell cmd.key)).1 := by
  cases h : cmd.op.conditional with
  | true => exact (conditional_spec m cmd.key now cmd h).1
  | false => unfold apply Command.onCell; cases hop : cmd.op <;> simp_all [Op.conditional]

/-- The store is the product of its cells: the contents after a command. -/
theorem apply_cell (cmd : Command) :
    (m.apply cmd now).2.cell k =
      if cmd.Touches k then (cmd.onCell now (m.cell k)).2 else m.cell k := by
  cases h : cmd.op.conditional with
  | true =>
    have hclear : cmd.op ≠ .clear := by intro hc; simp [hc, Op.conditional] at h
    rw [(conditional_spec m k now cmd h).2]
    simp only [Command.Touches, hclear, false_or]
  | false =>
    obtain ⟨op, key, old, value, expiresAt⟩ := cmd
    cases op with
    | put => simp [apply, Command.onCell, Command.Touches, cell_put]
    | delete => simp [apply, Command.onCell, Command.Touches, cell_delete]
    | clear => simp [apply, Command.onCell, Command.Touches]
    | other code => simp [apply, Command.onCell]
    | _ => simp [Op.conditional] at h

end MemStore
end KvStore.Storage
