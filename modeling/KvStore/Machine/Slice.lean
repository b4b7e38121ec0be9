import Mathlib

/-!
# Machine integers and slices

An `int` of a 64-bit platform is an `Int64`: sums and differences wrap. A slice is a window on an
array: its length counts the elements in the window, its capacity the cells up to the end of the
array. `s[:k]` asks only that `k` is within the capacity, so it can bring back cells that an earlier
`s[:k]` had cut off.

* `toInt_add_cases`, `toInt_sub_cases`: what a sum and a difference are, exact or off by `2 ^ 64`.
* `Slice.upTo_eq_outOfRange_iff`, `Slice.upTo_of_le`, `Slice.dropFrom_of_le`, `Slice.get_of_lt`: when
  a slice operation is in range, and what it gives.
* `Slice.append_cases`: an append writes behind the elements, or to a new array.
-/

namespace KvStore.Machine

/-! ## Integers -/

theorem bmod_cases {x : ℤ} (hlo : -2 ^ 64 ≤ x) (hhi : x < 2 ^ 64) :
    (x < -2 ^ 63 ∧ x.bmod (2 ^ 64) = x + 2 ^ 64) ∨
      (-2 ^ 63 ≤ x ∧ x < 2 ^ 63 ∧ x.bmod (2 ^ 64) = x) ∨
        (2 ^ 63 ≤ x ∧ x.bmod (2 ^ 64) = x - 2 ^ 64) := by
  rw [Int.bmod_def]
  push_cast
  split_ifs
  · omega
  · omega

theorem toInt_add_cases (a b : Int64) :
    (a.toInt + b.toInt < -2 ^ 63 ∧ (a + b).toInt = a.toInt + b.toInt + 2 ^ 64) ∨
      (-2 ^ 63 ≤ a.toInt + b.toInt ∧ a.toInt + b.toInt < 2 ^ 63 ∧
        (a + b).toInt = a.toInt + b.toInt) ∨
        (2 ^ 63 ≤ a.toInt + b.toInt ∧ (a + b).toInt = a.toInt + b.toInt - 2 ^ 64) := by
  have ha := a.le_toInt
  have ha' := a.toInt_lt
  have hb := b.le_toInt
  have hb' := b.toInt_lt
  rw [Int64.toInt_add]
  exact bmod_cases (by omega) (by omega)

theorem toInt_sub_cases (a b : Int64) :
    (a.toInt - b.toInt < -2 ^ 63 ∧ (a - b).toInt = a.toInt - b.toInt + 2 ^ 64) ∨
      (-2 ^ 63 ≤ a.toInt - b.toInt ∧ a.toInt - b.toInt < 2 ^ 63 ∧
        (a - b).toInt = a.toInt - b.toInt) ∨
        (2 ^ 63 ≤ a.toInt - b.toInt ∧ (a - b).toInt = a.toInt - b.toInt - 2 ^ 64) := by
  have ha := a.le_toInt
  have ha' := a.toInt_lt
  have hb := b.le_toInt
  have hb' := b.toInt_lt
  rw [Int64.toInt_sub]
  exact bmod_cases (by omega) (by omega)

theorem toInt_sub_of_bounds {a b : Int64} (hlo : -2 ^ 63 ≤ a.toInt - b.toInt)
    (hhi : a.toInt - b.toInt < 2 ^ 63) : (a - b).toInt = a.toInt - b.toInt := by
  have := toInt_sub_cases a b
  omega

/-! ## Faults -/

/-- How a computation can end without a result: an index or a bound out of range, or an allocation
    that the runtime refuses. -/
inductive Fault where
  | outOfRange
  | noMemory
  deriving DecidableEq, Repr

theorem bind_eq_ok_iff {α β ε : Type} {x : Except ε α} {f : α → Except ε β} {b : β} :
    (x >>= f) = .ok b ↔ ∃ a, x = .ok a ∧ f a = .ok b := by
  cases x with
  | error e => simp [bind, Except.bind]
  | ok a => simp [bind, Except.bind]

theorem bind_eq_error_iff {α β ε : Type} {x : Except ε α} {f : α → Except ε β} {e : ε} :
    (x >>= f) = .error e ↔ x = .error e ∨ ∃ a, x = .ok a ∧ f a = .error e := by
  cases x with
  | error e' => simp [bind, Except.bind]
  | ok a => simp [bind, Except.bind]

theorem map_eq_ok_iff {α β ε : Type} {x : Except ε α} {f : α → β} {b : β} :
    f <$> x = .ok b ↔ ∃ a, x = .ok a ∧ f a = b := by
  cases x with
  | error e => simp [Functor.map, Except.map]
  | ok a => simp [Functor.map, Except.map]

theorem map_eq_error_iff {α β ε : Type} {x : Except ε α} {f : α → β} {e : ε} :
    f <$> x = .error e ↔ x = .error e := by
  cases x with
  | error e' => simp [Functor.map, Except.map]
  | ok a => simp [Functor.map, Except.map]

/-! ## Slices -/

/-- The cells from the first element to the end of the capacity, and the length. -/
structure Slice (α : Type*) where
  cells : List α
  size : ℕ
  size_le : size ≤ cells.length
  cap_lt : cells.length < 2 ^ 63
  deriving DecidableEq

namespace Slice

variable {α : Type*} (s : Slice α) (k : Int64) {xs : List α}

/-- The elements in the window. -/
def elems : List α := s.cells.take s.size

/-- `len(s)`. -/
def len : Int64 := .ofNat s.size

/-- `cap(s)`. -/
def cap : Int64 := .ofNat s.cells.length

@[simp] theorem length_elems : s.elems.length = s.size := by
  simp [elems, s.size_le]

@[simp] theorem toInt_len : s.len.toInt = s.size :=
  Int64.toInt_ofNat_of_lt (s.size_le.trans_lt s.cap_lt)

@[simp] theorem toInt_cap : s.cap.toInt = s.cells.length := Int64.toInt_ofNat_of_lt s.cap_lt

theorem nil_cap_lt : ([] : List α).length < 2 ^ 63 := by simp

/-- The nil slice. -/
def nil : Slice α := ⟨[], 0, Nat.le_refl 0, nil_cap_lt⟩

/-- `s[k]`. -/
def get : Except Fault α :=
  if k < 0 then .error .outOfRange
  else match s.elems[k.toInt.toNat]? with
    | some x => .ok x
    | none => .error .outOfRange

theorem get_of_lt {s : Slice α} {k : Int64} (hlo : 0 ≤ k.toInt) (hhi : k.toInt < s.size) :
    ∃ x, s.elems[k.toInt.toNat]? = some x ∧ s.get k = .ok x := by
  have hlt : k.toInt.toNat < s.elems.length := by
    rw [length_elems]
    omega
  refine ⟨s.elems[k.toInt.toNat], List.getElem?_eq_getElem hlt, ?_⟩
  have hneg : ¬ k < 0 := by
    rw [Int64.lt_iff_toInt_lt, Int64.toInt_zero]
    omega
  rw [get, if_neg hneg, List.getElem?_eq_getElem hlt]

theorem toNat_le_cap {s : Slice α} {k : Int64} (h : 0 ≤ k ∧ k ≤ s.cap) :
    k.toInt.toNat ≤ s.cells.length := by
  have hle := Int64.le_iff_toInt_le.mp h.2
  rw [toInt_cap] at hle
  omega

/-- `s[:k]`. The bound is the capacity, not the length. -/
def upTo : Except Fault (Slice α) :=
  if h : 0 ≤ k ∧ k ≤ s.cap then .ok ⟨s.cells, k.toInt.toNat, toNat_le_cap h, s.cap_lt⟩
  else .error .outOfRange

theorem upTo_of_le {s : Slice α} {k : Int64} (hlo : 0 ≤ k.toInt)
    (hhi : k.toInt ≤ s.cells.length) :
    ∃ t, s.upTo k = .ok t ∧ t.cells = s.cells ∧ t.size = k.toInt.toNat := by
  have h : 0 ≤ k ∧ k ≤ s.cap := by
    rw [Int64.le_iff_toInt_le, Int64.le_iff_toInt_le, Int64.toInt_zero, toInt_cap]
    exact ⟨hlo, hhi⟩
  exact ⟨_, dif_pos h, rfl, rfl⟩

theorem upTo_eq_outOfRange_iff {s : Slice α} {k : Int64} (hlo : 0 ≤ k.toInt) :
    s.upTo k = .error .outOfRange ↔ s.cells.length < k.toInt := by
  constructor
  · intro h
    by_contra hle
    obtain ⟨t, ht, -⟩ := upTo_of_le hlo (not_lt.mp hle)
    rw [h] at ht
    cases ht
  · intro hlt
    refine dif_neg fun h => ?_
    have hle := toNat_le_cap h
    omega

theorem size_sub_le {s : Slice α} (m : ℕ) : s.size - m ≤ (s.cells.drop m).length := by
  have := s.size_le
  rw [List.length_drop]
  omega

theorem drop_cap_lt {s : Slice α} (m : ℕ) : (s.cells.drop m).length < 2 ^ 63 := by
  have := s.cap_lt
  rw [List.length_drop]
  omega

/-- `s[k:]`. -/
def dropFrom : Except Fault (Slice α) :=
  if 0 ≤ k ∧ k ≤ s.len then
    .ok ⟨s.cells.drop k.toInt.toNat, s.size - k.toInt.toNat, size_sub_le _, drop_cap_lt _⟩
  else .error .outOfRange

theorem dropFrom_of_le {s : Slice α} {k : Int64} (hlo : 0 ≤ k.toInt) (hhi : k.toInt ≤ s.size) :
    ∃ t, s.dropFrom k = .ok t ∧ t.elems = s.elems.drop k.toInt.toNat := by
  have h : 0 ≤ k ∧ k ≤ s.len := by
    rw [Int64.le_iff_toInt_le, Int64.le_iff_toInt_le, Int64.toInt_zero, toInt_len]
    exact ⟨hlo, hhi⟩
  exact ⟨_, if_pos h, (List.drop_take ..).symm⟩

theorem append_size_le {s : Slice α} (rest : List α) :
    s.size + xs.length ≤ (s.elems ++ xs ++ rest).length := by
  simp

theorem inPlace_cap_lt {s : Slice α} (h : s.size + xs.length ≤ s.cells.length) :
    (s.elems ++ xs ++ s.cells.drop (s.size + xs.length)).length < 2 ^ 63 := by
  have := s.cap_lt
  simp only [List.length_append, length_elems, List.length_drop]
  omega

theorem grown_cap_lt {s : Slice α} {zero : α} {spare : ℕ}
    (h : s.size + xs.length + spare < 2 ^ 63) :
    (s.elems ++ xs ++ List.replicate spare zero).length < 2 ^ 63 := by
  simpa [← Nat.add_assoc] using h

/-- `append(s, xs...)`: into the free cells if there are enough of them, else into a new array. The
    runtime chooses how many cells that has to spare, all `zero`, or refuses (`none`). -/
def append (zero : α) (xs : List α) (room : Option ℕ) : Except Fault (Slice α) :=
  if h : s.size + xs.length ≤ s.cells.length then
    .ok ⟨s.elems ++ xs ++ s.cells.drop (s.size + xs.length), s.size + xs.length,
      append_size_le _, inPlace_cap_lt h⟩
  else match room with
    | none => .error .noMemory
    | some spare =>
      if h : s.size + xs.length + spare < 2 ^ 63 then
        .ok ⟨s.elems ++ xs ++ List.replicate spare zero, s.size + xs.length,
          append_size_le _, grown_cap_lt h⟩
      else .error .noMemory

/-- An append is never out of range; it puts the new elements behind the old ones. -/
theorem append_cases (zero : α) (xs : List α) (room : Option ℕ) :
    s.append zero xs room = .error .noMemory ∨
      ∃ t, s.append zero xs room = .ok t ∧ t.elems = s.elems ++ xs := by
  unfold append
  split_ifs with hfit
  · refine .inr ⟨_, rfl, ?_⟩
    rw [elems]
    exact List.take_left' (by simp)
  · cases room with
    | none => exact .inl rfl
    | some spare =>
      dsimp only
      split_ifs with hroom
      · refine .inr ⟨_, rfl, ?_⟩
        rw [elems]
        exact List.take_left' (by simp)
      · exact .inl rfl

end Slice

end KvStore.Machine
