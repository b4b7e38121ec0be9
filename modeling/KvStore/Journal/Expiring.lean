import Mathlib

/-!
# Cells whose content dies

A cell holds at most one entry, and an entry may be dead from some time on. Two
observers who look at the same cell at different times may disagree on whether it
is empty; the lemmas here say when they do.

* `live t c`: what an observer sees in the cell `c` at time `t`.
* `Crosses s t c`: the content of `c` dies after `s` and not after `t`. This is the
  only way in which the views at `s ≤ t` can differ (`live_eq_of_not_crosses`).
* Views are monotone: who agrees at `s` agrees at every later time
  (`live_congr_of_le`).
-/

namespace KvStore.Expiring

/-- Entries of type `E` that die in the time `T`: once dead, always dead. -/
class Mortal (T : outParam Type) [LE T] (E : Type) where
  dead : E → T → Bool
  dead_mono : ∀ {e : E} {s t : T}, s ≤ t → dead e s = true → dead e t = true

open Mortal (dead dead_mono)

variable {T E : Type} [LE T] [Mortal T E] {s t : T} {c d : Option E} {e : E}

/-- The content of a cell as seen at time `t`. -/
def live (t : T) (c : Option E) : Option E := c.filter fun e => !dead e t

@[simp] theorem live_none : live t (none : Option E) = none := rfl

theorem live_some_of_dead (h : dead e t = true) : live t (some e) = none := by simp [live, h]

theorem live_some_of_not_dead (h : dead e t = false) : live t (some e) = some e := by
  simp [live, h]

theorem live_eq_some_iff : live t c = some e ↔ c = some e ∧ dead e t = false := by
  simp [live, Option.filter_eq_some_iff]

theorem live_eq_none_iff : live t c = none ↔ ∀ e, c = some e → dead e t = true := by
  simp [live, Option.filter_eq_none_iff]

/-- Who looks later sees less: the view at `t` of what is visible at `s`. -/
theorem live_live_of_le (h : s ≤ t) : live t (live s c) = live t c := by
  rcases c with - | e
  · rfl
  · cases hs : dead e s with
    | true => rw [live_some_of_dead hs, live_some_of_dead (dead_mono h hs), live_none]
    | false => rw [live_some_of_not_dead hs]

theorem live_congr_of_le (h : s ≤ t) (hc : live s c = live s d) : live t c = live t d := by
  rw [← live_live_of_le h, hc, live_live_of_le h]

theorem live_eq_none_of_le (h : s ≤ t) (hc : live s c = none) : live t c = none := by
  rw [← live_live_of_le h, hc, live_none]

/-- The content of the cell is visible at `s` and dead at `t`. -/
def Crosses (s t : T) (c : Option E) : Prop := ∃ e, live s c = some e ∧ dead e t = true

instance : Decidable (Crosses s t c) :=
  match h : live s c with
  | none => isFalse (by rintro ⟨e, he, -⟩; rw [h] at he; cases he)
  | some e => decidable_of_iff (dead e t = true)
      ⟨fun hd => ⟨e, h, hd⟩, fun ⟨_, he, hd⟩ => by rw [h] at he; cases he; exact hd⟩

theorem Crosses.live_eq_none (h : Crosses s t c) : live t c = none := by
  obtain ⟨e, he, hd⟩ := h
  rw [(live_eq_some_iff.mp he).1, live_some_of_dead hd]

theorem live_eq_of_not_crosses (hst : s ≤ t) (h : ¬ Crosses s t c) : live s c = live t c := by
  cases hc : live s c with
  | none => exact (live_eq_none_of_le hst hc).symm
  | some e =>
    have hd : dead e t = false := by
      by_contra hd
      exact h ⟨e, hc, by simpa using hd⟩
    exact (live_eq_some_iff.mpr ⟨(live_eq_some_iff.mp hc).1, hd⟩).symm

end KvStore.Expiring
