import Mathlib

/-!
# Executing the end of a log again

A log is executed from some position on a second time, over a state that already has some
of its effects. What becomes of one cell: the log is the list of functions that its entries
were to the cell when they were executed for the first time, and `after n` is the content
after the first `n` of them. An entry executed again may act differently, since it finds
another content and reads another clock.

`Settling D c`: when the entries up to `D` have been executed again and the cell holds `c`,
executing the rest will lead to the content after the whole log, provided that each entry
executed again either is overwritten later, or continues from what it found the first time,
or changes nothing in what the cell has shown later on. When nothing is left to execute, the
cell shows what it should (`Settling.finish`).
-/

namespace KvStore.Journal

variable {C : Type} {Alike : C → C → Prop} {start c c' : C} {log : List (C → C)} {D D' : ℕ}

/-- The content of the cell after the first `n` entries. -/
def after (start : C) (log : List (C → C)) (n : ℕ) : C := (log.take n).foldl (fun c f => f c) start

theorem after_succ {f : C → C} {n : ℕ} (h : log[n]? = some f) :
    after start log (n + 1) = f (after start log n) := by
  rw [after, List.take_add_one, h]
  simp [after]

theorem after_append_of_le {more : List (C → C)} {n : ℕ} (h : n ≤ log.length) :
    after start (log ++ more) n = after start log n := by
  rw [after, after, List.take_append_of_le_length h]

/-- The entry leaves the same content whatever it finds. -/
def Overwrites (f : C → C) : Prop := ∀ c c', f c = f c'

/-- The cell is overwritten by an entry that is still to come, or shows the content after some
    entry that has been executed again or is still to come. -/
def Settling (Alike : C → C → Prop) (start : C) (log : List (C → C)) (D : ℕ) (c : C) : Prop :=
  (∃ j f, D ≤ j ∧ log[j]? = some f ∧ Overwrites f) ∨
    ∃ n, D ≤ n ∧ n ≤ log.length ∧ Alike c (after start log n)

namespace Settling

/-- Nothing is left to execute. -/
theorem finish (h : Settling Alike start log log.length c) :
    Alike c (after start log log.length) := by
  rcases h with ⟨j, f, hj, hf, -⟩ | ⟨n, hle, hge, hn⟩
  · have := (List.getElem?_eq_some_iff.mp hf).1
    omega
  · rwa [le_antisymm hge hle] at hn

/-- A restart executes more entries again. -/
theorem mono (h : Settling Alike start log D c) (hD : D' ≤ D) : Settling Alike start log D' c := by
  rcases h with ⟨j, f, hj, hf⟩ | ⟨n, hle, hn⟩
  · exact .inl ⟨j, f, hD.trans hj, hf⟩
  · exact .inr ⟨n, hD.trans hle, hn⟩

/-- The cell still shows what it showed, possibly under another notion of alike. -/
theorem congr {Alike' : C → C → Prop} (h : Settling Alike start log D c)
    (hc : ∀ x, Alike c x → Alike' c' x) : Settling Alike' start log D c' := by
  rcases h with h | ⟨n, hle, hge, hn⟩
  · exact .inl h
  · exact .inr ⟨n, hle, hge, hc _ hn⟩

/-- An entry that does not touch the cell is executed again. -/
theorem skip (h : Settling Alike start log D c) (hrefl : ∀ x, Alike x x)
    (hf : log[D]? = some id) : Settling Alike start log (D + 1) c := by
  have hlen := (List.getElem?_eq_some_iff.mp hf).1
  rcases h with ⟨j, f, hj, hjf, ho⟩ | ⟨n, hle, hge, hn⟩
  · by_cases hjD : j = D
    · -- then the cell has one content only
      subst hjD
      obtain rfl := Option.some.inj (hf.symm.trans hjf)
      have hc : after start log (j + 1) = c := ho _ _
      exact .inr ⟨j + 1, le_rfl, hlen, hc ▸ hrefl c⟩
    · exact .inl ⟨j, f, by omega, hjf, ho⟩
  · by_cases hnD : n = D
    · subst hnD
      exact .inr ⟨n + 1, le_rfl, hlen, by rw [after_succ hf]; exact hn⟩
    · exact .inr ⟨n, by omega, hge, hn⟩

/-- An entry is executed again and continues from what it found the first time. -/
theorem resume {f : C → C} (hf : log[D]? = some f) (hc : Alike c (f (after start log D))) :
    Settling Alike start log (D + 1) c := by
  have hlen := (List.getElem?_eq_some_iff.mp hf).1
  exact .inr ⟨D + 1, le_rfl, hlen, by rw [after_succ hf]; exact hc⟩

/-- A new entry is executed when nothing is left to execute again. -/
theorem extend {f : C → C} (hc : Alike c (f (after start log log.length))) :
    Settling Alike start (log ++ [f]) (log.length + 1) c :=
  resume (List.getElem?_concat_length ..) (by rw [after_append_of_le le_rfl]; exact hc)

end Settling

end KvStore.Journal
