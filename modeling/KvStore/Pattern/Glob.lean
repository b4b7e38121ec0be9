import Mathlib

/-!
# Patterns with a wildcard

A pattern is a list in which the element `star` stands for any run of elements, the empty
one included.

* `matches_cons_iff`, `matches_star_iff`: what the first element of a pattern asks for.
* `matches_nil_iff`: the empty list is matched by runs of stars only.
* `Matches.star_append`: a pattern that begins with a star matches whatever is put in front.
* `Matches.append`: two matches, one after the other.
-/

namespace KvStore.Glob

variable {α : Type*} {star c : α} {p s t : List α}

/-- `s` is `p` with each `star` replaced by some list. -/
inductive Matches (star : α) : List α → List α → Prop
  | nil : Matches star [] []
  | literal {c : α} {p s : List α} : c ≠ star → Matches star p s → Matches star (c :: p) (c :: s)
  | run {p s : List α} (r : List α) : Matches star p s → Matches star (star :: p) (r ++ s)

theorem matches_nil_left_iff : Matches star [] s ↔ s = [] := by
  constructor
  · intro h
    cases h
    rfl
  · rintro rfl
    exact .nil

theorem matches_cons_iff (hc : c ≠ star) :
    Matches star (c :: p) s ↔ ∃ t, s = c :: t ∧ Matches star p t := by
  constructor
  · intro h
    cases h with
    | literal _ h => exact ⟨_, rfl, h⟩
    | run r h => exact absurd rfl hc
  · rintro ⟨t, rfl, h⟩
    exact .literal hc h

theorem matches_cons_cons_iff {d : α} (hc : c ≠ star) :
    Matches star (c :: p) (d :: s) ↔ d = c ∧ Matches star p s := by
  rw [matches_cons_iff hc]
  constructor
  · rintro ⟨t, ht, h⟩
    cases ht
    exact ⟨rfl, h⟩
  · rintro ⟨rfl, h⟩
    exact ⟨s, rfl, h⟩

/-- A star matches a run of any length. -/
theorem matches_star_iff :
    Matches star (star :: p) s ↔ ∃ k, k ≤ s.length ∧ Matches star p (s.drop k) := by
  constructor
  · intro h
    cases h with
    | literal hne _ => exact absurd rfl hne
    | run r h =>
      refine ⟨r.length, ?_, ?_⟩
      · rw [List.length_append]
        omega
      · rwa [List.drop_left]
  · rintro ⟨k, -, h⟩
    rw [← List.take_append_drop k s]
    exact .run _ h

theorem Matches.star_append (h : Matches star (star :: p) s) (t : List α) :
    Matches star (star :: p) (t ++ s) := by
  cases h with
  | literal hne _ => exact absurd rfl hne
  | run r h =>
    rw [← List.append_assoc]
    exact .run _ h

/-- A pattern matches itself: a star may stand for a star. -/
theorem matches_self (star : α) (p : List α) : Matches star p p := by
  induction p with
  | nil => exact .nil
  | cons c p ih =>
    by_cases hc : c = star
    · rw [hc]
      exact .run [star] ih
    · exact .literal hc ih

/-- Two patterns one after the other match two lists one after the other. -/
theorem Matches.append {q : List α} (h : Matches star p s) (h' : Matches star q t) :
    Matches star (p ++ q) (s ++ t) := by
  induction h with
  | nil => exact h'
  | literal hc _ ih => exact .literal hc ih
  | run r _ ih =>
    rw [List.append_assoc]
    exact .run r ih

/-- A pattern that ends with a star matches whatever is put behind. -/
theorem Matches.append_star (h : Matches star p s) (t : List α) :
    Matches star (p ++ [star]) (s ++ t) := by
  apply h.append
  simpa using Matches.run t (Matches.nil : Matches star [] [])

/-- A pattern that begins with a star and matches an end of the list matches every longer end. -/
theorem Matches.star_drop {i k : ℕ} (hik : i ≤ k) (h : Matches star (star :: p) (s.drop k)) :
    Matches star (star :: p) (s.drop i) := by
  have hsplit : s.drop i = (s.drop i).take (k - i) ++ s.drop k := by
    conv_lhs => rw [← List.take_append_drop (k - i) (s.drop i)]
    rw [List.drop_drop]
    congr 2
    omega
  rw [hsplit]
  exact h.star_append _

theorem matches_nil_iff : Matches star p [] ↔ ∀ c ∈ p, c = star := by
  induction p with
  | nil => simp [matches_nil_left_iff]
  | cons c p ih =>
    by_cases hc : c = star
    · rw [hc, matches_star_iff]
      simp [ih]
    · rw [matches_cons_iff hc]
      simp [hc]

/-- An element that is no star is not found in a text of one star. -/
theorem Matches.all_star (h : Matches star p [star]) : ∀ c ∈ p, c = star := by
  induction p with
  | nil => simp
  | cons c p ih =>
    by_cases hc : c = star
    · obtain ⟨k, hk, h⟩ := matches_star_iff.mp (hc ▸ h)
      have hp : ∀ c ∈ p, c = star := by
        rcases Nat.eq_zero_or_pos k with rfl | hpos
        · exact ih h
        · rw [List.drop_eq_nil_of_le (Nat.succ_le_of_lt hpos)] at h
          exact matches_nil_iff.mp h
      simpa [hc] using hp
    · obtain ⟨t, ht, -⟩ := (matches_cons_iff hc).mp h
      have heq : star = c := (List.cons.inj ht).1
      exact absurd heq.symm hc

theorem matches_singleton_iff : Matches star (star :: p) [star] ↔ ∀ c ∈ p, c = star := by
  constructor
  · intro h
    have hall := h.all_star
    intro c hc
    exact hall c (List.mem_cons_of_mem _ hc)
  · intro h
    rw [matches_star_iff]
    exact ⟨1, le_refl _, matches_nil_iff.mpr h⟩

end KvStore.Glob
