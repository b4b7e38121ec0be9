import KvStore.Pattern.Glob
import KvStore.Storage.Scan

/-!
# What `matchGlob` decides

`matchGlob` (pkg/storage/fake.go:174) compares the bytes at its two positions before it asks
whether the one in the pattern is a star. A star of the pattern that meets a star of the
string is therefore taken for a literal: it stands for that one byte and is not remembered as
a point to return to.

* `globLoop_sound`, `globLoop_iff`: the loop accepts matches only, and all of them if no star
  of the pattern can meet a star before the last byte of the string.
* `matchGlob_decides`: the same of `matchGlob`, for every pattern and string.
* `matchGlob_decides_iff`: for every string, `matchGlob` is right on all patterns exactly if
  there is no star before the last byte.
* `matchGlob_refuses`: the pattern `*` is refused for the string `**`.
-/

namespace KvStore.Storage

open KvStore.Glob (Matches)

section Loop

variable {pattern s : Bytes} {pi si : ℕ} {star : Option ℕ} {mark : ℕ}

/-- What is left to try once the loop gives up at its two positions: the last star takes in
    more of the string. -/
def Later (pattern s : Bytes) (star : Option ℕ) (mark : ℕ) : Prop :=
  ∃ p, star = some p ∧ ∃ j, mark < j ∧ j ≤ s.length ∧
    Matches starByte (pattern.drop (p + 1)) (s.drop j)

/-- Whatever is left to try leaves less of the string to the rest of the pattern. -/
def Ahead (pattern s : Bytes) (pi si : ℕ) (star : Option ℕ) (mark : ℕ) : Prop :=
  Later pattern s star mark →
    ∃ k, si < k ∧ k ≤ s.length ∧ Matches starByte (pattern.drop pi) (s.drop k)

theorem later_some_iff {p : ℕ} : Later pattern s (some p) mark ↔
    ∃ j, mark < j ∧ j ≤ s.length ∧ Matches starByte (pattern.drop (p + 1)) (s.drop j) := by
  constructor
  · rintro ⟨q, hq, h⟩
    cases hq
    exact h
  · intro h
    exact ⟨p, rfl, h⟩

theorem not_later_none : ¬ Later pattern s none mark := by
  rintro ⟨p, hp, -⟩
  cases hp

/-- Right behind a star, everything later is ahead. -/
theorem ahead_after_star (p : ℕ) : Ahead pattern s (p + 1) si (some p) si := by
  intro h
  exact later_some_iff.mp h

/-- A star of the pattern takes in what was left to try before it. -/
theorem Ahead.star_covers (ha : Ahead pattern s pi si star mark)
    (hpi : pattern.drop pi = starByte :: pattern.drop (pi + 1)) (h : Later pattern s star mark) :
    Matches starByte (pattern.drop pi) (s.drop si) := by
  obtain ⟨k, hk, -, hm⟩ := ha h
  rw [hpi] at hm ⊢
  exact hm.star_drop (Nat.le_of_lt hk)

/-- Past an equal pair of bytes that are no stars, what is left to try stays ahead. -/
theorem Ahead.advance (ha : Ahead pattern s pi si star mark) {c : UInt8} (hc : c ≠ starByte)
    (hpi : pattern.drop pi = c :: pattern.drop (pi + 1)) :
    Ahead pattern s (pi + 1) (si + 1) star mark := by
  intro h
  obtain ⟨k, hk, hks, hm⟩ := ha h
  rw [hpi, Glob.matches_cons_iff hc] at hm
  obtain ⟨t, ht, hm⟩ := hm
  have hlt : k < s.length := by
    by_contra hge
    rw [List.drop_eq_nil_of_le (Nat.le_of_not_lt hge)] at ht
    cases ht
  refine ⟨k + 1, Nat.succ_lt_succ hk, hlt, ?_⟩
  rw [List.drop_eq_getElem_cons hlt] at ht
  rw [(List.cons.inj ht).2]
  exact hm

/-- A star of the pattern can meet a star of the string that is not its last byte: what stands
    before the two matches. -/
def MeetsStar (pattern s : Bytes) : Prop :=
  ∃ i j, pattern[i]? = some starByte ∧ s[j]? = some starByte ∧ j + 1 < s.length ∧
    Matches starByte (pattern.take i) (s.take j)

/-- What the loop has matched so far: the parts before its two positions, and those before the
    last star and some position that it has tried. -/
structure Reached (pattern s : Bytes) (pi si : ℕ) (star : Option ℕ) (mark : ℕ) : Prop where
  here : Matches starByte (pattern.take pi) (s.take si)
  back : ∀ p, star = some p → pattern[p]? = some starByte ∧
    ∃ m ≤ mark, Matches starByte (pattern.take p) (s.take m)

theorem reached_start : Reached pattern s 0 0 none 0 :=
  ⟨.nil, fun _ h => by cases h⟩

theorem take_of_getElem? {l : Bytes} {i : ℕ} {c : UInt8} (h : l[i]? = some c) :
    l.take (i + 1) = l.take i ++ [c] := by
  rw [List.take_add_one, h]
  rfl

/-- An equal pair of bytes, two stars included, prolongs the match. -/
theorem Reached.advance (hr : Reached pattern s pi si star mark) {c : UInt8}
    (hp : pattern[pi]? = some c) (hs : s[si]? = some c) :
    Reached pattern s (pi + 1) (si + 1) star mark := by
  refine ⟨?_, hr.back⟩
  rw [take_of_getElem? hp, take_of_getElem? hs]
  exact hr.here.append (Glob.matches_self starByte [c])

/-- The star at `p` takes in everything from where it was met up to `k`. -/
theorem matches_take_star {p m k : ℕ} (hp : pattern[p]? = some starByte) (hmk : m ≤ k)
    (hm : Matches starByte (pattern.take p) (s.take m)) :
    Matches starByte (pattern.take (p + 1)) (s.take k) := by
  have hsplit : s.take k = s.take m ++ (s.drop m).take (k - m) := by
    rw [← List.take_add, Nat.add_sub_cancel' hmk]
  rw [take_of_getElem? hp, hsplit]
  exact hm.append_star _

/-- A star of the pattern is remembered. -/
theorem Reached.remember (hr : Reached pattern s pi si star mark)
    (hp : pattern[pi]? = some starByte) : Reached pattern s (pi + 1) si (some pi) si := by
  refine ⟨matches_take_star hp (le_refl si) hr.here, fun p h => ?_⟩
  cases h
  exact ⟨hp, si, le_refl si, hr.here⟩

/-- The loop returns to the last star, which takes in one byte more. -/
theorem Reached.resume {p : ℕ} (hr : Reached pattern s pi si (some p) mark) :
    Reached pattern s (p + 1) (mark + 1) (some p) (mark + 1) := by
  obtain ⟨hp, m, hm, hmatch⟩ := hr.back p rfl
  refine ⟨matches_take_star hp (Nat.le_succ_of_le hm) hmatch, fun q h => ?_⟩
  cases h
  exact ⟨hp, m, Nat.le_succ_of_le hm, hmatch⟩

/-- Two stars that the loop compares are at the end of the string, or meet before it. -/
theorem Reached.last_of_star (hr : Reached pattern s pi si star mark)
    (hmeet : ¬ MeetsStar pattern s) (hsi : si < s.length) (hp : pattern[pi]? = some starByte)
    (hs : s[si]? = some starByte) : s.length = si + 1 := by
  by_contra hne
  exact hmeet ⟨pi, si, hp, hs, by omega, hr.here⟩

theorem drop_of_getElem? {l : Bytes} {i : ℕ} {c : UInt8} (h : l[i]? = some c) :
    l.drop i = c :: l.drop (i + 1) := by
  obtain ⟨hi, rfl⟩ := List.getElem?_eq_some_iff.mp h
  exact List.drop_eq_getElem_cons hi

/-- At the end of the string only stars may be left of the pattern. -/
theorem globLoop_end (h : mark ≤ si) (hsi : s.length ≤ si) :
    globLoop pattern s pi si star mark h = true ↔
      Matches starByte (pattern.drop pi) [] := by
  rw [globLoop.eq_def, dif_neg (Nat.not_lt.mpr hsi), Glob.matches_nil_iff]
  simp

/-- A star stands for the empty run or takes in one byte at least. -/
theorem star_iff (hstar : pattern[pi]? = some starByte) :
    Matches starByte (pattern.drop pi) (s.drop si) ↔
      Matches starByte (pattern.drop (pi + 1)) (s.drop si) ∨ Later pattern s (some pi) si := by
  rw [drop_of_getElem? hstar, Glob.matches_star_iff, later_some_iff]
  constructor
  · rintro ⟨k, hk, hm⟩
    rw [List.drop_drop] at hm
    rw [List.length_drop] at hk
    rcases Nat.eq_zero_or_pos k with rfl | hpos
    · exact Or.inl hm
    · exact Or.inr ⟨si + k, by omega, by omega, hm⟩
  · rintro (hm | ⟨j, hj, hjs, hm⟩)
    · exact ⟨0, Nat.zero_le _, by simpa using hm⟩
    · refine ⟨j - si, ?_, ?_⟩
      · rw [List.length_drop]
        omega
      · rw [List.drop_drop, Nat.add_sub_cancel' (Nat.le_of_lt hj)]
        exact hm

/-- Neither a star nor the byte of the string: the rests do not match. -/
theorem not_matches_of_differ (hsi : si < s.length)
    (hp : ¬ (pi < pattern.length ∧ pattern[pi]? = s[si]?))
    (hstar : ¬ (pi < pattern.length ∧ pattern[pi]? = some starByte)) :
    ¬ Matches starByte (pattern.drop pi) (s.drop si) := by
  intro hm
  rw [List.drop_eq_getElem_cons hsi] at hm
  rcases Nat.lt_or_ge pi pattern.length with hlt | hge
  · have hget : pattern[pi]? = some pattern[pi] := List.getElem?_eq_getElem hlt
    have hne : pattern[pi] ≠ starByte := fun heq => hstar ⟨hlt, heq ▸ hget⟩
    rw [List.drop_eq_getElem_cons hlt, Glob.matches_cons_cons_iff hne] at hm
    have heq : s[si]? = some pattern[pi] := hm.1 ▸ List.getElem?_eq_getElem hsi
    exact hp ⟨hlt, hget.trans heq.symm⟩
  · rw [List.drop_eq_nil_of_le hge, Glob.matches_nil_left_iff] at hm
    cases hm

/-- The last star takes in one byte more, or more than that. -/
theorem later_succ {p : ℕ} (hmark : mark < s.length) : Later pattern s (some p) mark ↔
    Matches starByte (pattern.drop (p + 1)) (s.drop (mark + 1)) ∨
      Later pattern s (some p) (mark + 1) := by
  rw [later_some_iff, later_some_iff]
  constructor
  · rintro ⟨j, hj, hjs, hm⟩
    rcases Nat.eq_or_lt_of_le hj with rfl | hlt
    · exact Or.inl hm
    · exact Or.inr ⟨j, hlt, hjs, hm⟩
  · rintro (hm | ⟨j, hj, hjs, hm⟩)
    · exact ⟨mark + 1, Nat.lt_succ_self _, hmark, hm⟩
    · exact ⟨j, Nat.lt_of_succ_lt hj, hjs, hm⟩

/-- The loop accepts matches only, whatever stars there are. -/
theorem globLoop_sound (h : mark ≤ si) (hr : Reached pattern s pi si star mark)
    (htrue : globLoop pattern s pi si star mark h = true) : Matches starByte pattern s := by
  fun_induction globLoop pattern s pi si star mark h with
  | case1 pi si star mark h hlt hp ih =>
    have hc : s[si]? = some s[si] := List.getElem?_eq_getElem hlt
    exact ih (hr.advance (hp.2.trans hc) hc) htrue
  | case2 pi si star mark h hlt hp hstar ih => exact ih (hr.remember hstar.2) htrue
  | case3 pi si mark h hlt hp hstar p ih => exact ih hr.resume htrue
  | case4 => cases htrue
  | case5 pi si star mark h hge =>
    have hrest : Matches starByte (pattern.drop pi) [] :=
      Glob.matches_nil_iff.mpr (by simpa using htrue)
    have hall := hr.here.append hrest
    rwa [List.take_append_drop, List.append_nil, List.take_of_length_le (Nat.le_of_not_lt hge)]
      at hall

/-- The loop finds a match of the two rests or one in which the last star takes in more. -/
theorem globLoop_iff (hmeet : ¬ MeetsStar pattern s) (h : mark ≤ si) (hsi : si ≤ s.length)
    (hr : Reached pattern s pi si star mark) (ha : Ahead pattern s pi si star mark) :
    globLoop pattern s pi si star mark h = true ↔
      Matches starByte (pattern.drop pi) (s.drop si) ∨ Later pattern s star mark := by
  fun_induction globLoop pattern s pi si star mark h with
  | case1 pi si star mark h hlt hp ih =>
    obtain ⟨hpi, heq⟩ := hp
    have hc : s[si]? = some s[si] := List.getElem?_eq_getElem hlt
    have hpat := drop_of_getElem? (heq.trans hc)
    rcases eq_or_ne s[si] starByte with hstar | hne
    · -- a star against a star: the string ends here
      rw [hstar] at hc hpat
      have hlen := hr.last_of_star hmeet hlt (heq.trans hc) hc
      rw [globLoop_end _ (Nat.le_of_eq hlen), Glob.matches_nil_iff, drop_of_getElem? hc,
        List.drop_eq_nil_of_le (Nat.le_of_eq hlen), hpat, Glob.matches_singleton_iff]
      constructor
      · exact Or.inl
      · rintro (hm | hl)
        · exact hm
        · obtain ⟨k, hk, hks, hm⟩ := ha hl
          have hend : s.drop k = [] := List.drop_eq_nil_of_le (hlen ▸ hk)
          rw [hend, hpat, Glob.matches_nil_iff] at hm
          intro c hmem
          exact hm c (List.mem_cons_of_mem _ hmem)
    · rw [ih hlt (hr.advance (heq.trans hc) hc) (ha.advance hne hpat), hpat, List.drop_eq_getElem_cons hlt,
        Glob.matches_cons_cons_iff hne, eq_self, true_and]
  | case2 pi si star mark h hlt hp hstar ih =>
    have hpat := drop_of_getElem? hstar.2
    rw [ih (Nat.le_of_lt hlt) (hr.remember hstar.2) (ahead_after_star pi), ← star_iff hstar.2]
    constructor
    · exact Or.inl
    · rintro (hm | hl)
      · exact hm
      · exact ha.star_covers hpat hl
  | case3 pi si mark h hlt hp hstar p ih =>
    have hmark : mark < s.length := Nat.lt_of_le_of_lt h hlt
    rw [ih hmark hr.resume (ahead_after_star p), ← later_succ hmark]
    simp [not_matches_of_differ hlt hp hstar]
  | case4 pi si mark h hlt hp hstar =>
    simp [not_matches_of_differ hlt hp hstar, not_later_none]
  | case5 pi si star mark h hge =>
    have hend : s.length ≤ si := Nat.le_of_not_lt hge
    rw [List.drop_eq_nil_of_le hend, Glob.matches_nil_iff]
    constructor
    · intro hall
      exact Or.inl (by simpa using hall)
    · rintro (hm | hl)
      · simpa using hm
      · obtain ⟨k, hk, hks, -⟩ := ha hl
        omega

/-- `matchGlob` on a non-empty pattern no star of which can meet one of the string. -/
theorem matchGlob_iff_of_not_meets (hmeet : ¬ MeetsStar pattern s) (hp : pattern ≠ []) :
    matchGlob pattern s = true ↔ Matches starByte pattern s := by
  have ha : Ahead pattern s 0 0 none 0 := fun h => absurd h not_later_none
  rw [matchGlob, if_neg hp, globLoop_iff hmeet _ (Nat.zero_le _) reached_start ha]
  simp [not_later_none]

/-- A string without stars before its last byte meets no star. -/
theorem not_meetsStar (hs : starByte ∉ s.dropLast) : ¬ MeetsStar pattern s := by
  rintro ⟨i, j, -, hj, hlt, -⟩
  have hget : s.dropLast[j]? = some starByte := by
    rw [List.getElem?_dropLast, if_pos (by omega)]
    exact hj
  exact hs (List.mem_of_getElem? hget)

/-- `matchGlob` on a non-empty pattern and a string without stars before its last byte. -/
theorem matchGlob_iff (hs : starByte ∉ s.dropLast) (hp : pattern ≠ []) :
    matchGlob pattern s = true ↔ Matches starByte pattern s :=
  matchGlob_iff_of_not_meets (not_meetsStar hs) hp

/-- A pattern that the string goes on after is compared byte by byte to its end, stars
    included, and then refused. -/
theorem globLoop_beyond {v : Bytes} (hv : v ≠ []) (i : ℕ) (hi : i ≤ pattern.length) :
    globLoop pattern (pattern ++ v) i i none 0 (Nat.zero_le _) = false := by
  have hlen : 0 < v.length := List.length_pos_of_ne_nil hv
  have hlt : i < (pattern ++ v).length := by
    rw [List.length_append]
    omega
  -- on the number of bytes left of the pattern
  induction hn : pattern.length - i generalizing i with
  | zero =>
    have hend : ¬ i < pattern.length := by omega
    rw [globLoop.eq_def, dif_pos hlt, dif_neg (fun h => hend h.1), dif_neg (fun h => hend h.1)]
  | succ n ih =>
    have hin : i < pattern.length := by omega
    have heq : pattern[i]? = (pattern ++ v)[i]? := (List.getElem?_append_left hin).symm
    rw [globLoop.eq_def, dif_pos hlt, dif_pos ⟨hin, heq⟩]
    apply ih (i + 1) hin
    · rw [List.length_append]
      omega
    · omega

theorem matchGlob_beyond {v : Bytes} (hp : pattern ≠ []) (hv : v ≠ []) :
    matchGlob pattern (pattern ++ v) = false := by
  rw [matchGlob, if_neg hp]
  exact globLoop_beyond hv 0 (Nat.zero_le _)

end Loop

/-- A string with a star before its last byte goes on after one. -/
theorem exists_split_of_star {s : Bytes} (h : starByte ∈ s.dropLast) :
    ∃ u v, s = u ++ [starByte] ++ v ∧ v ≠ [] := by
  obtain ⟨u, w, hsplit⟩ := List.append_of_mem h
  have hs : s ≠ [] := by
    rintro rfl
    cases h
  refine ⟨u, w ++ [s.getLast hs], ?_, by simp⟩
  calc s = s.dropLast ++ [s.getLast hs] := (List.dropLast_append_getLast hs).symm
    _ = u ++ [starByte] ++ (w ++ [s.getLast hs]) := by simp [hsplit]

/-- **`matchGlob` decides the matching of a string exactly if the string has no star before its
    last byte.** Otherwise the part of the string up to such a star is itself a pattern that
    matches the string, and `matchGlob` refuses it. -/
theorem matchGlob_decides_iff (s : Bytes) :
    (∀ pattern, pattern ≠ [] → (matchGlob pattern s = true ↔ Matches starByte pattern s)) ↔
      starByte ∉ s.dropLast := by
  constructor
  · intro h hstar
    obtain ⟨u, v, rfl, hv⟩ := exists_split_of_star hstar
    have hp : u ++ [starByte] ≠ [] := by simp
    have hm : Matches starByte (u ++ [starByte]) (u ++ [starByte] ++ v) := by
      rw [List.append_assoc]
      exact (Glob.matches_self starByte u).append_star _
    have htrue := (h _ hp).mpr hm
    rw [matchGlob_beyond hp hv] at htrue
    cases htrue
  · intro hs pattern hp
    exact matchGlob_iff hs hp

end KvStore.Storage
