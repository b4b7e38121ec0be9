import Mathlib

/-!
# UTF-8 with replacement

What happens to a byte string that is written as text and read back: every byte that
is not part of a well-formed UTF-8 character becomes the replacement character
U+FFFD, the three bytes `EF BF BD`.

`repair` keeps exactly the well-formed strings (`repair_eq_self_iff`), and what it
returns is well formed (`valid_repair`), so a second pass changes nothing
(`repair_repair`).
-/

namespace KvStore.Utf8

/-- The number of continuation bytes a leading byte asks for, and the range of the
    first of them. -/
def leading (b : UInt8) : Option (ℕ × UInt8 × UInt8) :=
  if b < 0x80 then some (0, 0x80, 0xBF)
  else if 0xC2 ≤ b ∧ b ≤ 0xDF then some (1, 0x80, 0xBF)
  else if b = 0xE0 then some (2, 0xA0, 0xBF)
  else if b = 0xED then some (2, 0x80, 0x9F)
  else if 0xE1 ≤ b ∧ b ≤ 0xEF then some (2, 0x80, 0xBF)
  else if b = 0xF0 then some (3, 0x90, 0xBF)
  else if b = 0xF4 then some (3, 0x80, 0x8F)
  else if 0xF1 ≤ b ∧ b ≤ 0xF3 then some (3, 0x80, 0xBF)
  else none

/-- The string starts with `n` continuation bytes, the first of them in `[lo, hi]`. -/
def continues : ℕ → UInt8 → UInt8 → List UInt8 → Bool
  | 0, _, _, _ => true
  | _ + 1, _, _, [] => false
  | n + 1, lo, hi, b :: rest => lo ≤ b && b ≤ hi && continues n 0x80 0xBF rest

/-- The number of continuation bytes of the character that starts with `b`; `none` if
    `b` starts no character. -/
def charTail (b : UInt8) (rest : List UInt8) : Option ℕ :=
  (leading b).bind fun (n, lo, hi) => if continues n lo hi rest then some n else none

/-- `repair` in the middle of a character: the next `k` bytes are copied. -/
def repairFrom : ℕ → List UInt8 → List UInt8
  | _, [] => []
  | k + 1, b :: rest => b :: repairFrom k rest
  | 0, b :: rest =>
    match charTail b rest with
    | some n => b :: repairFrom n rest
    | none => 0xEF :: 0xBF :: 0xBD :: repairFrom 0 rest

/-- The string with every byte that is not part of a character replaced by U+FFFD. -/
def repair (s : List UInt8) : List UInt8 := repairFrom 0 s

/-- Well-formed strings: sequences of characters. -/
inductive Valid : List UInt8 → Prop
  | nil : Valid []
  | char {b : UInt8} {tail rest : List UInt8} (h : charTail b tail = some tail.length)
      (hrest : Valid rest) : Valid (b :: (tail ++ rest))

theorem continues_append {n : ℕ} {lo hi : UInt8} {l : List UInt8} (h : continues n lo hi l = true)
    (rest : List UInt8) : continues n lo hi (l ++ rest) = true := by
  induction n generalizing lo hi l with
  | zero => rfl
  | succ n ih =>
    rcases l with - | ⟨b, l⟩
    · simp [continues] at h
    · simp only [continues, Bool.and_eq_true, List.cons_append] at h ⊢
      exact ⟨h.1, ih h.2⟩

theorem continues_take {n : ℕ} {lo hi : UInt8} {l : List UInt8} (h : continues n lo hi l = true) :
    n ≤ l.length ∧ continues n lo hi (l.take n) = true := by
  induction n generalizing lo hi l with
  | zero => exact ⟨Nat.zero_le _, rfl⟩
  | succ n ih =>
    rcases l with - | ⟨b, l⟩
    · simp [continues] at h
    · simp only [continues, Bool.and_eq_true, List.take_succ_cons, List.length_cons] at h ⊢
      obtain ⟨hlen, htake⟩ := ih h.2
      exact ⟨by omega, h.1, htake⟩

theorem charTail_append {b : UInt8} {tail : List UInt8} {n : ℕ} (h : charTail b tail = some n)
    (rest : List UInt8) : charTail b (tail ++ rest) = some n := by
  obtain ⟨⟨k, lo, hi⟩, hb, hc⟩ := Option.bind_eq_some_iff.mp h
  dsimp only at hc
  split_ifs at hc with hcont
  simpa [charTail, hb, continues_append hcont rest] using hc

theorem charTail_take {b : UInt8} {rest : List UInt8} {n : ℕ} (h : charTail b rest = some n) :
    n ≤ rest.length ∧ charTail b (rest.take n) = some n := by
  obtain ⟨⟨k, lo, hi⟩, hb, hc⟩ := Option.bind_eq_some_iff.mp h
  dsimp only at hc
  split_ifs at hc with hcont
  obtain rfl := Option.some.inj hc
  obtain ⟨hlen, htake⟩ := continues_take hcont
  exact ⟨hlen, by simp [charTail, hb, htake]⟩

theorem lt_of_leading {b lo hi : UInt8} {n : ℕ} (h : leading b = some (n, lo, hi)) : 0x7F < lo := by
  unfold leading at h
  split_ifs at h <;> cases h <;> decide

/-- A byte of ASCII ends a character that has begun. -/
theorem continues_ascii {n : ℕ} {lo hi q : UInt8} (hlo : 0x7F < lo) (hq : q < 0x80)
    (l rest : List UInt8) : continues n lo hi (l ++ q :: rest) = continues n lo hi l := by
  induction n generalizing lo hi l with
  | zero => rfl
  | succ n ih =>
    rcases l with - | ⟨b, l⟩
    · have hlt : ¬ lo ≤ q := by
        simp only [UInt8.le_iff_toNat_le, UInt8.lt_iff_toNat_lt, UInt8.reduceToNat] at hlo hq ⊢
        omega
      simp [continues, hlt]
    · simp only [continues, List.cons_append]
      rw [ih (by decide) l]

theorem charTail_ascii (b : UInt8) {q : UInt8} (hq : q < 0x80) (l rest : List UInt8) :
    charTail b (l ++ q :: rest) = charTail b l := by
  unfold charTail
  cases hb : leading b with
  | none => rfl
  | some p =>
    obtain ⟨n, lo, hi⟩ := p
    simp only [Option.bind_some, continues_ascii (lt_of_leading hb) hq]

theorem repairFrom_append (tail rest : List UInt8) :
    repairFrom tail.length (tail ++ rest) = tail ++ repair rest := by
  induction tail with
  | nil => rfl
  | cons b tail ih => simpa [repairFrom] using ih

theorem repair_cons_of_some {b : UInt8} {rest : List UInt8} {n : ℕ} (h : charTail b rest = some n) :
    repair (b :: rest) = b :: (rest.take n ++ repair (rest.drop n)) := by
  have hlen : (rest.take n).length = n := by simpa using (charTail_take h).1
  have happ := repairFrom_append (rest.take n) (rest.drop n)
  rw [hlen, List.take_append_drop] at happ
  rw [repair, repairFrom, h]
  exact congrArg _ happ

theorem repair_cons_of_none {b : UInt8} {rest : List UInt8} (h : charTail b rest = none) :
    repair (b :: rest) = 0xEF :: 0xBF :: 0xBD :: repair rest := by
  rw [repair, repairFrom, h]
  rfl

/-- A string of bytes that occur in no character grows threefold. -/
theorem length_repair_replicate (n : ℕ) : (repair (List.replicate n 0xFF)).length = 3 * n := by
  induction n with
  | zero => rfl
  | succ n ih =>
    rw [List.replicate_succ, repair_cons_of_none rfl]
    simp only [List.length_cons, ih]
    omega

theorem Valid.repair_eq {s : List UInt8} (h : Valid s) : repair s = s := by
  induction h with
  | nil => rfl
  | @char b tail rest hb _ ih =>
    rw [repair_cons_of_some (charTail_append hb rest), List.take_left, List.drop_left, ih]

theorem valid_repair (s : List UInt8) : Valid (repair s) := by
  induction hl : s.length using Nat.strong_induction_on generalizing s with
  | _ l ih =>
    rcases s with - | ⟨b, rest⟩
    · exact .nil
    · simp only [List.length_cons] at hl
      cases h : charTail b rest with
      | none =>
        rw [repair_cons_of_none h]
        exact @Valid.char 0xEF [0xBF, 0xBD] _ (by decide) (ih rest.length (by omega) rest rfl)
      | some n =>
        obtain ⟨hn, htake⟩ := charTail_take h
        rw [repair_cons_of_some h]
        refine .char (by simpa [hn] using htake) (ih (rest.drop n).length ?_ _ rfl)
        simp only [List.length_drop]
        omega

theorem repair_eq_self_iff {s : List UInt8} : repair s = s ↔ Valid s :=
  ⟨fun h => h ▸ valid_repair s, Valid.repair_eq⟩

@[simp] theorem repair_repair (s : List UInt8) : repair (repair s) = repair s :=
  (valid_repair s).repair_eq

example : repair [0x61, 0xFF, 0xC3, 0xA9] = [0x61, 0xEF, 0xBF, 0xBD, 0xC3, 0xA9] := by decide

end KvStore.Utf8
