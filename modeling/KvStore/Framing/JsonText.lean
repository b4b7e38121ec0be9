import KvStore.Framing.Utf8

/-!
# JSON texts

A reader of JSON texts that takes the byte strings of its input as they come: a byte that
is not part of a UTF-8 character stands in the document as U+FFFD, as does half of a
surrogate pair. Objects keep all their members in order. Arrays and objects nest
`maxNestingDepth` deep at most.

* `string_plain`: a string without escapes is read as `Utf8.repair` of its bytes.
* `stringField`: a string field of a record, as a decoder for records finds it.
* `string_length`, `length_stringField`: a string is at most three times as long as its text.
-/

namespace KvStore.JsonText

/-- A document; the value of a number is left out. -/
inductive Doc where
  | null
  | bool (b : Bool)
  | number
  | string (s : List UInt8)
  | array (items : List Doc)
  | object (members : List (List UInt8 × Doc))

/-! ## Tokens -/

def isSpace (b : UInt8) : Bool := b = 0x20 || b = 0x09 || b = 0x0D || b = 0x0A

def skipSpace (s : List UInt8) : List UInt8 := s.dropWhile isSpace

/-- What follows the byte `b`. -/
def expect (b : UInt8) : List UInt8 → Option (List UInt8)
  | [] => none
  | c :: rest => if c = b then some rest else none

/-- What follows the word `w`. -/
def keyword (w s : List UInt8) : Option (List UInt8) :=
  if w.isPrefixOf s then some (s.drop w.length) else none

def isDigit (b : UInt8) : Bool := 0x30 ≤ b && b ≤ 0x39

/-- What follows one digit or more. -/
def digits (s : List UInt8) : Option (List UInt8) :=
  if s.takeWhile isDigit = [] then none else some (s.dropWhile isDigit)

/-- The fraction of a number, if there is one. -/
def fraction : List UInt8 → Option (List UInt8)
  | [] => some []
  | b :: rest => if b = 0x2E then digits rest else some (b :: rest)

/-- The exponent of a number, if there is one. -/
def exponent : List UInt8 → Option (List UInt8)
  | [] => some []
  | b :: rest =>
    if b = 0x65 ∨ b = 0x45 then
      match rest with
      | [] => none
      | c :: rest' => if c = 0x2B ∨ c = 0x2D then digits rest' else digits rest
    else some (b :: rest)

/-- The integer part of a number, which has no leading zeros. -/
def integer : List UInt8 → Option (List UInt8)
  | [] => none
  | b :: rest => if b = 0x30 then some rest else digits (b :: rest)

/-- What follows a number. -/
def number (s : List UInt8) : Option (List UInt8) :=
  (integer ((expect 0x2D s).getD s)).bind fun s => (fraction s).bind exponent

/-! ## Strings -/

def hexDigit (b : UInt8) : Option ℕ :=
  if 0x30 ≤ b ∧ b ≤ 0x39 then some (b.toNat - 0x30)
  else if 0x61 ≤ b ∧ b ≤ 0x66 then some (b.toNat - 0x61 + 10)
  else if 0x41 ≤ b ∧ b ≤ 0x46 then some (b.toNat - 0x41 + 10)
  else none

/-- The code unit of four hexadecimal digits. -/
def codeUnit : List UInt8 → Option ℕ
  | a :: b :: c :: d :: _ =>
    (hexDigit a).bind fun a => (hexDigit b).bind fun b => (hexDigit c).bind fun c =>
      (hexDigit d).map fun d => ((a * 16 + b) * 16 + c) * 16 + d
  | _ => none

/-- The character of a surrogate pair. -/
def surrogates (hi lo : ℕ) : Option ℕ :=
  if 0xD800 ≤ hi ∧ hi < 0xDC00 ∧ 0xDC00 ≤ lo ∧ lo < 0xE000 then
    some ((hi - 0xD800) * 0x400 + (lo - 0xDC00) + 0x10000)
  else none

/-- A character in UTF-8. -/
def encodeChar (c : ℕ) : List UInt8 :=
  if c < 0x80 then [.ofNat c]
  else if c < 0x800 then [.ofNat (0xC0 + c / 0x40), .ofNat (0x80 + c % 0x40)]
  else if c < 0x10000 then
    [.ofNat (0xE0 + c / 0x1000), .ofNat (0x80 + c / 0x40 % 0x40), .ofNat (0x80 + c % 0x40)]
  else
    [.ofNat (0xF0 + c / 0x40000), .ofNat (0x80 + c / 0x1000 % 0x40),
      .ofNat (0x80 + c / 0x40 % 0x40), .ofNat (0x80 + c % 0x40)]

/-- U+FFFD. -/
def replacement : List UInt8 := [0xEF, 0xBF, 0xBD]

/-- The byte that an escape of two characters stands for. -/
def escaped (b : UInt8) : Option UInt8 :=
  if b = 0x22 ∨ b = 0x5C ∨ b = 0x2F then some b
  else if b = 0x62 then some 0x08
  else if b = 0x66 then some 0x0C
  else if b = 0x6E then some 0x0A
  else if b = 0x72 then some 0x0D
  else if b = 0x74 then some 0x09
  else none

/-- The code unit of an escape that follows at once. -/
def nextUnit : List UInt8 → Option ℕ
  | x :: y :: rest => if x = 0x5C ∧ y = 0x75 then codeUnit rest else none
  | _ => none

/-- An escape from after its `u` on: its characters, and how many bytes it takes. Half of a
    surrogate pair is U+FFFD. -/
def unicodeEscape (s : List UInt8) : Option (List UInt8 × ℕ) :=
  (codeUnit s).map fun hi =>
    if 0xD800 ≤ hi ∧ hi < 0xE000 then
      match (nextUnit (s.drop 4)).bind (surrogates hi) with
      | some c => (encodeChar c, 10)
      | none => (replacement, 4)
    else (encodeChar hi, 4)

/-- What stands for the character that begins with `b`, and how many of the bytes behind `b`
    belong to it. -/
def char (b : UInt8) (rest : List UInt8) : Option (List UInt8 × ℕ) :=
  if b = 0x5C then
    match rest with
    | [] => none
    | c :: tail =>
      if c = 0x75 then (unicodeEscape tail).map fun p => (p.1, p.2 + 1)
      else (escaped c).map fun e => ([e], 1)
  else if b < 0x20 then none
  else
    match Utf8.charTail b rest with
    | some n => some (b :: rest.take n, n)
    | none => some (replacement, 0)

/-- A string from after its opening quote on, and what follows the closing one. The first `k`
    bytes have been read. -/
def string : ℕ → List UInt8 → Option (List UInt8 × List UInt8)
  | _, [] => none
  | k + 1, _ :: rest => string k rest
  | 0, b :: rest =>
    if b = 0x22 then some ([], rest)
    else (char b rest).bind fun c => (string c.2 rest).map fun p => (c.1 ++ p.1, p.2)

/-! ## Documents -/

/-- A document that is neither array nor object. -/
def scalar : List UInt8 → Option (Doc × List UInt8)
  | [] => none
  | b :: rest =>
    if b = 0x22 then (string 0 rest).map fun p => (.string p.1, p.2)
    -- `null`, `true`, `false`
    else if b = 0x6E then (keyword [0x75, 0x6C, 0x6C] rest).map fun s => (.null, s)
    else if b = 0x74 then (keyword [0x72, 0x75, 0x65] rest).map fun s => (.bool true, s)
    else if b = 0x66 then (keyword [0x61, 0x6C, 0x73, 0x65] rest).map fun s => (.bool false, s)
    else (number (b :: rest)).map fun s => (.number, s)

section Containers

variable (item : List UInt8 → Option (Doc × List UInt8))

/-- The items of an array that is not empty; there are fewer than `fuel`. -/
def items : ℕ → List UInt8 → Option (List Doc × List UInt8)
  | 0, _ => none
  | fuel + 1, s => do
    let (v, s) ← item s
    match skipSpace s with
    | [] => none
    | b :: s =>
      if b = 0x2C then (items fuel s).map fun p => (v :: p.1, p.2)
      else if b = 0x5D then some ([v], s)
      else none

/-- The members of an object that is not empty; there are fewer than `fuel`. -/
def members : ℕ → List UInt8 → Option (List (List UInt8 × Doc) × List UInt8)
  | 0, _ => none
  | fuel + 1, s => do
    let s ← expect 0x22 (skipSpace s)
    let (name, s) ← string 0 s
    let s ← expect 0x3A (skipSpace s)
    let (v, s) ← item s
    match skipSpace s with
    | [] => none
    | b :: s =>
      if b = 0x2C then (members fuel s).map fun p => ((name, v) :: p.1, p.2)
      else if b = 0x7D then some ([(name, v)], s)
      else none

end Containers

/-- A document in which arrays and objects nest at most `depth` deep. Every item takes a byte, so
    the length of the text bounds their number. -/
def value : ℕ → List UInt8 → Option (Doc × List UInt8)
  | 0, s => scalar (skipSpace s)
  | depth + 1, s =>
    match skipSpace s with
    | [] => none
    | b :: rest =>
      if b = 0x5B then
        match expect 0x5D (skipSpace rest) with
        | some s => some (.array [], s)
        | none => (items (value depth) rest.length rest).map fun p => (.array p.1, p.2)
      else if b = 0x7B then
        match expect 0x7D (skipSpace rest) with
        | some s => some (.object [], s)
        | none => (members (value depth) rest.length rest).map fun p => (.object p.1, p.2)
      else scalar (b :: rest)

def maxNestingDepth : ℕ := 10000

/-- A text is one document and space around it. -/
def parse (s : List UInt8) : Option Doc :=
  (value maxNestingDepth s).bind fun p => if skipSpace p.2 = [] then some p.1 else none

/-! ## Records -/

/-- Names are compared without regard to the case of their ASCII letters. -/
def foldCase (name : List UInt8) : List UInt8 :=
  name.map fun b => if 0x41 ≤ b ∧ b ≤ 0x5A then b + 0x20 else b

/-- The string field `name` of a record after one more member. `null` leaves the field as it is,
    and a member of another kind is an error. -/
def assign (name cur : List UInt8) (m : List UInt8 × Doc) : Option (List UInt8) :=
  if foldCase m.1 = name then
    match m.2 with
    | .string s => some s
    | .null => some cur
    | _ => none
  else some cur

/-- The string field `name` of a record; the last of its members counts. -/
def stringField (name : List UInt8) (ms : List (List UInt8 × Doc)) : Option (List UInt8) :=
  ms.foldlM (assign name) []

/-! ## Plain strings -/

/-- A byte that stands for itself in a string. -/
def Plain (b : UInt8) : Prop := 0x20 ≤ b ∧ b ≠ 0x22 ∧ b ≠ 0x5C

theorem char_plain {b : UInt8} (hb : Plain b) (l rest : List UInt8) :
    char b (l ++ 0x22 :: rest) =
      match Utf8.charTail b l with
      | some n => some (b :: l.take n, n)
      | none => some (replacement, 0) := by
  have hlow : ¬ b < 0x20 := UInt8.not_lt.mpr hb.1
  unfold char
  rw [if_neg hb.2.2, if_neg hlow, Utf8.charTail_ascii b (by decide)]
  cases h : Utf8.charTail b l with
  | none => rfl
  | some n =>
    dsimp only
    rw [List.take_append_of_le_length (Utf8.charTail_take h).1]

/-- A string without escapes is read as its bytes, with the ill-formed ones replaced. -/
theorem string_plain {l : List UInt8} (hl : ∀ b ∈ l, Plain b) (rest : List UInt8) {k : ℕ}
    (hk : k ≤ l.length) :
    string k (l ++ 0x22 :: rest) = some (Utf8.repair (l.drop k), rest) := by
  induction l generalizing k with
  | nil =>
    obtain rfl : k = 0 := Nat.le_zero.mp hk
    rfl
  | cons b l ih =>
    rw [List.forall_mem_cons] at hl
    rcases k with - | k
    · rw [List.cons_append, string, if_neg hl.1.2.1, char_plain hl.1, List.drop_zero]
      cases h : Utf8.charTail b l with
      | none =>
        dsimp only [Option.bind_some]
        rw [ih hl.2 (Nat.zero_le _), Utf8.repair_cons_of_none h]
        rfl
      | some n =>
        dsimp only [Option.bind_some]
        rw [ih hl.2 (Utf8.charTail_take h).1, Utf8.repair_cons_of_some h]
        rfl
    · exact ih hl.2 (Nat.le_of_succ_le_succ hk)

theorem skipSpace_cons {b : UInt8} (hb : isSpace b = false) (s : List UInt8) :
    skipSpace (b :: s) = b :: s := by
  rw [skipSpace, List.dropWhile_cons_of_neg (by simp [hb])]

theorem value_plain {l : List UInt8} (hl : ∀ b ∈ l, Plain b) (depth : ℕ) (rest : List UInt8) :
    value depth (0x22 :: (l ++ 0x22 :: rest)) = some (.string (Utf8.repair l), rest) := by
  have hscalar : scalar (0x22 :: (l ++ 0x22 :: rest)) = some (.string (Utf8.repair l), rest) := by
    rw [scalar, if_pos rfl, string_plain hl rest (Nat.zero_le _)]
    rfl
  cases depth with
  | zero => exact hscalar
  | succ depth => exact hscalar

/-- A member whose name and value are strings without escapes. -/
theorem members_plain {name l : List UInt8} (hname : ∀ b ∈ name, Plain b)
    (hl : ∀ b ∈ l, Plain b) {b : UInt8} (hb : isSpace b = false) (depth fuel : ℕ)
    (s : List UInt8) :
    members (value depth) (fuel + 1)
        (0x22 :: (name ++ 0x22 :: 0x3A :: 0x22 :: (l ++ 0x22 :: b :: s))) =
      if b = 0x2C then
        (members (value depth) fuel s).map fun p =>
          ((Utf8.repair name, .string (Utf8.repair l)) :: p.1, p.2)
      else if b = 0x7D then some ([(Utf8.repair name, .string (Utf8.repair l))], s)
      else none := by
  rw [members, skipSpace_cons (by decide), expect, if_pos rfl]
  dsimp only [bind, Option.bind_some]
  rw [string_plain hname _ (Nat.zero_le _)]
  dsimp only [Option.bind_some]
  rw [skipSpace_cons (by decide), expect, if_pos rfl]
  dsimp only [Option.bind_some]
  rw [value_plain hl]
  dsimp only [Option.bind_some]
  rw [skipSpace_cons hb]
  rfl

/-- A text that is an object with a member in it. -/
theorem value_object {b : UInt8} (hb : isSpace b = false) (hclose : b ≠ 0x7D) (depth : ℕ)
    (s : List UInt8) :
    value (depth + 1) (0x7B :: b :: s) =
      (members (value depth) (s.length + 1) (b :: s)).map fun p => (.object p.1, p.2) := by
  rw [value, skipSpace_cons (by decide)]
  dsimp only
  rw [if_neg (by decide), if_pos rfl, skipSpace_cons hb, expect, if_neg hclose, List.length_cons]

/-! ## Lengths -/

theorem length_encodeChar (c : ℕ) : (encodeChar c).length ≤ 4 := by
  unfold encodeChar
  split_ifs <;> simp

theorem length_char {b : UInt8} {rest : List UInt8} {c : List UInt8 × ℕ}
    (h : char b rest = some c) : c.1.length ≤ 3 * (c.2 + 1) := by
  unfold char at h
  split_ifs at h
  · rcases rest with - | ⟨d, tail⟩
    · cases h
    · dsimp only at h
      split_ifs at h
      · obtain ⟨p, hp, rfl⟩ := Option.map_eq_some_iff.mp h
        obtain ⟨hi, -, rfl⟩ := Option.map_eq_some_iff.mp hp
        split_ifs
        · split
          · next x _ => have := length_encodeChar x; dsimp only; omega
          · simp [replacement]
        · have := length_encodeChar hi
          dsimp only
          omega
      · obtain ⟨e, -, rfl⟩ := Option.map_eq_some_iff.mp h
        simp
  · split at h
    · next n hn =>
      cases h
      simp only [List.length_cons, List.length_take]
      omega
    · cases h
      simp [replacement]

/-- A string is at most three times as long as its text. -/
theorem string_length {k : ℕ} {s : List UInt8} {p : List UInt8 × List UInt8}
    (h : string k s = some p) : p.1.length + 3 * p.2.length + 3 * k + 3 ≤ 3 * s.length := by
  induction s generalizing k p with
  | nil => cases k <;> cases h
  | cons b rest ih =>
    rw [List.length_cons]
    rcases k with - | k
    · rw [string] at h
      split_ifs at h
      · cases h
        simp only [List.length_nil]
        omega
      · obtain ⟨c, hc, h⟩ := Option.bind_eq_some_iff.mp h
        obtain ⟨q, hq, rfl⟩ := Option.map_eq_some_iff.mp h
        have hchar := length_char hc
        have hrest := ih hq
        dsimp only
        rw [List.length_append]
        omega
    · have hrest := ih h
      omega

theorem length_skipSpace (s : List UInt8) : (skipSpace s).length ≤ s.length :=
  List.length_dropWhile_le _ _

theorem length_expect {b : UInt8} {s r : List UInt8} (h : expect b s = some r) :
    r.length < s.length := by
  rcases s with - | ⟨c, s⟩
  · cases h
  · rw [expect] at h
    split_ifs at h
    cases h
    exact Nat.lt_succ_self _

theorem length_keyword {w s r : List UInt8} (h : keyword w s = some r) : r.length ≤ s.length := by
  unfold keyword at h
  split_ifs at h
  cases h
  rw [List.length_drop]
  exact Nat.sub_le _ _

theorem length_digits {s r : List UInt8} (h : digits s = some r) : r.length ≤ s.length := by
  unfold digits at h
  split_ifs at h
  cases h
  exact List.length_dropWhile_le _ _

theorem length_number {s r : List UInt8} (h : number s = some r) : r.length ≤ s.length := by
  obtain ⟨s₁, h₁, h⟩ := Option.bind_eq_some_iff.mp h
  obtain ⟨s₂, h₂, h₃⟩ := Option.bind_eq_some_iff.mp h
  have hsign : ((expect 0x2D s).getD s).length ≤ s.length := by
    cases hs : expect 0x2D s with
    | none => exact le_rfl
    | some s₀ => exact (length_expect hs).le
  have hinteger : s₁.length ≤ ((expect 0x2D s).getD s).length := by
    generalize (expect 0x2D s).getD s = s₀ at h₁
    rcases s₀ with - | ⟨b, s₀⟩
    · cases h₁
    · rw [integer] at h₁
      split_ifs at h₁
      · cases h₁
        exact Nat.le_succ _
      · exact length_digits h₁
  have hfraction : s₂.length ≤ s₁.length := by
    rcases s₁ with - | ⟨b, s₁⟩
    · cases h₂
      exact le_rfl
    · rw [fraction] at h₂
      split_ifs at h₂
      · exact (length_digits h₂).trans (Nat.le_succ _)
      · cases h₂
        exact le_rfl
  have hexponent : r.length ≤ s₂.length := by
    rcases s₂ with - | ⟨b, s₂⟩
    · cases h₃
      exact le_rfl
    · unfold exponent at h₃
      dsimp only at h₃
      split_ifs at h₃
      · rcases s₂ with - | ⟨c, s₂⟩
        · cases h₃
        · dsimp only at h₃
          split_ifs at h₃
          · have := length_digits h₃
            simp only [List.length_cons]
            omega
          · exact (length_digits h₃).trans (Nat.le_succ _)
      · cases h₃
        exact le_rfl
  omega

/-! ## The strings of a record -/

/-- The string, if the document is one. -/
def Doc.text : Doc → List (List UInt8)
  | .string s => [s]
  | _ => []

/-- The strings among the members of the document, or the document if it is one. -/
def Doc.texts : Doc → List (List UInt8)
  | .object ms => ms.flatMap fun m => m.2.text
  | v => v.text

theorem Doc.text_subset_texts (v : Doc) : v.text ⊆ v.texts := by
  cases v <;> simp [text, texts]

/-- The reader leaves no more than it was given, and no string exceeds three times that. -/
def Reads (item : List UInt8 → Option (Doc × List UInt8)) : Prop :=
  ∀ s p, item s = some p → p.2.length ≤ s.length ∧ ∀ t ∈ p.1.texts, t.length ≤ 3 * s.length

theorem reads_scalar : Reads scalar := by
  intro s p h
  rcases s with - | ⟨b, rest⟩
  · cases h
  · rw [scalar] at h
    rw [List.length_cons]
    split_ifs at h
    · obtain ⟨q, hq, rfl⟩ := Option.map_eq_some_iff.mp h
      have hlen := string_length hq
      refine ⟨by dsimp only; omega, fun t ht => ?_⟩
      obtain rfl : t = q.1 := by simpa [Doc.texts, Doc.text] using ht
      omega
    · obtain ⟨r, hr, rfl⟩ := Option.map_eq_some_iff.mp h
      exact ⟨(length_keyword hr).trans (Nat.le_succ _), by simp [Doc.texts, Doc.text]⟩
    · obtain ⟨r, hr, rfl⟩ := Option.map_eq_some_iff.mp h
      exact ⟨(length_keyword hr).trans (Nat.le_succ _), by simp [Doc.texts, Doc.text]⟩
    · obtain ⟨r, hr, rfl⟩ := Option.map_eq_some_iff.mp h
      exact ⟨(length_keyword hr).trans (Nat.le_succ _), by simp [Doc.texts, Doc.text]⟩
    · obtain ⟨r, hr, rfl⟩ := Option.map_eq_some_iff.mp h
      exact ⟨length_number hr, by simp [Doc.texts, Doc.text]⟩

section Containers

variable {item : List UInt8 → Option (Doc × List UInt8)}

theorem Reads.items (hitem : Reads item) {fuel : ℕ} {s : List UInt8} {p : List Doc × List UInt8}
    (h : items item fuel s = some p) : p.2.length ≤ s.length := by
  induction fuel generalizing s p with
  | zero => cases h
  | succ fuel ih =>
    rw [JsonText.items] at h
    obtain ⟨⟨v, s₁⟩, hv, h⟩ := Option.bind_eq_some_iff.mp h
    have hlen := (hitem _ _ hv).1
    have hspace := length_skipSpace s₁
    dsimp only at h hlen
    split at h
    · cases h
    · next b s₂ hs₂ =>
      rw [hs₂, List.length_cons] at hspace
      split_ifs at h
      · obtain ⟨q, hq, rfl⟩ := Option.map_eq_some_iff.mp h
        have := ih hq
        dsimp only
        omega
      · cases h
        dsimp only
        omega

theorem Reads.members (hitem : Reads item) {fuel : ℕ} {s : List UInt8}
    {p : List (List UInt8 × Doc) × List UInt8} (h : members item fuel s = some p) :
    p.2.length ≤ s.length ∧ ∀ m ∈ p.1, ∀ t ∈ m.2.text, t.length ≤ 3 * s.length := by
  induction fuel generalizing s p with
  | zero => cases h
  | succ fuel ih =>
    rw [JsonText.members] at h
    obtain ⟨s₁, h₁, h⟩ := Option.bind_eq_some_iff.mp h
    obtain ⟨⟨name, s₂⟩, h₂, h⟩ := Option.bind_eq_some_iff.mp h
    obtain ⟨s₃, h₃, h⟩ := Option.bind_eq_some_iff.mp h
    obtain ⟨⟨v, s₄⟩, h₄, h⟩ := Option.bind_eq_some_iff.mp h
    obtain ⟨hlen, htexts⟩ := hitem _ _ h₄
    have hs₃ : s₃.length ≤ s.length := by
      have hopen := (length_expect h₁).trans_le (length_skipSpace s)
      have hname := string_length h₂
      have hcolon := (length_expect h₃).trans_le (length_skipSpace s₂)
      dsimp only at hname hcolon
      omega
    have hv : ∀ t ∈ v.text, t.length ≤ 3 * s.length := by
      intro t ht
      have htext := htexts t (v.text_subset_texts ht)
      omega
    dsimp only at hlen
    have hspace := length_skipSpace s₄
    dsimp only at h
    split at h
    · cases h
    · next b s₅ hs₅ =>
      rw [hs₅, List.length_cons] at hspace
      split_ifs at h
      · obtain ⟨q, hq, rfl⟩ := Option.map_eq_some_iff.mp h
        obtain ⟨hrest, hms⟩ := ih hq
        refine ⟨by dsimp only; omega, ?_⟩
        rintro m hm t ht
        rcases List.mem_cons.mp hm with rfl | hm
        · exact hv t ht
        · have := hms m hm t ht
          omega
      · cases h
        refine ⟨by dsimp only; omega, ?_⟩
        rintro m hm t ht
        obtain rfl := List.mem_singleton.mp hm
        exact hv t ht

end Containers

theorem reads_value (depth : ℕ) : Reads (value depth) := by
  induction depth with
  | zero =>
    intro s p h
    obtain ⟨hlen, htexts⟩ := reads_scalar _ _ h
    have hspace := length_skipSpace s
    exact ⟨hlen.trans hspace, fun t ht => (htexts t ht).trans (by omega)⟩
  | succ depth ih =>
    intro s p h
    have hspace := length_skipSpace s
    rw [value] at h
    split at h
    · cases h
    · next b rest hs =>
      rw [hs, List.length_cons] at hspace
      have hskip := length_skipSpace rest
      split_ifs at h
      · split at h
        · next s' he =>
          cases h
          have := length_expect he
          exact ⟨by dsimp only; omega, by simp [Doc.texts, Doc.text]⟩
        · obtain ⟨q, hq, rfl⟩ := Option.map_eq_some_iff.mp h
          have := ih.items hq
          exact ⟨by dsimp only; omega, by simp [Doc.texts, Doc.text]⟩
      · split at h
        · next s' he =>
          cases h
          have := length_expect he
          exact ⟨by dsimp only; omega, by simp [Doc.texts]⟩
        · obtain ⟨q, hq, rfl⟩ := Option.map_eq_some_iff.mp h
          obtain ⟨hrest, hms⟩ := ih.members hq
          refine ⟨by dsimp only; omega, fun t ht => ?_⟩
          obtain ⟨m, hm, ht⟩ := List.mem_flatMap.mp ht
          have := hms m hm t ht
          omega
      · obtain ⟨hlen, htexts⟩ := reads_scalar _ _ h
        rw [List.length_cons] at hlen htexts
        exact ⟨by omega, fun t ht => (htexts t ht).trans (by omega)⟩

theorem length_assign {name cur t : List UInt8} {m : List UInt8 × Doc} {n : ℕ}
    (h : assign name cur m = some t) (hcur : cur.length ≤ n) (hm : ∀ x ∈ m.2.text, x.length ≤ n) :
    t.length ≤ n := by
  unfold assign at h
  split_ifs at h
  · split at h
    · next s hs =>
      cases h
      refine hm t ?_
      rw [hs]
      exact List.mem_singleton_self _
    · cases h
      exact hcur
    · cases h
  · cases h
    exact hcur

/-- A string field of a record is at most three times as long as the text. -/
theorem length_stringField {s : List UInt8} {ms : List (List UInt8 × Doc)} {name t : List UInt8}
    (hp : parse s = some (.object ms)) (h : stringField name ms = some t) :
    t.length ≤ 3 * s.length := by
  obtain ⟨⟨v, rest⟩, hv, hrest⟩ := Option.bind_eq_some_iff.mp hp
  dsimp only at hrest
  split_ifs at hrest
  cases hrest
  have htexts : ∀ m ∈ ms, ∀ x ∈ m.2.text, x.length ≤ 3 * s.length := fun m hm x hx =>
    (reads_value _ _ _ hv).2 x (List.mem_flatMap.mpr ⟨m, hm, hx⟩)
  -- the field is empty or one of the strings
  have hcur : ([] : List UInt8).length ≤ 3 * s.length := Nat.zero_le _
  unfold stringField at h
  generalize ([] : List UInt8) = cur at h hcur
  clear hp hv
  induction ms generalizing cur with
  | nil =>
    cases h
    exact hcur
  | cons m ms ih =>
    rw [List.foldlM_cons] at h
    obtain ⟨next, hnext, h⟩ := Option.bind_eq_some_iff.mp h
    exact ih (fun m' hm' => htexts m' (List.mem_cons_of_mem _ hm')) next h
      (length_assign hnext hcur (htexts m List.mem_cons_self))

end KvStore.JsonText
