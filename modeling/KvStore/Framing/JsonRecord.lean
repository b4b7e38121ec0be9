import KvStore.Framing.JsonText

/-!
# Decoding JSON into records and maps

A decoder for records and maps in the manner of `encoding/json`. A document is what the reader
of texts hands on: its strings are text, and a number that is written as an integer has a value.

* A member of an object belongs to the field whose name it has, without regard to case; other
  members are skipped, and members are taken in their order.
* A member of another kind than its field is an error of the whole document.
* `null` leaves a number, a string or a record as it is and empties a map; a field without
  members keeps its zero value.
-/

namespace KvStore.JsonRecord

/-- A document. -/
inductive Doc where
  | null
  | bool (b : Bool)
  /-- `none` is a number with a fraction or an exponent -/
  | number (n : Option ℤ)
  | string (s : List UInt8)
  | array (items : List Doc)
  | object (members : List (List UInt8 × Doc))

variable {α β : Type}

/-- What a member does to a record; `field` finds the field by its name in lower case. -/
def assign (field : List UInt8 → Option (α → Doc → Option α)) (a : α) (m : List UInt8 × Doc) :
    Option α :=
  match field (JsonText.foldCase m.1) with
  | none => some a
  | some set => set a m.2

/-- Decoding into a record that holds `a`. -/
def record (field : List UInt8 → Option (α → Doc → Option α)) (a : α) : Doc → Option α
  | .object members => members.foldlM (assign field) a
  | .null => some a
  | _ => none

/-- Decoding into a 64-bit integer that holds `n`. -/
def int64 (n : ℤ) : Doc → Option ℤ
  | .number (some i) => if -(2 ^ 63) ≤ i ∧ i < 2 ^ 63 then some i else none
  | .null => some n
  | _ => none

/-- Decoding into a string that holds `s`. -/
def text (s : List UInt8) : Doc → Option (List UInt8)
  | .string s' => some s'
  | .null => some s
  | _ => none

/-- A map of the decoder; `none` is the `nil` map. -/
abbrev Map (β : Type) := Std.ExtTreeMap (List UInt8) β compare

/-- A member goes into the map under its name. -/
def put (decode : Doc → Option β) (d : Map β) (m : List UInt8 × Doc) : Option (Map β) :=
  (decode m.2).map fun b => d.insert m.1 b

/-- Decoding into a map that holds `d`. -/
def map (decode : Doc → Option β) (d : Option (Map β)) : Doc → Option (Option (Map β))
  | .object members => (members.foldlM (put decode) (d.getD ∅)).map some
  | .null => some none
  | _ => none

/-! ## Records -/

/-- If all members are errors of their fields, or have none, the record is not changed. -/
theorem foldlM_assign_refused {field : List UInt8 → Option (α → Doc → Option α)} (a : α)
    {members : List (List UInt8 × Doc)}
    (h : ∀ m ∈ members, ∀ set, field (JsonText.foldCase m.1) = some set → set a m.2 = none) :
    members.foldlM (assign field) a = none ∨ members.foldlM (assign field) a = some a := by
  induction members with
  | nil => exact Or.inr rfl
  | cons m members ih =>
    rw [List.foldlM_cons]
    cases hf : field (JsonText.foldCase m.1) with
    | none =>
      have hassign : assign field a m = some a := by rw [assign, hf]
      rw [hassign]
      exact ih fun m' hm' => h m' (List.mem_cons_of_mem _ hm')
    | some set =>
      have hassign : assign field a m = none := by
        rw [assign, hf]
        exact h m (List.mem_cons_self ..) set hf
      rw [hassign]
      exact Or.inl rfl

/-! ## Maps -/

/-- A map of decodable members. -/
theorem foldlM_put {γ : Type} (decode : Doc → Option β) (encode : γ → List UInt8 × Doc)
    (f : γ → β) (h : ∀ c, decode (encode c).2 = some (f c)) (l : List γ) (d : Map β) :
    (l.map encode).foldlM (put decode) d =
      some (l.foldl (fun d c => d.insert (encode c).1 (f c)) d) := by
  induction l generalizing d with
  | nil => rfl
  | cons c l ih =>
    have hput : put decode d (encode c) = some (d.insert (encode c).1 (f c)) := by
      rw [put, h c]
      rfl
    rw [List.map_cons, List.foldlM_cons, hput, List.foldl_cons]
    exact ih _

/-- The last member of a name counts. -/
theorem getElem?_foldl_insert (l : List (List UInt8 × β)) (k : List UInt8) :
    (l.foldl (fun (d : Map β) p => d.insert p.1 p.2) ∅)[k]? = l.reverse.lookup k := by
  induction l using List.reverseRecOn with
  | nil => simp
  | append_singleton l p ih =>
    rw [List.foldl_append, List.foldl_cons, List.foldl_nil, Std.ExtTreeMap.getElem?_insert, ih,
      List.reverse_append, List.reverse_singleton, List.singleton_append, List.lookup_cons]
    by_cases hk : k = p.1
    · simp [hk]
    · have hne : ¬ compare p.1 k = .eq := by
        rw [Std.LawfulEqCmp.compare_eq_iff_eq]
        exact fun h => hk h.symm
      rw [if_neg hne, beq_false_of_ne hk]

end KvStore.JsonRecord
