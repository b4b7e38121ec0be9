import KvStore.Framing.Utf8

/-!
# JSON documents

Documents as trees, and the conventions of an encoder and decoder for records:

* a string is text, so a byte string is written with its ill-formed bytes replaced
  (`ofBytes`);
* a record is an object with one member per field; a member that is absent or `null`
  leaves the field at its zero value, the last of several members of one name counts,
  and a member of another kind is an error.

The fields of a record decode by computation; `toList_ofList` is the induction for a
slice of records.
-/

namespace KvStore.Json

/-- A JSON document. -/
inductive Value where
  | null
  | number (n : ℤ)
  | string (s : List UInt8)
  | array (items : List Value)
  | object (members : List (String × Value))

/-! ## Encoding -/

def ofInt (n : ℤ) : Value := .number n

/-- A byte string as text. -/
def ofBytes (s : List UInt8) : Value := .string (Utf8.repair s)

/-- A pointer: `null` or what it points to. -/
def ofOption {α : Type} (encode : α → Value) : Option α → Value
  | none => .null
  | some a => encode a

/-- A slice; the `null` of a `nil` slice decodes to the same as `[]`. -/
def ofList {α : Type} (encode : α → Value) (l : List α) : Value := .array (l.map encode)

/-! ## Decoding -/

def toInt : Value → Option ℤ
  | .number n => some n
  | _ => none

def toBytes : Value → Option (List UInt8)
  | .string s => some s
  | _ => none

def toOption {α : Type} (decode : Value → Option α) : Value → Option (Option α)
  | .null => some none
  | v => (decode v).map some

def toList {α : Type} (decode : Value → Option α) : Value → Option (List α)
  | .array items => items.mapM decode
  | _ => none

/-- The member of an object; the last one of the name counts. -/
def Value.member (name : String) : Value → Option Value
  | .object members => members.reverse.lookup name
  | _ => none

/-- A field of a record, `zero` if the object has no such member. -/
def field {α : Type} (zero : α) (decode : Value → Option α) (name : String) (v : Value) :
    Option α :=
  match v.member name with
  | none => some zero
  | some .null => some zero
  | some w => decode w

/-! ## Round trips -/

theorem mapM_map {α β γ : Type} {decode : β → Option γ} {encode : α → β} {f : α → γ}
    (h : ∀ a, decode (encode a) = some (f a)) (l : List α) :
    (l.map encode).mapM decode = some (l.map f) := by
  induction l with
  | nil => rfl
  | cons a l ih => simp [List.mapM_cons, h a, ih]

/-- A slice survives as its elements do. -/
theorem toList_ofList {α β : Type} {decode : Value → Option β} {encode : α → Value} {f : α → β}
    (h : ∀ a, decode (encode a) = some (f a)) (l : List α) :
    toList decode (ofList encode l) = some (l.map f) := mapM_map h l

end KvStore.Json
