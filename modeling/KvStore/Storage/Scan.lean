import KvStore.Storage.MemStore

/-!
# Paged scans

Model of `Scan` (`pkg/storage/memstore.go`) and of `matchGlob` (`pkg/storage/fake.go`). The
source collects the keys in the random order of a Go map and sorts them; the map of the model
lists them in that order. `matchGlob` is a loop with one backtracking point: `star` is the
position of the last `*` and `mark` the position in the string up to which it has been tried.
-/

namespace KvStore.Storage

/-- The character `*`. -/
def starByte : UInt8 := 42

/-- The loop of `matchGlob` (pkg/storage/fake.go:180). `mark` never overtakes `si`, which is why
    the loop ends: every turn moves `mark` forward or, with the same `mark`, `pi`. -/
def globLoop (pattern s : Bytes) (pi si : ℕ) (star : Option ℕ) (mark : ℕ) (h : mark ≤ si) : Bool :=
  if _ : si < s.length then
    if _ : pi < pattern.length ∧ pattern[pi]? = s[si]? then
      globLoop pattern s (pi + 1) (si + 1) star mark (Nat.le_succ_of_le h)
    else if hstar : pi < pattern.length ∧ pattern[pi]? = some starByte then
      globLoop pattern s (pi + 1) si (some pi) si (le_refl _)
    else
      match star with
      | some p => globLoop pattern s (p + 1) (mark + 1) (some p) (mark + 1) (le_refl _)
      | none => false
  else
    -- only stars are left
    (pattern.drop pi).all (· = starByte)
termination_by (s.length - mark, pattern.length - pi)
decreasing_by
  · exact Prod.Lex.right _ (by omega)
  · rcases Nat.lt_or_ge mark si with hlt | hge
    · exact Prod.Lex.left _ _ (by omega)
    · obtain rfl : mark = si := by omega
      exact Prod.Lex.right _ (by omega)
  · exact Prod.Lex.left _ _ (by omega)

/-- `matchGlob` (pkg/storage/fake.go:174). -/
def matchGlob (pattern s : Bytes) : Bool :=
  if pattern = [] then true else globLoop pattern s 0 0 none 0 (le_refl _)

/-- The key sorts after the cursor, if there is one, and matches the pattern. -/
def selected (cursor pattern key : Bytes) : Bool :=
  (cursor = [] || compare key cursor = .gt) && matchGlob pattern key

/-- The first `count` of the items, and the last key of a full page. -/
def page (all : List (Bytes × Bytes)) (count : ℕ) : List (Bytes × Bytes) × Bytes :=
  let items := all.take count
  (items, if items.length = count then (items.getLast?.map Prod.fst).getD [] else [])

namespace MemStore

/-- The entries that `Scan` collects, in the order of their keys. -/
def scanned (m : MemStore) (cursor pattern : Bytes) (now : Int64) : List (Bytes × Bytes) :=
  (m.data.toList.filter fun p => !entryExpired p.2 now && selected cursor pattern p.1).map
    fun p => (p.1, p.2.value)

/-- `Scan` (pkg/storage/memstore.go:190); `none` is its error, `scan: count must be positive`. -/
def scan (m : MemStore) (cursor : Bytes) (count : ℤ) (pattern : Bytes) (now : Int64) :
    Option (List (Bytes × Bytes) × Bytes) :=
  if count ≤ 0 then none else some (page (m.scanned cursor pattern now) count.toNat)

end MemStore
end KvStore.Storage
