import Mathlib.Data.Set.Insert
import Mathlib.Logic.Function.Basic

/-!
# A directory and what a power failure leaves of it

A file and a directory are kept in memory and get to the disk at some later time. `Cached` pairs
the value in memory with all values that a failure can leave:

* an update of a directory is atomic, and the failure leaves one of the directories since the last
  `Sync`;
* of a file that was written and not synced anything may be left.

Owners share the directory. Each has two names in it, one for its file and one for a temporary
file next to it, and one descriptor. `Exec` is the outcome of one system call; every call can
fail, and a write that fails may have written something.
-/

namespace KvStore.FileSystem

/-! ## Cached values -/

/-- A value, and what a power failure can leave of it. -/
structure Cached (α : Type) where
  now : α
  disk : Set α
  now_mem : now ∈ disk

namespace Cached

variable {α : Type}

/-- What is in memory is on the disk. -/
def clean (a : α) : Cached α := ⟨a, {a}, rfl⟩

/-- An update that is or is not on the disk yet. -/
def update (c : Cached α) (a : α) : Cached α := ⟨a, insert a c.disk, Set.mem_insert a c.disk⟩

/-- An update that gets to the disk in parts. -/
def scramble (a : α) : Cached α := ⟨a, Set.univ, Set.mem_univ a⟩

def sync (c : Cached α) : Cached α := clean c.now

@[simp] theorem clean_now (a : α) : (clean a).now = a := rfl

@[simp] theorem mem_clean {a b : α} : b ∈ (clean a).disk ↔ b = a := Iff.rfl

@[simp] theorem update_now (c : Cached α) (a : α) : (c.update a).now = a := rfl

@[simp] theorem mem_update {c : Cached α} {a b : α} : b ∈ (c.update a).disk ↔ b = a ∨ b ∈ c.disk :=
  Iff.rfl

end Cached

/-! ## The directory -/

/-- What is in a file: nothing, the data of a whole write, or something else. -/
inductive Content (β : Type) where
  | blank
  | whole (b : β)
  | torn

/-- The two names of an owner. -/
inductive Slot where
  | path
  | tmp
  deriving DecidableEq

/-- The files by name; a file is a number that is not used twice. -/
abbrev Dir (W : Type) := W × Slot → Option ℕ

structure FS (W β : Type) where
  dir : Cached (Dir W)
  file : ℕ → Cached (Content β)
  fresh : ℕ

/-- The system calls of an owner, on its names and its descriptor. -/
inductive Call where
  /-- a computation that can fail -/
  | prepare
  /-- `OpenFile` with `O_CREATE` and `O_TRUNC` -/
  | create (n : Slot)
  | write
  | sync
  | close
  | rename (src dst : Slot)
  | remove (n : Slot)
  | openDir
  | syncDir
  | closeDir
  deriving DecidableEq

variable {W β : Type} [DecidableEq W]

namespace FS

/-- The directory of a new disk. -/
def init : FS W β := { dir := .clean fun _ => none, file := fun _ => .clean .blank, fresh := 0 }

def setFile (fs : FS W β) (i : ℕ) (c : Cached (Content β)) : FS W β :=
  { fs with file := Function.update fs.file i c }

/-- What a read of the owner's file returns. -/
def read (fs : FS W β) (w : W) : Option (Content β) :=
  (fs.dir.now (w, .path)).map fun i => (fs.file i).now

/-- What is left when the failure leaves the directory `d` and the contents `c`. -/
def crash (fs : FS W β) (d : Dir W) (c : ℕ → Content β) : FS W β :=
  { dir := .clean d, file := fun i => .clean (c i), fresh := fs.fresh }

end FS

/-- The outcomes of a call by the owner `w` with data `b`: whether it succeeds, what it makes of
    the directory and of the descriptor. -/
inductive Exec (w : W) (b : β) (fs : FS W β) (fd : Option ℕ) :
    Call → Bool → FS W β → Option ℕ → Prop
  | failed (c : Call) : Exec w b fs fd c false fs fd
  | prepare : Exec w b fs fd .prepare true fs fd
  | createNew {n : Slot} (h : fs.dir.now (w, n) = none) :
      Exec w b fs fd (.create n) true
        { dir := fs.dir.update (Function.update fs.dir.now (w, n) (some fs.fresh))
          file := Function.update fs.file fs.fresh (.scramble .blank)
          fresh := fs.fresh + 1 } (some fs.fresh)
  | createOld {n : Slot} {i : ℕ} (h : fs.dir.now (w, n) = some i) :
      Exec w b fs fd (.create n) true (fs.setFile i (.scramble .blank)) (some i)
  | write {i : ℕ} (hfd : fd = some i) (h : (fs.file i).now = .blank) :
      Exec w b fs fd .write true (fs.setFile i (.scramble (.whole b))) fd
  | writeBehind {i : ℕ} (hfd : fd = some i) (h : (fs.file i).now ≠ .blank) :
      Exec w b fs fd .write true (fs.setFile i (.scramble .torn)) fd
  | writePart {i : ℕ} (hfd : fd = some i) (c : Content β) :
      Exec w b fs fd .write false (fs.setFile i (.scramble c)) fd
  | sync {i : ℕ} (hfd : fd = some i) : Exec w b fs fd .sync true (fs.setFile i (fs.file i).sync) fd
  | close (ok : Bool) : Exec w b fs fd .close ok fs none
  | rename {src dst : Slot} {i : ℕ} (h : fs.dir.now (w, src) = some i) :
      Exec w b fs fd (.rename src dst) true
        { fs with
          dir := fs.dir.update
            (Function.update (Function.update fs.dir.now (w, src) none) (w, dst) (some i)) } fd
  | remove (n : Slot) :
      Exec w b fs fd (.remove n) true
        { fs with dir := fs.dir.update (Function.update fs.dir.now (w, n) none) } fd
  | openDir : Exec w b fs fd .openDir true fs fd
  | syncDir : Exec w b fs fd .syncDir true { fs with dir := fs.dir.sync } fd
  | closeDir : Exec w b fs fd .closeDir true fs fd

end KvStore.FileSystem
