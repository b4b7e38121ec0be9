import Mathlib

/-!
# Journals that are replayed under a later clock

A store keeps its state in memory and writes every operation to a journal. From time
to time it writes an image of the state and starts a new journal. After a restart the
image is loaded and the journal is executed again, but the operations read the clock,
and replay reads it later than the original execution did.

`Machine` collects what is known of such operations. The relation `Same t` says that
two states look alike at the time `t`, and `Harmless τ t o s` when an operation that
was executed at `τ` on the state `s` can be replayed at `t`. What one step does to the
guarantee `Restores t` (replay at `t` gives back what memory shows at `t`) is exact:

* `restores_write`: a journalled operation keeps it if and only if it is harmless;
* `restores_tend`: work on the memory alone that nobody sees keeps it;
* `restores_checkpoint`: a new image has to look like the memory.

`execEach_same` is for operations that were executed at readings of their own, as those of
a journal that has been replayed some time ago and prolonged since.
-/

namespace KvStore.Journal

variable {S Op T : Type} [LE T]

/-- States with operations that read a clock, observed at a time. -/
structure Machine (S Op T : Type) [LE T] where
  /-- The operation executed at a reading of the clock. -/
  exec : T → Op → S → S
  /-- Two states look alike at a time. -/
  Same : T → S → S → Prop
  /-- Replay at the second reading may stand for an execution at the first one. -/
  Harmless : T → T → Op → S → Prop
  same_equivalence : ∀ t, Equivalence (Same t)
  exec_same_iff : ∀ {τ t : T} {o : Op} {r s : S}, τ ≤ t → Same t r s →
    (Same t (exec t o r) (exec τ o s) ↔ Harmless τ t o s)

/-- The image written last, the operations journalled since, and the memory. -/
structure State (S Op : Type) where
  image : S
  tail : List Op
  mem : S

namespace Machine

variable (M : Machine S Op T) {t τ : T} {j : State S Op}

/-- The operations executed in order at one reading. -/
def execAll (t : T) (ops : List Op) (s : S) : S := ops.foldl (fun s o => M.exec t o s) s

/-- The state a restart at `t` finds. -/
def recover (t : T) (j : State S Op) : S := M.execAll t j.tail j.image

/-- A restart at `t` gives back what the memory shows at `t`. -/
def Restores (t : T) (j : State S Op) : Prop := M.Same t (M.recover t j) j.mem

theorem recover_write (t : T) (j : State S Op) (o : Op) (mem : S) :
    M.recover t { j with tail := j.tail ++ [o], mem := mem } = M.exec t o (M.recover t j) := by
  simp [recover, execAll]

/-- One journalled operation, executed at `τ`. -/
theorem restores_write (hτ : τ ≤ t) (h : M.Restores t j) (o : Op) :
    M.Restores t { j with tail := j.tail ++ [o], mem := M.exec τ o j.mem } ↔
      M.Harmless τ t o j.mem := by
  rw [Restores, recover_write]
  exact M.exec_same_iff hτ h

/-- Work on the memory that does not show at `t`. -/
theorem restores_tend {mem : S} (hmem : M.Same t mem j.mem) :
    M.Restores t { j with mem := mem } ↔ M.Restores t j :=
  ⟨fun h => (M.same_equivalence t).trans h hmem,
    fun h => (M.same_equivalence t).trans h ((M.same_equivalence t).symm hmem)⟩

/-- A new image, and an empty journal. -/
theorem restores_checkpoint {image mem : S} :
    M.Restores t ⟨image, [], mem⟩ ↔ M.Same t image mem := Iff.rfl

/-- The operations are harmless one after the other, when executed at `τ`. -/
def HarmlessAll (τ t : T) : List Op → S → Prop
  | [], _ => True
  | o :: ops, s => M.Harmless τ t o s ∧ HarmlessAll τ t ops (M.exec τ o s)

/-- Several operations, executed at `τ` on one state and at `t` on another that looks
    like it at `t`. -/
theorem execAll_same (hτ : τ ≤ t) {ops : List Op} {r s : S} (h : M.Same t r s)
    (hops : M.HarmlessAll τ t ops s) : M.Same t (M.execAll t ops r) (M.execAll τ ops s) := by
  induction ops generalizing r s with
  | nil => exact h
  | cons o ops ih => exact ih ((M.exec_same_iff hτ h).mpr hops.1) hops.2

/-- The operations executed in order, each at its own reading. -/
def execEach (ops : List (Op × T)) (s : S) : S := ops.foldl (fun s p => M.exec p.2 p.1 s) s

theorem execEach_concat (ops : List (Op × T)) (p : Op × T) (s : S) :
    M.execEach (ops ++ [p]) s = M.exec p.2 p.1 (M.execEach ops s) := by
  simp [execEach]

theorem execEach_map_const (ops : List Op) (t : T) (s : S) :
    M.execEach (ops.map fun o => (o, t)) s = M.execAll t ops s := by
  simp [execEach, execAll, List.foldl_map]

/-- The operations may be replayed at `t`, one after the other, each after its execution at its
    own reading. -/
def HarmlessEach (t : T) : List (Op × T) → S → Prop
  | [], _ => True
  | p :: ops, s => M.Harmless p.2 t p.1 s ∧ HarmlessEach t ops (M.exec p.2 p.1 s)

/-- Operations that were executed at their own readings, and again at `t` on a state that looks
    like the first one at `t`. -/
theorem execEach_same {ops : List (Op × T)} (hle : ∀ p ∈ ops, p.2 ≤ t) {r s : S}
    (h : M.Same t r s) (hops : M.HarmlessEach t ops s) :
    M.Same t (M.execAll t (ops.map Prod.fst) r) (M.execEach ops s) := by
  induction ops generalizing r s with
  | nil => exact h
  | cons p ops ih =>
    refine ih (fun q hq => hle q (List.mem_cons_of_mem _ hq)) ?_ hops.2
    exact (M.exec_same_iff (hle p List.mem_cons_self) h).mpr hops.1

/-- Several journalled operations, executed at `τ`. -/
theorem restores_writeAll (hτ : τ ≤ t) (h : M.Restores t j) {ops : List Op}
    (hops : M.HarmlessAll τ t ops j.mem) :
    M.Restores t { j with tail := j.tail ++ ops, mem := M.execAll τ ops j.mem } := by
  have hsame := M.execAll_same hτ h hops
  simpa [Restores, recover, execAll] using hsame

end Machine

end KvStore.Journal
