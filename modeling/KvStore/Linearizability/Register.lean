import Mathlib

/-!
# Linearizations of a register

A history is a list of operations on one register, with a relation that says which operation
precedes which in real time. A linearization puts its operations into one order that a register
could have performed, and in which no operation stands behind one that it precedes.

* `Legal.source`: in an order that a register performs, a read of another value than the initial
  one has a write of this value before it, and no write between the two.
* `Linearizes.split_of_precedes`: an operation that precedes another stands before it.
-/

namespace KvStore.Linearizability

variable {α V : Type*}

/-- What an operation does to a register: it writes a value or sees one. -/
inductive Action (V : Type*) where
  | write (v : V)
  | read (v : V)

/-- The register after an operation; none if it is a read of a value that is not there. -/
def Action.perform [DecidableEq V] (held : V) : Action V → Option V
  | .write v => some v
  | .read v => if v = held then some held else none

section Legal

variable [DecidableEq V] {act : α → Action V} {init held v : V} {run pre post : List α} {x : α}

/-- The register after the operations of `run`, one after the other. -/
def performAll (act : α → Action V) (init : V) (run : List α) : Option V :=
  run.foldlM (fun held a => (act a).perform held) init

/-- A register that holds `init` can perform the operations in this order. -/
def Legal (act : α → Action V) (init : V) (run : List α) : Prop :=
  (performAll act init run).isSome

instance : Decidable (Legal act init run) :=
  inferInstanceAs (Decidable ((performAll act init run).isSome = true))

theorem performAll_cons (x : α) (run : List α) :
    performAll act init (x :: run) =
      ((act x).perform init).bind fun held => performAll act held run :=
  List.foldlM_cons

theorem performAll_append (pre post : List α) :
    performAll act init (pre ++ post) =
      (performAll act init pre).bind fun held => performAll act held post :=
  List.foldlM_append

/-- What a register holds is the initial value or that of the last write. -/
theorem source_of_performAll (hrun : performAll act init run = some held) (hne : held ≠ init) :
    ∃ p w q, run = p ++ w :: q ∧ act w = .write held ∧ ∀ y ∈ q, ∀ u, act y ≠ .write u := by
  -- from the end: the last operation is the write, or a read that leaves what was there
  induction run using List.reverseRecOn with
  | nil =>
    simp only [performAll, List.foldlM_nil, Option.pure_def, Option.some.injEq] at hrun
    exact absurd hrun.symm hne
  | append_singleton run x ih =>
    rw [performAll_append, Option.bind_eq_some_iff] at hrun
    obtain ⟨before, hbefore, hx⟩ := hrun
    rw [performAll_cons, Option.bind_eq_some_iff] at hx
    obtain ⟨after, hx, hend⟩ := hx
    obtain rfl : after = held := Option.some.inj hend
    cases hact : act x with
    | write u =>
      rw [hact] at hx
      obtain rfl : u = after := Option.some.inj hx
      exact ⟨run, x, [], rfl, hact, by simp⟩
    | read u =>
      rw [hact, Action.perform] at hx
      split_ifs at hx
      obtain rfl : before = after := Option.some.inj hx
      obtain ⟨p, w, q, rfl, hw, hq⟩ := ih hbefore
      refine ⟨p, w, q ++ [x], by simp, hw, ?_⟩
      intro y hy u'
      rcases List.mem_append.mp hy with hy | hy
      · exact hq y hy u'
      · rw [List.mem_singleton.mp hy, hact]
        simp

/-- **A read sees the last write before it.** -/
theorem Legal.source (h : Legal act init (pre ++ x :: post)) (hx : act x = .read v)
    (hv : v ≠ init) :
    ∃ p w q, pre = p ++ w :: q ∧ act w = .write v ∧ ∀ y ∈ q, ∀ u, act y ≠ .write u := by
  obtain ⟨last, hlast⟩ := Option.isSome_iff_exists.mp h
  rw [performAll_append, Option.bind_eq_some_iff] at hlast
  obtain ⟨held, hheld, hrest⟩ := hlast
  rw [performAll_cons, Option.bind_eq_some_iff] at hrest
  obtain ⟨after, hafter, -⟩ := hrest
  rw [hx, Action.perform] at hafter
  split_ifs at hafter with hsame
  subst hsame
  exact source_of_performAll hheld hv

end Legal

section Linearization

variable [DecidableEq V] {act : α → Action V} {precedes : α → α → Prop} {init : V}
  {ops : List α} {order : List (Fin ops.length)} {i j : Fin ops.length}

/-- `order` lists every operation of `ops` once, none behind one that it precedes, and a register
    that holds `init` can perform them in this order. -/
structure Linearizes (act : α → Action V) (precedes : α → α → Prop) (init : V) (ops : List α)
    (order : List (Fin ops.length)) : Prop where
  perm : order.Perm (List.finRange ops.length)
  realTime : order.Pairwise fun i j => ¬ precedes (ops.get j) (ops.get i)
  legal : Legal act init (order.map ops.get)

/-- The history has a linearization to a register that first holds `init`. -/
def Linearizable (act : α → Action V) (precedes : α → α → Prop) (init : V) (ops : List α) :
    Prop :=
  ∃ order, Linearizes act precedes init ops order

theorem Linearizes.mem (h : Linearizes act precedes init ops order) (i : Fin ops.length) :
    i ∈ order :=
  h.perm.mem_iff.mpr (List.mem_finRange i)

/-- What stands before an operation does not come after it in real time. -/
theorem Linearizes.not_precedes {p q : List (Fin ops.length)}
    (h : Linearizes act precedes init ops (p ++ j :: q)) (hi : i ∈ p) :
    ¬ precedes (ops.get j) (ops.get i) :=
  (List.pairwise_append.mp h.realTime).2.2 i hi j List.mem_cons_self

theorem Linearizes.split_of_precedes (h : Linearizes act precedes init ops order)
    (hne : i ≠ j) (hprec : precedes (ops.get i) (ops.get j)) :
    ∃ p q r, order = p ++ i :: (q ++ j :: r) := by
  obtain ⟨s, r, rfl⟩ := List.append_of_mem (h.mem j)
  rcases List.mem_append.mp (h.mem i) with hi | hi
  · obtain ⟨p, q, rfl⟩ := List.append_of_mem hi
    exact ⟨p, q, r, by simp⟩
  · rcases List.mem_cons.mp hi with rfl | hi
    · exact absurd rfl hne
    · -- `i` behind `j` would be out of real-time order
      have hlater := (List.pairwise_cons.mp (List.pairwise_append.mp h.realTime).2.1).1 i hi
      exact absurd hprec hlater

/-- **In a linearization a read sees a write before it, and no write stands in between.** -/
theorem Linearizes.source {p q : List (Fin ops.length)} {v : V}
    (h : Linearizes act precedes init ops (p ++ i :: q)) (hread : act (ops.get i) = .read v)
    (hv : v ≠ init) :
    ∃ s w t, p = s ++ w :: t ∧ act (ops.get w) = .write v ∧
      ∀ y ∈ t, ∀ u, act (ops.get y) ≠ .write u := by
  have hlegal := h.legal
  rw [List.map_append, List.map_cons] at hlegal
  obtain ⟨s, w, t, hsplit, hw, ht⟩ := hlegal.source hread hv
  obtain ⟨s', rest, rfl, rfl, hrest⟩ := List.map_eq_append_iff.mp hsplit
  obtain ⟨w', t', rfl, rfl, rfl⟩ := List.map_eq_cons_iff.mp hrest
  exact ⟨s', w', t', rfl, hw, fun y hy => ht _ (List.mem_map_of_mem hy)⟩

end Linearization

end KvStore.Linearizability
