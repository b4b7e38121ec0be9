import Mathlib.Data.List.Induction

/-!
# Runs of a step function

A system takes actions, each of which may be impossible in the state it meets. A run is a
sequence of actions; `ok` says which actions are allowed in which state, so that a theorem
about all runs can be stated about those that keep to a condition. `run` is for partial step
functions; for total ones, `AllMeet` says of a sequence that it keeps to the condition.
-/

namespace KvStore.Transition

variable {S A : Type} {step : S → A → Option S} {ok : S → A → Prop} [∀ s a, Decidable (ok s a)]
  {s s' : S} {acts : List A} {a : A}

/-- The state after a run all of whose actions meet `ok` in the state before them. -/
def run (step : S → A → Option S) (ok : S → A → Prop) [∀ s a, Decidable (ok s a)] (s : S)
    (acts : List A) : Option S :=
  acts.foldlM (fun s a => if ok s a then step s a else none) s

theorem run_concat : run step ok s (acts ++ [a]) = some s' ↔
    ∃ s₁, run step ok s acts = some s₁ ∧ ok s₁ a ∧ step s₁ a = some s' := by
  simp [run, List.foldlM_append, Option.bind_eq_some_iff]

/-- What holds at the start and is kept by every allowed action holds in the end. -/
theorem run_invariant {P : S → Prop} (h0 : P s)
    (hstep : ∀ {t t' a}, P t → ok t a → step t a = some t' → P t')
    (hrun : run step ok s acts = some s') : P s' := by
  induction acts using List.reverseRecOn generalizing s' with
  | nil =>
    cases hrun
    exact h0
  | append_singleton acts a ih =>
    obtain ⟨s₁, hrun₁, hok, hs⟩ := run_concat.mp hrun
    exact hstep (ih hrun₁) hok hs

/-! ## Total step functions -/

section Total

variable {f : S → A → S}

/-- Every action meets `ok` in the state before it. -/
def AllMeet (f : S → A → S) (ok : S → A → Prop) (s : S) (acts : List A) : Prop :=
  ∀ before a after, acts = before ++ a :: after → ok (before.foldl f s) a

omit [∀ s a, Decidable (ok s a)]

theorem allMeet_nil : AllMeet f ok s [] := by
  intro before a after h
  simp at h

theorem allMeet_cons : AllMeet f ok s (a :: acts) ↔ ok s a ∧ AllMeet f ok (f s a) acts := by
  constructor
  · intro h
    refine ⟨h [] a acts rfl, fun before b after hb => ?_⟩
    exact h (a :: before) b after (by rw [hb]; rfl)
  · rintro ⟨ha, hrest⟩ before b after hb
    rcases before with - | ⟨c, before⟩
    · obtain ⟨rfl, -⟩ := List.cons.inj hb
      exact ha
    · obtain ⟨rfl, hb'⟩ := List.cons.inj hb
      exact hrest before b after hb'

theorem AllMeet.of_append {more : List A} (h : AllMeet f ok s (acts ++ more)) :
    AllMeet f ok s acts := by
  intro before a after hb
  exact h before a (after ++ more) (by rw [hb]; simp)

theorem allMeet_concat :
    AllMeet f ok s (acts ++ [a]) ↔ AllMeet f ok s acts ∧ ok (acts.foldl f s) a := by
  induction acts generalizing s with
  | nil => simp [allMeet_cons, allMeet_nil]
  | cons b acts ih => rw [List.cons_append, allMeet_cons, ih, allMeet_cons, and_assoc, List.foldl_cons]

/-- What holds at the start and is kept by every action that meets `ok` holds in the end. -/
theorem AllMeet.invariant {P : S → Prop} (h : AllMeet f ok s acts) (h0 : P s)
    (hstep : ∀ t, ∀ a ∈ acts, P t → ok t a → P (f t a)) : P (acts.foldl f s) := by
  induction acts generalizing s with
  | nil => exact h0
  | cons a acts ih =>
    obtain ⟨ha, hrest⟩ := allMeet_cons.mp h
    exact ih hrest (hstep s a List.mem_cons_self h0 ha)
      fun t b hb => hstep t b (List.mem_cons_of_mem _ hb)

/-- If `Q` survives only actions that meet `ok`, a run along which `Q` holds consists of such. -/
theorem allMeet_of_prefixes {P Q : S → Prop} (h0 : P s)
    (hok : ∀ t, ∀ a ∈ acts, P t → Q t → Q (f t a) → ok t a)
    (hstep : ∀ t, ∀ a ∈ acts, P t → Q t → ok t a → P (f t a))
    (h : ∀ pre, pre <+: acts → Q (pre.foldl f s)) : AllMeet f ok s acts := by
  induction acts generalizing s with
  | nil => exact allMeet_nil
  | cons a acts ih =>
    have hs : Q s := h [] List.nil_prefix
    have ha : ok s a := hok s a List.mem_cons_self h0 hs (h [a] ⟨acts, rfl⟩)
    refine allMeet_cons.mpr ⟨ha, ih (hstep s a List.mem_cons_self h0 hs ha)
      (fun t b hb => hok t b (List.mem_cons_of_mem _ hb))
      (fun t b hb => hstep t b (List.mem_cons_of_mem _ hb)) fun pre hpre => ?_⟩
    exact h (a :: pre) (List.cons_prefix_cons.mpr ⟨rfl, hpre⟩)

end Total

end KvStore.Transition
