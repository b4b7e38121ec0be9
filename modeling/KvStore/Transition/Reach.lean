import KvStore.Transition.Guarded

/-!
# Reachable states, simulation and termination

The states that a step function reaches by actions that meet a condition, and the rules for
statements about all of them:

* `Reach.invariant`: what holds at the start and is kept by every step holds in every such state.
* `Reach.simulated`: if every step of one system is matched by steps of another, every reachable
  state of the first is related to a reachable state of the second.
* `run_length_le`: if every step makes a measure smaller, no run is longer than the measure.
-/

namespace KvStore.Transition

variable {S A T B : Type} {step : S → A → Option S} {ok : S → A → Prop} {s₀ s s' : S}

/-- The states reached from `s₀`. -/
inductive Reach (step : S → A → Option S) (ok : S → A → Prop) (s₀ : S) : S → Prop
  | refl : Reach step ok s₀ s₀
  | step {s s' : S} {a : A} : Reach step ok s₀ s → ok s a → step s a = some s' → Reach step ok s₀ s'

theorem Reach.single {a : A} (hok : ok s a) (h : step s a = some s') : Reach step ok s s' :=
  .step .refl hok h

theorem Reach.of_run [∀ s a, Decidable (ok s a)] {acts : List A}
    (h : run step ok s acts = some s') : Reach step ok s s' :=
  run_invariant (P := Reach step ok s) .refl .step h

theorem Reach.trans (h : Reach step ok s₀ s) (h' : Reach step ok s s') : Reach step ok s₀ s' := by
  induction h' with
  | refl => exact h
  | step _ hok hs ih => exact .step ih hok hs

theorem Reach.invariant {P : S → Prop} (h : Reach step ok s₀ s) (h0 : P s₀)
    (hstep : ∀ {s s' a}, P s → ok s a → step s a = some s' → P s') : P s := by
  induction h with
  | refl => exact h0
  | step _ hok hs ih => exact hstep ih hok hs

theorem Reach.mono {ok' : S → A → Prop} (h : Reach step ok s₀ s) (hok : ∀ s a, ok s a → ok' s a) :
    Reach step ok' s₀ s := by
  induction h with
  | refl => exact .refl
  | step _ ho hs ih => exact .step ih (hok _ _ ho) hs

/-- Forward simulation; `P` is an invariant of the system that is simulated. -/
theorem Reach.simulated {stepT : T → B → Option T} {okT : T → B → Prop} {t₀ : T}
    {P : S → Prop} {R : S → T → Prop} (h : Reach step ok s₀ s) (hP : P s₀) (hR : R s₀ t₀)
    (hinv : ∀ {s s' a}, P s → ok s a → step s a = some s' → P s')
    (hsim : ∀ {s s' a t}, P s → R s t → ok s a → step s a = some s' →
      ∃ t', Reach stepT okT t t' ∧ R s' t') :
    ∃ t, Reach stepT okT t₀ t ∧ R s t := by
  induction h with
  | refl => exact ⟨t₀, .refl, hR⟩
  | step hreach hok hs ih =>
    obtain ⟨t, ht, hRt⟩ := ih
    obtain ⟨t', ht', hRt'⟩ := hsim (hreach.invariant hP hinv) hRt hok hs
    exact ⟨t', ht.trans ht', hRt'⟩

/-- A run whose steps keep `P` and make `μ` smaller. -/
theorem run_length_le [∀ s a, Decidable (ok s a)] {P : S → Prop} {μ : S → ℕ} {acts : List A}
    (h0 : P s) (hstep : ∀ {s s' a}, P s → ok s a → step s a = some s' → P s' ∧ μ s' < μ s)
    (hrun : run step ok s acts = some s') : P s' ∧ acts.length + μ s' ≤ μ s := by
  induction acts using List.reverseRecOn generalizing s' with
  | nil =>
    cases hrun
    exact ⟨h0, by simp⟩
  | append_singleton acts a ih =>
    obtain ⟨s₁, hrun₁, hok, hs⟩ := run_concat.mp hrun
    obtain ⟨hP, hle⟩ := ih hrun₁
    obtain ⟨hP', hlt⟩ := hstep hP hok hs
    refine ⟨hP', ?_⟩
    rw [List.length_append, List.length_singleton]
    omega

end KvStore.Transition
