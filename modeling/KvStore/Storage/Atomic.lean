import KvStore.Storage.Concurrent
import KvStore.Transition.Reach

/-!
# The atomic store

What a `DiskStore` is for: a `MemStore` on which every call takes effect in one step, at some
moment between its call and its return. A write may also fail without effect, because of the file.
`Close` takes effect in one step too: no write takes effect after it, and every later one is
refused.

A `loose` run has one more step. `DiskStore` checks and writes a `CAS` in two sections where
`MemStore.CAS` has one, so the key may expire in between, and the `CAS` then writes and answers
`true` all the same.

* `Explains`: the calls that have taken effect, one after the other on one store, with the answer of
  each.
* `Shows`: what the history shows of one goroutine, given how its calls have ended: calls and
  returns alternate, and each return is the answer of its own call.
* `Runs.kept`: both hold along every run.
-/

namespace KvStore.Concurrent.Atomic

open KvStore.Storage
open KvStore.Expiring (live)
open KvStore.Transition (Reach)

/-- Where a call stands. -/
inductive Phase where
  | idle
  | called (k : Call)
  | done (o : Out)

/-- Where `Close` stands. -/
inductive Close where
  | opened
  | closing
  | sealed
  | returned
  deriving DecidableEq

/-- A call that has taken effect, with the clock reading at that moment and the answer. -/
structure Taken (Client : Type) where
  client : Client
  call : Call
  time : Int64
  out : Out

structure State (Client : Type) where
  store : MemStore
  clock : Int64
  phase : Client → Phase
  close : Close
  /-- the calls that have taken effect, in this order -/
  taken : List (Taken Client)
  history : List (Event Client)

inductive Act (Client : Type) where
  | call (c : Client) (k : Call)
  /-- the call takes effect -/
  | effect (c : Client)
  /-- the write fails -/
  | fail (c : Client)
  /-- the write is refused -/
  | refuse (c : Client)
  /-- a `CAS` writes although its key has expired since its check -/
  | swap (c : Client)
  | ret (c : Client)
  | tick (t : Int64)
  | close
  /-- `Close` takes effect -/
  | shut
  | closed (ok : Bool)

def Act.swaps {Client : Type} : Act Client → Bool
  | .swap _ => true
  | _ => false

variable {Client : Type} [DecidableEq Client]

/-- The answer of a `MemStore` as that of a write. -/
def outcome (r : Except Err Value) : Outcome := r.mapError fun e => .write (.store e)

namespace State

def init (m : MemStore) (t : Int64) : State Client :=
  { store := m, clock := t, phase := fun _ => .idle, close := .opened, taken := [], history := [] }

def setPhase (a : State Client) (c : Client) (p : Phase) : State Client :=
  { a with phase := Function.update a.phase c p }

def observe (a : State Client) (e : Event Client) : State Client :=
  { a with history := a.history ++ [e] }

/-- The call `k` of `c` takes effect: it leaves the store `m` and answers `o`. -/
def settle (a : State Client) (c : Client) (k : Call) (m : MemStore) (o : Out) : State Client :=
  { a with
    store := m
    phase := Function.update a.phase c (.done o)
    taken := a.taken ++ [⟨c, k, a.clock, o⟩] }

/-- Writes take effect. -/
def Open (a : State Client) : Prop := a.close = .opened ∨ a.close = .closing

instance (a : State Client) : Decidable a.Open := inferInstanceAs (Decidable (_ ∨ _))

def step (a : State Client) : Act Client → Option (State Client)
  | .call c k =>
    match a.phase c with
    | .idle => some ((a.setPhase c (.called k)).observe (.call c k))
    | _ => none
  | .effect c =>
    match a.phase c with
    | .called (.write cmd) =>
      if a.Open then
        let r := a.store.apply cmd a.clock
        some (a.settle c (.write cmd) r.2 (.wrote (outcome r.1)))
      else none
    | .called (.read r) => some (a.settle c (.read r) a.store (.saw (r.result a.store a.clock)))
    | _ => none
  | .fail c =>
    match a.phase c with
    | .called (.write cmd) =>
      if a.Open then some (a.settle c (.write cmd) a.store (.wrote (.error (.write .file)))) else none
    | _ => none
  | .refuse c =>
    match a.phase c with
    | .called (.write cmd) =>
      if a.Open then none else some (a.settle c (.write cmd) a.store (.wrote (.error .closed)))
    | _ => none
  | .swap c =>
    match a.phase c with
    | .called (.write cmd) =>
      if a.Open ∧ cmd.op = .cas ∧ live a.clock (a.store.cell cmd.key) = none then
        some (a.settle c (.write cmd) (a.store.put cmd.key cmd.value) (.wrote (.ok (.bool true))))
      else none
    | _ => none
  | .ret c =>
    match a.phase c with
    | .done o => some ((a.setPhase c .idle).observe (.ret c o))
    | _ => none
  | .tick t => if a.clock ≤ t then some ({ a with clock := t }.observe (.tick t)) else none
  | .close =>
    if a.close = .opened then some ({ a with close := .closing }.observe .closing) else none
  | .shut => if a.close = .closing then some { a with close := .sealed } else none
  | .closed ok =>
    if a.close = .sealed then some ({ a with close := .returned }.observe (.closed ok)) else none

variable {a : State Client} {c : Client}

theorem step_call (hp : a.phase c = .idle) (k : Call) :
    a.step (.call c k) = some ((a.setPhase c (.called k)).observe (.call c k)) := by
  simp [step, hp]

theorem step_effect {cmd : Command} (hp : a.phase c = .called (.write cmd)) (hopen : a.Open) :
    a.step (.effect c) = some (a.settle c (.write cmd) (a.store.apply cmd a.clock).2
      (.wrote (outcome (a.store.apply cmd a.clock).1))) := by
  simp only [step, hp]
  rw [if_pos hopen]

theorem step_look {r : Read} (hp : a.phase c = .called (.read r)) :
    a.step (.effect c) =
      some (a.settle c (.read r) a.store (.saw (r.result a.store a.clock))) := by
  simp only [step, hp]

theorem step_fail {cmd : Command} (hp : a.phase c = .called (.write cmd)) (hopen : a.Open) :
    a.step (.fail c) =
      some (a.settle c (.write cmd) a.store (.wrote (.error (.write .file)))) := by
  simp only [step, hp]
  rw [if_pos hopen]

theorem step_refuse {cmd : Command} (hp : a.phase c = .called (.write cmd)) (hclosed : ¬ a.Open) :
    a.step (.refuse c) = some (a.settle c (.write cmd) a.store (.wrote (.error .closed))) := by
  simp only [step, hp]
  rw [if_neg hclosed]

theorem step_swap {cmd : Command} (hp : a.phase c = .called (.write cmd)) (hopen : a.Open)
    (hop : cmd.op = .cas) (hd : live a.clock (a.store.cell cmd.key) = none) :
    a.step (.swap c) = some (a.settle c (.write cmd) (a.store.put cmd.key cmd.value)
      (.wrote (.ok (.bool true)))) := by
  simp only [step, hp]
  rw [if_pos ⟨hopen, hop, hd⟩]

theorem step_ret {o : Out} (hp : a.phase c = .done o) :
    a.step (.ret c) = some ((a.setPhase c .idle).observe (.ret c o)) := by
  simp only [step, hp]

theorem step_tick {t : Int64} (ht : a.clock ≤ t) :
    a.step (.tick t) = some ({ a with clock := t }.observe (.tick t)) := by
  simp only [step, ht, ↓reduceIte]

theorem step_close (hc : a.close = .opened) :
    a.step .close = some ({ a with close := .closing }.observe .closing) := by
  simp only [step, hc, ↓reduceIte]

theorem step_shut (hc : a.close = .closing) : a.step .shut = some { a with close := .sealed } := by
  simp only [step, hc, ↓reduceIte]

theorem step_closed (hc : a.close = .sealed) (ok : Bool) :
    a.step (.closed ok) = some ({ a with close := .returned }.observe (.closed ok)) := by
  simp only [step, hc, ↓reduceIte]

end State

/-- The runs of the atomic store; in a `loose` one a `CAS` may also write after its key has
    expired. -/
abbrev Runs (loose : Bool) (a : State Client) : State Client → Prop :=
  Reach State.step (fun _ b => b.swaps = true → loose = true) a

/-! ## One call after the other -/

/-- What a call does to the store `m` at the clock reading `t`, with its answer. -/
inductive Does (loose : Bool) (m : MemStore) (t : Int64) : Call → Out → MemStore → Prop
  | write (cmd : Command) :
      Does loose m t (.write cmd) (.wrote (outcome (m.apply cmd t).1)) (m.apply cmd t).2
  | read (r : Read) : Does loose m t (.read r) (.saw (r.result m t)) m
  | fail (cmd : Command) : Does loose m t (.write cmd) (.wrote (.error (.write .file))) m
  | refuse (cmd : Command) : Does loose m t (.write cmd) (.wrote (.error .closed)) m
  | swap {cmd : Command} (hloose : loose = true) (hop : cmd.op = .cas)
      (hd : live t (m.cell cmd.key) = none) :
      Does loose m t (.write cmd) (.wrote (.ok (.bool true))) (m.put cmd.key cmd.value)

/-- The calls, one after the other from the store `m₀` on, leave the store `m`. -/
inductive Explains (loose : Bool) (m₀ : MemStore) : List (Taken Client) → MemStore → Prop
  | nil : Explains loose m₀ [] m₀
  | concat {l : List (Taken Client)} {e : Taken Client} {m m' : MemStore}
      (h : Explains loose m₀ l m) (hle : ∀ e' ∈ l, e'.time ≤ e.time)
      (hd : Does loose m e.time e.call e.out m') : Explains loose m₀ (l ++ [e]) m'

omit [DecidableEq Client] in
/-- The last call. -/
theorem Explains.last {loose : Bool} {m₀ m' : MemStore} {l : List (Taken Client)} {e : Taken Client}
    (h : Explains loose m₀ (l ++ [e]) m') :
    ∃ m, Explains loose m₀ l m ∧ (∀ e' ∈ l, e'.time ≤ e.time) ∧
      Does loose m e.time e.call e.out m' := by
  generalize hl : l ++ [e] = l' at h
  cases h with
  | nil => simp at hl
  | concat h hle hd =>
    obtain ⟨rfl, he⟩ := List.append_inj' hl rfl
    obtain rfl := List.singleton_inj.mp he
    exact ⟨_, h, hle, hd⟩

/-! ## What a goroutine sees -/

/-- The calls and returns of `c`. -/
def told (c : Client) (h : List (Event Client)) : List (Call ⊕ Out) :=
  h.filterMap fun
    | .call c' k => if c' = c then some (.inl k) else none
    | .ret c' o => if c' = c then some (.inr o) else none
    | _ => none

/-- How the calls of `c` have ended. -/
def ends (c : Client) (l : List (Taken Client)) : List (Call × Out) :=
  l.filterMap fun e => if e.client = c then some (e.call, e.out) else none

/-- Each call with its return. -/
def answered (l : List (Call × Out)) : List (Call ⊕ Out) :=
  l.flatMap fun p => [.inl p.1, .inr p.2]

/-- What a goroutine has seen whose calls have ended as in `l` and that is now at the phase: each
    call has been answered once, with its own answer, before the next one; only the last call may
    still be without an answer, or its answer without having been returned. -/
def Shows (l : List (Call × Out)) : Phase → List (Call ⊕ Out) → Prop
  | .idle, h => h = answered l
  | .called k, h => h = answered l ++ [.inl k]
  | .done o, h => ∃ l' k, l = l' ++ [(k, o)] ∧ h = answered l' ++ [.inl k]

@[simp] theorem told_append (c : Client) (h h' : List (Event Client)) :
    told c (h ++ h') = told c h ++ told c h' := List.filterMap_append ..

@[simp] theorem ends_append (c : Client) (l l' : List (Taken Client)) :
    ends c (l ++ l') = ends c l ++ ends c l' := List.filterMap_append ..

theorem answered_eq_cons {l : List (Call × Out)} {k : Call} {h : List (Call ⊕ Out)}
    (heq : answered l = .inl k :: h) : ∃ o l', l = (k, o) :: l' ∧ h = .inr o :: answered l' := by
  cases l with
  | nil => cases heq
  | cons p l =>
    obtain ⟨k', o⟩ := p
    simp only [answered, List.flatMap_cons, List.cons_append, List.nil_append, List.cons.injEq,
      Sum.inl.injEq] at heq
    obtain ⟨rfl, rfl⟩ := heq
    exact ⟨o, l, rfl, rfl⟩

/-- Where there are no calls there are no answers. -/
theorem eq_nil_of_answered {l : List (Call × Out)} (h : ∀ k, .inl k ∉ answered l) : l = [] := by
  cases l with
  | nil => rfl
  | cons p l => exact absurd (by simp [answered]) (h p.1)

theorem answered_injective : Function.Injective answered := by
  intro l l' h
  induction l generalizing l' with
  | nil => exact (eq_nil_of_answered (by rw [← h]; simp [answered])).symm
  | cons p l ih =>
    obtain ⟨o, l'', rfl, hrest⟩ := answered_eq_cons (l := l') (k := p.1)
      (h := .inr p.2 :: answered l) (by rw [← h]; rfl)
    obtain ⟨ho, hl⟩ := List.cons.inj hrest
    rw [Sum.inr.inj ho.symm, ih hl]

theorem length_answered (l : List (Call × Out)) : (answered l).length = 2 * l.length := by
  simp [answered, List.length_flatMap, Nat.mul_comm]

/-- A goroutine that has seen each of its calls return. -/
theorem Shows.eq_of_answered {l l' : List (Call × Out)} {p : Phase} (h : Shows l p (answered l')) :
    l = l' := by
  cases p with
  | idle => exact (answered_injective h).symm
  | called k =>
    have hlen := congrArg List.length (show answered l' = answered l ++ [.inl k] from h)
    rw [List.length_append, length_answered, length_answered, List.length_singleton] at hlen
    omega
  | done o =>
    obtain ⟨l₀, k, -, heq⟩ := h
    have hlen := congrArg List.length heq
    rw [List.length_append, length_answered, length_answered, List.length_singleton] at hlen
    omega

/-! ## Along a run -/

/-- What a step can do. -/
inductive Moves (loose : Bool) (a : State Client) : State Client → Prop
  | call {c : Client} (k : Call) (hp : a.phase c = .idle) :
      Moves loose a ((a.setPhase c (.called k)).observe (.call c k))
  | settle {c : Client} {k : Call} {m : MemStore} {o : Out} (hp : a.phase c = .called k)
      (hd : Does loose a.store a.clock k o m) (hclosed : o = .wrote (.error .closed) → ¬ a.Open) :
      Moves loose a (a.settle c k m o)
  | ret {c : Client} {o : Out} (hp : a.phase c = .done o) :
      Moves loose a ((a.setPhase c .idle).observe (.ret c o))
  | tick {t : Int64} (ht : a.clock ≤ t) : Moves loose a ({ a with clock := t }.observe (.tick t))
  | close : Moves loose a ({ a with close := .closing }.observe .closing)
  | shut (hc : a.close ≠ .opened) : Moves loose a { a with close := .sealed }
  | closed (hc : a.close ≠ .opened) (ok : Bool) :
      Moves loose a ({ a with close := .returned }.observe (.closed ok))

theorem outcome_ne_closed (r : Except Err Value) : outcome r ≠ .error .closed := by
  cases r <;> simp [outcome, Except.mapError]

theorem State.step_moves {loose : Bool} {a a' : State Client} {b : Act Client}
    (hb : b.swaps = true → loose = true) (h : a.step b = some a') : Moves loose a a' := by
  cases b with
  | call c k =>
    simp only [State.step] at h
    split at h <;> cases h
    next hp => exact .call k hp
  | effect c =>
    simp only [State.step] at h
    split at h
    · next cmd hp =>
      split_ifs at h with hopen
      cases h
      exact .settle hp (.write cmd) fun ho => absurd (Out.wrote.inj ho) (outcome_ne_closed _)
    · next r hp =>
      cases h
      exact .settle hp (.read r) (by simp)
    · cases h
  | fail c =>
    simp only [State.step] at h
    split at h
    · next cmd hp =>
      split_ifs at h
      cases h
      exact .settle hp (.fail cmd) (by simp)
    · cases h
  | refuse c =>
    simp only [State.step] at h
    split at h
    · next cmd hp =>
      split_ifs at h with hopen
      cases h
      exact .settle hp (.refuse cmd) fun _ => hopen
    · cases h
  | swap c =>
    simp only [State.step] at h
    split at h
    · next cmd hp =>
      split_ifs at h with hswap
      cases h
      exact .settle hp (.swap (hb rfl) hswap.2.1 hswap.2.2) (by simp)
    · cases h
  | ret c =>
    simp only [State.step] at h
    split at h <;> cases h
    next hp => exact .ret hp
  | tick t =>
    simp only [State.step] at h
    split_ifs at h with ht
    cases h
    exact .tick ht
  | close =>
    simp only [State.step] at h
    split_ifs at h
    cases h
    exact .close
  | shut =>
    simp only [State.step] at h
    split_ifs at h with hc
    cases h
    exact .shut (by simp [hc])
  | closed ok =>
    simp only [State.step] at h
    split_ifs at h with hc
    cases h
    exact .closed (by simp [hc]) ok

/-- What holds in a state `a` that is reached from `a₀`. -/
structure Kept (loose : Bool) (a₀ a : State Client) : Prop where
  explains : Explains loose a₀.store a.taken a.store
  past : ∀ e ∈ a.taken, e.time ≤ a.clock
  shows : ∃ ext, a.history = a₀.history ++ ext ∧ ∀ c l h, Shows l (a₀.phase c) h →
    Shows (l ++ ends c a.taken) (a.phase c) (h ++ told c ext)

/-- The phase of one goroutine changes. -/
theorem Kept.shows_update {loose : Bool} {a₀ a a' : State Client} (h : Kept loose a₀ a) {c : Client}
    {p : Phase} {new : List (Taken Client)} {evs : List (Event Client)}
    (hphase : a'.phase = Function.update a.phase c p) (htaken : a'.taken = a.taken ++ new)
    (hhist : a'.history = a.history ++ evs)
    (hself : ∀ l h, Shows l (a.phase c) h → Shows (l ++ ends c new) p (h ++ told c evs))
    (hother : ∀ c', c' ≠ c → ends c' new = [] ∧ told c' evs = []) :
    ∃ ext, a'.history = a₀.history ++ ext ∧ ∀ c l h, Shows l (a₀.phase c) h →
      Shows (l ++ ends c a'.taken) (a'.phase c) (h ++ told c ext) := by
  obtain ⟨ext, hext, hshows⟩ := h.shows
  refine ⟨ext ++ evs, by rw [hhist, hext, List.append_assoc], fun c' l h hs => ?_⟩
  rw [htaken, hphase, ends_append, told_append, ← List.append_assoc, ← List.append_assoc]
  by_cases hc : c' = c
  · subst hc
    rw [Function.update_self]
    exact hself _ _ (hshows c' l h hs)
  · obtain ⟨hends, htold⟩ := hother c' hc
    rw [Function.update_of_ne hc, hends, htold, List.append_nil, List.append_nil]
    exact hshows c' l h hs

/-- Nobody's phase changes. -/
theorem Kept.shows_quiet {loose : Bool} {a₀ a : State Client} (h : Kept loose a₀ a)
    {evs : List (Event Client)} (hevs : ∀ c, told c evs = []) :
    ∃ ext, a.history ++ evs = a₀.history ++ ext ∧ ∀ c l h, Shows l (a₀.phase c) h →
      Shows (l ++ ends c a.taken) (a.phase c) (h ++ told c ext) := by
  obtain ⟨ext, hext, hshows⟩ := h.shows
  refine ⟨ext ++ evs, by rw [hext, List.append_assoc], fun c l h hs => ?_⟩
  rw [told_append, hevs, List.append_nil]
  exact hshows c l h hs

/-- **One step.** -/
theorem Kept.step {loose : Bool} {a₀ a a' : State Client} (h : Kept loose a₀ a)
    (hm : Moves loose a a') : Kept loose a₀ a' := by
  cases hm with
  | @call c k hp =>
    refine ⟨h.explains, h.past,
      h.shows_update rfl (List.append_nil _).symm rfl (fun l h hs => ?_) fun c' hc => ?_⟩
    · rw [hp] at hs
      simp [Shows, ends, told, show h = answered l from hs]
    · simp [ends, told, Ne.symm hc]
  | @settle c k m o hp hd hclosed =>
    refine ⟨.concat h.explains (fun e he => h.past e he) hd, fun e he => ?_,
      h.shows_update rfl rfl (List.append_nil _).symm (fun l h hs => ?_) fun c' hc => ?_⟩
    · rcases List.mem_append.mp he with he | he
      · exact h.past e he
      · rw [List.mem_singleton.mp he]
        exact Int64.le_refl _
    · rw [hp] at hs
      exact ⟨l, k, by simp [ends], by simpa [Shows, told] using hs⟩
    · simp [ends, told, Ne.symm hc]
  | @ret c o hp =>
    refine ⟨h.explains, h.past,
      h.shows_update rfl (List.append_nil _).symm rfl (fun l h hs => ?_) fun c' hc => ?_⟩
    · rw [hp] at hs
      obtain ⟨l', k, rfl, rfl⟩ := hs
      simp [Shows, ends, told, answered]
    · simp [ends, told, Ne.symm hc]
  | tick ht =>
    exact ⟨h.explains, fun e he => Int64.le_trans (h.past e he) ht,
      h.shows_quiet fun c => by simp [told]⟩
  | close => exact ⟨h.explains, h.past, h.shows_quiet fun c => by simp [told]⟩
  | shut hc => exact ⟨h.explains, h.past, h.shows⟩
  | closed hc ok => exact ⟨h.explains, h.past, h.shows_quiet fun c => by simp [told]⟩

/-- **Along every run** each call takes effect once, on the store that the calls before it have
    left, and is answered once, with the answer it had there. -/
theorem Runs.kept {loose : Bool} {a₀ a : State Client} (h : Runs loose a₀ a) (h₀ : a₀.taken = []) :
    Kept loose a₀ a := by
  refine Reach.invariant h ?_ fun hk hb hs => hk.step (State.step_moves hb hs)
  refine ⟨by rw [h₀]; exact .nil, by simp [h₀], [], by simp, fun c l h hs => ?_⟩
  simpa [h₀, ends, told] using hs

/-- `closed` is answered only once `Close` has been called. -/
theorem Runs.closing {loose : Bool} {m : MemStore} {t : Int64} {a : State Client}
    (h : Runs loose (.init m t) a) :
    (a.close ≠ .opened → Event.closing ∈ a.history) ∧
      ∀ e ∈ a.taken, e.out = .wrote (.error .closed) → Event.closing ∈ a.history := by
  refine Reach.invariant (P := fun a : State Client => (a.close ≠ .opened → Event.closing ∈ a.history) ∧
    ∀ e ∈ a.taken, e.out = .wrote (.error .closed) → Event.closing ∈ a.history) h
    ⟨by simp [State.init], by simp [State.init]⟩ ?_
  rintro a a' b ⟨hclose, htaken⟩ hb hs
  have grow : ∀ ev, Event.closing ∈ a.history → Event.closing ∈ a.history ++ [ev] :=
    fun ev hin => List.mem_append_left _ hin
  cases State.step_moves hb hs with
  | call | ret | tick =>
    exact ⟨fun hc => grow _ (hclose hc), fun e he ho => grow _ (htaken e he ho)⟩
  | settle hp hd hclosed =>
    refine ⟨hclose, fun e he ho => ?_⟩
    rcases List.mem_append.mp he with he | he
    · exact htaken e he ho
    · rw [List.mem_singleton.mp he] at ho
      exact hclose fun hopen => hclosed ho (.inl hopen)
  | close => exact ⟨fun _ => by simp [State.observe], fun e he ho => grow _ (htaken e he ho)⟩
  | shut hc => exact ⟨fun _ => hclose hc, htaken⟩
  | closed hc => exact ⟨fun _ => grow _ (hclose hc), fun e he ho => grow _ (htaken e he ho)⟩

end KvStore.Concurrent.Atomic
