import KvStore.Storage.Linearizable

/-!
# Every call is answered once, and `Close` loses no write

The goroutines of a `DiskStore` are matched by a loose run of the `Atomic` store, whatever the
interleaving. What is known of its runs is thereby known of theirs.

* `requests_answered_once`: every call has one return at most, and exactly one when its goroutine
  is idle again; the answer is the one it had when it took effect, or `closed`.
* `store_drains`: the steps that finish begun work come to an end, and then every call that had been
  begun has taken effect and returned. A request that was in the channel or in the hands of the loop
  is not answered `closed`.
-/

namespace KvStore.Concurrent

open KvStore.Storage
open KvStore.Transition (Reach)

variable {Client : Type} [DecidableEq Client] {s s' : Sys Client} {c : Client}

/-- **Every request is answered once**, in every state of every interleaving. Nothing has panicked;
    the goroutines that wait for an answer are exactly those with a request in the channel or in the
    hands of the loop, each with one; a batch has at most `maxBatchSize` requests; and when `Close`
    closes the channel every request has been answered. The calls take effect one after the other,
    which leaves what the memory shows, and every return is the answer that its own call had there;
    that is `closed` only after `Close` has been called. -/
theorem requests_answered_once {d : DiskStore} {t : Int64} (h : Running d t s) :
    (s.panicked = false ∧
      (∀ c req, s.phase c = .waiting req ↔ Job.mk c req ∈ s.jobs) ∧
      (s.jobs.map Job.client).Nodup ∧
      (∀ batch after, s.loop = .write batch after → batch.length ≤ maxBatchSize) ∧
      (s.closed = true → s.jobs = [])) ∧
    ∃ taken m, Atomic.Explains true d.mem taken m ∧ MemStore.SameAt s.clock s.disk.mem m ∧
      (∀ e ∈ taken, e.out = .wrote (.error .closed) → Event.closing ∈ s.history) ∧
      ∀ c, Atomic.Shows (Atomic.ends c taken) (s.view c) (Atomic.told c s.history) := by
  have hc := h.consistent
  refine ⟨⟨hc.shut.calm, hc.queued.waiting, hc.queued.nodup, fun batch after hl => ?_,
    hc.jobs_eq_nil⟩, ?_⟩
  · have hs := hc.shaped
    rw [hl] at hs
    exact hs.2.1
  · obtain ⟨a, ha, hrel⟩ := Related.run true h (by simp) (consistent_init d t)
      (casKept_init d t) (related_init d t)
    have hk := ha.kept rfl
    obtain ⟨ext, hext, hshows⟩ := hk.shows
    refine ⟨a.taken, a.store, hk.explains, hrel.store, ?_, fun c => ?_⟩
    · rw [← hrel.history]
      exact ha.closing.2
    · have hs := hshows c [] [] rfl
      rw [List.nil_append, List.nil_append, show ext = a.history from hext.symm, hrel.history,
        hrel.phase] at hs
      exact hs

/-- The `Put` of `putGetClose` has one return, the answer of the one time it took effect. -/
theorem putGetClose_answered : ∃ (s : Sys Bool) (taken : List (Atomic.Taken Bool)) (m : MemStore),
    Running (.new none) 0 s ∧ s.closed = true ∧ s.jobs = [] ∧
      Atomic.Explains true .new taken m ∧
      Atomic.ends true taken = [(.write putRequest.cmd, .wrote (.ok .none))] ∧
      Atomic.told true s.history = [.inl (.write putRequest.cmd), .inr (.wrote (.ok .none))] := by
  obtain ⟨s, hs, hrun⟩ := Option.map_eq_some_iff.mp
    (show (Transition.run Sys.step (fun _ _ => True) (.init (.new none) 0) putGetClose).map
      (fun s => (s.closed, s.phase true, Atomic.told true s.history)) =
        some (true, .idle, Atomic.answered [(.write putRequest.cmd, .wrote (.ok .none))]) by rfl)
  obtain ⟨hclosed, hrun⟩ := Prod.mk.inj hrun
  obtain ⟨hidle, htold⟩ := Prod.mk.inj hrun
  obtain ⟨⟨-, -, -, -, hempty⟩, taken, m, hexplains, -, -, hshows⟩ :=
    requests_answered_once (.of_run hs)
  have hends := hshows true
  rw [htold] at hends
  exact ⟨s, taken, m, .of_run hs, hclosed, hempty hclosed, hexplains, hends.eq_of_answered, htold⟩

/-! ## Work that has been begun -/

/-- The atomic store that the goroutines look like. -/
def Sys.abstract (s : Sys Client) : Atomic.State Client :=
  { store := s.disk.mem, clock := s.clock, phase := s.view, close := s.closer.view, taken := []
    history := s.history }

theorem related_abstract (s : Sys Client) : Related s s.abstract :=
  ⟨rfl, rfl, .refl _, rfl, fun _ => rfl⟩

/-- How a call ends that has been begun: it takes effect, unless it has before, and returns. -/
def Atomic.Phase.Ends (l : List (Call × Out)) (h : List (Call ⊕ Out)) : Atomic.Phase → Prop
  | .idle => l = [] ∧ h = []
  | .called k => ∃ o, l = [(k, o)] ∧ h = [.inr o]
  | .done o => l = [] ∧ h = [.inr o]

/-- A goroutine that has got home without a new call. -/
theorem Atomic.Phase.ends_of_shows {p : Atomic.Phase} {l : List (Call × Out)}
    {h : List (Call ⊕ Out)} (hcalls : ∀ k, .inl k ∉ h)
    (hshows : ∀ l₀ h₀, Shows l₀ p h₀ → Shows (l₀ ++ l) .idle (h₀ ++ h)) : p.Ends l h := by
  cases p with
  | idle =>
    have heq : h = answered l := hshows [] [] rfl
    obtain rfl := eq_nil_of_answered (by rw [← heq]; exact hcalls)
    exact ⟨rfl, heq⟩
  | called k =>
    have heq : .inl k :: h = answered l := hshows [] [.inl k] rfl
    obtain ⟨o, l', rfl, rfl⟩ := answered_eq_cons heq.symm
    obtain rfl := eq_nil_of_answered fun k hk => hcalls k (List.mem_cons_of_mem _ hk)
    exact ⟨o, rfl, rfl⟩
  | done o =>
    -- the call is not known any more, and any one will do
    have heq : .inl (.read .size) :: h = .inl (.read .size) :: .inr o :: answered l :=
      hshows [(.read .size, o)] [.inl (.read .size)] ⟨[], _, rfl, rfl⟩
    obtain rfl := (List.cons.inj heq).2
    obtain rfl := eq_nil_of_answered fun k hk => hcalls k (List.mem_cons_of_mem _ hk)
    exact ⟨rfl, rfl⟩

/-- The steps of begun work make no calls. -/
theorem Moves.no_calls {b : Act Client} (h : Moves s b s') (hb : b.finishes = true) :
    ∃ evs, s'.history = s.history ++ evs ∧ ∀ c k, Event.call c k ∉ evs := by
  cases h with
  | submit | read | compact | sweep | tick | close => cases hb
  | finish | finishRead | compactLast => exact ⟨_, rfl, by simp⟩
  | _ => exact ⟨[], (List.append_nil _).symm, by simp⟩

/-- What the loop has promised to a goroutine that waits: an answer other than `closed`. `h₀` is
    what the goroutine has seen so far. -/
inductive Promised (c : Client) (h₀ : List (Call ⊕ Out)) (s : Sys Client) : Prop
  | waiting {req : Request} (hp : s.phase c = .waiting req) (hh : Atomic.told c s.history = h₀)
  | answered {o : Outcome} (ho : o ≠ .error .closed) (hp : s.phase c = .answered o)
      (hh : Atomic.told c s.history = h₀)
  | returned {o : Outcome} (ho : o ≠ .error .closed) (hp : s.phase c = .idle)
      (hh : Atomic.told c s.history = h₀ ++ [.inr (.wrote o)])

variable {h₀ : List (Call ⊕ Out)}

theorem Promised.quiet (h : Promised c h₀ s) (hp : s'.phase c = s.phase c)
    (hh : Atomic.told c s'.history = Atomic.told c s.history) : Promised c h₀ s' := by
  cases h with
  | waiting hp' hh' => exact .waiting (hp.trans hp') (hh.trans hh')
  | answered ho hp' hh' => exact .answered ho (hp.trans hp') (hh.trans hh')
  | returned ho hp' hh' => exact .returned ho (hp.trans hp') (hh.trans hh')

/-- A goroutine of a request that has not been sent, or of a read. -/
def Phase.elsewhere : Phase → Bool
  | .entering _ | .entered _ | .reading _ | .reaping _ | .seen _ => true
  | _ => false

theorem Promised.ne (h : Promised c h₀ s) {c' : Client} (hp : (s.phase c').elsewhere = true) :
    c ≠ c' := by
  rintro rfl
  cases h with
  | waiting hp' | answered _ hp' | returned _ hp' => rw [hp'] at hp; cases hp

/-- Another goroutine moves. -/
theorem Promised.other (h : Promised c h₀ s) {c' : Client} {p : Phase} (hne : c ≠ c')
    (hp : s'.phase = Function.update s.phase c' p)
    (hh : Atomic.told c s'.history = Atomic.told c s.history) : Promised c h₀ s' :=
  h.quiet (by rw [hp, Function.update_of_ne hne]) hh

/-- The loop answers a goroutine. -/
theorem Promised.answer (h : Promised c h₀ s) {c' : Client} {o : Outcome} {req : Request}
    (ho : o ≠ .error .closed) (hw : s.phase c' = .waiting req)
    (hp : s'.phase = Function.update s.phase c' (.answered o)) (hh : s'.history = s.history) :
    Promised c h₀ s' := by
  by_cases hc : c = c'
  · subst hc
    cases h with
    | waiting _ hh' =>
      exact .answered ho (by rw [hp, Function.update_self]) (by rw [hh]; exact hh')
    | answered _ hp' | returned _ hp' => cases hw.symm.trans hp'
  · exact h.other hc hp (by rw [hh])

/-- One step of begun work. -/
theorem Moves.promised {b : Act Client} (hm : Moves s b s') (hb : b.finishes = true)
    (hc : Consistent s) (h : Promised c h₀ s) : Promised c h₀ s' := by
  cases hm with
  | submit | read | compact | sweep | tick | close => cases hb
  | refuse hp | enter hp | send hp | look hp | dead hp | reap hp =>
    exact h.other (h.ne (by rw [hp]; rfl)) rfl rfl
  | finishRead hp =>
    have hne := h.ne (by rw [hp]; rfl)
    exact h.other hne rfl (by simp [Sys.observe, Sys.setPhase, Atomic.told, Ne.symm hne])
  | @finish c' o hp =>
    by_cases hcc : c = c'
    · subst hcc
      cases h with
      | waiting hp' | returned _ hp' => cases hp.symm.trans hp'
      | answered ho hp' hh =>
        cases hp.symm.trans hp'
        refine .returned ho (Function.update_self ..) ?_
        rw [← hh]
        simp [Sys.observe, Sys.setPhase, Atomic.told]
    · exact h.other hcc rfl (by simp [Sys.observe, Sys.setPhase, Atomic.told, Ne.symm hcc])
  | @answer _ _ ok _ _ hl hp =>
    exact h.answer (by cases ok <;> simp [Sys.batchOutcome]) hp rfl rfl
  | reply hl hp =>
    have hshaped := hc.shaped
    rw [hl] at hshaped
    exact h.answer hshaped hp rfl rfl
  | compactLast => exact h.quiet rfl (by simp [Sys.observe, Atomic.told])
  | _ => exact h.quiet rfl rfl

/-! ## Draining -/

/-- Only steps that finish begun work. -/
abbrev Drains : Sys Client → Sys Client → Prop := Reach Sys.step fun _ b => b.finishes = true

/-- A run of begun work makes no calls. -/
theorem Drains.no_calls (h : Drains s s') :
    ∃ evs, s'.history = s.history ++ evs ∧ ∀ c k, Event.call c k ∉ evs := by
  refine h.invariant (P := fun s' => ∃ evs, s'.history = s.history ++ evs ∧ ∀ c k, Event.call c k ∉ evs)
    ⟨[], (List.append_nil _).symm, by simp⟩ ?_
  rintro s₁ s₂ b ⟨evs, hevs, hno⟩ hb hs
  obtain ⟨evs', hevs', hno'⟩ := (Sys.step_moves hs).no_calls hb
  refine ⟨evs ++ evs', by rw [hevs', hevs, List.append_assoc], fun c k hin => ?_⟩
  exact (List.mem_append.mp hin).elim (hno c k) (hno' c k)

theorem Atomic.told_of_no_calls {evs : List (Event Client)} (h : ∀ c k, Event.call c k ∉ evs)
    (c : Client) (k : Call) : .inl k ∉ told c evs := by
  intro hk
  obtain ⟨ev, hev, heq⟩ := List.mem_filterMap.mp hk
  cases ev with
  | call c' k' => exact h c' k' hev
  | ret c' o => simp at heq
  | _ => cases heq

/-- A request that was in the channel or in the hands of the loop has been answered, and not by
    `closed`. -/
theorem Drains.answered (h : Drains s s') (hc : Consistent s) {job : Job Client} (hjob : job ∈ s.jobs)
    (hidle : s'.phase job.client = .idle) :
    ∃ o, o ≠ .error .closed ∧ Atomic.told job.client s'.history =
      Atomic.told job.client s.history ++ [.inr (.wrote o)] := by
  obtain ⟨-, hpromised⟩ := h.invariant
    (P := fun s' => Consistent s' ∧ Promised job.client (Atomic.told job.client s.history) s')
    ⟨hc, .waiting ((hc.queued.waiting job.client job.req).mpr hjob) rfl⟩
    fun hP hb hs => ⟨hP.1.step hs, (Sys.step_moves hs).promised hb hP.1 hP.2⟩
  cases hpromised with
  | waiting hp | answered _ hp => cases hidle.symm.trans hp
  | returned ho _ hh => exact ⟨_, ho, hh⟩

/-- **The store drains, and nothing is lost**: from any state, the steps that finish begun work come
    to an end after at most `cost` of them, whatever their order. Where none is left every call has
    returned and `Close`, if it was called, has returned too; each call that had been begun has
    taken effect exactly once, one after the other on what the memory showed, and has returned with
    the answer it had there. A request that was in the channel or in the hands of the loop is not
    answered `closed`. -/
theorem store_drains [Fintype Client] {d : DiskStore} {t : Int64} (h : Running d t s)
    {acts : List (Act Client)}
    (hrun : Transition.run Sys.step (fun _ a => a.finishes = true) s acts = some s') :
    acts.length ≤ s.cost ∧
      ((∀ a : Act Client, a.finishes = true → s'.step a = none) →
        (∀ c, s'.phase c = .idle) ∧ (s'.closer = .running ∨ s'.closer = .done) ∧
        ∃ taken ext m, s'.history = s.history ++ ext ∧
          Atomic.Explains true s.disk.mem taken m ∧ MemStore.SameAt s'.clock s'.disk.mem m ∧
          (∀ c, (s.view c).Ends (Atomic.ends c taken) (Atomic.told c ext)) ∧
          ∀ job ∈ s.jobs, ∀ o, .inr (.wrote o) ∈ Atomic.told job.client ext →
            o ≠ .error .closed) := by
  have hc := h.consistent
  obtain ⟨hc', hle⟩ := Transition.run_length_le hc
    (fun hc ha hs => ⟨hc.step hs, (Sys.step_moves hs).cost_lt hc ha⟩) hrun
  refine ⟨by omega, fun hstuck => ?_⟩
  obtain ⟨hidle, hcloser⟩ := hc'.at_rest hstuck
  have hdrains : Drains s s' := .of_run hrun
  obtain ⟨a, ha, hrel⟩ := Related.run true hdrains (by simp) hc h.casKept (related_abstract s)
  have hk := ha.kept rfl
  obtain ⟨ext, hext, hshows⟩ := hk.shows
  have hhist : s'.history = s.history ++ ext := hrel.history.symm.trans hext
  refine ⟨hidle, hcloser, a.taken, ext, a.store, hhist, hk.explains, hrel.store, fun c => ?_,
    fun job hjob o ho => ?_⟩
  · obtain ⟨evs, hevs, hcalls⟩ := hdrains.no_calls
    rw [hhist] at hevs
    obtain rfl := List.append_cancel_left hevs
    have hhome : a.phase c = .idle := by rw [hrel.phase, Sys.view, hidle]
    exact Atomic.Phase.ends_of_shows (Atomic.told_of_no_calls hcalls c)
      fun l₀ h₀ hs => hhome ▸ hshows c l₀ h₀ hs
  · obtain ⟨o', ho', htold⟩ := hdrains.answered hc hjob (hidle job.client)
    rw [hhist, Atomic.told_append] at htold
    rw [List.append_cancel_left htold, List.mem_singleton] at ho
    cases ho
    exact ho'

/-- Where everybody is idle and `Close` has returned, no step of begun work is possible. -/
theorem stuck_of_done (hidle : ∀ c, s.phase c = .idle) (hl : s.loop = .done)
    (hcl : s.closer = .done) (a : Act Client) (ha : a.finishes = true) : s.step a = none := by
  cases a with
  | submit | read | compact | sweep | tick | close => cases ha
  | enter c => simp [Sys.step, Sys.enter, hidle]
  | send c => simp [Sys.step, Sys.send, hidle]
  | look c => simp [Sys.step, Sys.look, hidle]
  | reap c => simp [Sys.step, Sys.reap, hidle]
  | finish c => simp [Sys.step, Sys.finish, hidle]
  | receive => simp [Sys.step, Sys.receive, hl]
  | timer => simp [Sys.step, Sys.timer, hl]
  | write attempts synced => simp [Sys.step, Sys.write, hl]
  | begin cut synced => simp [Sys.step, Sys.begin, hl]
  | log cut synced => simp [Sys.step, Sys.log, hl]
  | execute => simp [Sys.step, Sys.execute, hl]
  | answer => simp [Sys.step, Sys.answer, hl]
  | stopSnapshots => simp [Sys.step, hcl]
  | stopSweeps => simp [Sys.step, hcl]
  | lock => simp [Sys.step, Sys.lock, hcl]
  | drained => simp [Sys.step, hcl]
  | compactLast fault closedFile => simp [Sys.step, Sys.compactLast, hcl]

/-- After its three calls `putGetClose` only finishes what has been begun, and comes to rest. -/
theorem putGetClose_drains : ∃ (s s' : Sys Bool) (taken : List (Atomic.Taken Bool)) (m : MemStore)
    (o : Out), Running (.new none) 0 s ∧ Job.mk true putRequest ∈ s.jobs ∧
      Reach Sys.step (fun _ a => a.finishes = true) s s' ∧ 17 ≤ s.cost ∧
      (∀ c, s'.phase c = .idle) ∧ s'.closer = .done ∧
      Atomic.Explains true s.disk.mem taken m ∧ MemStore.SameAt s'.clock s'.disk.mem m ∧
      Atomic.ends true taken = [(.write putRequest.cmd, o)] ∧ o ≠ .wrote (.error .closed) ∧
      s'.disk.mem.cell [107] = some { value := [118] } := by
  obtain ⟨s, s', hs, hs', hwaits, hview, hidle, hl, hcl, hcell⟩ : ∃ s s' : Sys Bool,
      Transition.run Sys.step (fun _ _ => True) (.init (.new none) 0) (putGetClose.take 5) =
        some s ∧
      Transition.run Sys.step (fun _ a => a.finishes = true) s (putGetClose.drop 5) = some s' ∧
      s.phase true = .waiting putRequest ∧ s.view true = .called (.write putRequest.cmd) ∧
      (∀ c, s'.phase c = .idle) ∧ s'.loop = .done ∧ s'.closer = .done ∧
      s'.disk.mem.cell [107] = some { value := [118] } :=
    ⟨_, _, rfl, rfl, rfl, rfl, fun c => by cases c <;> rfl, rfl, rfl, rfl⟩
  have hrunning : Running (.new none) 0 s := .of_run hs
  have hjob : Job.mk true putRequest ∈ s.jobs := (hrunning.consistent.queued.waiting _ _).mp hwaits
  obtain ⟨hlen, hrest⟩ := store_drains hrunning hs'
  obtain ⟨-, -, taken, ext, m, -, hexplains, hmem, hends, hpromised⟩ :=
    hrest (stuck_of_done hidle hl hcl)
  have hput := hends true
  rw [hview] at hput
  obtain ⟨o, htaken, htold⟩ := hput
  refine ⟨s, s', taken, m, o, hrunning, hjob, .of_run hs', hlen, hidle, hcl, hexplains, hmem, htaken,
    fun ho => ?_, hcell⟩
  refine hpromised _ hjob (.error .closed) ?_ rfl
  rw [htold, ho]
  exact List.mem_singleton.mpr rfl

end KvStore.Concurrent
