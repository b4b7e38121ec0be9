import KvStore.Consensus.Replication

/-!
# Safety of replicated logs

`View.Sound` is the invariant of abstract log replication; `Sound.step` shows that
every `Step` preserves it. Its core are three facts about what may still be
chosen in a term `T` (`Choosable`): every later leader was elected with it
(`complete`), every node that acknowledged it still holds it (`retained`), and
every candidate that got the vote of such a node was up to date with it
(`fresh`).

From them: two committed lists are comparable (`Committed.compatible`), and a
leader holds everything committed in a term up to its own (`Committed.le_reign`).
-/

namespace KvStore.Consensus

variable {Id E Term : Type} [LinearOrder Term]

namespace View

/-- The invariant of abstract log replication. -/
structure Sound (S : Setting Id E Term) (s : View Id E Term) : Prop where
  base : ∀ T r, s.reign T = some r → S.bot ≤ T
  init_le : ∀ T r, s.reign T = some r → r.init <+: r.log
  init_lt : ∀ T r, s.reign T = some r → ∀ e ∈ r.init, S.stamp e < T
  own : ∀ T r, s.reign T = some r → ∀ j e, r.init.length ≤ j → r.log[j]? = some e → S.stamp e = T
  proper : ∀ p, s.Proper S (s.log p)
  proper_reign : ∀ T r, s.reign T = some r → s.Proper S r.log
  log_le : ∀ p, ∀ e ∈ s.log p, S.stamp e ≤ s.term p
  acked : ∀ p T, s.acked p T ≠ 0 →
    T ≤ s.term p ∧ ∃ r, s.reign T = some r ∧ s.acked p T ≤ r.log.length
  voted : ∀ q T t k, s.vote q T t k → T ≤ s.term q
  elected : ∀ T r, s.reign T = some r → ∃ Q, S.IsQuorum Q ∧ ∀ q ∈ Q, T ≤ s.term q
  complete : ∀ T r T' r' i, s.reign T = some r → s.reign T' = some r' → T < T' →
    r.init.length < i → i ≤ r.log.length → s.Choosable S T i → r.log.take i <+: r'.init
  retained : ∀ T r p i, s.reign T = some r → r.init.length < i → i ≤ s.acked p T →
    s.Choosable S T i → r.log.take i <+: s.log p
  fresh : ∀ q T' t k T r i, s.vote q T' t k → T < T' → s.reign T = some r →
    r.init.length < i → i ≤ s.acked q T → s.Choosable S T i → T < t ∨ (T = t ∧ i ≤ k)

variable {S : Setting Id E Term} {s s' : View Id E Term} {x : Id}

/-! ## Consequences of the invariant -/

omit [LinearOrder Term] in
/-- A non-empty matching log is part of the log of its last term's leader. -/
theorem Proper.le_last_reign {l : List E} (hl : s.Proper S l) (hne : l ≠ []) :
    ∃ r, s.reign (S.lastTerm l) = some r ∧ r.init.length < l.length ∧ l <+: r.log := by
  have hpos := List.length_pos_of_ne_nil hne
  have hlast : l[l.length - 1]? = some (l.getLast hne) := by
    rw [← List.getLast?_eq_getElem?, List.getLast?_eq_getLast_of_ne_nil hne]
  obtain ⟨r, hr, hi, hle⟩ := hl _ _ hlast
  rw [show l.length - 1 + 1 = l.length by omega, List.take_length] at hle
  refine ⟨r, ?_, by omega, hle⟩
  rwa [Setting.lastTerm, List.getLast?_eq_getLast_of_ne_nil hne]

namespace Sound

theorem stamp_le (h : s.Sound S) {T : Term} {r : Reign Id E} (hr : s.reign T = some r) :
    ∀ e ∈ r.log, S.stamp e ≤ T := by
  intro e he
  obtain ⟨j, hj⟩ := List.mem_iff_getElem?.mp he
  rcases Nat.lt_or_ge j r.init.length with hlt | hge
  · have hin : r.init[j]? = some e := by
      have hget := List.prefix_iff_getElem?.mp (h.init_le T r hr) j hlt
      rw [hj] at hget
      rw [List.getElem?_eq_getElem hlt, hget]
    exact (h.init_lt T r hr e (List.mem_of_getElem? hin)).le
  · exact (h.own T r hr j e hge hj).le

theorem acked_le (h : s.Sound S) {T : Term} {r : Reign Id E} (hr : s.reign T = some r) (p : Id) :
    s.acked p T ≤ r.log.length := by
  by_cases h0 : s.acked p T = 0
  · omega
  · obtain ⟨_, r', hr', hle⟩ := h.acked p T h0
    rw [hr] at hr'
    cases hr'
    exact hle

/-- The last term bounds every entry of a matching log. -/
theorem stamp_le_lastTerm (h : s.Sound S) {l : List E} (hl : s.Proper S l) {e : E} (he : e ∈ l) :
    S.stamp e ≤ S.lastTerm l := by
  have hne : l ≠ [] := List.ne_nil_of_mem he
  have hlast : l[l.length - 1]? = some (l.getLast hne) := by
    rw [← List.getLast?_eq_getElem?, List.getLast?_eq_getLast_of_ne_nil hne]
  obtain ⟨r, hr, _, hle⟩ := hl _ _ hlast
  have hpos := List.length_pos_of_ne_nil hne
  rw [show l.length - 1 + 1 = l.length by omega, List.take_length] at hle
  have := h.stamp_le hr e (hle.subset he)
  rwa [Setting.lastTerm, List.getLast?_eq_getLast_of_ne_nil hne]

/-- Entry number `i` of a reign, counted from its own entries on, carries its term. -/
theorem own_entry (h : s.Sound S) {T : Term} {r : Reign Id E} (hr : s.reign T = some r) {i : ℕ}
    (hi : r.init.length < i) (hil : i ≤ r.log.length) :
    ∃ e, (r.log.take i)[i - 1]? = some e ∧ S.stamp e = T := by
  have hlt : i - 1 < r.log.length := by omega
  refine ⟨r.log[i - 1], ?_, ?_⟩
  · rw [List.getElem?_take_of_lt (by omega), List.getElem?_eq_getElem hlt]
  · exact h.own T r hr (i - 1) _ (by omega) (List.getElem?_eq_getElem hlt)

/-- A matching log that holds a chosen entry is at least as up to date as that entry. -/
theorem upToDate_of_holds (h : s.Sound S) {l : List E} (hl : s.Proper S l) {T : Term}
    {r : Reign Id E} (hr : s.reign T = some r) {i : ℕ} (hi : r.init.length < i)
    (hil : i ≤ r.log.length) (hle : r.log.take i <+: l) : T ≤ S.lastTerm l ∧ i ≤ l.length := by
  obtain ⟨e, he, hT⟩ := h.own_entry hr hi hil
  refine ⟨?_, ?_⟩
  · rw [← hT]
    exact h.stamp_le_lastTerm hl (List.mem_of_getElem? (getElem?_of_le hle he))
  · have := hle.length_le
    rw [List.length_take] at this
    omega

end Sound

/-- The leader of a term holds everything committed up to that term. -/
theorem Committed.le_reign (h : s.Sound S) {T : Term} {l : List E} (hc : s.Committed S T l)
    {r : Reign Id E} (hr : s.reign T = some r) : l <+: r.log := by
  rcases hc with rfl | ⟨T₀, r₀, i, hT, hr₀, hi, hil, hch, hl⟩
  · exact List.nil_prefix
  · rcases lt_or_eq_of_le hT with hlt | rfl
    · exact (hl.trans (h.complete _ _ _ _ i hr₀ hr hlt hi hil hch.choosable)).trans
        (h.init_le T r hr)
    · rw [hr₀] at hr
      cases hr
      exact hl.trans ( List.take_prefix i r.log)

/-- What is chosen in two terms lies in one common log. -/
theorem chosen_common (h : s.Sound S) {T T' : Term} {r r' : Reign Id E} {i i' : ℕ}
    (hr : s.reign T = some r) (hr' : s.reign T' = some r') (hi : r.init.length < i)
    (hil : i ≤ r.log.length) (hi' : r'.init.length < i') (hil' : i' ≤ r'.log.length)
    (hc : s.Choosable S T i) (hc' : s.Choosable S T' i') :
    ∃ l, r.log.take i <+: l ∧ r'.log.take i' <+: l := by
  rcases lt_trichotomy T T' with hlt | rfl | hlt
  · refine ⟨r'.log, ?_, List.take_prefix i' r'.log⟩
    exact (h.complete _ _ _ _ i hr hr' hlt hi hil hc).trans (h.init_le _ _ hr')
  · rw [hr] at hr'
    cases hr'
    exact ⟨r.log, List.take_prefix i r.log, List.take_prefix i' r.log⟩
  · refine ⟨r.log, List.take_prefix i r.log, ?_⟩
    exact (h.complete _ _ _ _ i' hr' hr hlt hi' hil' hc').trans (h.init_le _ _ hr)

/-- Two committed lists lie in one common log. -/
theorem Committed.common (h : s.Sound S) {T T' : Term} {l l' : List E} (hc : s.Committed S T l)
    (hc' : s.Committed S T' l') : ∃ m, l <+: m ∧ l' <+: m := by
  rcases hc with rfl | ⟨T₀, r, i, _, hr, hi, hil, hch, hl⟩
  · exact ⟨l', List.nil_prefix, List.prefix_rfl⟩
  · rcases hc' with rfl | ⟨T₀', r', i', _, hr', hi', hil', hch', hl'⟩
    · exact ⟨l, List.prefix_rfl, List.nil_prefix⟩
    · obtain ⟨m, h1, h2⟩ :=
        chosen_common h hr hr' hi hil hi' hil' hch.choosable hch'.choosable
      exact ⟨m, hl.trans h1, hl'.trans h2⟩

/-- Of two committed lists the shorter is the beginning of the longer. -/
theorem Committed.le_of_length_le (h : s.Sound S) {T T' : Term} {l l' : List E}
    (hc : s.Committed S T l) (hc' : s.Committed S T' l') (hlen : l.length ≤ l'.length) :
    l <+: l' := by
  obtain ⟨m, h1, h2⟩ := hc.common h hc'
  exact List.prefix_of_prefix_length_le h1 h2 hlen

omit [LinearOrder Term] in
/-- Nodes hold one entry at an index of a term: up to it, matching logs are equal. -/
theorem Proper.take_eq {l l' : List E} (hl : s.Proper S l) (hl' : s.Proper S l') {j : ℕ} {e e' : E}
    (he : l[j]? = some e) (he' : l'[j]? = some e') (ht : S.stamp e = S.stamp e') :
    l.take (j + 1) = l'.take (j + 1) := by
  obtain ⟨r, hr, _, hle⟩ := hl j e he
  obtain ⟨r', hr', _, hle'⟩ := hl' j e' he'
  rw [← ht, hr] at hr'
  cases hr'
  have hj := (List.getElem?_eq_some_iff.mp he).1
  have hj' := (List.getElem?_eq_some_iff.mp he').1
  refine (List.prefix_of_prefix_length_le hle hle' ?_).eq_of_length ?_ <;>
    simp only [List.length_take] <;> omega

/-! ## Every step grows the view -/

section Steps

variable [DecidableEq Id]

theorem grows_raise {t : Term} (h : s.term x ≤ t) : Grows x s (s.raise x t) where
  __ := Grows.refl x s
  term_le := by
    intro p
    by_cases hp : p = x
    · subst hp; simpa [raise] using h
    · simp [raise, hp]
  term_ne := fun p hp => by simp [raise, hp]

omit [DecidableEq Id] in
theorem grows_cast (t : Term) (k : ℕ) : Grows x s (s.cast x t k) where
  __ := Grows.refl x s
  vote := fun _ _ _ _ h => .inl h

omit [DecidableEq Id] in
theorem grows_elect (hn : s.reign (s.term x) = none) : Grows x s (s.elect x) where
  __ := Grows.refl x s
  reign := by
    intro T r hr
    have hT : T ≠ s.term x := by rintro rfl; rw [hn] at hr; cases hr
    exact ⟨r, by simpa [elect, hT] using hr, rfl, rfl, List.prefix_rfl, fun _ => rfl⟩

theorem grows_append {T : Term} {r : Reign Id E} {e : E} (hr : s.reign T = some r)
    (hw : r.who = x) : Grows x s (s.append T r e) where
  __ := Grows.refl x s
  log_ne := fun p hp => by simp [append, hw, hp]
  reign := by
    intro T' r' hr'
    by_cases hT : T' = T
    · subst hT
      rw [hr] at hr'
      cases hr'
      exact ⟨{ r with log := r.log ++ [e] }, by simp [append], rfl, rfl,
        List.prefix_append _ _, fun hx => absurd hw hx⟩
    · exact ⟨r', by simpa [append, hT] using hr', rfl, rfl, List.prefix_rfl, fun _ => rfl⟩

theorem grows_write (l : List E) : Grows x s (s.write x l) where
  __ := Grows.refl x s
  log_ne := fun p hp => by simp [write, hp]

theorem grows_ack (i : ℕ) : Grows x s (s.ack x i) where
  __ := Grows.refl x s
  acked_le := by
    intro p T
    unfold ack
    dsimp only
    split_ifs
    · exact le_max_left _ _
    · exact le_rfl
  acked_new := by
    intro p T j hj
    unfold ack at hj
    dsimp only at hj
    split_ifs at hj with hpT
    · exact .inr (by rw [hpT.1, hpT.2])
    · exact .inl hj

theorem Step.grows (h : Step S s x s') : Grows x s s' := by
  cases h with
  | raise t ht => exact grows_raise ht
  | cast t k _ => exact grows_cast t k
  | elect Q _ _ _ hn => exact grows_elect hn
  | append r e hr hw _ _ => exact grows_append hr hw
  | accept r k _ _ _ _ => exact grows_write _
  | ack r i _ _ _ => exact grows_ack i
  | install l _ _ => exact grows_write l

/-! ## Every step preserves soundness -/

namespace Sound

theorem raise (h : s.Sound S) {t : Term} (ht : s.term x ≤ t) : (s.raise x t).Sound S := by
  have hg := grows_raise ht
  exact
    { base := h.base, init_le := h.init_le, init_lt := h.init_lt, own := h.own
      proper := h.proper, proper_reign := h.proper_reign
      log_le := fun p e he => (h.log_le p e he).trans (hg.term_le p)
      acked := fun p T ha => ⟨(h.acked p T ha).1.trans (hg.term_le p), (h.acked p T ha).2⟩
      voted := fun q T t k hv => (h.voted q T t k hv).trans (hg.term_le q)
      elected := by
        intro T r hr
        obtain ⟨Q, hQ, hq⟩ := h.elected T r hr
        exact ⟨Q, hQ, fun q hqQ => (hq q hqQ).trans (hg.term_le q)⟩
      complete := fun T r T' r' i hr hr' hT hi hil hc =>
        h.complete T r T' r' i hr hr' hT hi hil (hg.choosable hc)
      retained := fun T r p i hr hi ha hc => h.retained T r p i hr hi ha (hg.choosable hc)
      fresh := fun q T' t k T r i hv hT hr hi ha hc =>
        h.fresh q T' t k T r i hv hT hr hi ha (hg.choosable hc) }

omit [DecidableEq Id] in
theorem cast (h : s.Sound S) {t : Term} {k : ℕ} (hu : UpToDate S (s.log x) t k) :
    (s.cast x t k).Sound S := by
  have hg : Grows x s (s.cast x t k) := grows_cast t k
  exact
    { base := h.base, init_le := h.init_le, init_lt := h.init_lt, own := h.own
      proper := h.proper, proper_reign := h.proper_reign, log_le := h.log_le
      acked := h.acked, elected := h.elected
      voted := by
        rintro q T t' k' (hv | ⟨rfl, rfl, rfl, rfl⟩)
        · exact h.voted q T t' k' hv
        · exact le_rfl
      complete := fun T r T' r' i hr hr' hT hi hil hc =>
        h.complete T r T' r' i hr hr' hT hi hil (hg.choosable hc)
      retained := fun T r p i hr hi ha hc => h.retained T r p i hr hi ha (hg.choosable hc)
      fresh := by
        rintro q T' t' k' T r i (hv | ⟨rfl, rfl, rfl, rfl⟩) hT hr hi ha hc
        · exact h.fresh q T' t' k' T r i hv hT hr hi ha (hg.choosable hc)
        · -- the voter still holds what it acknowledged, so its last term is at least `T`
          have hil := (show i ≤ s.acked q T from ha).trans (h.acked_le hr q)
          have hhold := h.retained T r q i hr hi ha (hg.choosable hc)
          obtain ⟨h1, h2⟩ := h.upToDate_of_holds (h.proper q) hr hi hil hhold
          rcases hu with hlt | ⟨heq, hle⟩
          · exact .inl (lt_of_le_of_lt h1 hlt)
          · rcases lt_or_eq_of_le h1 with hlt | heq'
            · exact .inl (heq ▸ hlt)
            · exact .inr ⟨heq'.trans heq, h2.trans hle⟩ }

theorem ack (h : s.Sound S) {r : Reign Id E} {i : ℕ} (hr : s.reign (s.term x) = some r)
    (hi : i ≤ r.log.length) (hp : r.log.take i <+: s.log x) : (s.ack x i).Sound S := by
  have hg : Grows x s (s.ack x i) := grows_ack i
  exact
    { base := h.base, init_le := h.init_le, init_lt := h.init_lt, own := h.own
      proper := h.proper, proper_reign := h.proper_reign, log_le := h.log_le
      voted := h.voted, elected := h.elected
      acked := by
        intro p T ha
        unfold View.ack at ha ⊢
        dsimp only at ha ⊢
        split_ifs at ha ⊢ with hpT
        · obtain ⟨rfl, rfl⟩ := hpT
          exact ⟨le_rfl, r, hr, max_le (h.acked_le hr p) hi⟩
        · exact h.acked p T ha
      complete := fun T r T' r' i hr hr' hT hi hil hc =>
        h.complete T r T' r' i hr hr' hT hi hil (hg.choosable hc)
      retained := by
        intro T r' p j hr' hj ha hc
        unfold View.ack at ha
        dsimp only at ha
        split_ifs at ha with hpT
        · obtain ⟨rfl, rfl⟩ := hpT
          rcases le_max_iff.mp ha with ha | ha
          · exact h.retained _ r' p j hr' hj ha (hg.choosable hc)
          · have hrr : s.reign (s.term p) = some r' := hr'
            rw [hr] at hrr
            cases hrr
            exact (List.take_prefix_take_left ha).trans hp
        · exact h.retained T r' p j hr' hj ha (hg.choosable hc)
      fresh := by
        intro q T' t k T r' j hv hT hr' hj ha hc
        unfold View.ack at ha
        dsimp only at ha
        split_ifs at ha with hpT
        · -- a voter of a later term has left `T`
          obtain ⟨rfl, rfl⟩ := hpT
          exact absurd (h.voted q T' t k hv) (not_le.mpr hT)
        · exact h.fresh q T' t k T r' j hv hT hr' hj ha (hg.choosable hc) }

omit [DecidableEq Id] in
/-- A candidate with a quorum of votes holds what may still be chosen in lower terms. -/
theorem complete_candidate (h : s.Sound S) {Q : Set Id} (hQ : S.IsQuorum Q)
    (hv : ∀ q ∈ Q, s.vote q (s.term x) (S.lastTerm (s.log x)) (s.log x).length)
    {T : Term} {r : Reign Id E} {i : ℕ} (hr : s.reign T = some r) (hT : T < s.term x)
    (hi : r.init.length < i) (hil : i ≤ r.log.length) (hc : s.Choosable S T i) :
    r.log.take i <+: s.log x := by
  obtain ⟨Q', hQ', hq'⟩ := hc
  obtain ⟨q, hqQ, hqQ'⟩ := S.inter Q Q' hQ hQ'
  have hvote := hv q hqQ
  have hack : i ≤ s.acked q T := by
    rcases hq' q hqQ' with ha | ht
    · exact ha
    · exact absurd ((h.voted _ _ _ _ hvote).trans ht) (not_le.mpr hT)
  have hlen : (r.log.take i).length = i := by rw [List.length_take]; omega
  rcases h.fresh _ _ _ _ T r i hvote hT hr hi hack ⟨Q', hQ', hq'⟩ with hlt | ⟨heq, hle⟩
  · -- the last entry of the candidate was created by a leader between `T` and its own term
    have hne : s.log x ≠ [] := by
      intro hnil
      rw [hnil] at hlt
      exact absurd (h.base T r hr) (not_le.mpr hlt)
    obtain ⟨r₁, hr₁, hi₁, hle₁⟩ := (h.proper x).le_last_reign hne
    have h1 := h.complete T r _ r₁ i hr hr₁ hlt hi hil ⟨Q', hQ', hq'⟩
    exact h1.trans (List.prefix_of_prefix_length_le (h.init_le _ _ hr₁) hle₁ hi₁.le)
  · -- the candidate's log ends inside the log of the leader of `T`
    have hne : s.log x ≠ [] := by
      intro hnil
      rw [hnil] at hle
      simp at hle
      omega
    obtain ⟨r₁, hr₁, _, hle₁⟩ := (h.proper x).le_last_reign hne
    rw [← heq, hr] at hr₁
    cases hr₁
    exact List.prefix_of_prefix_length_le ( List.take_prefix i r.log) hle₁ (hlen.trans_le hle)

omit [DecidableEq Id] in
theorem elect (h : s.Sound S) {Q : Set Id} (hQ : S.IsQuorum Q) (hb : S.bot ≤ s.term x)
    (hv : ∀ q ∈ Q, s.vote q (s.term x) (S.lastTerm (s.log x)) (s.log x).length)
    (hn : s.reign (s.term x) = none) : (s.elect x).Sound S := by
  have hg : Grows x s (s.elect x) := grows_elect hn
  -- a reign afterwards is an old one or the new one
  have hreign : ∀ T r, (s.elect x).reign T = some r →
      (T ≠ s.term x ∧ s.reign T = some r) ∨ (T = s.term x ∧ r = ⟨x, s.log x, s.log x⟩) := by
    intro T r hr
    by_cases hT : T = s.term x
    · subst hT
      refine .inr ⟨rfl, ?_⟩
      simpa [View.elect] using hr.symm
    · exact .inl ⟨hT, by simpa [View.elect, hT] using hr⟩
  have hnew : ∀ p, s.acked p (s.term x) = 0 := by
    intro p
    by_contra hne
    obtain ⟨_, r, hr, _⟩ := h.acked p _ hne
    rw [hn] at hr
    cases hr
  exact
    { proper := fun p => hg.proper (h.proper p), log_le := h.log_le, voted := h.voted
      base := by
        intro T r hr
        rcases hreign T r hr with ⟨_, hr⟩ | ⟨rfl, rfl⟩
        · exact h.base T r hr
        · exact hb
      init_le := by
        intro T r hr
        rcases hreign T r hr with ⟨_, hr⟩ | ⟨rfl, rfl⟩
        · exact h.init_le T r hr
        · exact List.prefix_rfl
      init_lt := by
        intro T r hr e he
        rcases hreign T r hr with ⟨_, hr⟩ | ⟨rfl, rfl⟩
        · exact h.init_lt T r hr e he
        · refine lt_of_le_of_ne (h.log_le x e he) fun heq => ?_
          obtain ⟨j, hj⟩ := List.mem_iff_getElem?.mp he
          obtain ⟨r, hr, _⟩ := h.proper x j e hj
          rw [heq, hn] at hr
          cases hr
      own := by
        intro T r hr j e hj he
        rcases hreign T r hr with ⟨_, hr⟩ | ⟨rfl, rfl⟩
        · exact h.own T r hr j e hj he
        · have := (List.getElem?_eq_some_iff.mp he).1
          dsimp only at hj this
          omega
      proper_reign := by
        intro T r hr
        rcases hreign T r hr with ⟨_, hr⟩ | ⟨rfl, rfl⟩
        · exact hg.proper (h.proper_reign T r hr)
        · exact hg.proper (h.proper x)
      acked := by
        intro p T ha
        obtain ⟨hT, r, hr, hle⟩ := h.acked p T ha
        obtain ⟨r', hr', _, _, hl', _⟩ := hg.reign T r hr
        exact ⟨hT, r', hr', hle.trans hl'.length_le⟩
      elected := by
        intro T r hr
        rcases hreign T r hr with ⟨_, hr⟩ | ⟨rfl, rfl⟩
        · exact h.elected T r hr
        · exact ⟨Q, hQ, fun q hq => h.voted _ _ _ _ (hv q hq)⟩
      complete := by
        intro T r T' r' i hr hr' hT hi hil hc
        rcases hreign T r hr with ⟨_, hr⟩ | ⟨rfl, rfl⟩
        · rcases hreign T' r' hr' with ⟨_, hr'⟩ | ⟨rfl, rfl⟩
          · exact h.complete T r T' r' i hr hr' hT hi hil (hg.choosable hc)
          · exact h.complete_candidate hQ hv hr hT hi hil (hg.choosable hc)
        · dsimp only at hi hil
          omega
      retained := by
        intro T r p i hr hi ha hc
        rcases hreign T r hr with ⟨_, hr⟩ | ⟨rfl, rfl⟩
        · exact h.retained T r p i hr hi ha (hg.choosable hc)
        · have ha' : i ≤ s.acked p (s.term x) := ha
          rw [hnew p] at ha'
          omega
      fresh := by
        intro q T' t k T r i hvo hT hr hi ha hc
        rcases hreign T r hr with ⟨_, hr⟩ | ⟨rfl, rfl⟩
        · exact h.fresh q T' t k T r i hvo hT hr hi ha (hg.choosable hc)
        · have ha' : i ≤ s.acked q (s.term x) := ha
          rw [hnew q] at ha'
          omega }

/-- A reign after an append has the old one's beginning, and its log is the old one or the
    old one with `e`. -/
theorem reign_append {r : Reign Id E} {e : E} (hr : s.reign (S.stamp e) = some r) {T : Term}
    {r' : Reign Id E} (hr' : (s.append (S.stamp e) r e).reign T = some r') :
    ∃ r₀, s.reign T = some r₀ ∧ r'.init = r₀.init ∧
      (r'.log = r₀.log ∨ (T = S.stamp e ∧ r'.log = r₀.log ++ [e])) := by
  by_cases hT : T = S.stamp e
  · subst hT
    have hr'' : r' = { r with log := r.log ++ [e] } := by simpa [View.append] using hr'.symm
    subst hr''
    exact ⟨r, hr, rfl, .inr ⟨rfl, rfl⟩⟩
  · exact ⟨r', by simpa [View.append, hT] using hr', rfl, .inl rfl⟩

/-- The log of the reign stays proper. -/
theorem proper_append (h : s.Sound S) {r : Reign Id E} {e : E}
    (hr : s.reign (S.stamp e) = some r) (hw : r.who = x) :
    (s.append (S.stamp e) r e).Proper S (r.log ++ [e]) := by
  have hg : Grows x s (s.append (S.stamp e) r e) := grows_append hr hw
  intro j e' he'
  rcases Nat.lt_or_ge j r.log.length with hlt | hge
  · rw [List.getElem?_append_left hlt] at he'
    obtain ⟨r', hr', hi', hle'⟩ := hg.proper (h.proper_reign _ r hr) j e' he'
    exact ⟨r', hr', hi', by rwa [List.take_append_of_le_length (by omega)]⟩
  · -- the new entry begins its own reign's part of the log
    have hj := (List.getElem?_eq_some_iff.mp he').1
    rw [List.length_append, List.length_singleton] at hj
    have hj' : j = r.log.length := by omega
    subst hj'
    rw [List.getElem?_concat_length, Option.some.injEq] at he'
    subst he'
    refine ⟨{ r with log := r.log ++ [e] }, by simp [View.append],
      (h.init_le _ r hr).length_le, ?_⟩
    exact List.take_prefix _ (r.log ++ [e])

theorem append (h : s.Sound S) {r : Reign Id E} {e : E} (hr : s.reign (S.stamp e) = some r)
    (hw : r.who = x) (ht : s.term x = S.stamp e) (hl : s.log x = r.log) :
    (s.append (S.stamp e) r e).Sound S := by
  have hg : Grows x s (s.append (S.stamp e) r e) := grows_append hr hw
  have hreign := fun T r' (hr' : (s.append (S.stamp e) r e).reign T = some r') =>
    reign_append hr hr'
  have hlog : ∀ p, s.log p <+: (s.append (S.stamp e) r e).log p := by
    intro p
    by_cases hp : p = x
    · subst hp
      rw [hl]
      simp [View.append, hw]
    · rw [hg.log_ne p hp]
  -- the new entry is acknowledged by nobody yet
  have htake : ∀ T r' r₀ i p, (s.append (S.stamp e) r e).reign T = some r' →
      s.reign T = some r₀ → r'.log = r₀.log ∨ (T = S.stamp e ∧ r'.log = r₀.log ++ [e]) →
      i ≤ s.acked p T → i ≤ r₀.log.length ∧ r'.log.take i = r₀.log.take i := by
    intro T r' r₀ i p hr' hr₀ hcase ha
    have hle := ha.trans (h.acked_le hr₀ p)
    refine ⟨hle, ?_⟩
    rcases hcase with heq | ⟨_, heq⟩
    · rw [heq]
    · rw [heq, List.take_append_of_le_length hle]
  have hproper := proper_append h hr hw
  exact
    { voted := h.voted
      base := by
        intro T r' hr'
        obtain ⟨r₀, hr₀, _⟩ := hreign T r' hr'
        exact h.base T r₀ hr₀
      init_le := by
        intro T r' hr'
        obtain ⟨r₀, hr₀, hi, heq | ⟨_, heq⟩⟩ := hreign T r' hr'
        · rw [hi, heq]; exact h.init_le T r₀ hr₀
        · rw [hi, heq]; exact (h.init_le T r₀ hr₀).trans (List.prefix_append _ _)
      init_lt := by
        intro T r' hr'
        obtain ⟨r₀, hr₀, hi, _⟩ := hreign T r' hr'
        rw [hi]
        exact h.init_lt T r₀ hr₀
      own := by
        intro T r' hr' j e' hj he'
        obtain ⟨r₀, hr₀, hi, heq | ⟨hT, heq⟩⟩ := hreign T r' hr'
        · exact h.own T r₀ hr₀ j e' (hi ▸ hj) (heq ▸ he')
        · rw [heq] at he'
          rcases Nat.lt_or_ge j r₀.log.length with hlt | hge
          · rw [List.getElem?_append_left hlt] at he'
            exact h.own T r₀ hr₀ j e' (hi ▸ hj) he'
          · rw [List.getElem?_append_right hge, List.getElem?_singleton] at he'
            split_ifs at he'
            cases he'
            exact hT.symm
      proper := by
        intro p
        by_cases hp : p = x
        · subst hp
          simpa [View.append, hw] using hproper
        · rw [hg.log_ne p hp]
          exact hg.proper (h.proper p)
      proper_reign := by
        intro T r' hr'
        obtain ⟨r₀, hr₀, _, heq | ⟨rfl, heq⟩⟩ := hreign T r' hr'
        · rw [heq]; exact hg.proper (h.proper_reign T r₀ hr₀)
        · rw [hr] at hr₀
          cases hr₀
          rw [heq]; exact hproper
      log_le := by
        intro p e' he'
        by_cases hp : p = x
        · subst hp
          have hmem : e' ∈ r.log ++ [e] := by simpa [View.append, hw] using he'
          rcases List.mem_append.mp hmem with hm | hm
          · exact h.log_le p e' (hl ▸ hm)
          · rw [List.mem_singleton.mp hm]
            exact ht.ge
        · rw [hg.log_ne p hp] at he'
          exact h.log_le p e' he'
      acked := by
        intro p T ha
        obtain ⟨hT, r₀, hr₀, hle⟩ := h.acked p T ha
        obtain ⟨r', hr', _, _, hl', _⟩ := hg.reign T r₀ hr₀
        exact ⟨hT, r', hr', hle.trans hl'.length_le⟩
      elected := by
        intro T r' hr'
        obtain ⟨r₀, hr₀, _⟩ := hreign T r' hr'
        exact h.elected T r₀ hr₀
      complete := by
        intro T r₁ T' r₂ i hr₁ hr₂ hT hi hil hc
        obtain ⟨r₁', hr₁', hi₁, hc₁⟩ := hreign T r₁ hr₁
        obtain ⟨r₂', hr₂', hi₂, _⟩ := hreign T' r₂ hr₂
        -- the electors of `T'` have left `T`, so `i` was acknowledged by one of them
        obtain ⟨Q, hQ, hq⟩ := h.elected T' r₂' hr₂'
        obtain ⟨Q', hQ', hq'⟩ := hg.choosable hc
        obtain ⟨q, hqQ, hqQ'⟩ := S.inter Q Q' hQ hQ'
        have ha : i ≤ s.acked q T := by
          rcases hq' q hqQ' with ha | hle
          · exact ha
          · exact absurd ((hq q hqQ).trans hle) (not_le.mpr hT)
        obtain ⟨hle, heq⟩ := htake T r₁ r₁' i q hr₁ hr₁' hc₁ ha
        rw [heq, hi₂]
        exact h.complete T r₁' T' r₂' i hr₁' hr₂' hT (hi₁ ▸ hi) hle (hg.choosable hc)
      retained := by
        intro T r₁ p i hr₁ hi ha hc
        obtain ⟨r₁', hr₁', hi₁, hc₁⟩ := hreign T r₁ hr₁
        obtain ⟨_, heq⟩ := htake T r₁ r₁' i p hr₁ hr₁' hc₁ ha
        rw [heq]
        exact (h.retained T r₁' p i hr₁' (hi₁ ▸ hi) ha (hg.choosable hc)).trans (hlog p)
      fresh := by
        intro q T' t k T r₁ i hv hT hr₁ hi ha hc
        obtain ⟨r₁', hr₁', hi₁, _⟩ := hreign T r₁ hr₁
        exact h.fresh q T' t k T r₁' i hv hT hr₁' (hi₁ ▸ hi) ha (hg.choosable hc) }

/-- Replacing the log of a node is sound if the new log matches, is not from the
    future, and keeps what the node acknowledged and may still be chosen. -/
theorem write (h : s.Sound S) {l : List E} (hp : s.Proper S l)
    (hle : ∀ e ∈ l, S.stamp e ≤ s.term x)
    (hkeep : ∀ T r i, s.reign T = some r → r.init.length < i → i ≤ s.acked x T →
      s.Choosable S T i → r.log.take i <+: l) : (s.write x l).Sound S :=
  { base := h.base, init_le := h.init_le, init_lt := h.init_lt, own := h.own
    proper_reign := h.proper_reign, acked := h.acked, voted := h.voted, elected := h.elected
    complete := h.complete, fresh := h.fresh
    proper := by
      intro p
      by_cases hpx : p = x
      · subst hpx
        rw [show (s.write p l).log p = l by simp [View.write]]
        exact (grows_write l).proper hp
      · rw [(grows_write l).log_ne p hpx]
        exact (grows_write l).proper (h.proper p)
    log_le := by
      intro p e he
      by_cases hpx : p = x
      · subst hpx; exact hle e (by simpa [View.write] using he)
      · exact h.log_le p e (by simpa [View.write, hpx] using he)
    retained := by
      intro T r p i hr hi ha hc
      by_cases hpx : p = x
      · subst hpx; simpa [View.write] using hkeep T r i hr hi ha hc
      · simpa [View.write, hpx] using h.retained T r p i hr hi ha hc }

theorem accept (h : s.Sound S) {r : Reign Id E} {k : ℕ} (hr : s.reign (s.term x) = some r)
    (hk : r.init.length ≤ k) (hk' : k ≤ r.log.length)
    (hd : ∀ e ∈ (s.log x).drop k, S.stamp e ≠ s.term x) : (s.write x (r.log.take k)).Sound S := by
  have htp := List.take_prefix k r.log
  refine h.write ((h.proper_reign _ r hr).mono htp)
    (fun e he => h.stamp_le hr e (htp.subset he)) ?_
  intro T r' i hr' hi ha hc
  have hT : T ≤ s.term x := (h.acked x T (by omega)).1
  rcases lt_or_eq_of_le hT with hlt | rfl
  · -- chosen in a lower term: the leader was elected with it
    have hc' := h.complete T r' _ r i hr' hr hlt hi (ha.trans (h.acked_le hr' x)) hc
    refine List.prefix_of_prefix_length_le (hc'.trans (h.init_le _ r hr)) htp ?_
    rw [List.length_take_of_le hk']
    exact hc'.length_le.trans hk
  · -- acknowledged in this term: such entries are not dropped
    rw [hr] at hr'
    cases hr'
    have hil := ha.trans (h.acked_le hr x)
    have hik : i ≤ k := by
      by_contra hcon
      obtain ⟨e, he, hT⟩ := h.own_entry hr hi hil
      have hget := getElem?_of_le (h.retained _ r x i hr hi ha hc) he
      have hdrop : ((s.log x).drop k)[i - 1 - k]? = some e := by
        rw [List.getElem?_drop, show k + (i - 1 - k) = i - 1 by omega]
        exact hget
      exact hd e (List.mem_of_getElem? hdrop) hT
    exact List.take_prefix_take_left hik

theorem install (h : s.Sound S) {l : List E} (hc : s.Committed S (s.term x) l)
    (hl : (s.log x).length ≤ l.length) : (s.write x l).Sound S := by
  refine h.write ?_ ?_ ?_
  · rcases hc with rfl | ⟨T, r, i, _, hr, _, _, _, hle⟩
    · intro j e he; cases he
    · exact (h.proper_reign T r hr).mono (hle.trans ( List.take_prefix i r.log))
  · rcases hc with rfl | ⟨T, r, i, hT, hr, _, _, _, hle⟩
    · intro e he; cases he
    · intro e he
      have hmem := (hle.trans ( List.take_prefix i r.log)).subset he
      exact (h.stamp_le hr e hmem).trans hT
  · intro T r i hr hi ha hch
    have hil := ha.trans (h.acked_le hr x)
    have hlen : (r.log.take i).length ≤ l.length :=
      (h.retained T r x i hr hi ha hch).length_le.trans hl
    rcases hc with rfl | ⟨T', r', i', _, hr', hi', hil', hch', hle⟩
    · rw [List.length_take_of_le hil] at hlen
      simp at hlen
      omega
    · obtain ⟨m, h1, h2⟩ := chosen_common h hr hr' hi hil hi' hil' hch hch'.choosable
      exact List.prefix_of_prefix_length_le h1 (hle.trans h2) hlen

/-- Every step preserves soundness. -/
theorem step (h : s.Sound S) (hs : Step S s x s') : s'.Sound S := by
  cases hs with
  | raise t ht => exact h.raise ht
  | cast t k hu => exact h.cast hu
  | elect Q hQ hb hv hn => exact h.elect hQ hb hv hn
  | append r e hr hw ht hl => exact h.append hr hw ht hl
  | accept r k hr hk hk' hd => exact h.accept hr hk hk' hd
  | ack r i hr hi hp => exact h.ack hr hi hp
  | install l hc hl => exact h.install hc hl

end Sound

/-! ## Runs of one node -/

/-- Any number of steps of the node `x`. -/
def Steps (S : Setting Id E Term) (x : Id) : View Id E Term → View Id E Term → Prop :=
  Relation.ReflTransGen fun a b => Step S a x b

theorem Steps.grows (h : Steps S x s s') : Grows x s s' := by
  induction h with
  | refl => exact .refl x s
  | tail _ hs ih => exact ih.trans hs.grows

theorem Steps.sound (h : Steps S x s s') (hs : s.Sound S) : s'.Sound S := by
  induction h with
  | refl => exact hs
  | tail _ hst ih => exact ih.step hst

end Steps

end View

end KvStore.Consensus
