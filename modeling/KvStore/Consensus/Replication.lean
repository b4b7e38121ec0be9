import Mathlib

/-!
# Replicated logs under elected leaders

An abstract model of leader-based log replication, over arbitrary types of
nodes, entries and terms and an arbitrary system of intersecting quorums. Nodes
hold whole logs; a term has at most one `Reign`, whose leader extends the log it
was elected with; nodes acknowledge prefixes of the reigning log of their
current term and grant votes to candidates whose log is at least as up to date
as their own.

`Step` is one change of such a `View`. What a step preserves is the subject of
`KvStore.Consensus.Safety`.
-/

namespace KvStore.Consensus

/-- Nodes, entries with their terms, a least term, and quorums that intersect. -/
structure Setting (Id E Term : Type) where
  stamp : E → Term
  bot : Term
  IsQuorum : Set Id → Prop
  inter : ∀ A B, IsQuorum A → IsQuorum B → (A ∩ B).Nonempty

/-- The leadership of one term: the leader, the log it was elected with, and that
    log with everything it has appended since. -/
structure Reign (Id E : Type) where
  who : Id
  init : List E
  log : List E

/-- A state of the abstract protocol. `acked p T` is the length of the longest prefix
    `p` has acknowledged to the leader of `T`; `vote q T t k` says that `q` voted in `T`
    for a candidate whose log has length `k` and last term `t`. -/
structure View (Id E Term : Type) where
  term : Id → Term
  log : Id → List E
  reign : Term → Option (Reign Id E)
  acked : Id → Term → ℕ
  vote : Id → Term → Term → ℕ → Prop

variable {Id E Term : Type} [LinearOrder Term]

theorem getElem?_of_le {l l' : List E} {j : ℕ} {e : E} (h : l <+: l') (he : l[j]? = some e) :
    l'[j]? = some e := by
  obtain ⟨hj, rfl⟩ := List.getElem?_eq_some_iff.mp he
  exact List.prefix_iff_getElem?.mp h j hj

/-- The term of the last entry. -/
def Setting.lastTerm (S : Setting Id E Term) (l : List E) : Term :=
  (l.getLast?.map S.stamp).getD S.bot

namespace View

/-- A quorum has acknowledged the first `i` entries of the leader of `T`. -/
def Chosen (S : Setting Id E Term) (s : View Id E Term) (T : Term) (i : ℕ) : Prop :=
  ∃ Q, S.IsQuorum Q ∧ ∀ p ∈ Q, i ≤ s.acked p T

/-- A quorum has acknowledged the first `i` entries of the leader of `T`, or may still
    do so. -/
def Choosable (S : Setting Id E Term) (s : View Id E Term) (T : Term) (i : ℕ) : Prop :=
  ∃ Q, S.IsQuorum Q ∧ ∀ p ∈ Q, i ≤ s.acked p T ∨ s.term p ≤ T

/-- Log matching: up to any of its entries the log agrees with the log of the leader
    that created the entry. -/
def Proper (S : Setting Id E Term) (s : View Id E Term) (l : List E) : Prop :=
  ∀ j e, l[j]? = some e →
    ∃ r, s.reign (S.stamp e) = some r ∧ r.init.length ≤ j ∧ l.take (j + 1) <+: r.log

/-- The list is part of what was chosen in a term up to `T`, by counting an entry of
    that term. -/
def Committed (S : Setting Id E Term) (s : View Id E Term) (T : Term) (l : List E) : Prop :=
  l = [] ∨ ∃ T₀ r i, T₀ ≤ T ∧ s.reign T₀ = some r ∧ r.init.length < i ∧ i ≤ r.log.length ∧
    s.Chosen S T₀ i ∧ l <+: r.log.take i

/-- A candidate with last term `t` and log length `k` is at least as up to date as `l`. -/
def UpToDate (S : Setting Id E Term) (l : List E) (t : Term) (k : ℕ) : Prop :=
  S.lastTerm l < t ∨ (S.lastTerm l = t ∧ l.length ≤ k)

/-! ## The changes of a view -/

section Updates

variable [DecidableEq Id]

/-- `p` moves to the term `t`. -/
def raise (s : View Id E Term) (p : Id) (t : Term) : View Id E Term :=
  { s with term := Function.update s.term p t }

/-- `p` votes in its term for a candidate with last term `t` and log length `k`. -/
def cast (s : View Id E Term) (p : Id) (t : Term) (k : ℕ) : View Id E Term :=
  { s with vote := fun q T t' k' => s.vote q T t' k' ∨ (q = p ∧ T = s.term p ∧ t' = t ∧ k' = k) }

/-- `x` becomes the leader of its term. -/
def elect (s : View Id E Term) (x : Id) : View Id E Term :=
  { s with reign := Function.update s.reign (s.term x) (some ⟨x, s.log x, s.log x⟩) }

/-- The leader of `T` appends `e` to its log. -/
def append (s : View Id E Term) (T : Term) (r : Reign Id E) (e : E) : View Id E Term :=
  { s with
    reign := Function.update s.reign T (some { r with log := r.log ++ [e] })
    log := Function.update s.log r.who (r.log ++ [e]) }

/-- `p` replaces its log. -/
def write (s : View Id E Term) (p : Id) (l : List E) : View Id E Term :=
  { s with log := Function.update s.log p l }

/-- `p` acknowledges the first `i` entries of the leader of its term. -/
def ack (s : View Id E Term) (p : Id) (i : ℕ) : View Id E Term :=
  { s with
    acked := fun q T => if q = p ∧ T = s.term p then max (s.acked q T) i else s.acked q T }

/-- One step of the node `x`. -/
inductive Step (S : Setting Id E Term) (s : View Id E Term) (x : Id) : View Id E Term → Prop
  | raise (t : Term) (h : s.term x ≤ t) : Step S s x (s.raise x t)
  | cast (t : Term) (k : ℕ) (h : UpToDate S (s.log x) t k) : Step S s x (s.cast x t k)
  | elect (Q : Set Id) (hQ : S.IsQuorum Q) (hb : S.bot ≤ s.term x)
      (hv : ∀ q ∈ Q, s.vote q (s.term x) (S.lastTerm (s.log x)) (s.log x).length)
      (hn : s.reign (s.term x) = none) : Step S s x (s.elect x)
  | append (r : Reign Id E) (e : E) (hr : s.reign (S.stamp e) = some r) (hw : r.who = x)
      (ht : s.term x = S.stamp e) (hl : s.log x = r.log) :
      Step S s x (s.append (S.stamp e) r e)
  | accept (r : Reign Id E) (k : ℕ) (hr : s.reign (s.term x) = some r)
      (hk : r.init.length ≤ k) (hk' : k ≤ r.log.length)
      (hd : ∀ e ∈ (s.log x).drop k, S.stamp e ≠ s.term x) : Step S s x (s.write x (r.log.take k))
  | ack (r : Reign Id E) (i : ℕ) (hr : s.reign (s.term x) = some r) (hi : i ≤ r.log.length)
      (hp : r.log.take i <+: s.log x) : Step S s x (s.ack x i)
  | install (l : List E) (hc : s.Committed S (s.term x) l) (hl : (s.log x).length ≤ l.length) :
      Step S s x (s.write x l)

end Updates

/-! ## What only grows -/

/-- How a view may change under the steps of the node `x`. -/
structure Grows (x : Id) (s s' : View Id E Term) : Prop where
  term_le : ∀ p, s.term p ≤ s'.term p
  term_ne : ∀ p, p ≠ x → s'.term p = s.term p
  log_ne : ∀ p, p ≠ x → s'.log p = s.log p
  reign : ∀ T r, s.reign T = some r → ∃ r', s'.reign T = some r' ∧ r'.who = r.who ∧
    r'.init = r.init ∧ r.log <+: r'.log ∧ (r.who ≠ x → r' = r)
  acked_le : ∀ p T, s.acked p T ≤ s'.acked p T
  acked_new : ∀ p T i, i ≤ s'.acked p T → i ≤ s.acked p T ∨ s.term p ≤ T
  vote : ∀ q T t k, s.vote q T t k → s'.vote q T t k

variable {S : Setting Id E Term} {s s' s'' : View Id E Term} {x : Id}

theorem Grows.refl (x : Id) (s : View Id E Term) : Grows x s s where
  term_le := fun _ => le_rfl
  term_ne := fun _ _ => rfl
  log_ne := fun _ _ => rfl
  reign := fun _ r h => ⟨r, h, rfl, rfl, List.prefix_rfl, fun _ => rfl⟩
  acked_le := fun _ _ => le_rfl
  acked_new := fun _ _ _ h => .inl h
  vote := fun _ _ _ _ h => h

theorem Grows.trans (h : Grows x s s') (h' : Grows x s' s'') : Grows x s s'' where
  term_le := fun p => (h.term_le p).trans (h'.term_le p)
  term_ne := fun p hp => (h'.term_ne p hp).trans (h.term_ne p hp)
  log_ne := fun p hp => (h'.log_ne p hp).trans (h.log_ne p hp)
  reign := by
    intro T r hr
    obtain ⟨r', hr', hw', hi', hl', he'⟩ := h.reign T r hr
    obtain ⟨r'', hr'', hw'', hi'', hl'', he''⟩ := h'.reign T r' hr'
    refine ⟨r'', hr'', hw''.trans hw', hi''.trans hi', hl'.trans hl'', fun hx => ?_⟩
    rw [he'' (hw' ▸ hx), he' hx]
  acked_le := fun p T => (h.acked_le p T).trans (h'.acked_le p T)
  acked_new := by
    intro p T i hi
    rcases h'.acked_new p T i hi with hi | hi
    · exact h.acked_new p T i hi
    · exact .inr ((h.term_le p).trans hi)
  vote := fun q T t k hv => h'.vote q T t k (h.vote q T t k hv)

/-- What may still be chosen shrinks: acknowledgements for `T` come from nodes of term `T`. -/
theorem Grows.choosable (h : Grows x s s') {T : Term} {i : ℕ} (hc : s'.Choosable S T i) :
    s.Choosable S T i := by
  obtain ⟨Q, hQ, hp⟩ := hc
  refine ⟨Q, hQ, fun p hpQ => ?_⟩
  rcases hp p hpQ with ha | ht
  · exact h.acked_new p T i ha
  · exact .inr ((h.term_le p).trans ht)

theorem Grows.chosen (h : Grows x s s') {T : Term} {i : ℕ} (hc : s.Chosen S T i) :
    s'.Chosen S T i := by
  obtain ⟨Q, hQ, hp⟩ := hc
  exact ⟨Q, hQ, fun p hpQ => (hp p hpQ).trans (h.acked_le p T)⟩

theorem Grows.proper (h : Grows x s s') {l : List E} (hp : s.Proper S l) : s'.Proper S l := by
  intro j e he
  obtain ⟨r, hr, hi, hl⟩ := hp j e he
  obtain ⟨r', hr', _, hi', hl', _⟩ := h.reign _ r hr
  exact ⟨r', hr', hi' ▸ hi, hl.trans hl'⟩

/-- What is committed stays committed. -/
theorem Grows.committed (h : Grows x s s') {T : Term} {l : List E} (hc : s.Committed S T l) :
    s'.Committed S T l := by
  rcases hc with rfl | ⟨T₀, r, i, hT, hr, hi, hil, hch, hl⟩
  · exact .inl rfl
  · obtain ⟨r', hr', _, hi', hl', _⟩ := h.reign _ r hr
    refine .inr ⟨T₀, r', i, hT, hr', hi' ▸ hi, hil.trans hl'.length_le, h.chosen hch, ?_⟩
    exact hl.trans (hl'.take i)

theorem Committed.mono {T T' : Term} {l l' : List E} (h : s.Committed S T l) (hT : T ≤ T')
    (hl : l' <+: l) : s.Committed S T' l' := by
  rcases h with rfl | ⟨T₀, r, i, hT₀, hr, hi, hil, hch, hl₀⟩
  · exact .inl (List.prefix_nil.mp hl)
  · exact .inr ⟨T₀, r, i, hT₀.trans hT, hr, hi, hil, hch, hl.trans hl₀⟩

theorem Chosen.choosable {T : Term} {i : ℕ} (h : s.Chosen S T i) : s.Choosable S T i := by
  obtain ⟨Q, hQ, hp⟩ := h
  exact ⟨Q, hQ, fun p hpQ => .inl (hp p hpQ)⟩

omit [LinearOrder Term] in
/-- A part of a log from its beginning is a log that matches as well. -/
theorem Proper.mono {l l' : List E} (h : s.Proper S l) (hl : l' <+: l) : s.Proper S l' := by
  intro j e he
  obtain ⟨r, hr, hi, ht⟩ := h j e (getElem?_of_le hl he)
  exact ⟨r, hr, hi, (hl.take (j + 1)).trans ht⟩

end View

end KvStore.Consensus
