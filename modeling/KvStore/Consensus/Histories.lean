import Mathlib

/-!
# Logs traced to the leaders that wrote them

Log matching without votes, quorums or commitment: all it needs is a history `made T`
for each term, the log that the leader of `T` has built so far, which only grows. A log is
`Traced` if up to each of its entries it is part of the history of that entry's term. Two
traced logs that have an entry of one term at one index agree up to it
(`Traced.take_eq`).

`Ordered` logs have terms that never decrease, between a least term and a bound.
-/

namespace KvStore.Consensus

variable {E Term : Type} {stamp : E → Term}

/-! ## Traced logs -/

/-- Up to each of its entries, the log is part of the history of the entry's term. -/
def Traced (stamp : E → Term) (made : Term → List E) (l : List E) : Prop :=
  ∀ (j : ℕ) (e : E), l[j]? = some e → l.take (j + 1) <+: made (stamp e)

/-- Histories only grow. -/
def Extends (made made' : Term → List E) : Prop := ∀ T, made T <+: made' T

theorem Extends.refl (made : Term → List E) : Extends made made := fun _ => List.prefix_rfl

/-- One history is continued. -/
theorem Extends.update [DecidableEq Term] {made : Term → List E} {T : Term} {l : List E}
    (h : made T <+: l) : Extends made (Function.update made T l) := by
  intro T'
  by_cases hT : T' = T
  · subst hT
    rw [Function.update_self]
    exact h
  · rw [Function.update_of_ne hT]

namespace Traced

variable {made made' : Term → List E} {l l' : List E}

theorem mono (h : Traced stamp made l) (hm : Extends made made') : Traced stamp made' l :=
  fun j e he => (h j e he).trans (hm _)

theorem of_le (h : Traced stamp made l) (hl : l' <+: l) : Traced stamp made l' := by
  intro j e he
  have hj := (List.getElem?_eq_some_iff.mp he).1
  obtain ⟨t, rfl⟩ := hl
  have hget : (l' ++ t)[j]? = some e := by rw [List.getElem?_append_left hj, he]
  have hpre := h j e hget
  rwa [List.take_append_of_le_length (by omega)] at hpre

/-- Log matching. -/
theorem take_eq (h : Traced stamp made l) (h' : Traced stamp made l') {j : ℕ} {e e' : E}
    (he : l[j]? = some e) (he' : l'[j]? = some e') (ht : stamp e = stamp e') :
    l.take (j + 1) = l'.take (j + 1) := by
  have hj := (List.getElem?_eq_some_iff.mp he).1
  have hj' := (List.getElem?_eq_some_iff.mp he').1
  have h1 := List.prefix_iff_eq_take.mp (h j e he)
  have h2 := List.prefix_iff_eq_take.mp (h' j e' he')
  rw [List.length_take, min_eq_left (by omega)] at h1 h2
  rw [h1, h2, ht]

/-- One more entry, which its own history contains. -/
theorem concat (h : Traced stamp made l) {e : E} (he : l ++ [e] <+: made (stamp e)) :
    Traced stamp made (l ++ [e]) := by
  intro j e' hj
  rcases Nat.lt_or_ge j l.length with hlt | hge
  · rw [List.getElem?_append_left hlt] at hj
    rw [List.take_append_of_le_length (by omega)]
    exact h j e' hj
  · have hlen := (List.getElem?_eq_some_iff.mp hj).1
    rw [List.length_append, List.length_singleton] at hlen
    obtain rfl : j = l.length := by omega
    rw [List.getElem?_concat_length] at hj
    obtain rfl := Option.some.inj hj
    rwa [List.take_of_length_le (by simp)]

end Traced

/-! ## Ordered logs -/

section Ordered

variable [LinearOrder Term]

/-- Terms never decrease along the log and lie between `bot` and `t`. -/
structure Ordered (stamp : E → Term) (bot t : Term) (l : List E) : Prop where
  sorted : l.Pairwise fun a b => stamp a ≤ stamp b
  low : ∀ e ∈ l, bot ≤ stamp e
  high : ∀ e ∈ l, stamp e ≤ t

namespace Ordered

variable {bot t t' : Term} {l l' : List E}

theorem nil (stamp : E → Term) (bot t : Term) : Ordered stamp bot t [] := ⟨.nil, (by simp), (by simp)⟩

theorem mono (h : Ordered stamp bot t l) (ht : t ≤ t') : Ordered stamp bot t' l :=
  ⟨h.sorted, h.low, fun e he => (h.high e he).trans ht⟩

theorem of_le (h : Ordered stamp bot t l) (hl : l' <+: l) : Ordered stamp bot t l' :=
  ⟨h.sorted.sublist hl.sublist, fun e he => h.low e (hl.subset he),
    fun e he => h.high e (hl.subset he)⟩

/-- One more entry of the highest term. -/
theorem concat (h : Ordered stamp bot t l) {e : E} (he : stamp e = t) (hb : bot ≤ t) :
    Ordered stamp bot t (l ++ [e]) := by
  refine ⟨List.pairwise_append.mpr ⟨h.sorted, List.pairwise_singleton _ _, ?_⟩, ?_, ?_⟩
  · intro a ha b hb
    rw [List.mem_singleton.mp hb, he]
    exact h.high a ha
  · intro a ha
    rcases List.mem_append.mp ha with ha | ha
    · exact h.low a ha
    · rw [List.mem_singleton.mp ha, he]
      exact hb
  · intro a ha
    rcases List.mem_append.mp ha with ha | ha
    · exact h.high a ha
    · rw [List.mem_singleton.mp ha, he]

end Ordered

end Ordered

end KvStore.Consensus
