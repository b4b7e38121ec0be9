import KvStore.Raft.FullLog

/-!
# The commit rule counts a majority

`maybeCommit` sorts the last index of the leader and the `matchIndex` of its peers
and reads the entry `majority` places from the end.

* `threshold_quorum`: at least a majority of the values reach that threshold.
* `commitTarget_cases`: the commit index only moves to a threshold at which the leader
  holds an entry of its own term.
* `le_threshold_iff`: the indexes up to the threshold are exactly those that a majority
  has reached.
* `Node.maybeCommit_isGreatest`: the new commit index is the greatest one that the rule
  allows.
-/

namespace KvStore.Raft

variable {Id : Type}

/-- The value at position `k` of the sorted list is the greatest one that all but `k` elements
    reach. -/
theorem le_insertionSort_getD_iff {l : List ℕ} {k : ℕ} (hk : k < l.length) (x : ℕ) :
    x ≤ (l.insertionSort (· ≤ ·)).getD k 0 ↔ l.length - k ≤ l.countP fun y => x ≤ y := by
  have hperm := List.perm_insertionSort (· ≤ ·) l
  have hsorted := List.pairwise_insertionSort (· ≤ ·) l
  rw [← hperm.length_eq] at hk
  rw [← hperm.countP_eq, ← hperm.length_eq]
  generalize l.insertionSort (· ≤ ·) = m at hk hsorted
  have hget : m.getD k 0 = m[k] := by
    rw [List.getD_eq_getElem?_getD, List.getElem?_eq_getElem hk]
    rfl
  rw [hget]
  constructor
  · -- everything from position `k` on reaches `x`
    intro hx
    have hall : ∀ y ∈ m.drop k, decide (x ≤ y) = true := by
      intro y hy
      obtain ⟨j, hj, rfl⟩ := List.mem_iff_getElem.mp hy
      rw [List.length_drop] at hj
      rw [decide_eq_true_eq, List.getElem_drop]
      rcases Nat.eq_zero_or_pos j with rfl | hpos
      · exact hx
      · exact hx.trans (List.pairwise_iff_getElem.mp hsorted k (k + j) hk (by omega) (by omega))
    calc m.length - k = (m.drop k).length := List.length_drop.symm
      _ = (m.drop k).countP fun y => x ≤ y := (List.countP_eq_length.mpr hall).symm
      _ ≤ m.countP fun y => x ≤ y := (List.drop_sublist k m).countP_le
  · -- nothing up to position `k` reaches `x`
    intro hcount
    by_contra hx
    have hnone : ∀ y ∈ m.take (k + 1), ¬ decide (x ≤ y) = true := by
      intro y hy
      obtain ⟨j, hj, rfl⟩ := List.mem_iff_getElem.mp hy
      rw [List.length_take] at hj
      rw [decide_eq_true_eq, List.getElem_take, not_le]
      rcases Nat.eq_or_lt_of_le (show j ≤ k by omega) with rfl | hlt
      · exact not_le.mp hx
      · exact (List.pairwise_iff_getElem.mp hsorted j k (by omega) hk hlt).trans_lt (not_le.mp hx)
    have hsplit : m.countP (fun y => x ≤ y) = (m.drop (k + 1)).countP fun y => x ≤ y := by
      nth_rewrite 1 [← List.take_append_drop (k + 1) m]
      rw [List.countP_append, List.countP_eq_zero.mpr hnone, zero_add]
    have hle : (m.drop (k + 1)).countP (fun y => x ≤ y) ≤ m.length - (k + 1) := by
      rw [← List.length_drop]
      exact List.countP_le_length
    omega

variable [DecidableEq Id]

namespace Node

/-- The threshold is the greatest index that a majority has reached. -/
theorem le_threshold_iff (n : Node Id) (x : ℕ) :
    x ≤ n.threshold ↔ majority n.peers ≤
      (n.lastLogIndex :: n.peers.map n.replState.matchIndex).countP fun y => x ≤ y := by
  have hlen : (n.lastLogIndex :: n.peers.map n.replState.matchIndex).length =
      n.peers.length + 1 := by simp
  have hmaj : majority n.peers ≤ n.peers.length + 1 := by
    unfold majority
    omega
  have hpos : 0 < majority n.peers := Nat.succ_pos _
  have hk : (n.lastLogIndex :: n.peers.map n.replState.matchIndex).length - majority n.peers <
      (n.lastLogIndex :: n.peers.map n.replState.matchIndex).length := by omega
  have h := le_insertionSort_getD_iff hk x
  rw [hlen, Nat.sub_sub_self hmaj] at h
  rw [← h, threshold, hlen]

/-- The peers that reach the threshold are a majority together with the leader. -/
theorem threshold_quorum (n : Node Id) :
    majority n.peers ≤
      (n.peers.filter fun p => n.threshold ≤ n.replState.matchIndex p).length + 1 := by
  have hcount := (n.le_threshold_iff n.threshold).mp le_rfl
  have hmap : (n.peers.map n.replState.matchIndex).countP (fun x => n.threshold ≤ x) =
      n.peers.countP fun p => n.threshold ≤ n.replState.matchIndex p := by
    rw [List.countP_map]
    rfl
  rw [List.countP_cons, hmap] at hcount
  rw [← List.countP_eq_length_filter]
  split at hcount <;> omega

/-- `maybeCommit` keeps the commit index, or moves a leader's to a threshold that holds
    an entry of the current term. -/
theorem commitTarget_cases (n : Node Id) :
    n.commitTarget = n.commitIndex ∨
      (n.commitTarget = n.threshold ∧ n.role = .leader ∧ n.commitIndex < n.threshold ∧
        ∃ e, n.entryAt n.threshold = some e ∧ e.term = n.term) := by
  unfold commitTarget
  split_ifs with hr ht
  · exact .inl rfl
  · exact .inl rfl
  · split
    · exact .inl rfl
    · next e he =>
      split_ifs with hterm
      · exact .inl rfl
      · exact .inr ⟨rfl, not_not.mp hr, not_le.mp ht, e, he, not_not.mp hterm⟩

/-! ## The rule -/

/-- More than half of the cluster has reached `x`: the leader with its last index, and the
    peers with their `matchIndex`. -/
def Replicated (n : Node Id) (x : ℕ) : Prop :=
  n.peers.length + 1 <
    2 * (n.lastLogIndex :: n.peers.map n.replState.matchIndex).countP fun y => x ≤ y

theorem replicated_iff (n : Node Id) (x : ℕ) : n.Replicated x ↔ x ≤ n.threshold := by
  rw [le_threshold_iff, Replicated, majority]
  omega

/-- The leader may commit up to `x`. -/
def Committable (n : Node Id) (x : ℕ) : Prop :=
  n.Replicated x ∧ ∃ e, n.entryAt x = some e ∧ e.term = n.term

theorem threshold_le {n : Node Id}
    (hmatch : ∀ p ∈ n.peers, n.replState.matchIndex p ≤ n.lastLogIndex) :
    n.threshold ≤ n.lastLogIndex := by
  have hcount := (n.le_threshold_iff n.threshold).mp le_rfl
  have hpos : 0 < majority n.peers := Nat.succ_pos _
  obtain ⟨x, hx, hle⟩ := List.countP_pos_iff.mp (hpos.trans_le hcount)
  rw [decide_eq_true_eq] at hle
  rcases List.mem_cons.mp hx with rfl | hx
  · exact hle
  · obtain ⟨p, hp, rfl⟩ := List.mem_map.mp hx
    exact hle.trans (hmatch p hp)

omit [DecidableEq Id] in
/-- In a log of non-decreasing terms a later entry has no smaller term. -/
theorem term_le_of_entryAt {n : Node Id} (hsorted : n.log.Pairwise fun a b => a.term ≤ b.term)
    {x y : ℕ} (hxy : x ≤ y) {a b : Entry} (ha : n.entryAt x = some a) (hb : n.entryAt y = some b) :
    a.term ≤ b.term := by
  have hbase : n.lastIncludedIndex < x := by
    by_contra hle
    rw [Holds.entryAt_base n (not_lt.mp hle)] at ha
    cases ha
  rw [entryAt_eq_getElem? n (by omega)] at ha hb
  obtain ⟨hx, rfl⟩ := List.getElem?_eq_some_iff.mp ha
  obtain ⟨hy, rfl⟩ := List.getElem?_eq_some_iff.mp hb
  rcases Nat.eq_or_lt_of_le hxy with rfl | hlt
  · exact le_rfl
  · exact List.pairwise_iff_getElem.mp hsorted _ _ hx hy (by omega)

/-- A threshold above the commit index is committed if its entry has the current term. -/
theorem commitTarget_of_entryAt {n : Node Id} (hrole : n.role = .leader)
    (hlt : n.commitIndex < n.threshold) {e : Entry} (he : n.entryAt n.threshold = some e) :
    n.commitTarget = if e.term = n.term then n.threshold else n.commitIndex := by
  simp only [commitTarget, hrole, ne_eq, not_true_eq_false, ite_false, not_le.mpr hlt, he, ite_not]

/-- `maybeCommit` implements the commit rule: the new commit index is the greatest one that is
    the old one or that may be committed. Only the threshold is tried; below it the terms are
    no greater. -/
theorem maybeCommit_isGreatest (n : Node Id) (hrole : n.role = .leader)
    (hsorted : n.log.Pairwise fun a b => a.term ≤ b.term) (hterm : ∀ e ∈ n.log, e.term ≤ n.term)
    (hbase : n.lastIncludedIndex ≤ n.commitIndex)
    (hmatch : ∀ p ∈ n.peers, n.replState.matchIndex p ≤ n.lastLogIndex) :
    IsGreatest {x | x = n.commitIndex ∨ n.Committable x} n.maybeCommit.commitIndex := by
  show IsGreatest _ n.commitTarget
  constructor
  · rcases n.commitTarget_cases with h | ⟨h, -, -, he⟩
    · exact .inl h
    · rw [h]
      exact .inr ⟨(n.replicated_iff _).mpr le_rfl, he⟩
  · have hcommit : n.commitIndex ≤ n.commitTarget := by
      rcases n.commitTarget_cases with h | ⟨h, -, hlt, -⟩ <;> omega
    rintro x (rfl | ⟨hx, e, he, hcur⟩)
    · exact hcommit
    · have hle := (n.replicated_iff x).mp hx
      by_contra hnot
      have hlt : n.commitIndex < n.threshold := by omega
      have hlast := threshold_le hmatch
      -- the threshold is above the base, so its entry is there
      obtain ⟨e', he'⟩ : ∃ e', n.entryAt n.threshold = some e' := by
        unfold lastLogIndex at hlast
        rw [entryAt_eq_getElem? n (by omega)]
        exact ⟨_, List.getElem?_eq_getElem (by omega)⟩
      have hmem : e' ∈ n.log := by
        rw [entryAt_eq_getElem? n (by omega)] at he'
        exact List.mem_of_getElem? he'
      have heq : e'.term = n.term :=
        le_antisymm (hterm e' hmem) (hcur ▸ term_le_of_entryAt hsorted hle he he')
      rw [commitTarget_of_entryAt hrole hlt he', if_pos heq] at hnot
      exact hnot hle

/-- A leader of four in term 2 that has compacted up to 1 and whose peers have reached 4, 3
    and 1. -/
def leaderOfFour : Node ℕ :=
  { Node.new 1 [2, 3, 4] with
    role := .leader, term := 2, lastIncludedIndex := 1, lastIncludedTerm := 1, commitIndex := 1
    log := [⟨1, { op := .clear, key := [] }⟩, ⟨2, { op := .clear, key := [] }⟩,
      ⟨2, { op := .clear, key := [] }⟩]
    repl := some
      { nextIndex := fun _ => 5
        matchIndex := fun p => if p = 2 then 4 else if p = 3 then 3 else 1
        inFlight := fun _ => false, backoff := fun _ => 0 } }

theorem leaderOfFour_commits : leaderOfFour.maybeCommit.commitIndex = 3 ∧
    IsGreatest {x | x = 1 ∨ leaderOfFour.Committable x} leaderOfFour.maybeCommit.commitIndex :=
  ⟨by decide, maybeCommit_isGreatest leaderOfFour rfl (by decide) (by decide) (by decide)
    (by decide)⟩

end Node

end KvStore.Raft
