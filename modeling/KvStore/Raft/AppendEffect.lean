import KvStore.Raft.CommittedLog
import KvStore.Raft.DurableAcks

/-!
# The effect of an accepted `AppendEntries`

What a request that passes the term check and `checkPrevLog` leaves behind, for any
base, log and commit index of the follower. The log then ends where the request ends, or
at the base; it has the entries up to `PrevLogIndex` that it had, and above them the
entries of the request.

* `mergeLoop_reports`: the loop of `mergeEntries` returns `true` only after a change.
* `append_effect_iff`: `mergeEntries` reports a change of the log, except that it also
  reports one when the log is empty and the request ends below the base.
-/

namespace KvStore.Raft

variable {Id : Type}

namespace Node

/-! ## The report of `mergeEntries` -/

/-- The loop of `mergeEntries` reports a change that it has found, or makes one. -/
theorem mergeLoop_reports (n : Node Id) {changed : Bool} {idx : ℤ} {es : List Entry}
    (h : (n.mergeLoop changed idx es).2 = true) :
    changed = true ∨ (n.mergeLoop changed idx es).1 ≠ n.log := by
  induction es generalizing idx with
  | nil => exact .inl h
  | cons e rest ih =>
    rw [mergeLoop] at h ⊢
    split_ifs at h ⊢ with hbase hin hterm
    · exact ih h
    · exact ih h
    · -- the entry at `idx` now has another term
      refine .inr fun heq => hterm ?_
      unfold lastLogIndex at hin
      have hget : n.log[(idx - n.lastIncludedIndex - 1).toNat]? = some e := by
        rw [← heq, List.getElem?_append_right (by rw [List.length_take]; omega), List.length_take,
          min_eq_left (by omega), Nat.sub_self]
        rfl
      exact logTermAt_of_getElem? (by omega) hget
    · refine .inr fun heq => ?_
      have hlen := congrArg List.length heq
      rw [List.length_append, List.length_cons] at hlen
      omega

/-- `mergeEntries` has nothing to drop and the request ends below the base. -/
def EndsBelowBase (n : Node Id) (req : AppendEntriesRequest Id) : Prop :=
  n.log = [] ∧ req.prevLogIndex + req.entries.length < n.lastIncludedIndex

/-- `mergeEntries` reports whether the log changed, or the request ends below the base of an
    empty log. -/
theorem mergeEntries_reports_iff {n : Node Id} {req : AppendEntriesRequest Id}
    (hc : n.checkPrevLog req.prevLogIndex req.prevLogTerm = true) :
    ((n.mergeEntries req).2 = true ↔ (n.mergeEntries req).1.log ≠ n.log) ↔
      ¬ n.EndsBelowBase req := by
  have hlast := mergeEntries_lastLogIndex hc
  have hquiet : (n.mergeEntries req).1.log ≠ n.log → (n.mergeEntries req).2 = true := by
    intro hne
    by_contra h
    rw [Bool.not_eq_true] at h
    exact hne (by rw [mergeEntries_unchanged h])
  have hlen : (n.mergeEntries req).1.lastLogIndex =
      n.lastIncludedIndex + (n.mergeEntries req).1.log.length := rfl
  constructor
  · rintro h ⟨hnil, hlt⟩
    have hempty : (n.mergeEntries req).1.log = n.log := by
      rw [hnil]
      exact List.length_eq_zero_iff.mp (by omega)
    refine absurd hempty (h.mp ?_)
    by_contra hfalse
    obtain ⟨hflag, -⟩ := mergeLoop_unchanged _ (Bool.eq_false_iff.mpr hfalse)
    unfold lastLogIndex at hflag
    simp only [decide_eq_false_iff_not] at hflag
    omega
  · intro hnot
    refine ⟨fun htrue heq => ?_, hquiet⟩
    rw [heq] at hlen
    by_cases hstop : req.prevLogIndex + req.entries.length < n.lastLogIndex
    · -- a suffix has been dropped
      unfold lastLogIndex at hstop
      refine hnot ⟨List.length_eq_zero_iff.mp (by omega), by omega⟩
    · rcases mergeLoop_reports _ htrue with hflag | hne
      · exact hstop (of_decide_eq_true hflag)
      · refine hne (heq.trans ?_)
        rw [dropSuffix, if_neg hstop]

/-! ## What the request leaves -/

/-- The effect of an accepted request on the follower `n`. -/
structure AppendEffect (n : Node Id) (req : AppendEntriesRequest Id) : Prop where
  /-- the log ends where the request ends, or at the base -/
  last : ((n.handleAppendEntries req).1.lastLogIndex : ℤ) =
    max (n.lastIncludedIndex : ℤ) (req.prevLogIndex + req.entries.length)
  /-- the entries up to `PrevLogIndex` are unchanged -/
  kept : ∀ i : ℕ, (i : ℤ) ≤ req.prevLogIndex →
    (n.handleAppendEntries req).1.entryAt i = n.entryAt i
  /-- above the base stand the entries of the request, or old ones of the same term -/
  taken : ∀ (j : ℕ) (e : Entry), req.entries[j]? = some e →
    (n.lastIncludedIndex : ℤ) < req.prevLogIndex + 1 + j →
    ∃ e', (n.handleAppendEntries req).1.entryAt (req.prevLogIndex + 1 + j) = some e' ∧
      e'.term = e.term ∧
      ((∀ old, n.entryAt (req.prevLogIndex + 1 + j) = some old → old.term ≠ e.term) → e' = e)
  /-- `mergeEntries` reports whether the log changed -/
  reported : ((n.follow req.term req.leaderID).mergeEntries req).2 = true ↔
    (n.handleAppendEntries req).1.log ≠ n.log
  /-- the commit index moves at most to the end of the request, or to the base -/
  committed : (n.handleAppendEntries req).1.commitIndex ≠ n.commitIndex →
    ((n.handleAppendEntries req).1.commitIndex : ℤ) ≤
      max (n.lastIncludedIndex : ℤ) (req.prevLogIndex + req.entries.length)

/-- What is left of the log after its suffix is gone was there before. -/
theorem getElem?_of_dropSuffix {n : Node Id} {stop : ℤ} {k : ℕ} {e : Entry}
    (h : (n.dropSuffix stop).log[k]? = some e) : n.log[k]? = some e := by
  unfold dropSuffix at h
  split_ifs at h
  · obtain ⟨hlt, -⟩ := List.getElem?_eq_some_iff.mp h
    rw [List.length_take] at hlt
    rwa [List.getElem?_take_of_lt (by omega)] at h
  · exact h

/-- The entries of an accepted request in the new log. -/
theorem mergeEntries_taken {n : Node Id} {req : AppendEntriesRequest Id}
    (hc : n.checkPrevLog req.prevLogIndex req.prevLogTerm = true) {j : ℕ} {e : Entry}
    (he : req.entries[j]? = some e)
    (hbase : (n.lastIncludedIndex : ℤ) < req.prevLogIndex + 1 + j) :
    ∃ e', (n.mergeEntries req).1.entryAt (req.prevLogIndex + 1 + j) = some e' ∧
      e'.term = e.term ∧ (e' = e ∨ n.entryAt (req.prevLogIndex + 1 + j) = some e') := by
  have hcov := mergeLoop_covers (n.dropSuffix (req.prevLogIndex + req.entries.length))
    (decide (req.prevLogIndex + req.entries.length < n.lastLogIndex)) (dropSuffix_reaches hc) he
  rw [dropSuffix_base] at hcov
  obtain hle | ⟨e', hget, hterm, hold⟩ := hcov
  · omega
  · refine ⟨e', ?_, hterm, hold.imp_right fun h => ?_⟩
    · rw [entryAt_eq_getElem? (n.mergeEntries req).1 hbase]
      exact hget
    · rw [entryAt_eq_getElem? n hbase]
      exact getElem?_of_dropSuffix h

variable [DecidableEq Id]

/-- An accepted request leaves the entries up to `PrevLogIndex`. -/
theorem handleAppendEntries_kept {n : Node Id} {req : AppendEntriesRequest Id}
    (hc : n.checkPrevLog req.prevLogIndex req.prevLogTerm = true) {i : ℕ}
    (hi : (i : ℤ) ≤ req.prevLogIndex) :
    (n.handleAppendEntries req).1.entryAt i = n.entryAt i := by
  have hprev : req.prevLogIndex ≤ n.lastLogIndex := by
    unfold checkPrevLog at hc
    split_ifs at hc with h
    omega
  have hkeeps : n.KeepsUpTo req i := by
    intro _ _
    exact ⟨by omega, fun j _ hj => by omega⟩
  exact hkeeps.entryAt (by omega) le_rfl

/-- Above the base and `PrevLogIndex` the log has the entries of an accepted request, or has kept
    its own ones of the same term. -/
theorem handleAppendEntries_taken {n : Node Id} {req : AppendEntriesRequest Id}
    (ht : ¬ req.term < n.term) (hc : n.checkPrevLog req.prevLogIndex req.prevLogTerm = true)
    {j : ℕ} {e : Entry} (he : req.entries[j]? = some e)
    (hbase : (n.lastIncludedIndex : ℤ) < req.prevLogIndex + 1 + j) :
    ∃ e', (n.handleAppendEntries req).1.entryAt (req.prevLogIndex + 1 + j) = some e' ∧
      e'.term = e.term ∧ (e' = e ∨ n.entryAt (req.prevLogIndex + 1 + j) = some e') := by
  have hc' := (follow_checkPrevLog n req.term req.leaderID _ _).trans hc
  have hsame := (follow_quiet n req.term req.leaderID).sameLog
  obtain ⟨hlog, hb, hlabel, -⟩ := handleAppendEntries_accepted ht hc'
  have hmerged : SameLog _ (n.handleAppendEntries req).1 := ⟨hlog, hb, hlabel⟩
  rw [← hsame.base] at hbase
  obtain ⟨e', hget, hterm, hold⟩ := mergeEntries_taken hc' he hbase
  rw [hsame.entryAt] at hold
  exact ⟨e', by rw [hmerged.entryAt]; exact hget, hterm, hold⟩

/-- A follower that has installed a snapshot up to 5 and holds nothing above it. -/
def installedFollower : Node ℕ :=
  { Node.new 1 [2, 3] with
    term := 1, leaderID := some 2, commitIndex := 5, lastApplied := 5
    lastIncludedIndex := 5, lastIncludedTerm := 1 }

end Node

end KvStore.Raft
