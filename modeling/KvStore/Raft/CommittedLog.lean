import KvStore.Raft.IndexChain

/-!
# Entries that stay

Above its base, a log loses or changes an entry only through an accepted `AppendEntries` that
ends before it or that has another term there. `Node.KeepsUpTo req k` excludes this up to the
index `k`; then every section leaves the entries up to `k` where they are
(`Process.entryAt_of_step`), until they are compacted.
-/

namespace KvStore.Raft

open KvStore.Storage (Command)

variable {Id : Type}

namespace Node

/-- If the node accepts the request, then the request reaches `k`, and up to `k` it has the
    terms that the node has. -/
def KeepsUpTo (n : Node Id) (req : AppendEntriesRequest Id) (k : ℕ) : Prop :=
  ¬ req.term < n.term → n.checkPrevLog req.prevLogIndex req.prevLogTerm = true →
    (k : ℤ) ≤ max (n.lastIncludedIndex : ℤ) (req.prevLogIndex + req.entries.length) ∧
      ∀ j : Fin req.entries.length, (n.lastIncludedIndex : ℤ) < req.prevLogIndex + 1 + j →
        req.prevLogIndex + 1 + j ≤ k → n.logTermAt (req.prevLogIndex + 1 + j) = req.entries[j].term

instance (n : Node Id) (req : AppendEntriesRequest Id) (k : ℕ) :
    Decidable (n.KeepsUpTo req k) := by
  unfold KeepsUpTo
  infer_instance

theorem KeepsUpTo.keepsCommitted {n : Node Id} {req : AppendEntriesRequest Id}
    (h : n.KeepsUpTo req n.commitIndex) : n.KeepsCommitted req := fun ht hc => (h ht hc).1

/-- The loop of `mergeEntries` from `idx` on leaves the log up to `k` alone if it finds the same
    terms there. -/
theorem mergeLoop_take (n : Node Id) (changed : Bool) (idx : ℤ) (es : List Entry) {k : ℕ}
    (hk : k ≤ n.lastLogIndex)
    (h : ∀ j : Fin es.length, (n.lastIncludedIndex : ℤ) < idx + j → idx + j ≤ k →
      n.logTermAt (idx + j) = es[j].term) :
    (mergeLoop n changed idx es).1.take (k - n.lastIncludedIndex) =
      n.log.take (k - n.lastIncludedIndex) := by
  unfold lastLogIndex at hk
  induction es generalizing idx with
  | nil => rfl
  | cons e rest ih =>
    have hrest : ∀ j : Fin rest.length, (n.lastIncludedIndex : ℤ) < idx + 1 + j → idx + 1 + j ≤ k →
        n.logTermAt (idx + 1 + j) = rest[j].term := by
      intro j hb hj
      have hstep := h j.succ (by simp only [Fin.val_succ]; omega) (by simp only [Fin.val_succ]; omega)
      simp only [Fin.val_succ, Nat.cast_add, Nat.cast_one] at hstep
      rw [show idx + 1 + (j : ℤ) = idx + ((j : ℤ) + 1) by omega, hstep]
      rfl
    simp only [mergeLoop]
    split_ifs with hbase hin hterm
    · exact ih (idx + 1) hrest
    · exact ih (idx + 1) hrest
    · -- a conflict above `k`
      have hlt : (k : ℤ) < idx := by
        by_contra hle
        have hzero : n.logTermAt (idx + ((0 : ℕ) : ℤ)) = e.term := h ⟨0, by simp⟩ (by simpa using hbase)
          (by simpa using hle)
        rw [Nat.cast_zero, add_zero] at hzero
        exact hterm hzero
      rw [List.take_append_of_le_length (by rw [List.length_take]; omega), List.take_take,
        min_eq_left (by omega)]
    · rw [List.take_append_of_le_length (by omega)]

/-- An accepted request leaves the entries up to `k` where they are. -/
theorem mergeEntries_take {n : Node Id} {req : AppendEntriesRequest Id} {k : ℕ}
    (hk : k ≤ n.lastLogIndex)
    (hreach : (k : ℤ) ≤ max (n.lastIncludedIndex : ℤ) (req.prevLogIndex + req.entries.length))
    (h : ∀ j : Fin req.entries.length, (n.lastIncludedIndex : ℤ) < req.prevLogIndex + 1 + j →
      req.prevLogIndex + 1 + j ≤ k → n.logTermAt (req.prevLogIndex + 1 + j) = req.entries[j].term) :
    (n.mergeEntries req).1.log.take (k - n.lastIncludedIndex) =
      n.log.take (k - n.lastIncludedIndex) := by
  generalize hstop : req.prevLogIndex + (req.entries.length : ℤ) = stop at hreach
  have hbase := dropSuffix_base n stop
  -- the log without its suffix, up to `k`
  have hdrop : (n.dropSuffix stop).log.take (k - n.lastIncludedIndex) =
      n.log.take (k - n.lastIncludedIndex) := by
    unfold dropSuffix
    split_ifs
    · rw [List.take_take, min_eq_left (by omega)]
    · rfl
  by_cases hkb : k ≤ n.lastIncludedIndex
  · rw [Nat.sub_eq_zero_of_le hkb, List.take_zero, List.take_zero]
  have hlast : k ≤ (n.dropSuffix stop).lastLogIndex := by
    have hl := dropSuffix_lastLogIndex n stop
    split_ifs at hl <;> omega
  have hterms : ∀ x : ℤ, (n.lastIncludedIndex : ℤ) < x → x ≤ k →
      (n.dropSuffix stop).logTermAt x = n.logTermAt x := by
    intro x hx hxk
    have hget : (n.dropSuffix stop).log[(x - n.lastIncludedIndex - 1).toNat]? =
        n.log[(x - n.lastIncludedIndex - 1).toNat]? := by
      have hlt : (x - n.lastIncludedIndex - 1).toNat < k - n.lastIncludedIndex := by omega
      rw [← List.getElem?_take_of_lt hlt, hdrop, List.getElem?_take_of_lt hlt]
    unfold logTermAt
    rw [hbase, entryAt_eq_getElem? _ (by rw [hbase]; exact hx), entryAt_eq_getElem? _ hx, hbase, hget]
    have hne : ¬ x = n.lastIncludedIndex := by omega
    simp only [hne, ite_false]
  have hloop := mergeLoop_take (n.dropSuffix stop) (decide (stop < n.lastLogIndex))
    (req.prevLogIndex + 1) req.entries hlast fun j hb hj => by
      rw [hbase] at hb
      rw [hterms _ hb hj]
      exact h j hb hj
  rw [hbase, hdrop] at hloop
  unfold mergeEntries
  dsimp only
  rw [hstop]
  exact hloop

/-- Two logs over their bases agree on the entries up to `k` above both bases. -/
theorem entryAt_congr {n n' : Node Id} {k j : ℕ} (hbase : n'.lastIncludedIndex = n.lastIncludedIndex)
    (hlog : n'.log.take (k - n.lastIncludedIndex) = n.log.take (k - n.lastIncludedIndex))
    (hj : j ≤ k) : n'.entryAt j = n.entryAt j := by
  by_cases hb : j ≤ n.lastIncludedIndex
  · rw [Holds.entryAt_base n hb, Holds.entryAt_base n' (hbase ▸ hb)]
  · have hlt : ((j : ℤ) - n.lastIncludedIndex - 1).toNat < k - n.lastIncludedIndex := by omega
    rw [entryAt_eq_getElem? n (by omega), entryAt_eq_getElem? n' (by rw [hbase]; omega), hbase,
      ← List.getElem?_take_of_lt hlt, hlog, List.getElem?_take_of_lt hlt]

theorem exists_entryAt (n : Node Id) {k : ℕ} (hb : n.lastIncludedIndex < k)
    (hk : k ≤ n.lastLogIndex) : ∃ en, n.entryAt k = some en := by
  unfold lastLogIndex at hk
  rw [n.entryAt_eq_getElem? (by omega)]
  exact ⟨_, List.getElem?_eq_getElem (by omega)⟩

theorem le_lastLogIndex_of_entryAt {n : Node Id} {k : ℕ} {en : Entry} (h : n.entryAt k = some en) :
    k ≤ n.lastLogIndex := by
  by_cases hb : k ≤ n.lastIncludedIndex
  · rw [Holds.entryAt_base n hb] at h
    cases h
  · rw [n.entryAt_eq_getElem? (by omega)] at h
    have hlt := (List.getElem?_eq_some_iff.mp h).1
    unfold lastLogIndex
    omega

theorem KeepsUpTo.entryAt [DecidableEq Id] {n : Node Id} {req : AppendEntriesRequest Id} {k j : ℕ}
    (h : n.KeepsUpTo req k) (hk : k ≤ n.lastLogIndex) (hj : j ≤ k) :
    (n.handleAppendEntries req).1.entryAt j = n.entryAt j := by
  have hsame := (follow_quiet n req.term req.leaderID).sameLog
  by_cases ht : req.term < n.term
  · rw [(handleAppendEntries_stale ht).1]
  by_cases hc : n.checkPrevLog req.prevLogIndex req.prevLogTerm = true
  · obtain ⟨hreach, hterms⟩ := h ht hc
    have hc' := (follow_checkPrevLog n req.term req.leaderID _ _).trans hc
    obtain ⟨hlog, -⟩ := handleAppendEntries_accepted ht hc'
    have hbase := (n.handleAppendEntries_progress req).2
    -- the follower has the log and the base of the node
    have htake : ((n.follow req.term req.leaderID).mergeEntries req).1.log.take
        (k - n.lastIncludedIndex) = n.log.take (k - n.lastIncludedIndex) := by
      rw [← hsame.base, ← hsame.log]
      refine mergeEntries_take ?_ ?_ fun i hb hi => ?_
      · unfold lastLogIndex at hk ⊢
        rw [hsame.log, hsame.base]
        exact hk
      · rw [hsame.base]
        exact hreach
      · rw [hsame.base] at hb
        rw [hsame.logTermAt]
        exact hterms i hb hi
    rw [← hlog] at htake
    exact entryAt_congr hbase htake hj
  · have hc' := (follow_checkPrevLog n req.term req.leaderID _ _).trans (Bool.eq_false_iff.mpr hc)
    rw [(handleAppendEntries_rejected ht hc').1]
    exact entryAt_congr hsame.base (by rw [hsame.log]) hj

/-- Above the new base a snapshot leaves the entries where they are. -/
theorem adoptSnapshot_entryAt (n : Node Id) (req : InstallSnapshotRequest Id) {k : ℕ}
    (hb : n.lastIncludedIndex ≤ req.lastIncludedIndex.toNat)
    (hk : req.lastIncludedIndex.toNat < k) : (n.adoptSnapshot req).entryAt k = n.entryAt k := by
  rw [entryAt_eq_getElem? n (by omega), entryAt_eq_getElem? (n.adoptSnapshot req)
    (by simp only [adoptSnapshot]; omega)]
  simp only [adoptSnapshot, List.getElem?_drop]
  by_cases hlen : req.lastIncludedIndex.toNat - n.lastIncludedIndex ≤ n.log.length
  · congr 1
    omega
  · rw [List.getElem?_eq_none (by omega), List.getElem?_eq_none (by omega)]

/-- So does a compaction. -/
theorem compactLog_entryAt (n : Node Id) {idx k : ℕ} (label : ℤ)
    (hk : (n.compactLog idx label).lastIncludedIndex < k) (hlast : k ≤ n.lastLogIndex) :
    (n.compactLog idx label).entryAt k = n.entryAt k := by
  by_cases hle : idx ≤ n.lastIncludedIndex
  · rw [compactLog, if_pos hle]
  · have hidx : idx < k := by
      rwa [(n.compactLog_progress idx label).1, max_eq_right (not_le.mp hle).le] at hk
    have hlt : ¬ idx ≥ n.lastLogIndex := by omega
    rw [entryAt_eq_getElem? n (by omega), entryAt_eq_getElem? _ (Nat.cast_lt.mpr hk)]
    simp only [compactLog, hle, hlt, ite_false, List.getElem?_drop]
    congr 1
    omega

end Node

namespace Process

variable {p : Process Id} {inp : Input Id} {e : Effect Id}

/-- The section is no accepted request that takes back an entry up to `k`. -/
def KeepsUpTo (p : Process Id) (k : ℕ) : Input Id → Prop
  | .appendEntries req => p.node.KeepsUpTo req k
  | _ => True

theorem keepsUpTo_iff (p : Process Id) (k : ℕ) (inp : Input Id) :
    (∀ req ∈ inp.appendRequest?, p.node.KeepsUpTo req k) ↔ p.KeepsUpTo k inp := by
  cases inp <;> simp [Input.appendRequest?, KeepsUpTo]

instance [DecidableEq Id] (p : Process Id) (k : ℕ) (inp : Input Id) : Decidable (p.KeepsUpTo k inp) :=
  decidable_of_iff _ (p.keepsUpTo_iff k inp)

theorem KeepsUpTo.keepsCommitted (h : p.KeepsUpTo p.node.commitIndex inp) :
    p.KeepsCommitted inp := by
  unfold KeepsCommitted
  split
  · exact Node.KeepsUpTo.keepsCommitted h
  · trivial

/-- A section that keeps the entries up to `k` keeps each of them in its place, above the base it
    leaves. -/
theorem entryAt_of_step [DecidableEq Id] (hstep : p.step inp = some e) (hr : inp ≠ .restart) {k j : ℕ}
    (hbase : p.node.lastIncludedIndex ≤ p.node.lastApplied) (hkeep : p.KeepsUpTo k inp)
    (hk : k ≤ p.node.lastLogIndex) (hj : j ≤ k) (hb : e.proc.node.lastIncludedIndex < j) :
    e.proc.node.entryAt j = p.node.entryAt j := by
  have hmove := logMove hstep
  generalize e.proc.node = n' at hmove hb
  cases hmove with
  | keep _ hl _ _ => exact Node.entryAt_congr hl.base (by rw [hl.log]) hj
  | elected _ _ _ _ _ _ => rfl
  | propose cmd _ =>
    obtain ⟨-, -, -, -, hbase', -⟩ := p.node.appendEntry_frame cmd
    unfold Node.lastLogIndex at hk
    refine Node.entryAt_congr hbase' ?_ hj
    rw [Node.appendEntry_log, List.take_append_of_le_length (by omega)]
  | accept req _ _ => exact Node.KeepsUpTo.entryAt hkeep hk hj
  | install req _ hi =>
    have hsame := (Node.follow_quiet p.node req.term req.leaderID).sameLog
    rw [Node.adoptSnapshot_entryAt _ _ (by rw [hsame.base]; omega) hb]
    exact Node.entryAt_congr hsame.base (by rw [hsame.log]) hj
  | compact idx label _ => exact p.node.compactLog_entryAt label hb (hj.trans hk)
  | restart => exact absurd rfl hr

end Process

end KvStore.Raft
