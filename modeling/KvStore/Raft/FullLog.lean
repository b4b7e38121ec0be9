import KvStore.Raft.Handlers

/-!
# The whole log behind a compacted one

A node keeps the entries after its compaction base. `Node.Holds n l` says that `l`
is the whole log the node stands for: its own entries are what `l` has after the
base, and `lastIncludedTerm` is the term `l` has at the base. The log operations
of a node are operations on that whole log: appending (`appendEntry_holds`),
compaction changes nothing (`compactLog_holds`), a snapshot replaces the beginning
(`adoptSnapshot_holds`), and `mergeEntries` makes the log that of the sender as far
as the request reaches (`mergeEntries_holds`).
-/

namespace KvStore.Raft

open KvStore.Storage (Command)

variable {Id : Type}

/-- The term of the last entry, `0` for an empty log. -/
def lastTerm (l : List Entry) : ℤ := (l.getLast?.map Entry.term).getD 0

theorem lastTerm_take_succ {l : List Entry} {k : ℕ} {e : Entry} (h : l[k]? = some e) :
    lastTerm (l.take (k + 1)) = e.term := by
  rw [lastTerm, List.take_add_one, h]
  simp

theorem drop_take_append {l : List Entry} {b k m : ℕ} (hb : b ≤ k) (hk : k ≤ m)
    (hl : k ≤ l.length) : (l.take k).drop b ++ (l.take m).drop k = (l.take m).drop b := by
  have hsplit : l.take k ++ (l.take m).drop k = l.take m := by
    have := List.take_append_drop k (l.take m)
    rwa [List.take_take, min_eq_left hk] at this
  conv_rhs => rw [← hsplit, List.drop_append_of_le_length (by rw [List.length_take]; omega)]

theorem take_eq_of_le {l l' : List Entry} {k : ℕ} (h : l <+: l') (hk : k ≤ l.length) :
    l'.take k = l.take k := by
  obtain ⟨t, rfl⟩ := h
  rw [List.take_append_of_le_length hk]

/-- The last index an `AppendEntries` request covers. -/
def AppendEntriesRequest.stop (req : AppendEntriesRequest Id) : ℕ :=
  (req.prevLogIndex + req.entries.length).toNat

namespace Node

/-- Above the base the log is a list. -/
theorem entryAt_eq_getElem? (n : Node Id) {k : ℤ} (hk : n.lastIncludedIndex < k) :
    n.entryAt k = n.log[(k - n.lastIncludedIndex - 1).toNat]? := by
  unfold entryAt logOffset
  dsimp only
  split_ifs with h
  · rw [Option.bind_none, List.getElem?_eq_none (by omega)]
  · rfl

theorem logTermAt_of_getElem? {n : Node Id} {k : ℤ} {e : Entry} (hk : n.lastIncludedIndex < k)
    (he : n.log[(k - n.lastIncludedIndex - 1).toNat]? = some e) : n.logTermAt k = e.term := by
  unfold logTermAt
  rw [if_neg (by omega), if_neg (by omega), n.entryAt_eq_getElem? hk, he]

/-- The node stands for the whole log `l`. -/
structure Holds (n : Node Id) (l : List Entry) : Prop where
  base_le : n.lastIncludedIndex ≤ l.length
  log_eq : n.log = l.drop n.lastIncludedIndex
  base_term : n.lastIncludedTerm = lastTerm (l.take n.lastIncludedIndex)

namespace Holds

variable {n n' : Node Id} {l l' : List Entry}

/-- `Holds` looks at the log and its base only. -/
theorem congr (h : n.Holds l) (h1 : n'.log = n.log)
    (h2 : n'.lastIncludedIndex = n.lastIncludedIndex)
    (h3 : n'.lastIncludedTerm = n.lastIncludedTerm) : n'.Holds l :=
  ⟨h2 ▸ h.base_le, by rw [h1, h2, h.log_eq], by rw [h3, h2, h.base_term]⟩

theorem length_log (h : n.Holds l) : n.log.length = l.length - n.lastIncludedIndex := by
  rw [h.log_eq, List.length_drop]

theorem lastLogIndex_eq (h : n.Holds l) : n.lastLogIndex = l.length := by
  have := h.base_le
  rw [lastLogIndex, h.length_log]
  omega

theorem lastLogTerm_eq (h : n.Holds l) : n.lastLogTerm = lastTerm l := by
  unfold lastLogTerm
  rw [h.log_eq]
  by_cases hlt : n.lastIncludedIndex < l.length
  · have hne : l.drop n.lastIncludedIndex ≠ [] := by
      intro hnil
      rw [List.drop_eq_nil_iff] at hnil
      omega
    have hl : l ≠ [] := by rintro rfl; simp at hlt
    rw [List.getLast?_eq_getLast_of_ne_nil hne, List.getLast_drop, lastTerm,
      List.getLast?_eq_getLast_of_ne_nil hl]
    rfl
  · have hge : l.length ≤ n.lastIncludedIndex := by omega
    rw [List.drop_eq_nil_of_le hge, h.base_term, List.take_of_length_le hge]
    rfl

/-- `entryAt` reads the whole log above the base. -/
theorem entryAt_eq (h : n.Holds l) {k : ℕ} (hk : n.lastIncludedIndex < k) :
    n.entryAt k = l[k - 1]? := by
  have hb := h.base_le
  unfold entryAt logOffset
  simp only [h.length_log]
  split_ifs with hc
  · have hge : l.length ≤ k - 1 := by omega
    rw [List.getElem?_eq_none hge]
    rfl
  · have hoff : ((k : ℤ) - n.lastIncludedIndex - 1).toNat = k - n.lastIncludedIndex - 1 := by omega
    rw [Option.bind_some, hoff, h.log_eq, List.getElem?_drop]
    congr 1
    omega

theorem entryAt_base (n : Node Id) {k : ℕ} (hk : k ≤ n.lastIncludedIndex) : n.entryAt k = none := by
  unfold entryAt logOffset
  dsimp only
  rw [if_pos (by omega)]
  rfl

theorem entryAt_some (h : n.Holds l) {k : ℕ} {e : Entry} (he : n.entryAt k = some e) :
    n.lastIncludedIndex < k ∧ l[k - 1]? = some e := by
  have hlt : n.lastIncludedIndex < k := by
    by_contra hge
    rw [entryAt_base n (not_lt.mp hge)] at he
    cases he
  exact ⟨hlt, h.entryAt_eq hlt ▸ he⟩

theorem logTermAt_eq (h : n.Holds l) {k : ℕ} (hb : n.lastIncludedIndex ≤ k)
    (hk : k ≤ l.length) : n.logTermAt k = lastTerm (l.take k) := by
  unfold logTermAt
  by_cases h0 : k = 0
  · subst h0
    rfl
  · rw [if_neg (by omega)]
    by_cases hkb : k = n.lastIncludedIndex
    · rw [if_pos (by omega), h.base_term, hkb]
    · rw [if_neg (by omega), h.entryAt_eq (by omega)]
      have hlt : k - 1 < l.length := by omega
      have hget := List.getElem?_eq_getElem hlt
      rw [hget]
      have := lastTerm_take_succ hget
      rw [show k - 1 + 1 = k by omega] at this
      exact this.symm

/-- Below the base, and above the end, `logTermAt` knows nothing. -/
theorem logTermAt_unknown (h : n.Holds l) {k : ℕ} (h0 : k ≠ 0)
    (hk : k < n.lastIncludedIndex ∨ l.length < k) : n.logTermAt k = -1 := by
  have hb := h.base_le
  unfold logTermAt
  rw [if_neg (by omega), if_neg (by omega)]
  have hnone : n.entryAt k = none := by
    rcases hk with hk | hk
    · exact entryAt_base n hk.le
    · rw [h.entryAt_eq (by omega), List.getElem?_eq_none (by omega)]
  rw [hnone]

end Holds

/-! ## Appending, compacting, installing -/

theorem appendEntry_holds {n : Node Id} {l : List Entry} (h : n.Holds l) (cmd : Command) :
    (n.appendEntry cmd).Holds (l ++ [⟨n.term, cmd⟩]) := by
  have hlog : (n.appendEntry cmd).log = n.log ++ [⟨n.term, cmd⟩] := by
    unfold appendEntry; dsimp only; split_ifs <;> rfl
  have hbase : (n.appendEntry cmd).lastIncludedIndex = n.lastIncludedIndex := by
    unfold appendEntry; dsimp only; split_ifs <;> rfl
  have hterm : (n.appendEntry cmd).lastIncludedTerm = n.lastIncludedTerm := by
    unfold appendEntry; dsimp only; split_ifs <;> rfl
  have hb := h.base_le
  refine ⟨?_, ?_, ?_⟩
  · rw [hbase, List.length_append]; omega
  · rw [hlog, hbase, List.drop_append_of_le_length hb, h.log_eq]
  · rw [hterm, hbase, List.take_append_of_le_length hb, h.base_term]

/-- Compaction leaves the whole log alone if the label is the term of the new base. -/
theorem compactLog_holds {n : Node Id} {l : List Entry} (h : n.Holds l) {k : ℕ} {label : ℤ}
    (hk : k ≤ l.length) (hlabel : k ≤ n.lastIncludedIndex ∨ label = lastTerm (l.take k)) :
    (n.compactLog k label).Holds l := by
  unfold compactLog
  split
  · exact h
  · next hlt =>
    have hb := h.base_le
    refine ⟨hk, ?_, ?_⟩
    · dsimp only
      rw [h.lastLogIndex_eq]
      split
      · next hge => rw [List.drop_eq_nil_of_le hge]
      · rw [h.log_eq, List.drop_drop]
        congr 1
        omega
    · dsimp only
      rw [h.lastLogIndex_eq]
      split
      · next hge => rw [h.lastLogTerm_eq, List.take_of_length_le hge]
      · exact hlabel.resolve_left hlt

/-- A snapshot replaces the log up to its index and keeps what follows. -/
theorem adoptSnapshot_holds {n : Node Id} {l C : List Entry} (h : n.Holds l)
    {req : InstallSnapshotRequest Id} (hidx : req.lastIncludedIndex = C.length)
    (hlabel : req.lastIncludedTerm = lastTerm C) (hb : n.lastIncludedIndex ≤ C.length) :
    (n.adoptSnapshot req).Holds (C ++ l.drop C.length) := by
  have hnat : req.lastIncludedIndex.toNat = C.length := by omega
  unfold adoptSnapshot
  rw [hnat]
  refine ⟨by simp, ?_, ?_⟩
  · dsimp only
    rw [List.drop_left, h.log_eq, List.drop_drop, List.length_drop]
    rcases Nat.le_total C.length l.length with hle | hle
    · congr 1
      omega
    · rw [List.drop_eq_nil_of_le (by omega), List.drop_eq_nil_of_le hle]
  · dsimp only
    rw [List.take_left, hlabel]

/-! ## Merging the entries of a request -/

/-- The loop of `mergeEntries`, run on the entries of `R` from position `k` to `m`,
    when the node agrees with `R` up to its base and up to `k`. -/
theorem mergeLoop_holds {n : Node Id} {l R : List Entry} {m : ℕ} (h : n.Holds l)
    (hbR : n.lastIncludedIndex ≤ R.length) (hmR : m ≤ R.length)
    (hb : l.take n.lastIncludedIndex = R.take n.lastIncludedIndex)
    (hlen : l.length ≤ max m n.lastIncludedIndex)
    (hmatch : ∀ (j : ℕ) (e e' : Entry), l[j]? = some e → R[j]? = some e' → e.term = e'.term → e = e')
    (changed : Bool) {es : List Entry} {k : ℕ} (hes : es = (R.take m).drop k) (hk : k ≤ m)
    (hag : l.take k = R.take k) :
    ({ n with log := (n.mergeLoop changed (k + 1) es).1 } : Node Id).Holds
      (R.take (max m n.lastIncludedIndex)) := by
  have hbl := h.base_le
  -- whatever the new log, its base lies in the part where `l` and `R` agree
  have hmk : ∀ log : List Entry,
      log = (R.take (max m n.lastIncludedIndex)).drop n.lastIncludedIndex →
      ({ n with log := log } : Node Id).Holds (R.take (max m n.lastIncludedIndex)) := by
    intro log hlog
    refine ⟨?_, hlog, ?_⟩
    · rw [List.length_take]
      dsimp only
      omega
    · rw [List.take_take, show min n.lastIncludedIndex (max m n.lastIncludedIndex) =
        n.lastIncludedIndex by omega, ← hb]
      exact h.base_term
  induction es generalizing k with
  | nil =>
    have hkm : k = m := by
      have := congrArg List.length hes
      simp only [List.length_nil, List.length_drop, List.length_take] at this
      omega
    subst hkm
    refine hmk _ ?_
    rw [mergeLoop, h.log_eq]
    rcases Nat.le_total k n.lastIncludedIndex with hle | hle
    · rw [max_eq_right hle] at hlen ⊢
      rw [List.drop_eq_nil_of_le hlen, List.drop_eq_nil_of_le (by rw [List.length_take]; omega)]
    · rw [max_eq_left hle] at hlen ⊢
      rw [← hag, List.take_of_length_le hlen]
  | cons e rest ih =>
    have hklt : k < m := by
      have := congrArg List.length hes
      simp only [List.length_cons, List.length_drop, List.length_take] at this
      omega
    have hkR : k < R.length := by omega
    have hcons : (R.take m).drop k = R[k] :: (R.take m).drop (k + 1) := by
      rw [List.drop_eq_getElem_cons (by rw [List.length_take]; omega), List.getElem_take]
    rw [hcons] at hes
    obtain ⟨he, hrest⟩ := List.cons.inj hes
    have hRk : R[k]? = some e := by rw [List.getElem?_eq_getElem hkR, he]
    -- the recursive calls: one more position agrees
    have hnext : l.take (k + 1) = R.take (k + 1) →
        ({ n with log := (n.mergeLoop changed ((k : ℤ) + 1 + 1) rest).1 } : Node Id).Holds
          (R.take (max m n.lastIncludedIndex)) := by
      intro hag'
      have := ih hrest (by omega) hag'
      push_cast at this
      exact this
    rw [mergeLoop]
    split_ifs with hc1 hc2 hc3
    · refine hnext ?_
      have := congrArg (List.take (k + 1)) hb
      rwa [List.take_take, List.take_take, show min (k + 1) n.lastIncludedIndex = k + 1 by omega]
        at this
    · rw [h.lastLogIndex_eq] at hc2
      have hlk : k < l.length := by omega
      have hget := List.getElem?_eq_getElem hlk
      refine hnext ?_
      have hterm : n.logTermAt ((k : ℤ) + 1) = l[k].term := by
        have := h.logTermAt_eq (k := k + 1) (by omega) (by omega)
        rw [lastTerm_take_succ hget] at this
        exact_mod_cast this
      have heq := hmatch k _ _ hget hRk (hterm.symm.trans hc3)
      rw [List.take_add_one, List.take_add_one, hag, hget, hRk, heq]
    · rw [h.lastLogIndex_eq] at hc2
      refine hmk _ ?_
      have hnat : ((k : ℤ) + 1 - n.lastIncludedIndex - 1).toNat = k - n.lastIncludedIndex := by
        omega
      rw [hnat, h.log_eq, he, hrest, ← hcons, ← List.drop_take, hag,
        max_eq_left (by omega : n.lastIncludedIndex ≤ m)]
      exact drop_take_append (by omega) hklt.le hkR.le
    · rw [h.lastLogIndex_eq] at hc2
      refine hmk _ ?_
      have hll : l.length = k := by
        have := congrArg List.length hag
        simp only [List.length_take] at this
        omega
      rw [List.take_of_length_le hll.le] at hag
      rw [h.log_eq, he, hrest, ← hcons, hag, max_eq_left (by omega : n.lastIncludedIndex ≤ m)]
      exact drop_take_append (by omega) hklt.le hkR.le

theorem dropSuffix_holds {n : Node Id} {l : List Entry} (h : n.Holds l) (stop : ℕ) :
    (n.dropSuffix stop).Holds (l.take (max stop n.lastIncludedIndex)) := by
  have hb := h.base_le
  unfold dropSuffix
  rw [h.lastLogIndex_eq]
  split
  · next hlt =>
    refine ⟨?_, ?_, ?_⟩
    · rw [List.length_take]
      dsimp only
      omega
    · have hnat : ((stop : ℤ) - n.lastIncludedIndex).toNat = stop - n.lastIncludedIndex := by omega
      dsimp only
      rw [hnat, h.log_eq, List.drop_take]
      congr 1
      omega
    · dsimp only
      rw [List.take_take, min_eq_left (le_max_right _ _), h.base_term]
  · next hge =>
    rw [List.take_of_length_le (by omega)]
    exact h

theorem dropSuffix_base (n : Node Id) (stop : ℤ) :
    (n.dropSuffix stop).lastIncludedIndex = n.lastIncludedIndex := by
  unfold dropSuffix
  split <;> rfl

/-- What a request built from the log `R` when it had length `m` carries: the entries
    after `prev`, or nothing if the sender believed that the follower is further than `m`. -/
def Carries (req : AppendEntriesRequest Id) (R : List Entry) (m prev : ℕ) : Prop :=
  req.prevLogIndex = prev ∧ m ≤ R.length ∧
    ((prev ≤ m ∧ req.entries = (R.take m).drop prev ∧ req.prevLogTerm = lastTerm (R.take prev)) ∨
      (m < prev ∧ req.entries = [] ∧ req.prevLogTerm = -1))

/-- What `replicateToPeer` sends carries the log of the sender. -/
theorem appendRequest_carries [DecidableEq Id] {n : Node Id} {l R : List Entry} (h : n.Holds l) (hR : l <+: R)
    {peer : Id} (hf : n.firstIndex ≤ n.nextFor peer) :
    Carries (n.appendRequest peer) R l.length (n.nextFor peer - 1) := by
  generalize hnext : n.nextFor peer = next at hf
  unfold firstIndex at hf
  have hdrop : n.log.drop (next - n.firstIndex) = l.drop (next - 1) := by
    rw [h.log_eq, List.drop_drop]
    congr 1
    unfold firstIndex
    omega
  refine ⟨by simp only [appendRequest, hnext], hR.length_le, ?_⟩
  simp only [appendRequest, hnext, hdrop]
  rcases Nat.lt_or_ge l.length (next - 1) with hlt | hge
  · exact .inr ⟨hlt, List.drop_eq_nil_of_le hlt.le, h.logTermAt_unknown (by omega) (.inr hlt)⟩
  · refine .inl ⟨hge, ?_, ?_⟩
    · rw [take_eq_of_le hR le_rfl, List.take_length]
    · rw [take_eq_of_le hR hge]
      exact h.logTermAt_eq (by omega) hge

/-- A request goes on carrying a log that grows. -/
theorem Carries.mono {req : AppendEntriesRequest Id} {R R' : List Entry} {m prev : ℕ}
    (h : Carries req R m prev) (hR : R <+: R') : Carries req R' m prev := by
  obtain ⟨hprev, hm, hcase⟩ := h
  refine ⟨hprev, hm.trans hR.length_le, hcase.imp_left ?_⟩
  rintro ⟨hle, hes, hterm⟩
  exact ⟨hle, by rw [take_eq_of_le hR hm, hes], by rw [take_eq_of_le hR (hle.trans hm), hterm]⟩

/-- Where an accepted request ends: at `m`, or below the base. -/
theorem Carries.max_stop {req : AppendEntriesRequest Id} {R : List Entry} {m prev base : ℕ}
    (h : Carries req R m prev) (hbelow : m < prev → prev < base) :
    max (req.prevLogIndex + req.entries.length).toNat base = max m base := by
  obtain ⟨hprev, hm, ⟨hle, hes, -⟩ | ⟨hlt, hes, -⟩⟩ := h
  · rw [hprev, hes, List.length_drop, List.length_take]
    omega
  · have := hbelow hlt
    rw [hprev, hes, List.length_nil]
    omega

/-- A request that passes `checkPrevLog` meets the log at `prev`, if it does so up to a point
    `b` and entries of one term from there on come with the same entries before them. -/
theorem Holds.prev_agrees {n : Node Id} {l R : List Entry} {m prev b : ℕ} (h : n.Holds l)
    {req : AppendEntriesRequest Id} (hcar : Carries req R m prev)
    (hcheck : n.checkPrevLog req.prevLogIndex req.prevLogTerm = true) (hle : prev ≤ m)
    (hb : n.lastIncludedIndex ≤ b + 1) (hbase : prev ≤ b → l.take prev = R.take prev)
    (hmatch : ∀ (j : ℕ) (e e' : Entry), b ≤ j → l[j]? = some e →
      R[j]? = some e' → e.term = e'.term → l.take (j + 1) = R.take (j + 1)) :
    l.take prev = R.take prev := by
  obtain ⟨hprev, hm, hcase⟩ := hcar
  obtain ⟨_, _, hterm⟩ : prev ≤ m ∧ _ ∧ _ := hcase.resolve_right fun hc => by omega
  rcases Nat.lt_or_ge b prev with hlt | hge
  · unfold checkPrevLog at hcheck
    rw [hprev, h.lastLogIndex_eq] at hcheck
    split_ifs at hcheck with h1 h2
    have hpl : prev ≤ l.length := by omega
    have hlast : n.logTermAt prev = req.prevLogTerm := by
      by_contra hne
      exact h2 ⟨by omega, hne⟩
    rw [h.logTermAt_eq (by omega) hpl, hterm] at hlast
    -- the entries at `prev` carry the same term
    obtain ⟨k, rfl⟩ : ∃ k, prev = k + 1 := ⟨prev - 1, by omega⟩
    have hget := List.getElem?_eq_getElem (show k < l.length by omega)
    have hget' := List.getElem?_eq_getElem (show k < R.length by omega)
    rw [lastTerm_take_succ hget, lastTerm_take_succ hget'] at hlast
    exact hmatch k _ _ (by omega) hget hget' hlast
  · exact hbase hge

/-- A request without known term passes `checkPrevLog` only below the base. -/
theorem Holds.prev_below {n : Node Id} {l R : List Entry} {m prev : ℕ} (h : n.Holds l)
    {req : AppendEntriesRequest Id} (hcar : Carries req R m prev)
    (hcheck : n.checkPrevLog req.prevLogIndex req.prevLogTerm = true) (hlt : m < prev)
    (hnonneg : ∀ e ∈ l, 0 ≤ e.term) : prev < n.lastIncludedIndex := by
  obtain ⟨hprev, hm, hcase⟩ := hcar
  obtain ⟨_, _, hterm⟩ : m < prev ∧ _ ∧ _ := hcase.resolve_left fun hc => by omega
  by_contra hge
  unfold checkPrevLog at hcheck
  rw [hprev, h.lastLogIndex_eq] at hcheck
  split_ifs at hcheck with h1 h2
  have hpl : prev ≤ l.length := by omega
  have heq : n.logTermAt prev = -1 := by
    by_contra hne
    exact h2 ⟨by omega, by rw [hterm]; exact hne⟩
  rw [h.logTermAt_eq (by omega) hpl] at heq
  obtain ⟨k, rfl⟩ : ∃ k, prev = k + 1 := ⟨prev - 1, by omega⟩
  have hget := List.getElem?_eq_getElem (show k < l.length by omega)
  rw [lastTerm_take_succ hget] at heq
  have := hnonneg _ (List.mem_of_getElem? hget)
  omega

/-- A request that passes `checkPrevLog` leaves the follower with the sender's log as far as
    it went, or with its own compacted part if that goes further. -/
theorem mergeEntries_holds {n : Node Id} {l R : List Entry} {m prev : ℕ} (h : n.Holds l)
    {req : AppendEntriesRequest Id} (hreq : Carries req R m prev)
    (hbR : n.lastIncludedIndex ≤ R.length)
    (hb : l.take n.lastIncludedIndex = R.take n.lastIncludedIndex)
    (hmatch : ∀ (j : ℕ) (e e' : Entry), l[j]? = some e → R[j]? = some e' → e.term = e'.term → e = e')
    (hag : prev ≤ m → l.take prev = R.take prev) (hbelow : m < prev → prev < n.lastIncludedIndex) :
    (n.mergeEntries req).1.Holds (R.take (max m n.lastIncludedIndex)) := by
  obtain ⟨hprev, hmR, ⟨hle, hes, _⟩ | ⟨hlt, hes, _⟩⟩ := hreq
  · have hstop : req.prevLogIndex + req.entries.length = m := by
      rw [hprev, hes, List.length_drop, List.length_take]
      omega
    have hdrop := dropSuffix_holds h m
    have hbase := dropSuffix_base n m
    unfold mergeEntries
    rw [hstop]
    dsimp only
    rw [hprev]
    have hmerge := mergeLoop_holds hdrop (hbase ▸ hbR) hmR ?_ ?_ ?_
      (decide ((m : ℤ) < n.lastLogIndex)) hes hle ?_
    · rw [hbase] at hmerge
      refine hmerge.congr rfl rfl ?_
      unfold dropSuffix; split <;> rfl
    · rw [hbase, List.take_take, min_eq_left (le_max_right _ _), hb]
    · rw [hbase, List.length_take]
      exact min_le_left _ _
    · intro j e e' he
      refine hmatch j e e' (List.getElem?_eq_some_iff.mpr ?_)
      obtain ⟨hj, rfl⟩ := List.getElem?_eq_some_iff.mp he
      rw [List.length_take] at hj
      exact ⟨by omega, by rw [List.getElem_take]⟩
    · rw [List.take_take, min_eq_left (by omega), hag hle]
  · have hpb := hbelow hlt
    have hstop : req.prevLogIndex + req.entries.length = prev := by rw [hprev, hes]; simp
    have hdrop := dropSuffix_holds h prev
    rw [max_eq_right hpb.le, hb] at hdrop
    unfold mergeEntries
    rw [hstop, hes, max_eq_right (by omega)]
    dsimp only [mergeLoop]
    refine hdrop.congr rfl (dropSuffix_base n prev).symm ?_
    unfold dropSuffix; split <;> rfl

/-- The loop of `mergeEntries` skips entries that the base covers. -/
theorem mergeLoop_covered (n : Node Id) {changed : Bool} {idx : ℤ} {es : List Entry}
    (h : idx + es.length ≤ n.lastIncludedIndex + 1) : (n.mergeLoop changed idx es).1 = n.log := by
  induction es generalizing idx with
  | nil => rfl
  | cons e rest ih =>
    rw [List.length_cons] at h
    push_cast at h
    rw [mergeLoop, if_pos (by omega)]
    exact ih (by omega)

/-- A request that ends within the base leaves nothing but the base. -/
theorem mergeEntries_covered {n : Node Id} {l : List Entry} (h : n.Holds l)
    {req : AppendEntriesRequest Id}
    (hstop : req.prevLogIndex + req.entries.length ≤ n.lastIncludedIndex) :
    (n.mergeEntries req).1.Holds (l.take n.lastIncludedIndex) := by
  have hb := h.base_le
  have hbase : (l.take n.lastIncludedIndex).length = n.lastIncludedIndex := by
    rw [List.length_take, min_eq_left hb]
  refine ⟨hbase.ge, ?_, ?_⟩
  · change (mergeLoop _ _ _ _).1 = List.drop n.lastIncludedIndex _
    rw [mergeLoop_covered _ (by rw [dropSuffix_base]; omega), List.drop_eq_nil_of_le hbase.le]
    unfold dropSuffix
    split_ifs with hlt
    · rw [Int.toNat_of_nonpos (by omega), List.take_zero]
    · unfold lastLogIndex at hlt
      exact List.length_eq_zero_iff.mp (by omega)
  · change n.lastIncludedTerm = lastTerm (List.take n.lastIncludedIndex _)
    rw [List.take_take, min_self]
    exact h.base_term

end Node

end KvStore.Raft
