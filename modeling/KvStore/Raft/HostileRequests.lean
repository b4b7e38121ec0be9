import KvStore.Raft.MachineHandlers

/-!
# Requests with arbitrary integers

The inbound handlers take their requests unvalidated from the network. From a fresh node on, every
index and bound they use is in range, except for one: `mergeEntries` cuts `n.log` at
`PrevLogIndex + len(Entries) - lastIncludedIndex`, and where that sum or that difference wraps the
bound can be beyond the capacity.

* `Node.dropSuffix_eq_outOfRange_iff`: when that happens, in terms of the exact integers.
* `Host.run_in_range_iff`: a run is in range throughout exactly if none of its requests `Overruns`
  the log of the state it finds.
* `Host.run_out_of_range`: two requests that leave the node locked.
-/

namespace KvStore.Raft.Machine

open KvStore.Machine

variable {Id : Type}

namespace Node

variable {n m : Node Id} {index stop idx : Int64} {room : Option ℕ}

/-! ## Reading the log is always in range -/

theorem toInt_logOffset_lt (h : n.logOffset index ≥ 0) :
    0 ≤ (n.logOffset index).toInt ∧ (n.logOffset index).toInt < n.log.size := by
  have hlo := Int64.le_iff_toInt_le.mp h
  rw [Int64.toInt_zero] at hlo
  refine ⟨hlo, ?_⟩
  rw [logOffset] at h ⊢
  split_ifs at h ⊢ with hout
  · exact absurd h (by decide)
  · have hlt := Int64.lt_iff_toInt_lt.mp (Int64.not_le.mp (not_or.mp hout).2)
    rwa [Slice.toInt_len] at hlt

theorem entryAt_ok (n : Node Id) (index : Int64) : ∃ e, n.entryAt index = .ok e := by
  rw [entryAt]
  split_ifs with hoff
  · obtain ⟨hlo, hhi⟩ := toInt_logOffset_lt hoff
    obtain ⟨e, -, he⟩ := Slice.get_of_lt hlo hhi
    exact ⟨some e, by rw [he]; rfl⟩
  · exact ⟨none, rfl⟩

theorem logTermAt_ok (n : Node Id) (index : Int64) : ∃ term, n.logTermAt index = .ok term := by
  rw [logTermAt]
  split_ifs
  · exact ⟨_, rfl⟩
  · exact ⟨_, rfl⟩
  · obtain ⟨e, he⟩ := n.entryAt_ok index
    exact ⟨_, by rw [he]; rfl⟩

theorem lastLogTerm_ok (n : Node Id) : ∃ term, n.lastLogTerm = .ok term := by
  rw [lastLogTerm]
  split_ifs with hpos
  · have hpos' := Int64.lt_iff_toInt_lt.mp hpos
    rw [Int64.toInt_zero, Slice.toInt_len] at hpos'
    have hlast : (n.log.len - 1).toInt = n.log.size - 1 := by
      have hlt := n.log.len.toInt_lt
      rw [toInt_sub_of_bounds, Slice.toInt_len, Int64.toInt_one]
      all_goals
        rw [Slice.toInt_len, Int64.toInt_one] at *
        omega
    obtain ⟨e, -, he⟩ := Slice.get_of_lt (s := n.log) (k := n.log.len - 1) (by omega) (by omega)
    exact ⟨e.term, by rw [he]; rfl⟩
  · exact ⟨_, rfl⟩

theorem checkPrevLog_ok (n : Node Id) (prevLogIndex prevLogTerm : Int64) :
    ∃ accepted, n.checkPrevLog prevLogIndex prevLogTerm = .ok accepted := by
  rw [checkPrevLog]
  split_ifs
  · exact ⟨_, rfl⟩
  · obtain ⟨term, hterm⟩ := n.logTermAt_ok prevLogIndex
    exact ⟨_, by rw [hterm]; rfl⟩
  · exact ⟨_, rfl⟩

/-- What is accepted does not begin beyond the log. -/
theorem le_lastLogIndex_of_checkPrevLog {prevLogIndex prevLogTerm : Int64}
    (h : n.checkPrevLog prevLogIndex prevLogTerm = .ok true) : prevLogIndex ≤ n.lastLogIndex := by
  rw [checkPrevLog] at h
  split_ifs at h with hbeyond
  · cases h
  · exact Int64.not_lt.mp hbeyond
  · exact Int64.not_lt.mp hbeyond

/-! ## The cut at the end of the request -/

/-- With `base` and `stop` the compaction base and `PrevLogIndex + len(Entries)`, as integers: the
    sum wraps and the cut is still at `stop - base`, or the difference wraps and the cut is at
    `stop - base + 2 ^ 64`; either way beyond the capacity. -/
def CutsBeyond (n : Node Id) (req : AppendEntriesRequest Id) : Prop :=
  let base := n.lastIncludedIndex.toInt
  let stop := req.prevLogIndex.toInt + req.entries.size
  base + n.log.size < 2 ^ 63 ∧
    (2 ^ 63 ≤ stop ∧ n.log.cells.length < stop - base ∧ stop - base < 2 ^ 63 ∨
      stop - base < -2 ^ 63 ∧ n.log.cells.length < stop - base + 2 ^ 64)

/-- The bound of the cut, before a negative one is replaced by 0. -/
theorem toInt_clamp (k : Int64) : (if k < 0 then 0 else k).toInt = max 0 k.toInt := by
  have hneg : k < 0 ↔ k.toInt < 0 := by rw [Int64.lt_iff_toInt_lt, Int64.toInt_zero]
  split_ifs with h
  · rw [Int64.toInt_zero]
    have := hneg.mp h
    omega
  · have := mt hneg.mpr h
    omega

theorem dropSuffix_eq_outOfRange_iff {req : AppendEntriesRequest Id}
    (hbase : 0 ≤ n.lastIncludedIndex.toInt) (hprev : req.prevLogIndex ≤ n.lastLogIndex) :
    n.dropSuffix (req.prevLogIndex + req.entries.len) = .error .outOfRange ↔
      n.CutsBeyond req := by
  rw [dropSuffix, CutsBeyond]
  dsimp only
  -- every integer of the code next to the exact sum or difference
  have hsize := n.log.size_le
  have hcap := n.log.cap_lt
  have hlast := toInt_add_cases n.lastIncludedIndex n.log.len
  rw [← lastLogIndex, Slice.toInt_len] at hlast
  have hstop := toInt_add_cases req.prevLogIndex req.entries.len
  rw [Slice.toInt_len] at hstop
  have hkeep := toInt_sub_cases (req.prevLogIndex + req.entries.len) n.lastIncludedIndex
  have hle := Int64.le_iff_toInt_le.mp hprev
  have hprev' := req.prevLogIndex.le_toInt
  have hbase' := n.lastIncludedIndex.toInt_lt
  by_cases hlt : req.prevLogIndex + req.entries.len < n.lastLogIndex
  · rw [if_pos hlt, map_eq_error_iff,
      Slice.upTo_eq_outOfRange_iff (by rw [toInt_clamp]; omega), toInt_clamp]
    rw [Int64.lt_iff_toInt_lt] at hlt
    omega
  · rw [if_neg hlt]
    rw [Int64.lt_iff_toInt_lt] at hlt
    constructor
    · intro h
      cases h
    · intro h
      omega

/-- The cut leaves everything but the log as it is. -/
theorem dropSuffix_base {cut : Node Id × Bool} (h : n.dropSuffix stop = .ok cut) :
    cut.1.lastIncludedIndex = n.lastIncludedIndex ∧ cut.1.lastApplied = n.lastApplied := by
  rw [dropSuffix] at h
  split_ifs at h
  · obtain ⟨log, -, rfl⟩ := map_eq_ok_iff.mp h
    exact ⟨rfl, rfl⟩
  · cases h
    exact ⟨rfl, rfl⟩

/-! ## The loop over the entries -/

theorem append_ne_outOfRange (log : Slice Entry) (xs : List Entry) (room : Option ℕ) :
    log.append .zero xs room ≠ .error .outOfRange := by
  intro h
  rcases log.append_cases .zero xs room with hno | ⟨t, ht, -⟩
  · rw [hno] at h
    cases h
  · rw [ht] at h
    cases h

/-- An index behind the base and not beyond the log is that of an element. -/
theorem upTo_of_between (hbase : 0 ≤ n.lastIncludedIndex.toInt) (hlo : n.lastIncludedIndex < idx)
    (hhi : idx ≤ n.lastLogIndex) :
    (idx - n.lastIncludedIndex - 1).toInt = idx.toInt - n.lastIncludedIndex.toInt - 1 ∧
      idx.toInt ≤ n.lastIncludedIndex.toInt + n.log.size := by
  rw [Int64.lt_iff_toInt_lt] at hlo
  rw [Int64.le_iff_toInt_le] at hhi
  have hlast := toInt_add_cases n.lastIncludedIndex n.log.len
  rw [← lastLogIndex, Slice.toInt_len] at hlast
  have hsize := n.log.size_le
  have hcap := n.log.cap_lt
  have hidx := idx.toInt_lt
  have hoff : (idx - n.lastIncludedIndex).toInt = idx.toInt - n.lastIncludedIndex.toInt :=
    toInt_sub_of_bounds (by omega) (by omega)
  have hone : (1 : Int64).toInt = 1 := rfl
  rw [toInt_sub_of_bounds (by omega) (by omega), hoff, hone]
  exact ⟨rfl, by omega⟩

theorem mergeLoop_ne_outOfRange (hbase : 0 ≤ n.lastIncludedIndex.toInt) (changed : Bool)
    (idx : Int64) (rest : List Entry) :
    n.mergeLoop room changed idx rest ≠ .error .outOfRange := by
  induction rest generalizing idx with
  | nil => simp [mergeLoop, pure, Except.pure]
  | cons e rest ih =>
    rw [mergeLoop]
    by_cases hcovered : idx ≤ n.lastIncludedIndex
    · rw [if_pos hcovered]
      exact ih _
    rw [if_neg hcovered]
    by_cases hheld : idx ≤ n.lastLogIndex
    · rw [if_pos hheld]
      obtain ⟨term, hterm⟩ := n.logTermAt_ok idx
      rw [hterm]
      show (if term = e.term then _ else _) ≠ _
      split_ifs
      · exact ih _
      · -- a conflict: the log is cut right before it, which is within the log
        obtain ⟨hcut, hle⟩ := upTo_of_between hbase (Int64.not_le.mp hcovered) hheld
        have hlo := Int64.lt_iff_toInt_lt.mp (Int64.not_le.mp hcovered)
        have hsize := n.log.size_le
        obtain ⟨kept, hkept, -⟩ := Slice.upTo_of_le (s := n.log)
          (k := idx - n.lastIncludedIndex - 1) (by omega) (by omega)
        rw [hkept]
        intro h
        exact append_ne_outOfRange kept _ _ (map_eq_error_iff.mp h)
    · rw [if_neg hheld]
      intro h
      exact append_ne_outOfRange n.log _ _ (map_eq_error_iff.mp h)

theorem mergeEntries_eq_outOfRange_iff {req : AppendEntriesRequest Id}
    (hbase : 0 ≤ n.lastIncludedIndex.toInt) (hprev : req.prevLogIndex ≤ n.lastLogIndex) :
    n.mergeEntries room req = .error .outOfRange ↔ n.CutsBeyond req := by
  rw [← dropSuffix_eq_outOfRange_iff hbase hprev, mergeEntries, bind_eq_error_iff]
  refine or_iff_left ?_
  rintro ⟨cut, hcut, h⟩
  rcases bind_eq_error_iff.mp h with h | ⟨merged, -, h⟩
  · refine mergeLoop_ne_outOfRange ?_ _ _ _ h
    rw [(dropSuffix_base hcut).1]
    exact hbase
  · cases h

theorem mergeEntries_base {req : AppendEntriesRequest Id} {r : Node Id × Bool}
    (h : n.mergeEntries room req = .ok r) :
    r.1.lastIncludedIndex = n.lastIncludedIndex ∧ r.1.lastApplied = n.lastApplied := by
  obtain ⟨cut, hcut, h⟩ := bind_eq_ok_iff.mp h
  obtain ⟨merged, -, h⟩ := bind_eq_ok_iff.mp h
  obtain ⟨hindex, happlied⟩ := dropSuffix_base hcut
  cases h
  exact ⟨hindex, happlied⟩

/-! ## The handlers -/

/-- What the handlers keep of a fresh node: the base is an index that has been applied. -/
structure BaseApplied (n : Node Id) : Prop where
  nonneg : 0 ≤ n.lastIncludedIndex.toInt
  applied : n.lastIncludedIndex ≤ n.lastApplied

/-- The request is accepted, and the cut at its end is beyond the capacity of the log. -/
def Overruns (n : Node Id) (req : AppendEntriesRequest Id) : Prop :=
  ¬ req.term < n.term ∧ n.checkPrevLog req.prevLogIndex req.prevLogTerm = .ok true ∧
    n.CutsBeyond req

theorem BaseApplied.of_eq (h : n.BaseApplied)
    (heq : m.lastIncludedIndex = n.lastIncludedIndex ∧ m.lastApplied = n.lastApplied) :
    m.BaseApplied where
  nonneg := heq.1 ▸ h.nonneg
  applied := by
    rw [heq.1, heq.2]
    exact h.applied

theorem follow_base (n : Node Id) (term : Int64) (leader : Id) :
    (n.follow term leader).lastIncludedIndex = n.lastIncludedIndex ∧
      (n.follow term leader).lastApplied = n.lastApplied := by
  rw [follow]
  split_ifs
  · exact ⟨rfl, rfl⟩
  · exact ⟨rfl, rfl⟩

theorem follow_checkPrevLog (n : Node Id) (term : Int64) (leader : Id) (index label : Int64) :
    (n.follow term leader).checkPrevLog index label = n.checkPrevLog index label := by
  rw [follow]
  split_ifs
  · rfl
  · rfl

theorem follow_cutsBeyond (n : Node Id) (term : Int64) (leader : Id)
    (req : AppendEntriesRequest Id) :
    (n.follow term leader).CutsBeyond req ↔ n.CutsBeyond req := by
  rw [follow]
  split_ifs
  · rfl
  · rfl

theorem commitMerged_base (n : Node Id) (merged : Bool) (leaderCommit : Int64) :
    (n.commitMerged merged leaderCommit).1.lastIncludedIndex = n.lastIncludedIndex ∧
      (n.commitMerged merged leaderCommit).1.lastApplied = n.lastApplied := by
  rw [commitMerged]
  split_ifs
  all_goals exact ⟨rfl, rfl⟩

theorem handleAppendEntries_eq_outOfRange_iff (h : n.BaseApplied)
    (req : AppendEntriesRequest Id) :
    n.handleAppendEntries room req = .error .outOfRange ↔ n.Overruns req := by
  rw [handleAppendEntries, Overruns]
  by_cases hstale : req.term < n.term
  · rw [if_pos hstale]
    constructor
    · intro h
      cases h
    · rintro ⟨hnew, -⟩
      exact absurd hstale hnew
  rw [if_neg hstale]
  dsimp only
  rw [follow_checkPrevLog]
  obtain ⟨accepted, haccepted⟩ := n.checkPrevLog_ok req.prevLogIndex req.prevLogTerm
  rw [haccepted]
  cases accepted with
  | false =>
    constructor
    · intro h
      cases h
    · rintro ⟨-, hno, -⟩
      cases hno
  | true =>
    show _ <$> (n.follow req.term req.leaderID).mergeEntries room req = _ ↔ _
    have hbase := h.of_eq (n.follow_base req.term req.leaderID)
    have hprev : req.prevLogIndex ≤ (n.follow req.term req.leaderID).lastLogIndex := by
      refine le_lastLogIndex_of_checkPrevLog ((n.follow_checkPrevLog ..).trans haccepted)
    rw [map_eq_error_iff, mergeEntries_eq_outOfRange_iff hbase.nonneg hprev, follow_cutsBeyond]
    exact ⟨fun hcut => ⟨hstale, rfl, hcut⟩, fun h => h.2.2⟩

theorem handleAppendEntries_base {req : AppendEntriesRequest Id}
    {r : Node Id × AppendEntriesResponse × Bool} (h : n.handleAppendEntries room req = .ok r) :
    r.1.lastIncludedIndex = n.lastIncludedIndex ∧ r.1.lastApplied = n.lastApplied := by
  rw [handleAppendEntries] at h
  split_ifs at h
  · cases h
    exact ⟨rfl, rfl⟩
  · obtain ⟨accepted, -, h⟩ := bind_eq_ok_iff.mp h
    obtain ⟨hindex, happlied⟩ := n.follow_base req.term req.leaderID
    split_ifs at h
    · obtain ⟨merged, hmerged, rfl⟩ := map_eq_ok_iff.mp h
      obtain ⟨hindex', happlied'⟩ := mergeEntries_base hmerged
      obtain ⟨hindex'', happlied''⟩ := merged.1.commitMerged_base merged.2 req.leaderCommit
      exact ⟨hindex''.trans (hindex'.trans hindex), happlied''.trans (happlied'.trans happlied)⟩
    · cases h
      exact ⟨hindex, happlied⟩

/-- A snapshot is installed only above what has been applied, so the number of entries to drop is
    positive and does not wrap. -/
theorem toInt_drop (h : n.BaseApplied) {req : InstallSnapshotRequest Id}
    (hnew : n.lastApplied < req.lastIncludedIndex) :
    (if req.lastIncludedIndex - n.lastIncludedIndex > n.log.len then n.log.len
        else req.lastIncludedIndex - n.lastIncludedIndex).toInt =
      min (req.lastIncludedIndex.toInt - n.lastIncludedIndex.toInt) n.log.size ∧
    n.lastIncludedIndex.toInt < req.lastIncludedIndex.toInt := by
  have hnonneg := h.nonneg
  have happlied := Int64.le_iff_toInt_le.mp h.applied
  have hnew' := Int64.lt_iff_toInt_lt.mp hnew
  have hreq := req.lastIncludedIndex.toInt_lt
  have hdrop : (req.lastIncludedIndex - n.lastIncludedIndex).toInt =
      req.lastIncludedIndex.toInt - n.lastIncludedIndex.toInt :=
    toInt_sub_of_bounds (by omega) (by omega)
  refine ⟨?_, by omega⟩
  split_ifs with hlong
  · have hlong' := Int64.lt_iff_toInt_lt.mp hlong
    rw [hdrop, Slice.toInt_len] at hlong'
    rw [Slice.toInt_len]
    omega
  · have hshort := Int64.le_iff_toInt_le.mp (Int64.not_lt.mp hlong)
    rw [hdrop, Slice.toInt_len] at hshort
    rw [hdrop]
    omega

theorem adoptSnapshot_ok (h : n.BaseApplied) {req : InstallSnapshotRequest Id}
    (hnew : n.lastApplied < req.lastIncludedIndex) :
    ∃ m, n.adoptSnapshot req = .ok m ∧ m.lastIncludedIndex = req.lastIncludedIndex ∧
      m.lastApplied = req.lastIncludedIndex := by
  obtain ⟨hdrop, hlt⟩ := toInt_drop h hnew
  rw [adoptSnapshot]
  generalize (if req.lastIncludedIndex - n.lastIncludedIndex > n.log.len then n.log.len
    else req.lastIncludedIndex - n.lastIncludedIndex) = k at hdrop
  obtain ⟨log, hlog, -⟩ := Slice.dropFrom_of_le (s := n.log) (k := k) (by omega) (by omega)
  rw [hlog]
  exact ⟨_, rfl, rfl, if_pos hnew⟩

theorem handleInstallSnapshot_ok (h : n.BaseApplied) (req : InstallSnapshotRequest Id) :
    ∃ r, n.handleInstallSnapshot req = .ok r ∧ r.1.BaseApplied := by
  rw [handleInstallSnapshot]
  split_ifs with hstale
  · exact ⟨_, rfl, h⟩
  dsimp only
  have hfollow := h.of_eq (n.follow_base req.term req.leaderID)
  split_ifs with hnew
  · obtain ⟨m, hm, hindex, happlied⟩ := adoptSnapshot_ok hfollow hnew
    rw [hm]
    refine ⟨_, rfl, ?_, ?_⟩
    · show 0 ≤ m.lastIncludedIndex.toInt
      have hbelow := Int64.le_iff_toInt_le.mp hfollow.applied
      have hnew' := Int64.lt_iff_toInt_lt.mp hnew
      have hnonneg := hfollow.nonneg
      rw [hindex]
      omega
    · show m.lastIncludedIndex ≤ m.lastApplied
      rw [hindex, happlied]
      exact Int64.le_refl _
  · exact ⟨_, rfl, hfollow⟩

theorem adoptTerm_base (n : Node Id) (term : Int64) :
    (n.adoptTerm term).lastIncludedIndex = n.lastIncludedIndex ∧
      (n.adoptTerm term).lastApplied = n.lastApplied := by
  rw [adoptTerm]
  split_ifs
  · exact ⟨rfl, rfl⟩
  · exact ⟨rfl, rfl⟩

theorem grants_ok [DecidableEq Id] (n : Node Id) (req : VoteRequest Id) :
    ∃ granted, n.grants req = .ok granted := by
  obtain ⟨term, hterm⟩ := n.lastLogTerm_ok
  exact ⟨_, by rw [grants, hterm]; rfl⟩

theorem handleRequestVote_ok [DecidableEq Id] (h : n.BaseApplied) (req : VoteRequest Id) :
    ∃ r, n.handleRequestVote req = .ok r ∧ r.1.BaseApplied := by
  rw [handleRequestVote]
  split_ifs with hstale
  · exact ⟨_, rfl, h⟩
  dsimp only
  have hadopt := h.of_eq (n.adoptTerm_base req.term)
  obtain ⟨granted, hgranted⟩ := (n.adoptTerm req.term).grants_ok req
  rw [hgranted]
  refine ⟨_, rfl, ?_⟩
  cases granted with
  | true => exact hadopt.of_eq ⟨rfl, rfl⟩
  | false => exact hadopt

end Node

namespace Host

variable {h : Host Id} {env : Environment} {req : Request Id}

theorem persist_base (h : Host Id) (saved : Bool) :
    (h.persist saved).1.node.lastIncludedIndex = h.node.lastIncludedIndex ∧
      (h.persist saved).1.node.lastApplied = h.node.lastApplied := by
  rw [persist]
  split_ifs
  all_goals exact ⟨rfl, rfl⟩

variable [DecidableEq Id]

/-- The request is one for entries that overruns the log. -/
def Overrun (h : Host Id) (req : Request Id) : Prop :=
  ∃ append, req = .append append ∧ h.node.Overruns append

/-- **One request is out of range exactly if it overruns the log.** -/
theorem serve_eq_outOfRange_iff (hbase : h.node.BaseApplied) :
    h.serve env req = .error .outOfRange ↔ h.Overrun req := by
  cases req with
  | vote req =>
    obtain ⟨r, hr, -⟩ := Node.handleRequestVote_ok hbase req
    rw [serve, map_eq_error_iff, hr, Overrun]
    simp
  | append req =>
    rw [serve, map_eq_error_iff, Node.handleAppendEntries_eq_outOfRange_iff hbase, Overrun]
    simp
  | snapshot req =>
    obtain ⟨r, hr, -⟩ := Node.handleInstallSnapshot_ok hbase req
    rw [serve, map_eq_error_iff, hr, Overrun]
    simp

theorem serve_baseApplied (hbase : h.node.BaseApplied) {r : Host Id × Response}
    (hr : h.serve env req = .ok r) : r.1.node.BaseApplied := by
  cases req with
  | vote req =>
    obtain ⟨v, hv, rfl⟩ := map_eq_ok_iff.mp hr
    obtain ⟨v', hv', hkept⟩ := Node.handleRequestVote_ok hbase req
    obtain rfl : v = v' := Except.ok.inj (hv.symm.trans hv')
    split_ifs
    · exact hkept.of_eq (persist_base _ _)
    · exact hkept
  | append req =>
    obtain ⟨a, ha, rfl⟩ := map_eq_ok_iff.mp hr
    have hkept := hbase.of_eq (Node.handleAppendEntries_base ha)
    split_ifs
    · exact hkept.of_eq (persist_base _ _)
    · exact hkept
  | snapshot req =>
    obtain ⟨s, hs, rfl⟩ := map_eq_ok_iff.mp hr
    obtain ⟨s', hs', hkept⟩ := Node.handleInstallSnapshot_ok hbase req
    obtain rfl : s = s' := Except.ok.inj (hs.symm.trans hs')
    split_ifs
    · exact hkept.of_eq (persist_base _ _)
    · exact hkept

/-! ## Runs -/

variable {calls : List (Request Id × Environment)}

theorem run_cons (h : Host Id) (call : Request Id × Environment)
    (calls : List (Request Id × Environment)) :
    h.run (call :: calls) = (Prod.fst <$> h.serve call.2 call.1) >>= fun h' => h'.run calls :=
  List.foldlM_cons

/-- A run is out of range exactly if it comes to a request that is. -/
theorem run_eq_outOfRange_iff (hbase : h.node.BaseApplied) :
    h.run calls = .error .outOfRange ↔
      ∃ pre req env post h', calls = pre ++ (req, env) :: post ∧ h.run pre = .ok h' ∧
        h'.Overrun req := by
  induction calls generalizing h with
  | nil =>
    constructor
    · intro hrun
      cases hrun
    · rintro ⟨pre, req, env, post, h', hsplit, -⟩
      simp at hsplit
  | cons call calls ih =>
    rw [run_cons, bind_eq_error_iff, map_eq_error_iff, serve_eq_outOfRange_iff hbase]
    constructor
    · rintro (hover | ⟨next, hnext, hrun⟩)
      · exact ⟨[], call.1, call.2, calls, h, rfl, rfl, hover⟩
      · obtain ⟨r, hr, rfl⟩ := map_eq_ok_iff.mp hnext
        obtain ⟨pre, req, env, post, h', rfl, hpre, hover⟩ :=
          (ih (serve_baseApplied hbase hr)).mp hrun
        refine ⟨call :: pre, req, env, post, h', rfl, ?_, hover⟩
        rw [run_cons, hnext]
        exact hpre
    · rintro ⟨pre, req, env, post, h', hsplit, hpre, hover⟩
      cases pre with
      | nil =>
        obtain ⟨rfl, rfl⟩ := List.cons.inj hsplit
        cases hpre
        exact .inl hover
      | cons first pre =>
        obtain ⟨rfl, rfl⟩ := List.cons.inj hsplit
        rw [run_cons] at hpre
        obtain ⟨next, hnext, hpre⟩ := bind_eq_ok_iff.mp hpre
        obtain ⟨r, hr, rfl⟩ := map_eq_ok_iff.mp hnext
        exact .inr ⟨r.1, hnext, (ih (serve_baseApplied hbase hr)).mpr
          ⟨pre, req, env, post, h', rfl, hpre, hover⟩⟩

omit [DecidableEq Id] in
theorem fresh_baseApplied (id : Id) (peers : List Id) (disk : Option (RaftState Id)) :
    (fresh id peers disk).node.BaseApplied :=
  ⟨Int.le_refl 0, Int64.le_refl 0⟩

/-- **From a fresh node on, every slice operation of the handlers is in range exactly if no request
    overruns the log of the state it finds.** -/
theorem run_in_range_iff (id : Id) (peers : List Id) (disk : Option (RaftState Id))
    (calls : List (Request Id × Environment)) :
    (fresh id peers disk).run calls ≠ .error .outOfRange ↔
      ∀ pre req env post h, calls = pre ++ (.append req, env) :: post →
        (fresh id peers disk).run pre = .ok h → ¬ h.node.Overruns req := by
  rw [Ne, run_eq_outOfRange_iff (fresh_baseApplied id peers disk)]
  constructor
  · intro hnone pre req env post h hsplit hpre hover
    exact hnone ⟨pre, .append req, env, post, h, hsplit, hpre, req, rfl, hover⟩
  · rintro hall ⟨pre, -, env, post, h, hsplit, hpre, req, rfl, hover⟩
    exact hall pre req env post h hsplit hpre hover

/-- A snapshot up to index 1. -/
def upToOne : InstallSnapshotRequest ℕ :=
  { term := 1, leaderID := 1, lastIncludedIndex := 1, lastIncludedTerm := 1, data := [] }

/-- A heartbeat that claims to follow on the smallest integer. -/
def afterMinimum : AppendEntriesRequest ℕ :=
  { term := 1, leaderID := 1, prevLogIndex := Int64.minValue, prevLogTerm := 0
    entries := .nil, leaderCommit := 0 }

/-- `-2 ^ 63 - 1` wraps to the largest integer, and `n.log[:keep]` panics. -/
theorem run_out_of_range :
    (fresh 0 [1] none).run [(.snapshot upToOne, ⟨some 0, true⟩),
      (.append afterMinimum, ⟨some 0, true⟩)] = .error .outOfRange := by
  decide +kernel

end Host

end KvStore.Raft.Machine
