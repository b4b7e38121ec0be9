import KvStore.Linearizability.Register

/-!
# The single-key linearizability checker

Model of `Check` (`pkg/linearizability/checker.go`): one pass over a history, with a table of its
writes and, for each reader, the newest version it has seen.

* `check_eq_nil_iff`: what the pass decides. No read ends before its write begins, and no reader
  sees a version older than one it has seen.
* `no_false_alarm`: a history that has a linearization passes.
-/

namespace KvStore.Linearizability

/-- `Kind` (pkg/linearizability/checker.go:12). -/
inductive Kind where
  | write
  | read
  deriving DecidableEq, Repr

/-- `Op` (pkg/linearizability/checker.go:23). -/
structure Op where
  kind : Kind
  seq : ℕ
  reader : String := ""
  start : ℤ
  «end» : ℤ
  deriving DecidableEq, Repr

/-- The two violations, with what their texts give. -/
inductive Violation where
  /-- `reader %q observed seq %d at %d before its write began at %d` -/
  | beforeWrite (reader : String) (seq : ℕ) (observed began : ℤ)
  /-- `reader %q observed seq %d at %d after seq %d at %d (reads so far: %v)` -/
  | rolledBack (reader : String) (seq : ℕ) (observed : ℤ) (prev : ℕ) (prevAt : ℤ)
      (soFar : List Op)
  deriving DecidableEq, Repr

/-! ## The pass -/

/-- The table of writes (pkg/linearizability/checker.go:49); of two writes of one version it keeps
    the later in the list. -/
def writes (ops : List Op) : ℕ → Option Op :=
  ops.foldl (fun table o =>
    if o.kind = .write then Function.update table o.seq (some o) else table) fun _ => none

/-- The variables of the second loop. A missing key of `maxSeenAt` reads as 0 and one of `timeline`
    as the empty slice. -/
structure Pass where
  errs : List Violation := []
  maxSeen : String → Option ℕ := fun _ => none
  maxSeenAt : String → ℤ := fun _ => 0
  timeline : String → List Op := fun _ => []

/-- The read ends before the recorded write of its version begins
    (pkg/linearizability/checker.go:62). -/
def early (table : ℕ → Option Op) (o : Op) : List Violation :=
  match table o.seq with
  | some w =>
    if 0 < w.start ∧ 0 < o.end ∧ o.end ≤ w.start then
      [.beforeWrite o.reader o.seq o.end w.start]
    else []
  | none => []

/-- The reader has seen a newer version (pkg/linearizability/checker.go:65). -/
def Pass.rollback (p : Pass) (o : Op) : List Violation :=
  match p.maxSeen o.reader with
  | some prev =>
    if o.seq < prev then
      [.rolledBack o.reader o.seq o.end prev (p.maxSeenAt o.reader) (p.timeline o.reader)]
    else []
  | none => []

/-- `if o.Seq > maxSeen[o.Reader]` (pkg/linearizability/checker.go:68). -/
def Pass.note (p : Pass) (o : Op) : Pass :=
  if (p.maxSeen o.reader).getD 0 < o.seq then
    { p with
      maxSeen := Function.update p.maxSeen o.reader (some o.seq)
      maxSeenAt := Function.update p.maxSeenAt o.reader o.end }
  else p

/-- Whether the second loop looks at the operation (pkg/linearizability/checker.go:59). -/
def Op.Observes (o : Op) : Prop := o.kind = .read ∧ o.seq ≠ 0

instance (o : Op) : Decidable o.Observes :=
  inferInstanceAs (Decidable (o.kind = .read ∧ o.seq ≠ 0))

/-- One round of the second loop. -/
def Pass.observe (table : ℕ → Option Op) (p : Pass) (o : Op) : Pass :=
  if o.Observes then
    { p.note o with
      errs := p.errs ++ early table o ++ p.rollback o
      timeline := Function.update p.timeline o.reader (p.timeline o.reader ++ [o]) }
  else p

/-- `Check` (pkg/linearizability/checker.go:47). -/
def check (ops : List Op) : List Violation :=
  (ops.foldl (Pass.observe (writes ops)) {}).errs

/-! ## What the pass keeps -/

section

variable {table : ℕ → Option Op} {p : Pass} {ops done : List Op} {o w : Op}

theorem writes_concat (ops : List Op) (o : Op) :
    writes (ops ++ [o]) =
      if o.kind = .write then Function.update (writes ops) o.seq (some o) else writes ops := by
  rw [writes, List.foldl_append]
  rfl

/-- What the table holds under a version is a write of it. -/
theorem of_writes {seq : ℕ} (h : writes ops seq = some w) :
    w ∈ ops ∧ w.kind = .write ∧ w.seq = seq := by
  induction ops using List.reverseRecOn with
  | nil => cases h
  | append_singleton ops o ih =>
    rw [writes_concat] at h
    split_ifs at h with hkind
    · rcases eq_or_ne seq o.seq with rfl | hne
      · rw [Function.update_self] at h
        obtain rfl : o = w := Option.some.inj h
        exact ⟨by simp, hkind, rfl⟩
      · rw [Function.update_of_ne hne] at h
        exact ⟨List.mem_append_left _ (ih h).1, (ih h).2⟩
    · exact ⟨List.mem_append_left _ (ih h).1, (ih h).2⟩

/-- `maxSeen[r]`, 0 if the key is missing. -/
def Pass.newest (p : Pass) (r : String) : ℕ := (p.maxSeen r).getD 0

/-- Of each reader the pass has the reads so far, and the newest version among them. -/
structure Seen (done : List Op) (p : Pass) : Prop where
  timeline : ∀ r, p.timeline r = done.filter fun a => a.Observes ∧ a.reader = r
  bound : ∀ r, ∀ a ∈ p.timeline r, a.seq ≤ p.newest r
  attained : ∀ r, p.newest r = 0 ∨ ∃ a ∈ p.timeline r, a.seq = p.newest r

theorem Pass.note_newest (p : Pass) (o : Op) :
    (p.note o).newest = Function.update p.newest o.reader (max (p.newest o.reader) o.seq) := by
  funext r
  rw [Pass.note]
  rcases eq_or_ne r o.reader with rfl | hne
  · rw [Function.update_self]
    split_ifs with hlt
    · show (Function.update p.maxSeen o.reader (some o.seq) o.reader).getD 0 = _
      rw [Function.update_self, Option.getD_some]
      exact (max_eq_right hlt.le).symm
    · exact (max_eq_left (Nat.le_of_not_lt hlt)).symm
  · rw [Function.update_of_ne hne]
    split_ifs
    · show (Function.update p.maxSeen o.reader (some o.seq) r).getD 0 = _
      rw [Function.update_of_ne hne]
      rfl
    · rfl

theorem Pass.observe_of_not (h : ¬ o.Observes) : p.observe table o = p := if_neg h

theorem Pass.observe_errs (h : o.Observes) :
    (p.observe table o).errs = p.errs ++ early table o ++ p.rollback o := by
  rw [Pass.observe, if_pos h]

theorem Pass.observe_timeline (h : o.Observes) :
    (p.observe table o).timeline =
      Function.update p.timeline o.reader (p.timeline o.reader ++ [o]) := by
  rw [Pass.observe, if_pos h]

theorem Pass.observe_newest (h : o.Observes) :
    (p.observe table o).newest =
      Function.update p.newest o.reader (max (p.newest o.reader) o.seq) := by
  rw [← Pass.note_newest, Pass.observe, if_pos h]
  rfl

theorem Seen.observe (h : Seen done p) (table : ℕ → Option Op) (o : Op) :
    Seen (done ++ [o]) (p.observe table o) := by
  by_cases ho : o.Observes
  · refine ⟨fun r => ?_, fun r => ?_, fun r => ?_⟩
    all_goals
      rw [Pass.observe_timeline ho]
      rcases eq_or_ne r o.reader with rfl | hne
    · simp [Function.update_self, h.timeline, ho]
    · simp [Function.update_of_ne hne, h.timeline, Ne.symm hne]
    · rw [Pass.observe_newest ho, Function.update_self, Function.update_self]
      intro a ha
      rcases List.mem_append.mp ha with ha | ha
      · exact (h.bound _ a ha).trans (le_max_left _ _)
      · rw [List.mem_singleton.mp ha]
        exact le_max_right _ _
    · rw [Pass.observe_newest ho, Function.update_of_ne hne, Function.update_of_ne hne]
      exact h.bound r
    · rw [Pass.observe_newest ho, Function.update_self, Function.update_self]
      rcases max_choice (p.newest o.reader) o.seq with hmax | hmax
      · rw [hmax]
        refine (h.attained o.reader).imp_right ?_
        rintro ⟨a, ha, hseq⟩
        exact ⟨a, List.mem_append_left _ ha, hseq⟩
      · exact .inr ⟨o, by simp, hmax.symm⟩
    · rw [Pass.observe_newest ho, Function.update_of_ne hne, Function.update_of_ne hne]
      exact h.attained r
  · rw [Pass.observe_of_not ho]
    refine ⟨fun r => ?_, h.bound, h.attained⟩
    rw [h.timeline r, List.filter_append]
    simp [ho]

theorem seen_foldl (table : ℕ → Option Op) (done : List Op) :
    Seen done (done.foldl (Pass.observe table) {}) := by
  induction done using List.reverseRecOn with
  | nil => exact ⟨fun _ => rfl, fun _ a ha => absurd ha List.not_mem_nil, fun _ => .inl rfl⟩
  | append_singleton done o ih =>
    rw [List.foldl_append]
    exact ih.observe table o

/-! ## What the pass decides -/

/-- The read ends before the recorded write of its version begins. -/
def Early (table : ℕ → Option Op) (o : Op) : Prop :=
  ∃ w, table o.seq = some w ∧ 0 < w.start ∧ 0 < o.end ∧ o.end ≤ w.start

/-- If the two are reads of one reader, then the second is not of an older version. -/
def Forward (a b : Op) : Prop :=
  a.Observes → b.Observes → a.reader = b.reader → a.seq ≤ b.seq

theorem early_eq_nil_iff : early table o = [] ↔ ¬ Early table o := by
  rw [early, Early]
  cases table o.seq with
  | none => simp
  | some w => simp

theorem rollback_eq_nil_iff : p.rollback o = [] ↔ p.newest o.reader ≤ o.seq := by
  rw [Pass.rollback, Pass.newest]
  cases p.maxSeen o.reader with
  | none => simp
  | some prev => simp

/-- The newest version seen is not newer than this one, exactly if no read so far is. -/
theorem Seen.newest_le_iff (h : Seen done p) (ho : o.Observes) :
    p.newest o.reader ≤ o.seq ↔ ∀ a ∈ done, Forward a o := by
  constructor
  · intro hle a ha hobs _ hreader
    refine (h.bound o.reader a ?_).trans hle
    rw [h.timeline]
    exact List.mem_filter.mpr ⟨ha, decide_eq_true ⟨hobs, hreader⟩⟩
  · intro hall
    rcases h.attained o.reader with hzero | ⟨a, ha, hseq⟩
    · omega
    · rw [h.timeline] at ha
      obtain ⟨ha, hobs⟩ := List.mem_filter.mp ha
      obtain ⟨hobs, hreader⟩ := of_decide_eq_true hobs
      exact hseq ▸ hall a ha hobs ho hreader

theorem foldl_errs_eq_nil_iff (table : ℕ → Option Op) (done : List Op) :
    (done.foldl (Pass.observe table) {}).errs = [] ↔
      (∀ o ∈ done, o.Observes → ¬ Early table o) ∧ done.Pairwise Forward := by
  -- from the end: the last operation adds its own two conditions
  induction done using List.reverseRecOn with
  | nil => simp
  | append_singleton done o ih =>
    have hlast : (done ++ [o]).Pairwise Forward ↔
        done.Pairwise Forward ∧ ∀ a ∈ done, Forward a o := by
      simp [List.pairwise_append]
    rw [List.foldl_append, List.foldl_cons, List.foldl_nil, List.forall_mem_append,
      List.forall_mem_singleton, hlast]
    by_cases ho : o.Observes
    · rw [Pass.observe_errs ho, List.append_eq_nil_iff, List.append_eq_nil_iff, ih,
        early_eq_nil_iff, rollback_eq_nil_iff, (seen_foldl table done).newest_le_iff ho]
      tauto
    · have hforward : ∀ a ∈ done, Forward a o := fun a _ _ hobs => absurd hobs ho
      rw [Pass.observe_of_not ho, ih]
      tauto

/-- **The history passes exactly if no read ends before its write begins and no reader goes back to
    an older version.** -/
theorem check_eq_nil_iff (ops : List Op) :
    check ops = [] ↔
      (∀ o ∈ ops, o.Observes → ¬ Early (writes ops) o) ∧ ops.Pairwise Forward :=
  foldl_errs_eq_nil_iff (writes ops) ops

end

/-! ## Histories that have a linearization -/

/-- What an operation does to the key's register of versions. -/
def Op.action (o : Op) : Action ℕ :=
  match o.kind with
  | .write => .write o.seq
  | .read => .read o.seq

/-- An operation precedes another if it ends before the other starts. -/
def Op.Precedes (a b : Op) : Prop := a.end ≤ b.start

instance (a b : Op) : Decidable (a.Precedes b) :=
  inferInstanceAs (Decidable (a.end ≤ b.start))

/-- A single-key history as a workload with one writer records it: the versions increase in real
    time and each reader reads one read after the other. -/
structure History where
  ops : List Op
  nonzero : ∀ o ∈ ops, o.kind = .write → o.seq ≠ 0
  distinct : ops.Pairwise fun a b => a.kind = .write → b.kind = .write → a.seq ≠ b.seq
  increasing : ∀ a ∈ ops, ∀ b ∈ ops, a.kind = .write → b.kind = .write → a.seq < b.seq →
    a.Precedes b
  positive : ∀ o ∈ ops, 0 < o.start ∧ 0 < o.end
  inOrder : ops.Pairwise fun a b => a.kind = .read → b.kind = .read → a.reader = b.reader →
    a.Precedes b

/-- The history has a linearization to a register that first holds version 0. -/
def History.Linearizable (h : History) : Prop :=
  Linearizability.Linearizable Op.action Op.Precedes 0 h.ops

theorem Op.Observes.action {o : Op} (h : o.Observes) : o.action = .read o.seq := by
  rw [Op.action, h.1]

theorem Op.action_eq_write_iff {o : Op} {seq : ℕ} :
    o.action = .write seq ↔ o.kind = .write ∧ o.seq = seq := by
  rw [Op.action]
  cases o.kind with
  | write => simp
  | read => simp

section

variable {h : History}

/-- Two writes of one version are one operation. -/
theorem History.write_unique (h : History) {i j : Fin h.ops.length}
    (hi : (h.ops.get i).kind = .write) (hj : (h.ops.get j).kind = .write)
    (hseq : (h.ops.get i).seq = (h.ops.get j).seq) : i = j := by
  have hpair := List.pairwise_iff_get.mp h.distinct
  rcases lt_trichotomy i j with hlt | heq | hgt
  · exact absurd hseq (hpair i j hlt hi hj)
  · exact heq
  · exact absurd hseq.symm (hpair j i hgt hj hi)

/-- A read that ended before its write began could not have seen it. -/
theorem History.not_early (hlin : h.Linearizable) {o : Op} (ho : o ∈ h.ops) (hobs : o.Observes) :
    ¬ Early (writes h.ops) o := by
  rintro ⟨w, hw, -, -, hle⟩
  obtain ⟨hmem, hkind, hseq⟩ := of_writes hw
  obtain ⟨order, hlin⟩ := hlin
  obtain ⟨i, rfl⟩ := List.get_of_mem ho
  obtain ⟨j, rfl⟩ := List.get_of_mem hmem
  obtain ⟨p, q, rfl⟩ := List.append_of_mem (hlin.mem i)
  obtain ⟨s, k, t, rfl, hk, -⟩ := hlin.source hobs.action hobs.2
  obtain ⟨hkkind, hkseq⟩ := Op.action_eq_write_iff.mp hk
  -- the write that the read sees is the one of the table
  obtain rfl : k = j := h.write_unique hkkind hkind (hkseq.trans hseq.symm)
  exact hlin.not_precedes (by simp) hle

/-- A reader that went back would see a write that a newer one has replaced. -/
theorem History.forward (hlin : h.Linearizable) : h.ops.Pairwise Forward := by
  obtain ⟨order, hlin⟩ := hlin
  rw [List.pairwise_iff_get]
  intro i j hij hi hj hreader
  have hprec := List.pairwise_iff_get.mp h.inOrder i j hij hi.1 hj.1 hreader
  obtain ⟨p, q, r, rfl⟩ := hlin.split_of_precedes hij.ne hprec
  -- what the first read saw
  obtain ⟨s, k, t, rfl, hk, -⟩ := hlin.source hi.action hi.2
  -- what the second read saw, a write with no other between the two
  have hlater : Linearizes Op.action Op.Precedes 0 h.ops ((s ++ k :: t ++ i :: q) ++ j :: r) := by
    simpa using hlin
  obtain ⟨s', m, t', hsplit, hm, hbetween⟩ := hlater.source hj.action hj.2
  obtain ⟨hkkind, hkseq⟩ := Op.action_eq_write_iff.mp hk
  obtain ⟨hmkind, hmseq⟩ := Op.action_eq_write_iff.mp hm
  have hkmem : k ∈ s' ++ m :: t' := by
    rw [← hsplit]
    simp
  rw [← hkseq, ← hmseq]
  rcases List.mem_append.mp hkmem with hmem | hmem
  · by_contra hlt
    have hnewer : (h.ops.get m).Precedes (h.ops.get k) :=
      h.increasing _ (List.get_mem _ _) _ (List.get_mem _ _) hmkind hkkind (Nat.lt_of_not_le hlt)
    rw [hsplit, List.append_assoc, List.cons_append] at hlater
    exact hlater.not_precedes hmem hnewer
  · rcases List.mem_cons.mp hmem with rfl | hmem
    · exact le_rfl
    · exact absurd hk (hbetween k hmem _)

/-- **The checker raises no false alarm**: a history that has a linearization passes. -/
theorem no_false_alarm (h : History) (hlin : h.Linearizable) : check h.ops = [] :=
  (check_eq_nil_iff h.ops).mpr
    ⟨fun _ ho hobs => History.not_early hlin ho hobs, History.forward hlin⟩

end

/-- Two writes, and two readers that see different versions while the second write runs. -/
def overlapping : History where
  ops :=
    [{ kind := .write, seq := 1, start := 1, «end» := 2 },
      { kind := .read, seq := 1, reader := "n2", start := 3, «end» := 4 },
      { kind := .write, seq := 2, start := 5, «end» := 9 },
      { kind := .read, seq := 2, reader := "n1", start := 6, «end» := 7 },
      { kind := .read, seq := 1, reader := "n2", start := 6, «end» := 8 }]
  nonzero := by decide
  distinct := by decide
  increasing := by decide
  positive := by decide
  inOrder := by decide

theorem no_false_alarm_overlapping : overlapping.Linearizable ∧ check overlapping.ops = [] := by
  have hlin : overlapping.Linearizable := by
    refine ⟨[⟨0, by decide⟩, ⟨1, by decide⟩, ⟨4, by decide⟩, ⟨2, by decide⟩, ⟨3, by decide⟩],
      ?_, ?_, ?_⟩
    all_goals decide
  exact ⟨hlin, no_false_alarm overlapping hlin⟩

end KvStore.Linearizability
