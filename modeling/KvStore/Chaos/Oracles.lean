import KvStore.Raft.CommittedLog

/-!
# The oracles of the chaos tests

Model of `logMatchingOracle` and `stateMachineSafetyOracle` (`pkg/chaos/oracles.go`). Both compare
the logs of every two running nodes from index 1 on and stop at the first index that one of them
does not hold. A node that has compacted its log does not hold index 1.

* `scan_isSome_iff`: a pair is reported exactly if neither node has compacted its log and they
  diverge.
* `oracles_report_iff`: the oracles miss no divergence of a cluster exactly if, whenever there is
  one, there is one between two nodes that have not compacted their logs.
* `oracles_silent`: two nodes that diverge above their compaction base.
-/

namespace KvStore.Chaos

open KvStore.Raft (Node Entry)
open KvStore.Storage (Command)

variable {Id : Type}

/-- What an oracle reports: an index, the two nodes, and their commands. -/
inductive OracleError (Id : Type) where
  /-- `log divergence at index %d between %s and %s: %+v vs %+v` -/
  | logDivergence (index : ℕ) (a b : Id) (cmdA cmdB : Command)
  /-- `applied different commands at index %d on %s and %s: %+v vs %+v` -/
  | appliedDifferent (index : ℕ) (a b : Id) (cmdA cmdB : Command)

/-! ## The oracles -/

/-- The inner loop of both oracles (pkg/chaos/oracles.go:73, pkg/chaos/oracles.go:109), from `idx`
    on and as long as `within` holds; `differ` is what is reported of two entries. -/
def scan (differ : Entry → Entry → Bool) (within : ℕ → Bool) (a b : Node Id) (idx : ℕ) :
    Option (ℕ × Entry × Entry) :=
  if within idx then
    match h : a.entryAt idx, b.entryAt idx with
    | some ea, some eb =>
      if differ ea eb then some (idx, ea, eb) else scan differ within a b (idx + 1)
    | _, _ => none
  else none
termination_by a.lastLogIndex + 1 - idx
decreasing_by
  classical
  have hle := Node.le_lastLogIndex_of_entryAt h
  omega

/-- The pairs `i < j` of the two outer loops (pkg/chaos/oracles.go:69). -/
def pairs {α : Type} : List α → List (α × α)
  | [] => []
  | x :: rest => rest.map (fun y => (x, y)) ++ pairs rest

/-- The same term and different commands (pkg/chaos/oracles.go:79). -/
def sameTermOtherCmd (ea eb : Entry) : Bool := ea.term = eb.term && ea.cmd ≠ eb.cmd

/-- Different commands (pkg/chaos/oracles.go:115). -/
def otherCmd (ea eb : Entry) : Bool := ea.cmd ≠ eb.cmd

/-- The index has been applied on both nodes (pkg/chaos/oracles.go:105). -/
def applied (a b : Node Id) (idx : ℕ) : Bool :=
  idx ≤ if b.lastApplied < a.lastApplied then b.lastApplied else a.lastApplied

/-- The loops over all pairs; the nodes come in the order in which the map of the running ones
    lists them. -/
def check (differ : Entry → Entry → Bool) (within : Node Id → Node Id → ℕ → Bool)
    (error : ℕ → Id → Id → Command → Command → OracleError Id) (nodes : List (Id × Node Id)) :
    List (OracleError Id) :=
  (pairs nodes).filterMap fun p =>
    (scan differ (within p.1.2 p.2.2) p.1.2 p.2.2 1).map fun d =>
      error d.1 p.1.1 p.2.1 d.2.1.cmd d.2.2.cmd

/-- `logMatchingOracle.Check` (pkg/chaos/oracles.go:62). -/
def logMatchingOracle (nodes : List (Id × Node Id)) : List (OracleError Id) :=
  check sameTermOtherCmd (fun _ _ _ => true) .logDivergence nodes

/-- `stateMachineSafetyOracle.Check` (pkg/chaos/oracles.go:95). -/
def stateMachineSafetyOracle (nodes : List (Id × Node Id)) : List (OracleError Id) :=
  check otherCmd applied .appliedDifferent nodes

/-! ## One pair -/

/-- Both nodes hold an entry at an index within the range, and the entries differ. -/
def Diverge (differ : Entry → Entry → Bool) (within : ℕ → Bool) (a b : Node Id) : Prop :=
  ∃ (idx : ℕ) (ea eb : Entry), within idx = true ∧ a.entryAt idx = some ea ∧
    b.entryAt idx = some eb ∧ differ ea eb = true

variable {differ : Entry → Entry → Bool} {within : ℕ → Bool} {a b : Node Id} {idx : ℕ}

/-- Where both nodes hold an entry, the scan reports it or goes on. -/
theorem scan_of_entries {ea eb : Entry} (hw : within idx = true) (ha : a.entryAt idx = some ea)
    (hb : b.entryAt idx = some eb) : scan differ within a b idx =
      if differ ea eb then some (idx, ea, eb) else scan differ within a b (idx + 1) := by
  rw [scan, if_pos hw]
  split
  · next ea' eb' ha' hb' =>
    obtain rfl : ea' = ea := Option.some.inj (ha'.symm.trans ha)
    obtain rfl : eb' = eb := Option.some.inj (hb'.symm.trans hb)
    rfl
  · next hnone => exact absurd hb (hnone ea eb ha)

/-- What is reported is there. -/
theorem scan_sound {j : ℕ} {ea eb : Entry} (h : scan differ within a b idx = some (j, ea, eb)) :
    idx ≤ j ∧ within j = true ∧ a.entryAt j = some ea ∧ b.entryAt j = some eb ∧
      differ ea eb = true := by
  fun_induction scan differ within a b idx with
  | case1 idx hw ea' eb' ha hb hd =>
    cases h
    exact ⟨le_refl _, hw, ha, hb, hd⟩
  | case2 idx hw ea' eb' ha hb hd ih =>
    obtain ⟨hle, hrest⟩ := ih h
    exact ⟨Nat.le_of_succ_le hle, hrest⟩
  | case3 => cases h
  | case4 => cases h

/-- The scan gives up at once if an entry is missing at its first index. -/
theorem exists_entries_of_scan (h : scan differ within a b idx ≠ none) :
    (∃ ea, a.entryAt idx = some ea) ∧ ∃ eb, b.entryAt idx = some eb := by
  rw [scan] at h
  split_ifs at h
  · split at h
    · next ea eb ha hb => exact ⟨⟨ea, ha⟩, eb, hb⟩
    · exact absurd rfl h
  · exact absurd rfl h

/-- Above both bases there is no gap, so the scan gets to every divergence or to one before. -/
theorem scan_complete (hdown : ∀ i j, i ≤ j → within j = true → within i = true)
    (ha : a.lastIncludedIndex < idx) (hb : b.lastIncludedIndex < idx) {j : ℕ} {ea eb : Entry}
    (hj : idx ≤ j) (hw : within j = true) (hea : a.entryAt j = some ea)
    (heb : b.entryAt j = some eb) (hd : differ ea eb = true) :
    scan differ within a b idx ≠ none := by
  -- on the distance to the divergence
  induction hn : j - idx generalizing idx with
  | zero =>
    obtain rfl : idx = j := by omega
    rw [scan_of_entries hw hea heb, if_pos hd]
    simp
  | succ n ih =>
    obtain ⟨ea', hea'⟩ := a.exists_entryAt ha
      (hj.trans (Node.le_lastLogIndex_of_entryAt hea))
    obtain ⟨eb', heb'⟩ := b.exists_entryAt hb
      (hj.trans (Node.le_lastLogIndex_of_entryAt heb))
    have hnext : scan differ within a b (idx + 1) ≠ none :=
      ih (by omega) (by omega) (by omega) (by omega)
    rw [scan_of_entries (hdown idx j hj hw) hea' heb']
    split_ifs
    · simp
    · exact hnext

/-- A node does not hold what it has compacted. -/
theorem base_lt_of_entryAt {n : Node Id} {k : ℕ} {e : Entry} (h : n.entryAt k = some e) :
    n.lastIncludedIndex < k := by
  by_contra hle
  rw [Node.Holds.entryAt_base n (Nat.le_of_not_lt hle)] at h
  cases h

/-- **A pair is reported exactly if neither node has compacted its log and they diverge.** -/
theorem scan_isSome_iff (hdown : ∀ i j, i ≤ j → within j = true → within i = true) :
    scan differ within a b 1 ≠ none ↔
      a.lastIncludedIndex = 0 ∧ b.lastIncludedIndex = 0 ∧ Diverge differ within a b := by
  constructor
  · intro h
    obtain ⟨⟨ea, hea⟩, eb, heb⟩ := exists_entries_of_scan h
    have ha := base_lt_of_entryAt hea
    have hb := base_lt_of_entryAt heb
    obtain ⟨⟨j, fa, fb⟩, hj⟩ := Option.ne_none_iff_exists'.mp h
    obtain ⟨-, hw, hfa, hfb, hd⟩ := scan_sound hj
    exact ⟨by omega, by omega, j, fa, fb, hw, hfa, hfb, hd⟩
  · rintro ⟨ha, hb, j, ea, eb, hw, hea, heb, hd⟩
    have hpos := base_lt_of_entryAt hea
    exact scan_complete hdown (by omega) (by omega) (by omega) hw hea heb hd

/-! ## All pairs -/

section Pairs

variable {nodes : List (Id × Node Id)}

/-- The pairs are of nodes with different ids. -/
theorem of_mem_pairs {p : (Id × Node Id) × (Id × Node Id)} (hids : (nodes.map Prod.fst).Nodup)
    (hp : p ∈ pairs nodes) : p.1 ∈ nodes ∧ p.2 ∈ nodes ∧ p.1.1 ≠ p.2.1 := by
  induction nodes with
  | nil => cases hp
  | cons x rest ih =>
    obtain ⟨hx, hrest⟩ := List.nodup_cons.mp hids
    rcases List.mem_append.mp hp with hp | hp
    · obtain ⟨y, hy, rfl⟩ := List.mem_map.mp hp
      refine ⟨List.mem_cons_self .., List.mem_cons_of_mem _ hy, fun heq => hx ?_⟩
      exact List.mem_map.mpr ⟨y, hy, heq.symm⟩
    · obtain ⟨h1, h2, hne⟩ := ih hrest hp
      exact ⟨List.mem_cons_of_mem _ h1, List.mem_cons_of_mem _ h2, hne⟩

/-- Two different nodes are a pair, in one of the two orders. -/
theorem mem_pairs {x y : Id × Node Id} (hx : x ∈ nodes) (hy : y ∈ nodes) (hne : x.1 ≠ y.1) :
    (x, y) ∈ pairs nodes ∨ (y, x) ∈ pairs nodes := by
  induction nodes with
  | nil => cases hx
  | cons z rest ih =>
    rcases List.mem_cons.mp hx with rfl | hx'
    · rcases List.mem_cons.mp hy with rfl | hy'
      · exact absurd rfl hne
      · exact Or.inl (List.mem_append_left _ (List.mem_map.mpr ⟨y, hy', rfl⟩))
    · rcases List.mem_cons.mp hy with rfl | hy'
      · exact Or.inr (List.mem_append_left _ (List.mem_map.mpr ⟨x, hx', rfl⟩))
      · exact (ih hx' hy').imp (List.mem_append_right _) (List.mem_append_right _)

/-- Two different nodes of the cluster diverge; both are of the kind `among`. -/
def Divergent (differ : Entry → Entry → Bool) (within : Node Id → Node Id → ℕ → Bool)
    (among : Node Id → Prop) (nodes : List (Id × Node Id)) : Prop :=
  ∃ x ∈ nodes, ∃ y ∈ nodes, x.1 ≠ y.1 ∧ among x.2 ∧ among y.2 ∧
    Diverge differ (within x.2 y.2) x.2 y.2

/-- The node holds its log from the first index on. -/
def Uncompacted (n : Node Id) : Prop := n.lastIncludedIndex = 0

theorem Diverge.symm {within : Node Id → Node Id → ℕ → Bool}
    (hdiffer : ∀ ea eb, differ ea eb = differ eb ea) (hwithin : within a b = within b a)
    (h : Diverge differ (within a b) a b) : Diverge differ (within b a) b a := by
  obtain ⟨idx, ea, eb, hw, hea, heb, hd⟩ := h
  exact ⟨idx, eb, ea, hwithin ▸ hw, heb, hea, hdiffer ea eb ▸ hd⟩

/-- An oracle reports something exactly if two nodes that have not compacted diverge. -/
theorem check_ne_nil_iff {within : Node Id → Node Id → ℕ → Bool}
    {error : ℕ → Id → Id → Command → Command → OracleError Id}
    (hdiffer : ∀ ea eb, differ ea eb = differ eb ea) (hwithin : ∀ a b, within a b = within b a)
    (hdown : ∀ a b i j, i ≤ j → within a b j = true → within a b i = true)
    (hids : (nodes.map Prod.fst).Nodup) :
    check differ within error nodes ≠ [] ↔ Divergent differ within Uncompacted nodes := by
  have hpairs : check differ within error nodes ≠ [] ↔
      ∃ p ∈ pairs nodes, scan differ (within p.1.2 p.2.2) p.1.2 p.2.2 1 ≠ none := by
    simp [check, List.filterMap_eq_nil_iff]
  rw [hpairs]
  constructor
  · rintro ⟨p, hp, hscan⟩
    obtain ⟨hx, hy, hne⟩ := of_mem_pairs hids hp
    obtain ⟨ha, hb, hd⟩ := (scan_isSome_iff (hdown _ _)).mp hscan
    exact ⟨p.1, hx, p.2, hy, hne, ha, hb, hd⟩
  · rintro ⟨x, hx, y, hy, hne, ha, hb, hd⟩
    rcases mem_pairs hx hy hne with hp | hp
    · exact ⟨(x, y), hp, (scan_isSome_iff (hdown _ _)).mpr ⟨ha, hb, hd⟩⟩
    · exact ⟨(y, x), hp, (scan_isSome_iff (hdown _ _)).mpr ⟨hb, ha, hd.symm hdiffer (hwithin _ _)⟩⟩

theorem applied_comm (a b : Node Id) : applied a b = applied b a := by
  funext idx
  unfold applied
  split_ifs <;> simp only [decide_eq_decide] <;> omega

theorem applied_down (a b : Node Id) (i j : ℕ) (hij : i ≤ j) (h : applied a b j = true) :
    applied a b i = true := by
  simp only [applied, decide_eq_true_eq] at h ⊢
  exact hij.trans h

theorem sameTermOtherCmd_comm (ea eb : Entry) :
    sameTermOtherCmd ea eb = sameTermOtherCmd eb ea := by
  simp only [sameTermOtherCmd, ne_comm, eq_comm]

theorem otherCmd_comm (ea eb : Entry) : otherCmd ea eb = otherCmd eb ea := by
  simp only [otherCmd, ne_comm]

theorem logMatchingOracle_ne_nil_iff (hids : (nodes.map Prod.fst).Nodup) :
    logMatchingOracle nodes ≠ [] ↔
      Divergent sameTermOtherCmd (fun _ _ _ => true) Uncompacted nodes :=
  check_ne_nil_iff sameTermOtherCmd_comm (fun _ _ => rfl) (fun _ _ _ _ _ _ => rfl) hids

theorem stateMachineSafetyOracle_ne_nil_iff (hids : (nodes.map Prod.fst).Nodup) :
    stateMachineSafetyOracle nodes ≠ [] ↔ Divergent otherCmd applied Uncompacted nodes :=
  check_ne_nil_iff otherCmd_comm applied_comm applied_down hids

/-- **The oracles miss no divergence exactly if it is not only above a compaction base**: whenever
    nodes diverge, two nodes diverge that hold their logs from the first index on. -/
theorem oracles_report_iff (nodes : List (Id × Node Id)) (hids : (nodes.map Prod.fst).Nodup) :
    ((Divergent sameTermOtherCmd (fun _ _ _ => true) (fun _ => True) nodes →
        logMatchingOracle nodes ≠ []) ∧
      (Divergent otherCmd applied (fun _ => True) nodes → stateMachineSafetyOracle nodes ≠ [])) ↔
    (Divergent sameTermOtherCmd (fun _ _ _ => true) (fun _ => True) nodes →
        Divergent sameTermOtherCmd (fun _ _ _ => true) Uncompacted nodes) ∧
      (Divergent otherCmd applied (fun _ => True) nodes →
        Divergent otherCmd applied Uncompacted nodes) := by
  rw [logMatchingOracle_ne_nil_iff hids, stateMachineSafetyOracle_ne_nil_iff hids]

/-- A node with one entry above its base, which it has applied. -/
def nodeAbove (base id : ℕ) (value : Storage.Bytes) : Node ℕ :=
  { Node.new id [1 - id] with
    log := [⟨1, { op := .put, key := [107], value := value }⟩]
    commitIndex := base + 1, lastApplied := base + 1
    lastIncludedIndex := base, lastIncludedTerm := 1 }

/-- Two nodes that differ in the entry above their base. -/
def forked (base : ℕ) : List (ℕ × Node ℕ) :=
  [(0, nodeAbove base 0 [49]), (1, nodeAbove base 1 [50])]

theorem forked_divergent (base : ℕ) (among : Node ℕ → Prop)
    (h : ∀ id value, among (nodeAbove base id value)) :
    Divergent sameTermOtherCmd (fun _ _ _ => true) among (forked base) ∧
      Divergent otherCmd applied among (forked base) := by
  have hentry : ∀ id value, (nodeAbove base id value).entryAt (base + 1 : ℕ) =
      some ⟨1, { op := .put, key := [107], value := value }⟩ := by
    intro id value
    rw [Node.entryAt_eq_getElem? _ (by simp [nodeAbove])]
    simp [nodeAbove]
  have h0 : (0, nodeAbove base 0 [49]) ∈ forked base := List.mem_cons_self ..
  have h1 : (1, nodeAbove base 1 [50]) ∈ forked base :=
    List.mem_cons_of_mem _ (List.mem_singleton_self _)
  have happlied : applied (nodeAbove base 0 [49]) (nodeAbove base 1 [50]) (base + 1) = true := by
    simp [applied, nodeAbove]
  constructor
  · exact ⟨_, h0, _, h1, Nat.zero_ne_one, h _ _, h _ _, base + 1, _, _, rfl, hentry 0 [49],
      hentry 1 [50], by decide⟩
  · exact ⟨_, h0, _, h1, Nat.zero_ne_one, h _ _, h _ _, base + 1, _, _, happlied, hentry 0 [49],
      hentry 1 [50], by decide⟩

/-- Without a compaction the two nodes are reported. -/
theorem oracles_report_forked : logMatchingOracle (forked 0) ≠ [] := by
  have hall := forked_divergent 0 (fun _ => True) fun _ _ => trivial
  have hun := forked_divergent 0 Uncompacted fun _ _ => rfl
  exact ((oracles_report_iff (forked 0) (by decide)).mpr ⟨fun _ => hun.1, fun _ => hun.2⟩).1 hall.1

/-- Above a compaction base of 1 both oracles are silent about the same two nodes. -/
theorem oracles_silent :
    Divergent sameTermOtherCmd (fun _ _ _ => true) (fun _ => True) (forked 1) ∧
      logMatchingOracle (forked 1) = [] ∧
      Divergent otherCmd applied (fun _ => True) (forked 1) ∧
      stateMachineSafetyOracle (forked 1) = [] := by
  have hids : ((forked 1).map Prod.fst).Nodup := by decide
  have hall := forked_divergent 1 (fun _ => True) fun _ _ => trivial
  have hbase : ∀ x ∈ forked 1, ¬ Uncompacted x.2 := by
    intro x hx
    rcases List.mem_cons.mp hx with rfl | hx
    · exact Nat.one_ne_zero
    · rw [List.mem_singleton.mp hx]
      exact Nat.one_ne_zero
  refine ⟨hall.1, ?_, hall.2, ?_⟩
  · by_contra hne
    obtain ⟨x, hx, y, -, -, hun, -⟩ := (logMatchingOracle_ne_nil_iff hids).mp hne
    exact hbase x hx hun
  · by_contra hne
    obtain ⟨x, hx, y, -, -, hun, -⟩ := (stateMachineSafetyOracle_ne_nil_iff hids).mp hne
    exact hbase x hx hun

end Pairs

end KvStore.Chaos
