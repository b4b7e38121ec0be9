import KvStore.Raft.FullLog

/-!
# Log compaction is invisible to the protocol

`CompactLog(i, LogTerm(i))` (pkg/raft/snapshot.go:47) moves the base of a node up to an
index it has applied. `Compacted i n n'` relates the node before and after: the retained
log is a suffix of the other one, and the new base carries the term of the entry it
replaces. Vote requests, and `AppendEntries` requests that do not reach below the new
base, keep the relation and are answered alike (`compaction_invisible`).
-/

namespace KvStore.Raft

variable {Id : Type}

namespace Node

/-- `n'` is `n` with its base moved up to `i`. -/
structure Compacted (i : ℕ) (n n' : Node Id) : Prop where
  base_lt : n.lastIncludedIndex < i
  base_eq : n'.lastIncludedIndex = i
  known : i ≤ n.lastLogIndex
  log_eq : n'.log = n.log.drop (i - n.lastIncludedIndex)
  label_eq : n.log[i - n.lastIncludedIndex - 1]?.map Entry.term = some n'.lastIncludedTerm
  term_eq : n'.term = n.term
  vote_eq : n'.votedFor = n.votedFor
  role_eq : n'.role = n.role
  commit_eq : n'.commitIndex = n.commitIndex

/-- What the protocol sees of two nodes from the base `i` on. -/
structure Agree (i : ℕ) (n n' : Node Id) : Prop where
  term : n'.term = n.term
  vote : n'.votedFor = n.votedFor
  role : n'.role = n.role
  commit : n'.commitIndex = n.commitIndex
  lastLogIndex : n'.lastLogIndex = n.lastLogIndex
  lastLogTerm : n'.lastLogTerm = n.lastLogTerm
  entryAt : ∀ k : ℤ, i < k → n'.entryAt k = n.entryAt k

namespace Compacted

variable {i : ℕ} {n n' : Node Id}

theorem lastLogIndex_eq (h : Compacted i n n') : n'.lastLogIndex = n.lastLogIndex := by
  have hb := h.base_lt
  have hk := h.known
  unfold lastLogIndex at hk ⊢
  rw [h.base_eq, h.log_eq, List.length_drop]
  omega

theorem entryAt_eq (h : Compacted i n n') {k : ℤ} (hk : i < k) : n'.entryAt k = n.entryAt k := by
  have hb := h.base_lt
  rw [n.entryAt_eq_getElem? (by omega), n'.entryAt_eq_getElem? (by rw [h.base_eq]; omega),
    h.log_eq, h.base_eq, List.getElem?_drop]
  congr 1
  omega

theorem logTermAt_eq (h : Compacted i n n') {k : ℤ} (hk : i ≤ k) :
    n'.logTermAt k = n.logTermAt k := by
  have hb := h.base_lt
  have hzero : k ≠ 0 := by omega
  have hold : k ≠ n.lastIncludedIndex := by omega
  simp only [logTermAt, hzero, hold, ite_false, h.base_eq]
  split_ifs with heq
  · -- the entry at the new base
    obtain ⟨e, he, hterm⟩ := Option.map_eq_some_iff.mp h.label_eq
    rw [n.entryAt_eq_getElem? (by omega), heq]
    rw [show ((i : ℤ) - n.lastIncludedIndex - 1).toNat = i - n.lastIncludedIndex - 1 by omega, he]
    exact hterm.symm
  · rw [h.entryAt_eq (by omega)]

theorem lastLogTerm_eq (h : Compacted i n n') : n'.lastLogTerm = n.lastLogTerm := by
  have hb := h.base_lt
  have hk := h.known
  unfold lastLogIndex at hk
  unfold lastLogTerm
  rw [h.log_eq]
  rcases Nat.lt_or_ge (i - n.lastIncludedIndex) n.log.length with hlt | hge
  · rw [List.getLast?_drop, if_neg (by omega)]
    have hne : n.log ≠ [] := by
      intro hnil
      rw [hnil] at hlt
      simp at hlt
    rw [List.getLast?_eq_some_getLast hne]
  · -- everything is compacted: the label is the term of the last entry
    obtain ⟨e, he, hterm⟩ := Option.map_eq_some_iff.mp h.label_eq
    rw [List.drop_eq_nil_of_le hge, List.getLast?_nil, List.getLast?_eq_getElem?]
    rw [show n.log.length - 1 = i - n.lastIncludedIndex - 1 by omega, he]
    exact hterm.symm

theorem agree (h : Compacted i n n') : Agree i n n' :=
  ⟨h.term_eq, h.vote_eq, h.role_eq, h.commit_eq, h.lastLogIndex_eq, h.lastLogTerm_eq,
    fun _ => h.entryAt_eq⟩

/-- The relation after both logs were changed from `i` on only. -/
theorem withLog (h : Compacted i n n') {log log' : List Entry}
    (htake : log.take (i - n.lastIncludedIndex) = n.log.take (i - n.lastIncludedIndex))
    (hlog : log' = log.drop (i - n.lastIncludedIndex)) :
    Compacted i { n with log := log } { n' with log := log' } := by
  have hb := h.base_lt
  have hk := h.known
  unfold lastLogIndex at hk
  have hlen := congrArg List.length htake
  rw [List.length_take, List.length_take] at hlen
  refine ⟨hb, h.base_eq, ?_, hlog, ?_, h.term_eq, h.vote_eq, h.role_eq, h.commit_eq⟩
  · unfold lastLogIndex
    dsimp only
    omega
  · have hget := congrArg (fun l => l[i - n.lastIncludedIndex - 1]?) htake
    dsimp only at hget ⊢
    rw [List.getElem?_take_of_lt (by omega), List.getElem?_take_of_lt (by omega)] at hget
    rw [hget]
    exact h.label_eq

/-! ## `mergeEntries` -/

/-- The first statement of `mergeEntries`, when it cuts at the base or above. -/
theorem dropSuffix (h : Compacted i n n') {stop : ℤ} (hs : i ≤ stop) :
    Compacted i (n.dropSuffix stop) (n'.dropSuffix stop) := by
  have hb := h.base_lt
  unfold Node.dropSuffix
  rw [h.lastLogIndex_eq]
  split_ifs with hcut
  · refine h.withLog ?_ ?_
    · rw [List.take_take, min_eq_left (by omega)]
    · rw [h.base_eq, h.log_eq, List.drop_take]
      congr 1
      omega
  · exact h

/-- The loop of `mergeEntries`, from an index above the base on. -/
theorem mergeLoop (h : Compacted i n n') (changed : Bool) {idx : ℤ} (hidx : i < idx)
    (es : List Entry) :
    Compacted i { n with log := (n.mergeLoop changed idx es).1 }
      { n' with log := (n'.mergeLoop changed idx es).1 } ∧
    (n'.mergeLoop changed idx es).2 = (n.mergeLoop changed idx es).2 := by
  have hb := h.base_lt
  have hk := h.known
  unfold lastLogIndex at hk
  induction es generalizing idx with
  | nil => exact ⟨h, rfl⟩
  | cons e rest ih =>
    have hcover : ¬ idx ≤ n.lastIncludedIndex := by omega
    have hcover' : ¬ idx ≤ n'.lastIncludedIndex := by rw [h.base_eq]; omega
    simp only [Node.mergeLoop, hcover, hcover', ite_false, h.lastLogIndex_eq,
      h.logTermAt_eq hidx.le]
    split_ifs with hlast hterm
    · exact ih (by omega)
    · refine ⟨h.withLog ?_ ?_, rfl⟩
      · rw [List.take_append_of_le_length (by rw [List.length_take]; omega), List.take_take,
          min_eq_left (by omega)]
      · have hcut : (idx - i - 1).toNat =
            (idx - n.lastIncludedIndex - 1).toNat - (i - n.lastIncludedIndex) := by omega
        rw [h.base_eq, h.log_eq, List.drop_append_of_le_length (by rw [List.length_take]; omega),
          List.drop_take, hcut]
    · refine ⟨h.withLog ?_ ?_, rfl⟩
      · rw [List.take_append_of_le_length (by omega)]
      · rw [h.log_eq, List.drop_append_of_le_length (by omega)]

theorem mergeEntries (h : Compacted i n n') {req : AppendEntriesRequest Id}
    (hprev : i ≤ req.prevLogIndex) :
    Compacted i (n.mergeEntries req).1 (n'.mergeEntries req).1 ∧
      (n'.mergeEntries req).2 = (n.mergeEntries req).2 := by
  have hstop : (i : ℤ) ≤ req.prevLogIndex + req.entries.length := by omega
  unfold Node.mergeEntries
  dsimp only
  rw [h.lastLogIndex_eq]
  have hmerge := (h.dropSuffix hstop).mergeLoop
    (decide (req.prevLogIndex + req.entries.length < n.lastLogIndex))
    (show (i : ℤ) < req.prevLogIndex + 1 by omega) req.entries
  obtain ⟨hrel, hchanged⟩ := hmerge
  refine ⟨?_, hchanged⟩
  unfold Node.dropSuffix at hrel ⊢
  split_ifs at hrel ⊢ <;> exact hrel

/-! ## The handlers -/

theorem becomeFollower (h : Compacted i n n') (t : ℤ) (l : Option Id) :
    Compacted i (n.becomeFollower t l) (n'.becomeFollower t l) :=
  ⟨h.base_lt, h.base_eq, h.known, h.log_eq, h.label_eq, rfl, rfl, rfl, h.commit_eq⟩

theorem follow (h : Compacted i n n') (t : ℤ) (l : Id) :
    Compacted i (n.follow t l) (n'.follow t l) := by
  unfold Node.follow
  by_cases hf : t > n.term ∨ n.role ≠ .follower
  · rw [if_pos hf, if_pos (by rwa [h.term_eq, h.role_eq])]
    exact h.becomeFollower t (some l)
  · rw [if_neg hf, if_neg (by rwa [h.term_eq, h.role_eq])]
    exact ⟨h.base_lt, h.base_eq, h.known, h.log_eq, h.label_eq, h.term_eq, h.vote_eq, h.role_eq,
      h.commit_eq⟩

theorem checkPrevLog (h : Compacted i n n') {prev : ℤ} (hprev : i ≤ prev) (t : ℤ) :
    n'.checkPrevLog prev t = n.checkPrevLog prev t := by
  unfold Node.checkPrevLog
  rw [h.lastLogIndex_eq, h.logTermAt_eq hprev]

theorem setDirty (h : Compacted i n n') (b b' : Bool) :
    Compacted i { n with dirty := b } { n' with dirty := b' } :=
  ⟨h.base_lt, h.base_eq, h.known, h.log_eq, h.label_eq, h.term_eq, h.vote_eq, h.role_eq,
    h.commit_eq⟩

theorem advanceCommit (h : Compacted i n n') (c : ℤ) :
    Compacted i (n.advanceCommit c) (n'.advanceCommit c) := by
  refine ⟨h.base_lt, h.base_eq, h.known, h.log_eq, h.label_eq, h.term_eq, h.vote_eq, h.role_eq, ?_⟩
  unfold Node.advanceCommit
  rw [h.lastLogIndex_eq]

/-- The end of `HandleAppendEntries`, once the entries are merged. -/
theorem finish (h : Compacted i n n') (c : ℤ) (changed : Bool) :
    let r := fun m : Node Id => if c > m.commitIndex
      then (m.advanceCommit c, (⟨m.term, true⟩ : AppendEntriesResponse), true)
      else (m, ⟨m.term, true⟩, changed)
    Compacted i (r n).1 (r n').1 ∧ (r n').2 = (r n).2 := by
  dsimp only
  by_cases hc : c > n.commitIndex
  · rw [if_pos hc, if_pos (by rwa [h.commit_eq]), h.term_eq]
    exact ⟨h.advanceCommit c, rfl⟩
  · rw [if_neg hc, if_neg (by rwa [h.commit_eq]), h.term_eq]
    exact ⟨h, rfl⟩

variable [DecidableEq Id]

theorem handleRequestVote (h : Compacted i n n') (req : VoteRequest Id) :
    Compacted i (n.handleRequestVote req).1 (n'.handleRequestVote req).1 ∧
      (n'.handleRequestVote req).2 = (n.handleRequestVote req).2 := by
  have hadopt : Compacted i (n.adoptTerm req.term) (n'.adoptTerm req.term) := by
    unfold Node.adoptTerm
    rw [h.term_eq]
    split_ifs
    · exact h.becomeFollower req.term none
    · exact h
  have hgrants : (n'.adoptTerm req.term).grants req = (n.adoptTerm req.term).grants req := by
    unfold Node.grants
    rw [hadopt.vote_eq, hadopt.lastLogTerm_eq, hadopt.lastLogIndex_eq]
  unfold Node.handleRequestVote
  dsimp only
  rw [h.term_eq, hgrants, hadopt.term_eq]
  split_ifs
  · exact ⟨h, rfl⟩
  · refine ⟨?_, rfl⟩
    exact ⟨hadopt.base_lt, hadopt.base_eq, hadopt.known, hadopt.log_eq, hadopt.label_eq, rfl, rfl,
      hadopt.role_eq, hadopt.commit_eq⟩
  · exact ⟨hadopt, rfl⟩

omit [DecidableEq Id] in
theorem handleAppendEntries (h : Compacted i n n') {req : AppendEntriesRequest Id}
    (hprev : i ≤ req.prevLogIndex) :
    Compacted i (n.handleAppendEntries req).1 (n'.handleAppendEntries req).1 ∧
      (n'.handleAppendEntries req).2 = (n.handleAppendEntries req).2 := by
  have hf := h.follow req.term req.leaderID
  obtain ⟨hm, hchanged⟩ := hf.mergeEntries hprev
  have hcheck := hf.checkPrevLog hprev req.prevLogTerm
  unfold Node.handleAppendEntries
  dsimp only
  rw [h.term_eq, hcheck, hchanged, hf.term_eq]
  by_cases hlt : req.term < n.term
  · rw [if_pos hlt, if_pos hlt]
    exact ⟨h, rfl⟩
  · rw [if_neg hlt, if_neg hlt]
    by_cases hprevLog :
        (n.follow req.term req.leaderID).checkPrevLog req.prevLogIndex req.prevLogTerm = true
    · rw [if_pos hprevLog, if_pos hprevLog]
      -- the node after the merge, with the flag set or not
      have hmerged : ∀ changed : Bool, Compacted i
          (if changed then { ((n.follow req.term req.leaderID).mergeEntries req).1 with dirty := true }
            else ((n.follow req.term req.leaderID).mergeEntries req).1)
          (if changed then { ((n'.follow req.term req.leaderID).mergeEntries req).1 with dirty := true }
            else ((n'.follow req.term req.leaderID).mergeEntries req).1) := by
        intro changed
        cases changed
        · exact hm
        · exact hm.setDirty true true
      exact (hmerged _).finish req.leaderCommit _
    · rw [if_neg hprevLog, if_neg hprevLog]
      exact ⟨hf, rfl⟩

end Compacted

/-! ## Runs -/

/-- A request of another node. -/
inductive Inbound (Id : Type) where
  | vote (req : VoteRequest Id)
  | append (req : AppendEntriesRequest Id)

/-- The answer to it. -/
inductive Answer where
  | vote (resp : VoteResponse)
  | append (resp : AppendEntriesResponse)

variable [DecidableEq Id]

/-- `HandleRequestVote` and `HandleAppendEntries` (pkg/raft/node.go:40, :86) as a whole; the
    `Save` of their `persist` succeeds and clears the flag. -/
def serve (n : Node Id) : Inbound Id → Answer × Node Id
  | .vote req =>
    let r := n.handleRequestVote req
    (.vote r.2, if r.2.voteGranted then { r.1 with dirty := false } else r.1)
  | .append req =>
    let r := n.handleAppendEntries req
    (.append r.2.1, if r.2.2 then { r.1 with dirty := false } else r.1)

/-- The answers to a sequence of requests, and the node after them. -/
def serveAll (n : Node Id) : List (Inbound Id) → List Answer × Node Id
  | [] => ([], n)
  | req :: reqs =>
    let r := n.serve req
    let rest := r.2.serveAll reqs
    (r.1 :: rest.1, rest.2)

/-- The request does not reach below the index `i`. -/
def Inbound.Above (i : ℕ) : Inbound Id → Prop
  | .vote _ => True
  | .append req => i ≤ req.prevLogIndex

theorem Compacted.serve {i : ℕ} {n n' : Node Id} (h : Compacted i n n') {req : Inbound Id}
    (hreq : req.Above i) :
    Compacted i (n.serve req).2 (n'.serve req).2 ∧ (n'.serve req).1 = (n.serve req).1 := by
  cases req with
  | vote req =>
    obtain ⟨hrel, heq⟩ := h.handleRequestVote req
    simp only [Node.serve, heq]
    split_ifs
    · exact ⟨hrel.setDirty false false, trivial⟩
    · exact ⟨hrel, trivial⟩
  | append req =>
    obtain ⟨hrel, heq⟩ := h.handleAppendEntries hreq
    simp only [Node.serve, heq]
    split_ifs
    · exact ⟨hrel.setDirty false false, trivial⟩
    · exact ⟨hrel, trivial⟩

omit [DecidableEq Id] in
/-- `CompactLog` at an applied index. -/
theorem compacted_compactLog {n : Node Id} {i : ℕ} (hb : n.lastIncludedIndex < i)
    (happlied : i ≤ n.lastApplied) (hcommit : n.lastApplied ≤ n.commitIndex)
    (hlog : n.commitIndex ≤ n.lastLogIndex) :
    Compacted i n (n.compactLog i (n.logTermAt i)) := by
  have hlast := hlog
  unfold lastLogIndex at hlast
  -- the entry at the new base
  obtain ⟨e, he⟩ : ∃ e, n.log[i - n.lastIncludedIndex - 1]? = some e :=
    ⟨_, List.getElem?_eq_getElem (by omega)⟩
  have hterm : n.logTermAt i = e.term := by
    have hzero : (i : ℤ) ≠ 0 := by omega
    have hold : (i : ℤ) ≠ n.lastIncludedIndex := by omega
    simp only [logTermAt, hzero, hold, ite_false]
    rw [n.entryAt_eq_getElem? (by omega),
      show ((i : ℤ) - n.lastIncludedIndex - 1).toNat = i - n.lastIncludedIndex - 1 by omega, he]
  unfold compactLog
  rw [if_neg (by omega)]
  refine ⟨hb, rfl, by omega, ?_, ?_, rfl, rfl, rfl, ?_⟩
  · dsimp only
    split_ifs with hall
    · unfold lastLogIndex at hall
      rw [List.drop_eq_nil_of_le (by omega)]
    · rfl
  · dsimp only
    rw [he, Option.map_some, hterm]
    split_ifs with hall
    · unfold lastLogIndex at hall
      rw [lastLogTerm, List.getLast?_eq_getElem?,
        show n.log.length - 1 = i - n.lastIncludedIndex - 1 by omega, he]
    · rfl
  · dsimp only
    rw [if_neg (by omega)]

/-- A follower that has applied both entries of its log. -/
def appliedFollower : Node (Fin 3) :=
  { Node.new 0 [1, 2] with
    term := 2, commitIndex := 2, lastApplied := 2
    log := [{ term := 1, cmd := { op := .put, key := [107], value := [53] } },
      { term := 2, cmd := { op := .incr, key := [107] } }] }

/-- An entry is appended behind the base; the leader of the next term replaces it, which truncates
    the log to exactly the base; a candidate asks for a vote. -/
def truncatingRequests : List (Inbound (Fin 3)) :=
  [.append { term := 2, leaderID := 1, prevLogIndex := 2, prevLogTerm := 2, leaderCommit := 2
             entries := [{ term := 2, cmd := { op := .incr, key := [107] } }] },
    .append { term := 3, leaderID := 2, prevLogIndex := 2, prevLogTerm := 2, leaderCommit := 2
              entries := [{ term := 3, cmd := { op := .delete, key := [107] } }] },
    .vote { term := 4, candidateID := 2, lastLogIndex := 3, lastLogTerm := 3 }]

end Node

end KvStore.Raft
