import KvStore.Raft.FollowerSections
import KvStore.Raft.NodeRuns

/-!
# Acknowledged appends and the raft store

`HandleAppendEntries` runs `persist` when the request changed the log or the commit
index, and answers at once otherwise. What a successful answer promises about the
store at that moment:

* `handleAppendEntries_contains`: a request that is accepted leaves a log that has its
  entries, by term, at their indices.
* `appends_durable_iff`: in a run of a node on its store every successful answer finds
  the entries of its request in the store exactly when no answer without `persist` is
  given on an unsaved log, and no other section takes the entries out of the log before
  the handler's own `persist`.
* `retried_append_unsaved`: after a failed `Save` the same request is acknowledged
  without another attempt.
-/

namespace KvStore.Raft

variable {Id : Type}

namespace RaftState

/-- The state has an entry of this term at the index, or has compacted the index. -/
def Covers (st : RaftState Id) (index term : ℤ) : Prop :=
  index ≤ st.lastIncludedIndex ∨
    ∃ e, st.log[(index - st.lastIncludedIndex - 1).toNat]? = some e ∧ e.term = term

/-- The state covers every entry of the request, from `PrevLogIndex+1` on. -/
def Contains (st : RaftState Id) (req : AppendEntriesRequest Id) : Prop :=
  ∀ (j : ℕ) (e : Entry), req.entries[j]? = some e → st.Covers (req.prevLogIndex + 1 + j) e.term

end RaftState

/-! ## What an accepted request leaves in the log -/

namespace Node

/-- The loop of `mergeEntries` leaves everything before the index it starts at alone. -/
theorem mergeLoop_before (n : Node Id) {changed : Bool} {idx : ℤ} {es : List Entry} {k : ℕ}
    (hk : (k : ℤ) < idx - n.lastIncludedIndex - 1) (hlen : k < n.log.length) :
    (n.mergeLoop changed idx es).1[k]? = n.log[k]? := by
  induction es generalizing idx with
  | nil => rfl
  | cons e rest ih =>
    rw [mergeLoop]
    split_ifs with h1 h2 h3
    · exact ih (by omega)
    · exact ih (by omega)
    · rw [List.getElem?_append_left (by rw [List.length_take]; omega),
        List.getElem?_take_of_lt (by omega)]
    · exact List.getElem?_append_left hlen

/-- The loop of `mergeEntries`, started inside the log or right after it, leaves a log that
    covers all its entries: at its index stands the entry itself, or the old one. -/
theorem mergeLoop_covers (n : Node Id) (changed : Bool) {idx : ℤ} {es : List Entry}
    (hidx : idx ≤ n.lastLogIndex + 1) {j : ℕ} {e : Entry} (he : es[j]? = some e) :
    idx + j ≤ n.lastIncludedIndex ∨
      ∃ e', (n.mergeLoop changed idx es).1[(idx + j - n.lastIncludedIndex - 1).toNat]? = some e' ∧
        e'.term = e.term ∧
        (e' = e ∨ n.log[(idx + j - n.lastIncludedIndex - 1).toNat]? = some e') := by
  unfold lastLogIndex at hidx
  induction es generalizing idx j with
  | nil => cases he
  | cons e₀ rest ih =>
    rw [mergeLoop]
    -- an entry after the first one is found by the loop on the rest
    have hnext : ∀ j', j = j' + 1 → idx ≤ n.lastLogIndex →
        idx + j ≤ n.lastIncludedIndex ∨ ∃ e', (n.mergeLoop changed (idx + 1) rest).1[
          (idx + j - n.lastIncludedIndex - 1).toNat]? = some e' ∧ e'.term = e.term ∧
            (e' = e ∨ n.log[(idx + j - n.lastIncludedIndex - 1).toNat]? = some e') := by
      rintro j' rfl hle
      unfold lastLogIndex at hle
      have hle' : idx + 1 ≤ ((n.lastIncludedIndex + n.log.length : ℕ) : ℤ) + 1 := by omega
      have hrest := ih hle' he
      rwa [show idx + 1 + (j' : ℤ) = idx + ((j' + 1 : ℕ) : ℤ) by push_cast; ring] at hrest
    -- the first entry and those after it stand at `pos` in the new log
    have hnew : ∀ pos : ℕ, ∀ front : List Entry, front.length = pos →
        (pos : ℤ) = idx - n.lastIncludedIndex - 1 →
        ∃ e', (front ++ e₀ :: rest)[(idx + j - n.lastIncludedIndex - 1).toNat]? = some e' ∧
          e'.term = e.term ∧
            (e' = e ∨ n.log[(idx + j - n.lastIncludedIndex - 1).toNat]? = some e') := by
      rintro pos front rfl hpos
      refine ⟨e, ?_, rfl, .inl rfl⟩
      rw [List.getElem?_append_right (by omega), ← he]
      congr 1
      omega
    split_ifs with h1 h2 h3
    · cases j with
      | zero => exact .inl (by simpa using h1)
      | succ j' => exact hnext j' rfl (by unfold lastLogIndex; push_cast; omega)
    · cases j with
      | zero =>
        obtain rfl : e₀ = e := Option.some.inj he
        have hpos : ((idx - n.lastIncludedIndex - 1).toNat : ℤ) = idx - n.lastIncludedIndex - 1 := by
          omega
        unfold lastLogIndex at h2
        have hlt : (idx - n.lastIncludedIndex - 1).toNat < n.log.length := by push_cast at h2; omega
        have hget := List.getElem?_eq_getElem hlt
        refine .inr ⟨n.log[(idx - n.lastIncludedIndex - 1).toNat], ?_, ?_, .inr ?_⟩
        · rw [Nat.cast_zero, add_zero, mergeLoop_before n (by omega) hlt, hget]
        · rw [← h3, logTermAt_of_getElem? (by omega) hget]
        · rw [Nat.cast_zero, add_zero, hget]
      | succ j' => exact hnext j' rfl h2
    · refine .inr (hnew (idx - n.lastIncludedIndex - 1).toNat _ ?_ (by omega))
      unfold lastLogIndex at h2
      rw [List.length_take]
      push_cast at h2
      omega
    · refine .inr (hnew n.log.length _ rfl ?_)
      unfold lastLogIndex at h2
      push_cast at h2 hidx
      omega

/-- The suffix that is dropped lies beyond the request. -/
theorem dropSuffix_reaches {n : Node Id} {req : AppendEntriesRequest Id}
    (hc : n.checkPrevLog req.prevLogIndex req.prevLogTerm = true) :
    req.prevLogIndex + 1 ≤
      (n.dropSuffix (req.prevLogIndex + req.entries.length)).lastLogIndex + 1 := by
  have hprev : req.prevLogIndex ≤ n.lastLogIndex := by
    unfold checkPrevLog at hc
    split_ifs at hc with h
    omega
  unfold dropSuffix
  split_ifs with h
  · unfold lastLogIndex at h ⊢
    simp only [List.length_take]
    push_cast at h ⊢
    omega
  · omega

/-- An accepted request leaves a log that covers its entries. -/
theorem mergeEntries_contains {n : Node Id} {req : AppendEntriesRequest Id}
    (hc : n.checkPrevLog req.prevLogIndex req.prevLogTerm = true) :
    (n.mergeEntries req).1.raftState.Contains req := by
  intro j e he
  have hcov := mergeLoop_covers (n.dropSuffix (req.prevLogIndex + req.entries.length))
    (decide (req.prevLogIndex + req.entries.length < n.lastLogIndex)) (dropSuffix_reaches hc) he
  rw [dropSuffix_base] at hcov
  refine hcov.imp_right ?_
  rintro ⟨e', hget, hterm, -⟩
  exact ⟨e', hget, hterm⟩

variable [DecidableEq Id]

/-- What a successful answer says about the log of the node that gives it. -/
theorem handleAppendEntries_contains {n : Node Id} {req : AppendEntriesRequest Id}
    (h : (n.handleAppendEntries req).2.1.success = true) :
    (n.handleAppendEntries req).1.raftState.Contains req := by
  by_cases ht : req.term < n.term
  · rw [(handleAppendEntries_stale ht).2] at h
    cases h
  · by_cases hc : (n.follow req.term req.leaderID).checkPrevLog req.prevLogIndex
        req.prevLogTerm = true
    · obtain ⟨hlog, hbase, -⟩ := handleAppendEntries_accepted ht hc
      have hmerged := mergeEntries_contains hc
      intro j e he
      have hcov := hmerged j e he
      unfold RaftState.Covers raftState at hcov ⊢
      dsimp only at hcov ⊢
      rw [hlog, hbase]
      exact hcov
    · rw [(handleAppendEntries_rejected ht (Bool.eq_false_iff.mpr hc)).2] at h
      cases h

/-- An answer without `persist` is given on the log the request found. -/
theorem handleAppendEntries_unchanged {n : Node Id} {req : AppendEntriesRequest Id}
    (h : (n.handleAppendEntries req).2.2 = false) :
    (n.handleAppendEntries req).1.log = n.log ∧
      (n.handleAppendEntries req).1.lastIncludedIndex = n.lastIncludedIndex ∧
      (n.handleAppendEntries req).1.lastIncludedTerm = n.lastIncludedTerm := by
  obtain ⟨hlog, hbase, hterm, -⟩ := (follow_quiet n req.term req.leaderID).fields
  by_cases ht : req.term < n.term
  · rw [(handleAppendEntries_stale ht).1]
    exact ⟨rfl, rfl, rfl⟩
  · by_cases hc : (n.follow req.term req.leaderID).checkPrevLog req.prevLogIndex
        req.prevLogTerm = true
    · have hmerged : ((n.follow req.term req.leaderID).mergeEntries req).2 = false := by
        simp only [handleAppendEntries, ht, ite_false, hc, ite_true] at h
        split_ifs at h <;> exact h
      obtain ⟨hlog', hbase', hterm', -⟩ := handleAppendEntries_accepted ht hc
      rw [hlog', hbase', hterm', mergeEntries_unchanged hmerged]
      exact ⟨hlog, hbase, hterm⟩
    · rw [(handleAppendEntries_rejected ht (Bool.eq_false_iff.mpr hc)).1]
      exact ⟨hlog, hbase, hterm⟩

end Node

/-! ## Runs of a node -/

variable [DecidableEq Id]

namespace Process

/-- Whoever is told `Success` finds the entries of the request in the store. -/
def Effect.AcksStored (e : Effect Id) : Prop :=
  ∀ src dst req resp, Msg.appendResp src dst req resp ∈ e.sent → resp.success = true →
    e.proc.disk.Contains req

/-- An acknowledgement without `persist` is given on a saved log or on one that has the
    entries in the store anyway; a handler that runs `persist` still finds the entries of
    its request in the log. -/
def acksCovered (p : Process Id) : Input Id → Prop
  | .appendEntries req =>
    (p.node.handleAppendEntries req).2.1.success = true →
      (p.node.handleAppendEntries req).2.2 = false → p.node.dirty = false ∨ p.disk.Contains req
  | .persistAppend req resp saved =>
    resp.success = true → (p.persist saved).1 = true → p.node.raftState.Contains req
  | _ => True

/-- A request that changes nothing: the answer is backed by what was in the store before. -/
theorem acksStored_appendEntries {p : Process Id} {req : AppendEntriesRequest Id} {e : Effect Id}
    (hc : p.node.dirty = false → p.Clean) (hstep : p.step (.appendEntries req) = some e) :
    e.AcksStored ↔ p.acksCovered (.appendEntries req) := by
  simp only [step] at hstep
  split at hstep <;> cases hstep
  · next hchanged =>
    refine iff_of_true ?_ ?_
    · intro src dst req' resp hm
      cases hm
    · intro _ hsame
      rw [hchanged] at hsame
      cases hsame
  · next hsame =>
    have hsame : (p.node.handleAppendEntries req).2.2 = false := by simpa using hsame
    constructor
    · intro h hs _
      exact .inr (h _ _ _ _ (List.mem_singleton_self _) hs)
    · intro h src dst req' resp hm hs
      cases List.mem_singleton.mp hm
      rcases h hs hsame with hclean | hstored
      · -- the store holds the log that the request found, which has its entries
        have hcontains := Node.handleAppendEntries_contains hs
        obtain ⟨hlog, hbase, -⟩ := Node.handleAppendEntries_unchanged hsame
        intro j en hen
        have hcov := hcontains j en hen
        unfold RaftState.Covers Node.raftState at hcov
        dsimp only at hcov ⊢
        rw [hlog, hbase] at hcov
        rw [hc hclean]
        exact hcov
      · exact hstored

omit [DecidableEq Id] in
theorem persist_disk {p : Process Id} {saved : Bool} (hc : p.node.dirty = false → p.Clean)
    (h : (p.persist saved).1 = true) : (p.persist saved).2.disk = p.node.raftState := by
  unfold persist Node.persist at h ⊢
  split_ifs at h ⊢ with h1 h2
  · exact hc h1
  · rfl

/-- A handler that runs `persist` before its answer stores the log as it is then. -/
theorem acksStored_persistAppend {p : Process Id} {req : AppendEntriesRequest Id}
    {resp : AppendEntriesResponse} {saved : Bool} {e : Effect Id}
    (hc : p.node.dirty = false → p.Clean)
    (hstep : p.step (.persistAppend req resp saved) = some e) :
    e.AcksStored ↔ p.acksCovered (.persistAppend req resp saved) := by
  simp only [step] at hstep
  split at hstep <;> cases hstep
  have hsame : ((p.next (.append req resp) p.node []).persist saved).1 = (p.persist saved).1 := rfl
  by_cases hs : (p.persist saved).1 = true
  · have hstored : ((p.next (.append req resp) p.node []).persist saved).2.disk =
        p.node.raftState := persist_disk hc hs
    constructor
    · intro h hresp _
      have := h _ _ _ _ (List.mem_singleton_self _) (by rw [hsame, hs]; exact hresp)
      rwa [← hstored]
    · intro h src dst req' resp' hm hresp
      cases List.mem_singleton.mp hm
      rw [hsame, if_pos hs] at hresp
      dsimp only
      rw [hstored]
      exact h hresp hs
  · refine iff_of_true ?_ fun _ hs' => absurd hs' hs
    intro src dst req' resp' hm hresp
    cases List.mem_singleton.mp hm
    rw [hsame, if_neg hs] at hresp
    cases hresp

theorem acksStored_iff {p : Process Id} {inp : Input Id} {e : Effect Id}
    (hc : p.node.dirty = false → p.Clean) (hstep : p.step inp = some e) :
    e.AcksStored ↔ p.acksCovered inp := by
  cases inp with
  | appendEntries req => exact acksStored_appendEntries hc hstep
  | persistAppend req resp saved => exact acksStored_persistAppend hc hstep
  | _ =>
    refine iff_of_true ?_ trivial
    intro src dst req resp hm
    cases send_of_step hstep hm

/-- The flag is sound along every run. -/
theorem clean_of_exec {n : Node Id} {st : RaftState Id} {inputs : List (Input Id)} {e : Effect Id}
    (he : (opened n st).exec inputs = some e) : e.proc.node.dirty = false → e.proc.Clean := by
  induction inputs using List.reverseRecOn generalizing e with
  | nil =>
    cases he
    exact fun _ => rfl
  | append_singleton pre inp ih =>
    obtain ⟨e₀, he₀, hnext⟩ := exec_concat.mp he
    obtain ⟨e₁, hstep, rfl⟩ := Option.map_eq_some_iff.mp hnext
    have hclean := clean_of_step (ih he₀) hstep
    exact hclean

/-- A run of a node on its store, with any outcome of every `Save`: each successful answer
    to an `AppendEntries` finds the entries of the request in the store exactly when every
    step of the run meets `acksCovered`. -/
theorem appends_durable_iff (n : Node Id) (st : RaftState Id) (inputs : List (Input Id)) :
    (∀ pre inp, pre ++ [inp] <+: inputs → ∀ e e', (opened n st).exec pre = some e →
        e.proc.step inp = some e' → e'.AcksStored) ↔
      ∀ pre inp, pre ++ [inp] <+: inputs → ∀ e e', (opened n st).exec pre = some e →
        e.proc.step inp = some e' → e.proc.acksCovered inp := by
  constructor
  · intro h pre inp hpre e e' he hstep
    exact (acksStored_iff (clean_of_exec he) hstep).mp (h pre inp hpre e e' he hstep)
  · intro h pre inp hpre e e' he hstep
    exact (acksStored_iff (clean_of_exec he) hstep).mpr (h pre inp hpre e e' he hstep)

/-- The first `Save` fails and the request is answered with `Success = false`; the leader
    sends it again, and the same entry is acknowledged with nothing in the store. -/
theorem retried_append_unsaved :
    ¬ ∀ pre inp, pre ++ [inp] <+: [.appendEntries firstRequest,
        .persistAppend firstRequest ⟨1, true⟩ false, .appendEntries firstRequest] →
      ∀ e e', (opened (Node.new (0 : Fin 3) [1, 2]) .empty).exec pre = some e →
        e.proc.step inp = some e' → e'.AcksStored := by
  intro h
  have hacks := h [.appendEntries firstRequest, .persistAppend firstRequest ⟨1, true⟩ false]
    (.appendEntries firstRequest) (List.prefix_refl _) _ _ rfl rfl
  rcases hacks _ _ _ _ (List.mem_singleton_self _) (by decide) 0 _ rfl with hbase | ⟨en, hen, -⟩
  · revert hbase
    decide
  · cases hen

end Process

end KvStore.Raft
