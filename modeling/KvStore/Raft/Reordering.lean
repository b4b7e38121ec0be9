import KvStore.Raft.AppendEffect

/-!
# Requests of one term in any order

The requests that `replicateToPeer` builds while a leader's log grows may reach a follower
in any order and any number of times. `Replica.deliver` is one whole `HandleAppendEntries`
call; `acked` is the largest `PrevLogIndex+len(Entries)` answered with `Success`.

* `deliver_accepted`: if the logs match, an accepted request leaves the follower with the
  leader's log up to the end of the request, no further.
* `acknowledged_survive_iff`: if the logs match, the acknowledged entries survive a sequence of
  deliveries exactly when no accepted request ends before them.
* `acknowledged_survive`: on any follower they survive if, moreover, what an accepted request
  leaves in place is the leader's.
* `late_request_truncates`: a delayed shorter request removes an acknowledged entry.
-/

namespace KvStore.Raft

variable {Id : Type}

/-! ## Deliveries -/

/-- A follower, its store, and the end of the longest request it has acknowledged. -/
structure Replica (Id : Type) where
  node : Node Id
  disk : RaftState Id
  acked : ℕ

namespace Replica

/-- One call of `HandleAppendEntries` (pkg/raft/node.go:86); `saved` is the outcome of
    `Save` should `persist` run. -/
def deliver (f : Replica Id) (req : AppendEntriesRequest Id) (saved : Bool) : Replica Id :=
  let r := f.node.handleAppendEntries req
  if r.2.2 then
    let q := r.1.persist f.disk saved
    { node := q.2.1, disk := q.2.2
      acked := if q.1 && r.2.1.success then max f.acked req.stop else f.acked }
  else
    { node := r.1, disk := f.disk
      acked := if r.2.1.success then max f.acked req.stop else f.acked }

/-- A sequence of calls. -/
def run (f : Replica Id) (calls : List (AppendEntriesRequest Id × Bool)) : Replica Id :=
  calls.foldl (fun f d => f.deliver d.1 d.2) f

theorem run_concat (f : Replica Id) (calls : List (AppendEntriesRequest Id × Bool))
    (d : AppendEntriesRequest Id × Bool) : f.run (calls ++ [d]) = (f.run calls).deliver d.1 d.2 := by
  simp [run]

/-- The log has the leader's entries up to the acknowledged index, as far as it is not
    compacted. -/
def Keeps (f : Replica Id) (R : List Entry) : Prop :=
  ∀ k : ℕ, f.node.lastIncludedIndex < k → k ≤ f.acked → f.node.entryAt k = R[k - 1]?

/-- The request is rejected, or it ends at or after everything acknowledged, or the follower
    has compacted what it acknowledged beyond the end. -/
def Spares (f : Replica Id) (req : AppendEntriesRequest Id) : Prop :=
  f.node.term ≤ req.term → f.node.checkPrevLog req.prevLogIndex req.prevLogTerm = true →
    f.acked ≤ max req.stop f.node.lastIncludedIndex

/-- The request is accepted. -/
def Accepts (f : Replica Id) (req : AppendEntriesRequest Id) : Prop :=
  f.node.term ≤ req.term ∧ f.node.checkPrevLog req.prevLogIndex req.prevLogTerm = true

/-- The request is rejected, or the entries that it leaves in place up to its end are those of the
    log `R`: the ones up to `PrevLogIndex`, and the ones of the same term as in `R`. -/
def Agrees (f : Replica Id) (R : List Entry) (req : AppendEntriesRequest Id) : Prop :=
  f.Accepts req → ∀ (k : ℕ) (e : Entry), f.node.lastIncludedIndex < k → k ≤ req.stop →
    f.node.entryAt k = some e →
    ((k : ℤ) ≤ req.prevLogIndex ∨ ∃ e', R[k - 1]? = some e' ∧ e.term = e'.term) →
    R[k - 1]? = some e

variable [DecidableEq Id]

/-- What one call does to the log and to the acknowledged index. -/
theorem deliver_fields (f : Replica Id) (req : AppendEntriesRequest Id) (saved : Bool) :
    (f.deliver req saved).node.log = (f.node.handleAppendEntries req).1.log ∧
      (f.deliver req saved).node.lastIncludedIndex =
        (f.node.handleAppendEntries req).1.lastIncludedIndex ∧
      (f.deliver req saved).node.lastIncludedTerm =
        (f.node.handleAppendEntries req).1.lastIncludedTerm ∧
      f.acked ≤ (f.deliver req saved).acked ∧
      (f.deliver req saved).acked ≤ max f.acked req.stop ∧
      ((f.node.handleAppendEntries req).2.1.success = false →
        (f.deliver req saved).acked = f.acked) := by
  unfold deliver
  dsimp only
  split_ifs with h1 h2
  · obtain ⟨q1, q2, q3, -⟩ := ((f.node.handleAppendEntries req).1.persist_quiet f.disk saved).fields
    refine ⟨q1, q2, q3, le_max_left _ _, le_rfl, fun hs => ?_⟩
    simp [hs] at h2
  · obtain ⟨q1, q2, q3, -⟩ := ((f.node.handleAppendEntries req).1.persist_quiet f.disk saved).fields
    exact ⟨q1, q2, q3, le_rfl, le_max_left _ _, fun _ => rfl⟩
  · exact ⟨rfl, rfl, rfl, le_max_left _ _, le_rfl, fun hs => by simp_all⟩
  · exact ⟨rfl, rfl, rfl, le_rfl, le_max_left _ _, fun _ => rfl⟩

end Replica

variable [DecidableEq Id]

namespace Node

/-- A request that is not accepted leaves the log alone. -/
theorem handleAppendEntries_refused {n : Node Id} {req : AppendEntriesRequest Id}
    (h : ¬ (n.term ≤ req.term ∧
      n.checkPrevLog req.prevLogIndex req.prevLogTerm = true)) :
    (n.handleAppendEntries req).1.log = n.log ∧
      (n.handleAppendEntries req).1.lastIncludedIndex = n.lastIncludedIndex ∧
      (n.handleAppendEntries req).1.lastIncludedTerm = n.lastIncludedTerm ∧
      (n.handleAppendEntries req).2.1.success = false := by
  by_cases ht : req.term < n.term
  · rw [(handleAppendEntries_stale ht).1]
    exact ⟨rfl, rfl, rfl, (handleAppendEntries_stale ht).2⟩
  · have hc : (n.follow req.term req.leaderID).checkPrevLog req.prevLogIndex
        req.prevLogTerm = false := by
      rw [follow_checkPrevLog]
      exact Bool.eq_false_iff.mpr fun hc => h ⟨not_lt.mp ht, hc⟩
    obtain ⟨q1, q2, q3, -⟩ := (follow_quiet n req.term req.leaderID).fields
    obtain ⟨h1, h2⟩ := handleAppendEntries_rejected ht hc
    rw [h1]
    exact ⟨q1, q2, q3, h2⟩

end Node

/-! ## The follower against the leader's log -/

/-- The whole log `l` of a follower against the log `R` of a leader: entries of one term at one
    index come with the same entries before them, and what the follower has compacted is
    part of `R`. -/
structure LogsMatch (n : Node Id) (l R : List Entry) : Prop where
  holds : n.Holds l
  base_le : n.lastIncludedIndex ≤ R.length
  base : l.take n.lastIncludedIndex = R.take n.lastIncludedIndex
  matching : ∀ (j : ℕ) (e e' : Entry), l[j]? = some e → R[j]? = some e' → e.term = e'.term →
    l.take (j + 1) = R.take (j + 1)
  nonneg : ∀ e ∈ l, 0 ≤ e.term

/-- A request that `replicateToPeer` built in the term `T` when the log of its leader was a
    beginning of `R`. -/
def BuiltFrom (R : List Entry) (T : ℤ) (req : AppendEntriesRequest Id) : Prop :=
  ∃ (n : Node Id) (peer : Id) (l : List Entry), n.Holds l ∧ l <+: R ∧ n.term = T ∧
    n.firstIndex ≤ n.nextFor peer ∧ req = n.appendRequest peer

namespace LogsMatch

variable {n : Node Id} {l R : List Entry} {req : AppendEntriesRequest Id}

omit [DecidableEq Id] in
/-- Only the log and its base matter. -/
theorem congr {n' : Node Id} (h : LogsMatch n l R) (h1 : n'.log = n.log)
    (h2 : n'.lastIncludedIndex = n.lastIncludedIndex)
    (h3 : n'.lastIncludedTerm = n.lastIncludedTerm) : LogsMatch n' l R :=
  ⟨h.holds.congr h1 h2 h3, h2 ▸ h.base_le, h2 ▸ h.base, h.matching, h.nonneg⟩

omit [DecidableEq Id] in
/-- A beginning of the leader's log. -/
theorem of_take {k : ℕ} (h : n.Holds (R.take k)) (hk : k ≤ R.length)
    (hR : ∀ e ∈ R, 0 ≤ e.term) : LogsMatch n (R.take k) R := by
  have hb := h.base_le
  rw [List.length_take, min_eq_left hk] at hb
  refine ⟨h, hb.trans hk, ?_, ?_, fun e he => hR e (List.mem_of_mem_take he)⟩
  · rw [List.take_take, min_eq_left hb]
  · intro j e e' he _ _
    have hj := (List.getElem?_eq_some_iff.mp he).1
    rw [List.length_take] at hj
    rw [List.take_take, min_eq_left (by omega)]

omit [DecidableEq Id] in
/-- Where an accepted request starts, the logs agree so far. -/
theorem prev_agrees (h : LogsMatch n l R) {m prev : ℕ} (hcar : Node.Carries req R m prev)
    (hc : n.checkPrevLog req.prevLogIndex req.prevLogTerm = true) (hle : prev ≤ m) :
    l.take prev = R.take prev := by
  refine h.holds.prev_agrees hcar hc hle (Nat.le_succ _) ?_ fun j e e' _ => h.matching j e e'
  intro hpb
  have := congrArg (List.take prev) h.base
  rwa [List.take_take, List.take_take, min_eq_left hpb] at this

omit [DecidableEq Id] in
/-- Entries of one term at one index are the same. -/
theorem entry_eq (h : LogsMatch n l R) {j : ℕ} {e e' : Entry} (he : l[j]? = some e)
    (he' : R[j]? = some e') (hterm : e.term = e'.term) : e = e' := by
  have hget := congrArg (fun x => x[j]?) (h.matching j e e' he he' hterm)
  simp only [List.getElem?_take_of_lt (Nat.lt_succ_self j), he, he'] at hget
  exact Option.some.inj hget

/-- An accepted request leaves the leader's log up to its end, or up to the base. -/
theorem accepted (h : LogsMatch n l R) {m prev : ℕ} (hcar : Node.Carries req R m prev)
    (ht : n.term ≤ req.term)
    (hc : n.checkPrevLog req.prevLogIndex req.prevLogTerm = true) :
    (n.handleAppendEntries req).1.Holds (R.take (max req.stop n.lastIncludedIndex)) ∧
      (n.handleAppendEntries req).1.lastIncludedIndex = n.lastIncludedIndex ∧
      max req.stop n.lastIncludedIndex ≤ R.length := by
  have hc₁ := (Node.follow_checkPrevLog n req.term req.leaderID _ _).trans hc
  obtain ⟨q1, q2, q3, -⟩ := (Node.follow_quiet n req.term req.leaderID).fields
  have h₁ : LogsMatch (n.follow req.term req.leaderID) l R := h.congr q1 q2 q3
  obtain ⟨e1, e2, e3, -⟩ := Node.handleAppendEntries_accepted (not_lt.mpr ht) hc₁
  rw [← q2]
  generalize n.follow req.term req.leaderID = n₁ at *
  have hbelow : m < prev → prev < n₁.lastIncludedIndex := fun hlt =>
    h₁.holds.prev_below hcar hc₁ hlt h₁.nonneg
  have hmerged := Node.mergeEntries_holds h₁.holds hcar h₁.base_le h₁.base
    (fun _ _ _ => h₁.entry_eq) (h₁.prev_agrees hcar hc₁) hbelow
  have hstop : max req.stop n₁.lastIncludedIndex = max m n₁.lastIncludedIndex :=
    hcar.max_stop hbelow
  rw [hstop]
  exact ⟨hmerged.congr e1 e2 e3, e2, max_le hcar.2.1 h₁.base_le⟩

end LogsMatch

omit [DecidableEq Id] in
/-- The entry at an index between `PrevLogIndex` and the end of a request that carries `R`. -/
theorem Node.Carries.entry {req : AppendEntriesRequest Id} {R : List Entry} {m prev k : ℕ}
    (h : Node.Carries req R m prev) (hk : req.prevLogIndex < k) (hstop : k ≤ req.stop) :
    ∃ j e, req.prevLogIndex + 1 + (j : ℕ) = k ∧ req.entries[j]? = some e ∧ R[k - 1]? = some e := by
  obtain ⟨hprev, hm, hcase⟩ := h
  unfold AppendEntriesRequest.stop at hstop
  have hlt : k - 1 - prev < req.entries.length := by omega
  refine ⟨k - 1 - prev, req.entries[k - 1 - prev], by omega, List.getElem?_eq_getElem hlt, ?_⟩
  rcases hcase with ⟨hle, hes, -⟩ | ⟨-, hes, -⟩
  · rw [← List.getElem?_eq_getElem hlt, hes, List.getElem?_drop, Nat.add_sub_cancel' (by omega),
      List.getElem?_take_of_lt (by simp [hes] at hlt; omega)]
  · simp [hes] at hlt

/-! ## Every sequence of deliveries -/

namespace Replica

variable {f : Replica Id} {l R : List Entry} {T : ℤ} {req : AppendEntriesRequest Id} {saved : Bool}

/-- What holds after every delivery. -/
def Matches (f : Replica Id) (R : List Entry) : Prop :=
  (∃ l, LogsMatch f.node l R) ∧ f.acked ≤ R.length

theorem deliver_accepted (h : f.Matches R) (hreq : BuiltFrom R T req) (hacc : f.Accepts req)
    (saved : Bool) :
    (f.deliver req saved).node.Holds (R.take (max req.stop f.node.lastIncludedIndex)) ∧
      (f.deliver req saved).node.lastIncludedIndex = f.node.lastIncludedIndex ∧
      max req.stop f.node.lastIncludedIndex ≤ R.length := by
  obtain ⟨⟨l, hl⟩, -⟩ := h
  obtain ⟨n, peer, l₀, hn, hpre, -, hf, rfl⟩ := hreq
  obtain ⟨h1, h2, h3⟩ := hl.accepted (Node.appendRequest_carries hn hpre hf) hacc.1 hacc.2
  obtain ⟨d1, d2, d3, -⟩ := f.deliver_fields (n.appendRequest peer) saved
  exact ⟨h1.congr d1 d2 d3, d2.trans h2, h3⟩

/-- A delivery keeps the logs matching. -/
theorem Matches.deliver (h : f.Matches R) (hR : ∀ e ∈ R, 0 ≤ e.term)
    (hreq : BuiltFrom R T req) : (f.deliver req saved).Matches R := by
  obtain ⟨d1, d2, d3, -, d5, d6⟩ := f.deliver_fields req saved
  by_cases hacc : f.Accepts req
  · obtain ⟨h1, h2, h3⟩ := deliver_accepted h hreq hacc saved
    exact ⟨⟨_, .of_take h1 h3 hR⟩, d5.trans (max_le h.2 ((le_max_left _ _).trans h3))⟩
  · obtain ⟨r1, r2, r3, r4⟩ := Node.handleAppendEntries_refused hacc
    obtain ⟨⟨l, hl⟩, hle⟩ := h
    exact ⟨⟨l, hl.congr (d1.trans r1) (d2.trans r2) (d3.trans r3)⟩, (d6 r4).le.trans hle⟩

/-- A request that is refused changes none of the acknowledged entries. -/
theorem Keeps.refused (hk : f.Keeps R) (hacc : ¬ f.Accepts req) : (f.deliver req saved).Keeps R := by
  obtain ⟨d1, d2, d3, -, -, d6⟩ := f.deliver_fields req saved
  obtain ⟨r1, r2, r3, r4⟩ := Node.handleAppendEntries_refused hacc
  have hsame : Node.SameLog f.node (f.deliver req saved).node :=
    ⟨d1.trans r1, d2.trans r2, d3.trans r3⟩
  intro k hbase hka
  rw [hsame.base] at hbase
  rw [d6 r4] at hka
  rw [hsame.entryAt]
  exact hk k hbase hka

/-- A delivery that spares the acknowledged entries keeps them, if what it leaves in place is the
    leader's. -/
theorem Keeps.deliver (hk : f.Keeps R) (hreq : BuiltFrom R T req) (hspare : f.Spares req)
    (hagree : f.Agrees R req) : (f.deliver req saved).Keeps R := by
  by_cases hacc : f.Accepts req
  swap
  · exact hk.refused hacc
  obtain ⟨d1, d2, d3, -, d5, -⟩ := f.deliver_fields req saved
  have hsame : Node.SameLog (f.node.handleAppendEntries req).1 (f.deliver req saved).node := ⟨d1, d2, d3⟩
  intro k hbase hka
  rw [d2, (f.node.handleAppendEntries_progress req).2] at hbase
  have hstop : k ≤ req.stop := by
    have := hspare hacc.1 hacc.2
    omega
  rw [hsame.entryAt]
  by_cases hprev : (k : ℤ) ≤ req.prevLogIndex
  · -- left in place by the request
    have hlast : req.prevLogIndex ≤ f.node.lastLogIndex := by
      have hc := hacc.2
      unfold Node.checkPrevLog at hc
      split_ifs at hc with h
      omega
    have hlt : ((k : ℤ) - f.node.lastIncludedIndex - 1).toNat < f.node.log.length := by
      unfold Node.lastLogIndex at hlast
      omega
    have hget : f.node.entryAt k = some f.node.log[((k : ℤ) - f.node.lastIncludedIndex - 1).toNat] := by
      rw [Node.entryAt_eq_getElem? _ (by omega), List.getElem?_eq_getElem hlt]
    rw [Node.handleAppendEntries_kept hacc.2 hprev, hget]
    exact (hagree hacc k _ hbase hstop hget (.inl hprev)).symm
  · -- an entry of the request
    obtain ⟨n, peer, l, hn, hpre, -, hfirst, rfl⟩ := hreq
    obtain ⟨j, e, hj, he, hR⟩ := (Node.appendRequest_carries hn hpre hfirst).entry
      (by omega : ((n.appendRequest peer).prevLogIndex : ℤ) < k) hstop
    obtain ⟨e', hget, hterm, hold⟩ :=
      Node.handleAppendEntries_taken (not_lt.mpr hacc.1) hacc.2 he (by omega)
    rw [hj] at hget hold
    rw [hget, hR]
    refine hold.elim (congrArg some) fun hold => ?_
    rw [← hR]
    exact (hagree hacc k e' hbase hstop hold (.inr ⟨e, hR, hterm⟩)).symm

/-- A delivery keeps the acknowledged entries exactly if it spares them. -/
theorem deliver_keeps_iff (h : f.Matches R) (hR : ∀ e ∈ R, 0 ≤ e.term)
    (hreq : BuiltFrom R T req) (hk : f.Keeps R) :
    (f.deliver req saved).Keeps R ↔ f.Spares req := by
  have h' : (f.deliver req saved).Matches R := h.deliver hR hreq
  obtain ⟨-, -, -, d4, d5, -⟩ := f.deliver_fields req saved
  by_cases hacc : f.Accepts req
  · obtain ⟨h1, h2, h3⟩ := deliver_accepted h hreq hacc saved
    constructor
    · intro hkeep _ _
      by_contra hlt
      -- the last acknowledged entry is gone
      have hget := hkeep f.acked (by omega) d4
      have hlen := h.2
      rw [h1.entryAt_eq (by omega), List.getElem?_eq_none (by rw [List.length_take]; omega),
        List.getElem?_eq_getElem (by omega)] at hget
      cases hget
    · intro hspare k hbase hka
      have hle := hspare hacc.1 hacc.2
      rw [h1.entryAt_eq hbase, List.getElem?_take_of_lt (by omega)]
  · exact iff_of_true (hk.refused hacc) fun ht hc => absurd ⟨ht, hc⟩ hacc

theorem Matches.run (h : f.Matches R) (hR : ∀ e ∈ R, 0 ≤ e.term)
    {calls : List (AppendEntriesRequest Id × Bool)} (hreq : ∀ d ∈ calls, BuiltFrom R T d.1) :
    (f.run calls).Matches R := by
  induction calls using List.reverseRecOn with
  | nil => exact h
  | append_singleton pre d ih =>
    rw [run_concat]
    exact (ih fun d' hd' => hreq d' (by simp [hd'])).deliver hR (hreq d (by simp))

/-- The requests of one leader in one term, delivered to a follower in any order and any number
    of times, with any outcome of every `Save`: after each delivery the follower still has the
    leader's entries up to the largest end it has acknowledged, exactly when no accepted
    request ends before that. -/
theorem acknowledged_survive_iff (hR : ∀ e ∈ R, 0 ≤ e.term) (hf : LogsMatch f.node l R)
    (h0 : f.acked = 0) (calls : List (AppendEntriesRequest Id × Bool))
    (hreq : ∀ d ∈ calls, BuiltFrom R T d.1) :
    (∀ pre d, pre ++ [d] <+: calls → (f.run (pre ++ [d])).Keeps R) ↔
      ∀ pre d, pre ++ [d] <+: calls → (f.run pre).Spares d.1 := by
  have hstart : f.Matches R := ⟨⟨l, hf⟩, by omega⟩
  have hkeep0 : f.Keeps R := fun k hbase hk => by omega
  -- the iff of one delivery, at any point up to which the entries are kept
  have hone : ∀ pre d, pre ++ [d] <+: calls → (f.run pre).Keeps R →
      ((f.run (pre ++ [d])).Keeps R ↔ (f.run pre).Spares d.1) := by
    intro pre d hpre hk
    have hmem : ∀ d' ∈ pre ++ [d], BuiltFrom R T d'.1 := fun d' hd' => hreq d' (hpre.subset hd')
    rw [run_concat]
    exact deliver_keeps_iff (hstart.run hR fun d' hd' => hmem d' (by simp [hd'])) hR
      (hmem d (by simp)) hk
  constructor
  · intro h pre d hpre
    have hk : (f.run pre).Keeps R := by
      induction pre using List.reverseRecOn with
      | nil => exact hkeep0
      | append_singleton pre' d' _ => exact h pre' d' ((List.prefix_append _ [d]).trans hpre)
    exact (hone pre d hpre hk).mp (h pre d hpre)
  · intro h pre d hpre
    have hk : (f.run pre).Keeps R := by
      induction pre using List.reverseRecOn generalizing d with
      | nil => exact hkeep0
      | append_singleton pre' d' ih =>
        have hpre' : pre' ++ [d'] <+: calls := (List.prefix_append _ [d]).trans hpre
        exact (hone pre' d' hpre' (ih d' hpre')).mpr (h pre' d' hpre')
    exact (hone pre d hpre hk).mpr (h pre d hpre)

/-- If the logs match, whatever an accepted request leaves in place is the leader's. -/
theorem Matches.agrees (h : f.Matches R) (hreq : BuiltFrom R T req) : f.Agrees R req := by
  obtain ⟨⟨l, hl⟩, -⟩ := h
  obtain ⟨n, peer, l₀, hn, hpre, -, hfirst, rfl⟩ := hreq
  have hcar := Node.appendRequest_carries hn hpre hfirst
  intro hacc k e hbase hstop hget hcase
  rw [hl.holds.entryAt_eq hbase] at hget
  rcases hcase with hle | ⟨e', he', hterm⟩
  · have hpm : n.nextFor peer - 1 ≤ l₀.length := by
      by_contra hlt
      have := hl.holds.prev_below hcar hacc.2 (not_le.mp hlt) hl.nonneg
      rw [hcar.1] at hle
      omega
    have hag := congrArg (fun x => x[k - 1]?) (hl.prev_agrees hcar hacc.2 hpm)
    rw [hcar.1] at hle
    simp only [List.getElem?_take_of_lt (show k - 1 < n.nextFor peer - 1 by omega)] at hag
    rw [← hag, hget]
  · rw [hl.entry_eq hget he' hterm, he']

/-- **The requests of one leader in one term, delivered to a follower in any order and any number
    of times, with any outcome of every `Save`.** After each delivery the follower still has the
    leader's entries up to the largest end it has acknowledged if no accepted request ends before
    that and what each of them leaves in place is the leader's. If the logs match at the start,
    the latter is always so and the former is necessary. -/
theorem acknowledged_survive (h0 : f.acked = 0) (calls : List (AppendEntriesRequest Id × Bool))
    (hreq : ∀ d ∈ calls, BuiltFrom R T d.1) :
    ((∀ pre d, pre ++ [d] <+: calls → (f.run pre).Spares d.1 ∧ (f.run pre).Agrees R d.1) →
        ∀ pre d, pre ++ [d] <+: calls → (f.run (pre ++ [d])).Keeps R) ∧
      ∀ l, LogsMatch f.node l R → (∀ e ∈ R, 0 ≤ e.term) →
        (∀ pre d, pre ++ [d] <+: calls → (f.run pre).Agrees R d.1) ∧
          ((∀ pre d, pre ++ [d] <+: calls → (f.run (pre ++ [d])).Keeps R) ↔
            ∀ pre d, pre ++ [d] <+: calls → (f.run pre).Spares d.1) := by
  constructor
  · intro h pre d hpre
    have hk : (f.run pre).Keeps R := by
      induction pre using List.reverseRecOn generalizing d with
      | nil => exact fun k hbase hk => absurd (h0 ▸ hk) (by omega)
      | append_singleton pre' d' ih =>
        have hpre' : pre' ++ [d'] <+: calls := (List.prefix_append _ [d]).trans hpre
        obtain ⟨hs, ha⟩ := h pre' d' hpre'
        rw [run_concat]
        exact (ih d' hpre').deliver (hreq d' (hpre'.subset (by simp))) hs ha
    obtain ⟨hs, ha⟩ := h pre d hpre
    rw [run_concat]
    exact hk.deliver (hreq d (hpre.subset (by simp))) hs ha
  · intro l hl hR
    refine ⟨fun pre d hpre => ?_, acknowledged_survive_iff hR hl h0 calls hreq⟩
    have hstart : f.Matches R := ⟨⟨l, hl⟩, by omega⟩
    have hmem : ∀ d' ∈ pre ++ [d], BuiltFrom R T d'.1 := fun d' hd' => hreq d' (hpre.subset hd')
    exact (hstart.run hR fun d' hd' => hmem d' (by simp [hd'])).agrees (hmem d (by simp))

/-! ## Two requests of one leader -/

/-- The entry that the leader of term 1 appends. -/
def firstEntry : Entry := ⟨1, ⟨.put, [1], [], [7], 0⟩⟩

/-- Node 0 as the leader of term 1, which has sent nothing to its peers yet. -/
def growingLeader (log : List Entry) : Node (Fin 3) :=
  { Node.new 0 [1, 2] with
    role := .leader, term := 1, log := log
    repl := some { nextIndex := fun _ => 1, matchIndex := fun _ => 0, inFlight := fun _ => false
                   backoff := fun _ => 0 } }

/-- A follower that has just started. -/
def newFollower : Replica (Fin 3) := { node := Node.new 1 [0, 2], disk := .empty, acked := 0 }

theorem growingLeader_built {log R : List Entry} (h : log <+: R) :
    BuiltFrom R 1 ((growingLeader log).appendRequest 1) :=
  ⟨growingLeader log, 1, log, ⟨Nat.zero_le _, rfl, rfl⟩, h, rfl, le_rfl, rfl⟩

theorem newFollower_match (R : List Entry) : LogsMatch newFollower.node [] R :=
  ⟨⟨le_rfl, rfl, rfl⟩, Nat.zero_le _, rfl, (by simp), (by simp)⟩

/-- The request with the entry is delivered twice. -/
theorem acknowledged_survive_in_order :
    (newFollower.run [((growingLeader [firstEntry]).appendRequest 1, true),
        ((growingLeader [firstEntry]).appendRequest 1, true)]).acked = 1 ∧
      (newFollower.run [((growingLeader [firstEntry]).appendRequest 1, true),
        ((growingLeader [firstEntry]).appendRequest 1, true)]).Keeps [firstEntry] := by
  refine ⟨by decide, ?_⟩
  refine (acknowledged_survive (T := 1) rfl _ ?_).1 ?_ [_] _ List.prefix_rfl
  · intro d hd
    obtain rfl : d = ((growingLeader [firstEntry]).appendRequest 1, true) := by simpa using hd
    exact growingLeader_built List.prefix_rfl
  · intro pre d hpre
    rcases pre with - | ⟨a, - | ⟨b, pre⟩⟩
    · refine ⟨fun _ _ => Nat.zero_le _, fun _ k e _ _ hget => ?_⟩
      -- the follower has no entry yet
      have hnone : newFollower.node.entryAt k = none := by
        rw [(newFollower_match []).holds.entryAt_eq (by assumption)]
        rfl
      cases hnone.symm.trans hget
    · obtain ⟨rfl, rfl⟩ : a = _ ∧ d = _ := by simpa using hpre
      refine ⟨fun _ _ => by decide, fun _ k e hbase hstop hget _ => ?_⟩
      obtain rfl : k = 1 := le_antisymm hstop hbase
      rw [← hget]
      decide
    · simp at hpre

/-- The leader first builds an empty request and then one with its entry. The second one
    arrives first and is acknowledged; the first one arrives late and removes the entry. -/
theorem late_request_truncates :
    (∀ d ∈ [((growingLeader [firstEntry]).appendRequest 1, true),
        ((growingLeader []).appendRequest 1, true)], BuiltFrom [firstEntry] 1 d.1) ∧
    ¬ ∀ pre d, pre ++ [d] <+: [((growingLeader [firstEntry]).appendRequest 1, true),
        ((growingLeader []).appendRequest 1, true)] →
      (newFollower.run (pre ++ [d])).Keeps [firstEntry] := by
  constructor
  · intro d hd
    rcases List.mem_cons.mp hd with rfl | hd
    · exact growingLeader_built List.prefix_rfl
    · obtain rfl := List.mem_singleton.mp hd
      exact growingLeader_built List.nil_prefix
  · intro h
    have hk := h [((growingLeader [firstEntry]).appendRequest 1, true)] _ List.prefix_rfl 1
      (by decide) (by decide)
    revert hk
    decide

end Replica

end KvStore.Raft
