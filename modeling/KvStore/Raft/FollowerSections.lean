import KvStore.Raft.LogSections

/-!
# Following a leader

The matches of `HandleAppendEntries` and `HandleInstallSnapshot`. An accepted
request leaves the follower with the leader's log up to the end of the request, or
up to its own compaction base if that is further; this is the abstract step
`accept`, whose side condition is that no entry of the request's own term is
dropped.
-/

namespace KvStore.Raft

open KvStore.Storage (Command Bytes)
open KvStore.Consensus (Setting View Reign)
open KvStore.Consensus.View (Grows Sound Proper Committed Steps Step)

variable {Id : Type} [DecidableEq Id]

section Agreement

variable {cfg : Config Id} {s : View Id Entry ℤ} {P : List Entry} {i : Id} {n : Node Id}
  {r : Reign Id Entry}

/-- The committed part of a node is part of the log of its term's leader. -/
theorem NodeRel.commit_agrees (h : NodeRel cfg.setting s P i n) (hs : s.Sound cfg.setting)
    (hr : s.reign n.term = some r) {k : ℕ} (hk : k ≤ n.commitIndex) :
    k ≤ r.log.length ∧ (overlay P (s.log i)).take k = r.log.take k := by
  have hle := h.committed.le_reign hs hr
  have hlen := hle.length_le
  rw [List.length_take, h.length_eq, min_eq_left h.commit_le] at hlen
  refine ⟨hk.trans hlen, ?_⟩
  have := congrArg (List.take k) (List.prefix_iff_eq_take.mp hle)
  rwa [List.length_take, h.length_eq, min_eq_left h.commit_le, List.take_take, List.take_take,
    min_eq_left hk] at this

/-- At one index, entries of one term are equal. -/
theorem NodeRel.entry_agrees (h : NodeRel cfg.setting s P i n) (hs : s.Sound cfg.setting)
    (hr : s.reign n.term = some r) (j : ℕ) (en en' : Entry)
    (he : (overlay P (s.log i))[j]? = some en) (he' : r.log[j]? = some en')
    (ht : en.term = en'.term) : en = en' := by
  rcases Nat.lt_or_ge j P.length with hlt | hge
  · rw [overlay_getElem?_left hlt] at he
    have hget := Consensus.getElem?_of_le (h.patch.le_reign hs hr) he
    rw [he'] at hget
    exact (Option.some.inj hget).symm
  · rw [overlay_getElem? hge] at he
    have htake := (hs.proper i).take_eq (hs.proper_reign _ r hr) he he' ht
    have hget := congrArg (fun l => l[j]?) htake
    simp only [List.getElem?_take_of_lt (Nat.lt_succ_self j), he, he'] at hget
    exact Option.some.inj hget

/-- Every entry carries a term that some leader had. -/
theorem NodeRel.term_nonneg (h : NodeRel cfg.setting s P i n) (hs : s.Sound cfg.setting)
    (hr : s.reign n.term = some r) {j : ℕ} {en : Entry}
    (he : (overlay P (s.log i))[j]? = some en) : 0 ≤ en.term := by
  have hproper : ∃ r', s.reign (cfg.setting.stamp en) = some r' := by
    rcases Nat.lt_or_ge j P.length with hlt | hge
    · rw [overlay_getElem?_left hlt] at he
      obtain ⟨r', hr', _⟩ :=
        hs.proper_reign _ r hr j en (Consensus.getElem?_of_le (h.patch.le_reign hs hr) he)
      exact ⟨r', hr'⟩
    · rw [overlay_getElem? hge] at he
      obtain ⟨r', hr', _⟩ := hs.proper i j en he
      exact ⟨r', hr'⟩
  obtain ⟨r', hr'⟩ := hproper
  exact hs.base _ r' hr'

variable {req : AppendEntriesRequest Id} {m prev : ℕ}

/-- A request that passes `checkPrevLog` meets the node's log at `prev`. -/
theorem NodeRel.prev_agrees (h : NodeRel cfg.setting s P i n) (hs : s.Sound cfg.setting)
    (hr : s.reign n.term = some r) (hcar : Node.Carries req r.log m prev)
    (hcheck : n.checkPrevLog req.prevLogIndex req.prevLogTerm = true) (hle : prev ≤ m) :
    (overlay P (s.log i)).take prev = r.log.take prev := by
  refine h.holds.prev_agrees hcar hcheck hle (Nat.le_succ _) ?_ ?_
  · exact fun hge => (h.commit_agrees hs hr (hge.trans (h.base_le.trans h.applied_le))).2
  · intro j en en' hj he he' ht
    have hPj : P.length ≤ j := h.patch_base.trans hj
    rw [overlay_getElem? hPj] at he
    exact overlay_take (h.patch.le_reign hs hr) (by omega)
      ((hs.proper i).take_eq (hs.proper_reign _ r hr) he he' ht)

/-- A request without known term passes `checkPrevLog` only below the base. -/
theorem NodeRel.prev_below (h : NodeRel cfg.setting s P i n) (hs : s.Sound cfg.setting)
    (hr : s.reign n.term = some r) (hcar : Node.Carries req r.log m prev)
    (hcheck : n.checkPrevLog req.prevLogIndex req.prevLogTerm = true) (hlt : m < prev) :
    prev < n.lastIncludedIndex := by
  refine h.holds.prev_below hcar hcheck hlt fun en he => ?_
  obtain ⟨j, hj⟩ := List.mem_iff_getElem?.mp he
  exact h.term_nonneg hs hr hj

/-- What lies beyond an accepted request in the node's log. -/
theorem NodeRel.drop_eq (h : NodeRel cfg.setting s P i n) (hcar : Node.Carries req r.log m prev)
    (hbelow : m < prev → prev < n.lastIncludedIndex) :
    n.log.drop (req.prevLogIndex + req.entries.length - n.lastIncludedIndex).toNat =
      (s.log i).drop (max m n.lastIncludedIndex) := by
  have hstop := hcar.max_stop hbelow
  have hover : (overlay P (s.log i)).drop (max m n.lastIncludedIndex) =
      (s.log i).drop (max m n.lastIncludedIndex) :=
    overlay_drop (h.patch_base.trans (le_max_right _ _))
  rw [h.holds.log_eq, List.drop_drop, ← hover]
  congr 1
  omega

/-- An accepted request that drops no entry of its term does not reach below the commit index. -/
theorem NodeRel.commit_le_accept (h : NodeRel cfg.setting s P i n) (hs : s.Sound cfg.setting)
    (hr : s.reign n.term = some r) {k : ℕ} (hk : r.init.length ≤ k) (hPk : P.length ≤ k)
    (hd : ∀ en ∈ (s.log i).drop k, en.term ≠ n.term) : n.commitIndex ≤ k := by
  by_contra hlt
  obtain ⟨hlen, htake⟩ := h.commit_agrees hs hr le_rfl
  -- the last committed entry is one of the leader's own term, and it would be dropped
  have hj : n.commitIndex - 1 < r.log.length := by omega
  have hown := hs.own _ r hr (n.commitIndex - 1) _ (by omega) (List.getElem?_eq_getElem hj)
  have hget := congrArg (fun l => l[n.commitIndex - 1]?) htake
  simp only [List.getElem?_take_of_lt (show n.commitIndex - 1 < n.commitIndex by omega),
    List.getElem?_eq_getElem hj] at hget
  rw [overlay_getElem? (by omega)] at hget
  have hdrop : ((s.log i).drop k)[n.commitIndex - 1 - k]? = some r.log[n.commitIndex - 1] := by
    rw [List.getElem?_drop, show k + (n.commitIndex - 1 - k) = n.commitIndex - 1 by omega]
    exact hget
  exact hd _ (List.mem_of_getElem? hdrop) hown

end Agreement

/-! ## `HandleAppendEntries` -/

namespace Node

omit [DecidableEq Id] in
theorem follow_role (n : Node Id) (t : ℤ) (l : Id) : (n.follow t l).role = .follower := by
  unfold follow
  split_ifs with h
  · rfl
  · exact not_not.mp fun hr => h (.inr hr)

/-- The commit index an accepted request leaves. -/
def acceptedCommit (n : Node Id) (req : AppendEntriesRequest Id) (last : ℕ) : ℕ :=
  if req.leaderCommit > n.commitIndex then
    if req.leaderCommit < last then req.leaderCommit.toNat else last
  else n.commitIndex

/-- What an accepted request does, after the node has become a follower of its sender. -/
theorem handleAppendEntries_accepted {n : Node Id} {req : AppendEntriesRequest Id}
    (ht : ¬ req.term < n.term)
    (hc : (n.follow req.term req.leaderID).checkPrevLog req.prevLogIndex req.prevLogTerm = true) :
    let m := ((n.follow req.term req.leaderID).mergeEntries req).1
    let r := n.handleAppendEntries req
    r.1.log = m.log ∧ r.1.lastIncludedIndex = m.lastIncludedIndex ∧
      r.1.lastIncludedTerm = m.lastIncludedTerm ∧ r.1.lastApplied = n.lastApplied ∧
      r.1.term = req.term ∧ r.1.role = .follower ∧
      r.1.commitIndex = n.acceptedCommit req m.lastLogIndex ∧ r.2.1 = ⟨req.term, true⟩ := by
  have hterm : (n.follow req.term req.leaderID).term = req.term := follow_term ht _
  have hrole := follow_role n req.term req.leaderID
  obtain ⟨_, _, _, hci, hla⟩ := (follow_quiet n req.term req.leaderID).fields
  simp only [handleAppendEntries, ht, ite_false, hc, ite_true, acceptedCommit]
  rw [← hci, ← hla]
  generalize n.follow req.term req.leaderID = n₁ at *
  have hframe : (n₁.mergeEntries req).1.commitIndex = n₁.commitIndex ∧
      (n₁.mergeEntries req).1.term = n₁.term ∧ (n₁.mergeEntries req).1.role = n₁.role ∧
      (n₁.mergeEntries req).1.lastApplied = n₁.lastApplied := ⟨rfl, rfl, rfl, rfl⟩
  generalize n₁.mergeEntries req = mr at hframe
  obtain ⟨m, merged⟩ := mr
  obtain ⟨h1, h2, h3, h4⟩ := hframe
  dsimp only at h1 h2 h3 h4 ⊢
  rw [← h1, ← h4]
  have ht' := h2.trans hterm
  have hr' := h3.trans hrole
  cases merged
  · by_cases hl : req.leaderCommit > m.commitIndex
    · simp only [hl, ite_true, Bool.false_eq_true, ite_false, advanceCommit, ht', hr', and_true]
    · simp only [hl, ite_false, Bool.false_eq_true, ht', hr', and_true]
  · by_cases hl : req.leaderCommit > m.commitIndex
    · simp only [hl, ite_true, advanceCommit, ht', hr', true_and, and_true]
      rfl
    · simp only [hl, ite_false, ite_true, ht', hr', and_true]

omit [DecidableEq Id] in
theorem handleAppendEntries_rejected {n : Node Id} {req : AppendEntriesRequest Id}
    (ht : ¬ req.term < n.term)
    (hc : (n.follow req.term req.leaderID).checkPrevLog req.prevLogIndex req.prevLogTerm = false) :
    (n.handleAppendEntries req).1 = n.follow req.term req.leaderID ∧
      (n.handleAppendEntries req).2.1.success = false := by
  simp [handleAppendEntries, ht, hc]

omit [DecidableEq Id] in
theorem handleAppendEntries_stale {n : Node Id} {req : AppendEntriesRequest Id}
    (ht : req.term < n.term) :
    (n.handleAppendEntries req).1 = n ∧ (n.handleAppendEntries req).2.1.success = false := by
  simp [handleAppendEntries, ht]

omit [DecidableEq Id] in
/-- `checkPrevLog` looks at the log and its base only. -/
theorem follow_checkPrevLog (n : Node Id) (t : ℤ) (l : Id) (prev prevTerm : ℤ) :
    (n.follow t l).checkPrevLog prev prevTerm = n.checkPrevLog prev prevTerm := by
  unfold follow
  split_ifs <;> rfl

end Node

section AppendEntries

variable {cfg : Config Id} {s : View Id Entry ℤ} {P : List Entry} {i : Id} {n : Node Id}
  {p : Process Id} {req : AppendEntriesRequest Id} {e : Process.Effect Id}

/-- The commit index of an accepted request stays within the log and is committed. -/
theorem NodeRel.acceptedCommit (h : NodeRel cfg.setting s P i n) (hs : s.Sound cfg.setting)
    {r : Reign Id Entry} {k K : ℕ} (hr : s.reign n.term = some r)
    (hk : req.leaderCommit = (k : ℕ)) (hcom : s.Committed cfg.setting n.term (r.log.take k))
    (hci : n.commitIndex ≤ K) :
    n.commitIndex ≤ n.acceptedCommit req K ∧ n.acceptedCommit req K ≤ K ∧
      s.Committed cfg.setting n.term ((r.log.take K).take (n.acceptedCommit req K)) := by
  have hold : s.Committed cfg.setting n.term (r.log.take n.commitIndex) :=
    (h.commit_agrees hs hr le_rfl).2 ▸ h.committed
  unfold Node.acceptedCommit
  rw [hk]
  simp only [List.take_take]
  split_ifs with h1 h2
  · refine ⟨by omega, by omega, ?_⟩
    rw [min_eq_left (by omega), Int.toNat_natCast]
    exact hcom
  · refine ⟨hci, le_rfl, ?_⟩
    rw [min_self]
    exact hcom.mono le_rfl (List.take_prefix_take_left (by omega))
  · refine ⟨le_rfl, hci, ?_⟩
    rw [min_eq_left hci]
    exact hold

/-- The follower's part of a replication in the abstract protocol: it takes over `K` entries of
    the leader's log and acknowledges `stop` of them. -/
theorem exists_accepts {S : Setting Id Entry ℤ} {r : Reign Id Entry} {K stop : ℕ}
    (hr : s.reign (s.term i) = some r) (hinit : r.init.length ≤ K) (hK : K ≤ r.log.length)
    (hdrop : ∀ en ∈ (s.log i).drop K, S.stamp en ≠ s.term i) (hstop : stop ≤ K) :
    ∃ s', Steps S i s s' ∧ s'.log i = r.log.take K ∧ s'.term i = s.term i ∧
      stop ≤ s'.acked i (s.term i) ∧ s'.reign = s.reign := by
  refine ⟨(s.write i (r.log.take K)).ack i stop, ?_, ?_, rfl, ?_, rfl⟩
  · refine (Relation.ReflTransGen.single (.accept r K hr hinit hK hdrop)).tail
      (.ack r stop hr (hstop.trans hK) ?_)
    simp only [View.write, Function.update_self]
    exact List.take_prefix_take_left hstop
  · simp [View.ack, View.write]
  · change _ ≤ if i = i ∧ s.term i = s.term i then _ else _
    rw [if_pos ⟨rfl, rfl⟩]
    exact le_max_right _ _

theorem Match.accepted (h : ProcRel cfg.setting s P i p) (hs : s.Sound cfg.setting)
    (hreq : RequestRel cfg.setting s req) (ht : ¬ req.term < p.node.term)
    (hc : p.node.checkPrevLog req.prevLogIndex req.prevLogTerm = true)
    (hd : p.dropsOwnTerm req = false) (hstep : p.step (.appendEntries req) = some e) :
    ∃ s' P', Match cfg.setting s P i p (.appendEntries req) e s' P' := by
  have hn := Process.appendEntries_node hstep
  have hq := Node.follow_quiet p.node req.term req.leaderID
  have hterm₁ : (p.node.follow req.term req.leaderID).term = req.term := Node.follow_term ht _
  have hle : p.node.term ≤ req.term := not_lt.mp ht
  -- the node after it has become a follower, in the view with its new term
  have hnode₁ := h.node.quiet hq (hterm₁.symm ▸ hle)
  have hc₁ := (Node.follow_checkPrevLog p.node req.term req.leaderID _ _).trans hc
  obtain ⟨e1, e2, e3, e4, e5, e6, e7, e8⟩ := Node.handleAppendEntries_accepted ht hc₁
  rw [← hn] at e1 e2 e3 e4 e5 e6 e7
  have hstep₁ : Steps cfg.setting i s (s.raise i req.term) :=
    Relation.ReflTransGen.single (.raise _ (h.node.term.trans_le hle))
  have hs₁ := hstep₁.sound hs
  obtain ⟨r, m, prev, k, hr, hcar, hinit, hk, hkm, hcom⟩ := hreq.grows hstep₁.grows
  obtain ⟨q1, q2, q3, q4, q5⟩ := hq.fields
  simp only [Process.dropsOwnTerm, decide_eq_false_iff_not] at hd
  have hdrop : ∀ en ∈ p.node.log.drop
      (req.prevLogIndex + req.entries.length - p.node.lastIncludedIndex).toNat,
      en.term ≠ req.term := fun en hen heq => hd ⟨ht, hc, en, hen, heq⟩
  have hacc : p.node.acceptedCommit req = (p.node.follow req.term req.leaderID).acceptedCommit req := by
    funext last
    unfold Node.acceptedCommit
    rw [q4]
  rw [← q1, ← q2] at hdrop
  rw [hacc] at e7
  rw [← q5] at e4
  rw [hterm₁] at hnode₁
  generalize p.node.follow req.term req.leaderID = n₁ at *
  generalize hs₁' : s.raise i req.term = s₁ at *
  rw [← hterm₁] at hr hcom
  have hbelow := hnode₁.prev_below hs₁ hr hcar hc₁
  rw [hnode₁.drop_eq hcar hbelow] at hdrop
  obtain ⟨hbR, hb⟩ := hnode₁.commit_agrees hs₁ hr (hnode₁.base_le.trans hnode₁.applied_le)
  have hholds := Node.mergeEntries_holds hnode₁.holds hcar hbR hb
    (hnode₁.entry_agrees hs₁ hr) (hnode₁.prev_agrees hs₁ hr hcar hc₁) hbelow
  generalize hK : max m n₁.lastIncludedIndex = K at hholds hdrop
  have hKle : K ≤ r.log.length := by rw [← hK]; exact max_le hcar.2.1 hbR
  have hKinit : r.init.length ≤ K := by rw [← hK]; exact hinit.trans (le_max_left _ _)
  have hKbase : n₁.lastIncludedIndex ≤ K := by rw [← hK]; exact le_max_right _ _
  have hlenK : (r.log.take K).length = K := List.length_take_of_le hKle
  have hstop : (req.prevLogIndex + req.entries.length).toNat ≤ K :=
    (le_max_left _ _).trans_eq ((hcar.max_stop hbelow).trans hK)
  have hci : n₁.commitIndex ≤ K := hnode₁.commit_le_accept hs₁ hr hKinit
    (hnode₁.patch_base.trans hKbase) (by rw [hterm₁]; exact hdrop)
  rw [hholds.lastLogIndex_eq, hlenK] at e7
  obtain ⟨c1, c2, c3⟩ := hnode₁.acceptedCommit hs₁ hr hk hcom hci
  -- the abstract steps: raise the term, accept the leader's log, acknowledge the request
  have hterm' : s₁.term i = n₁.term := hnode₁.term
  have hr' : s₁.reign (s₁.term i) = some r := hterm'.symm ▸ hr
  obtain ⟨s', hsteps, hlog', hterm'', hacked, hreign'⟩ :=
    exists_accepts (S := cfg.setting) hr' hKinit hKle (by rw [hterm', hterm₁]; exact hdrop) hstop
  rw [hterm', hterm₁] at hacked
  have hgrow := hsteps.grows
  refine ⟨s', [], ?_⟩
  refine
    { steps := hstep₁.trans hsteps, node := ?_, later := ?_, same := ?_, vote := by simp
      append := ?_, inline := by simp, proposed := by simp, start := by simp, reign := ?_ }
  · refine
      { term := ?_, nonneg := ?_, holds := ?_, short := .inl rfl, patch_base := Nat.zero_le _
        patch := .inl rfl, commit_le := ?_, committed := ?_, base_le := ?_, applied_le := ?_
        leads := ?_ }
    · rw [e5, hterm'', hterm', hterm₁]
    · rw [e5, ← hterm₁]
      exact hnode₁.nonneg
    · rw [overlay_nil, hlog']
      exact hholds.congr e1 e2 e3
    · rw [hlog', hlenK, e7]
      exact c2
    · rw [overlay_nil, hlog', e7, e5, ← hterm₁]
      exact hgrow.committed c3
    · rw [e2, e4]
      exact hnode₁.base_le
    · rw [e4, e7]
      exact hnode₁.applied_le.trans c1
    · rw [e6]
      simp
  · refine ⟨?_, ?_, ?_, ?_⟩
    · rw [e2, ← q2]
      exact le_rfl
    · rw [e4, q5]
    · rw [e7, ← q4]
      exact c1
    · obtain ⟨_, htake⟩ := hnode₁.commit_agrees hs₁ hr le_rfl
      rw [overlay_nil, hlog', List.take_take, ← q4, min_eq_left hci, ← htake, ← hs₁']
      rfl
  · rw [e6]
    simp
  · intro req' hi _
    cases hi
    rw [e8]
    exact ⟨rfl, hacked⟩
  · intro T r₀ hr₀
    refine .inl ⟨r₀, ?_, rfl⟩
    rw [hreign', ← hs₁'] at hr₀
    exact hr₀

theorem Match.appendEntries (h : ProcRel cfg.setting s P i p) (hs : s.Sound cfg.setting)
    (hreq : RequestRel cfg.setting s req) (hsafe : p.safe (.appendEntries req) = true)
    (hstep : p.step (.appendEntries req) = some e) :
    ∃ s' P', Match cfg.setting s P i p (.appendEntries req) e s' P' := by
  have hn := Process.appendEntries_node hstep
  have hd : p.dropsOwnTerm req = false := by simpa [Process.safe] using hsafe
  by_cases ht : req.term < p.node.term
  · obtain ⟨h1, h2⟩ := Node.handleAppendEntries_stale ht
    rw [← hn] at h1
    refine ⟨_, P, .of_quiet h (h1 ▸ .refl _) (h1 ▸ le_rfl) (.of_rejected h2)⟩
  · by_cases hc : p.node.checkPrevLog req.prevLogIndex req.prevLogTerm = true
    · exact Match.accepted h hs hreq ht hc hd hstep
    · rw [Bool.not_eq_true, ← Node.follow_checkPrevLog p.node req.term req.leaderID] at hc
      obtain ⟨h1, h2⟩ := Node.handleAppendEntries_rejected ht hc
      rw [← hn] at h1
      refine ⟨_, P, .of_quiet h (h1 ▸ Node.follow_quiet _ _ _) ?_ (.of_rejected h2)⟩
      rw [h1, Node.follow_term ht _]
      exact not_lt.mp ht

end AppendEntries

/-! ## `HandleInstallSnapshot` -/

section InstallSnapshot

variable {cfg : Config Id} {s : View Id Entry ℤ} {P : List Entry} {i : Id} {n : Node Id}
  {p : Process Id} {req : InstallSnapshotRequest Id} {e : Process.Effect Id} {C : List Entry}

/-- A committed snapshot agrees with what the node has committed, and extends it if it is
    longer. -/
theorem NodeRel.snapshot_commit (h : NodeRel cfg.setting s P i n) (hs : s.Sound cfg.setting)
    (hC : s.Committed cfg.setting n.term C) {full' : List Entry}
    (hfull : full' = C ++ (overlay P (s.log i)).drop C.length) :
    full'.take n.commitIndex = (overlay P (s.log i)).take n.commitIndex ∧
      max n.commitIndex C.length ≤ full'.length ∧
      s.Committed cfg.setting n.term (full'.take (max n.commitIndex C.length)) := by
  have hlen : ((overlay P (s.log i)).take n.commitIndex).length = n.commitIndex :=
    List.length_take_of_le (h.length_eq.symm ▸ h.commit_le)
  rcases Nat.le_total n.commitIndex C.length with hle | hle
  · have hpre := h.committed.le_of_length_le hs hC (hlen.trans_le hle)
    refine ⟨?_, ?_, ?_⟩
    · rw [hfull, List.take_append_of_le_length hle]
      have := List.prefix_iff_eq_take.mp hpre
      rw [hlen] at this
      exact this.symm
    · rw [max_eq_right hle, hfull, List.length_append]
      omega
    · rw [max_eq_right hle, hfull, List.take_left]
      exact hC
  · have hpre := hC.le_of_length_le hs h.committed (hle.trans hlen.ge)
    have hsame : full' = overlay P (s.log i) := by
      have := List.prefix_iff_eq_take.mp (hpre.trans ( List.take_prefix _ _))
      rw [hfull]
      conv_rhs => rw [← List.take_append_drop C.length (overlay P (s.log i)), ← this]
    rw [max_eq_left hle, hsame]
    exact ⟨rfl, h.length_eq.symm ▸ h.commit_le, h.committed⟩

omit [DecidableEq Id] in
theorem adoptSnapshot_fields (n : Node Id) (hidx : req.lastIncludedIndex = (C.length : ℕ)) :
    (n.adoptSnapshot req).lastIncludedIndex = C.length ∧
      (n.adoptSnapshot req).commitIndex = max n.commitIndex C.length ∧
      (n.adoptSnapshot req).lastApplied = max n.lastApplied C.length := by
  have hnat : req.lastIncludedIndex.toNat = C.length := by omega
  unfold Node.adoptSnapshot
  rw [hnat]
  refine ⟨rfl, ?_, ?_⟩
  · dsimp only
    split_ifs <;> omega
  · dsimp only
    split_ifs <;> omega

/-- Adopting a snapshot, in the view where the node's own log is replaced by it if it is
    shorter, and kept otherwise. -/
theorem NodeRel.adoptSnapshot (h : NodeRel cfg.setting s P i n) (hs : s.Sound cfg.setting)
    (hrole : n.role ≠ .leader) (hidx : req.lastIncludedIndex = (C.length : ℕ))
    (hlabel : req.lastIncludedTerm = lastTerm C) (hC : s.Committed cfg.setting n.term C)
    (hlt : n.lastApplied < C.length) :
    ∃ s' P', Steps cfg.setting i s s' ∧ NodeRel cfg.setting s' P' i (n.adoptSnapshot req) ∧
      Later (overlay P (s.log i)) (overlay P' (s'.log i)) n (n.adoptSnapshot req) ∧
      s'.reign = s.reign := by
  obtain ⟨a1, a2, a3⟩ := adoptSnapshot_fields n hidx
  have hbase : n.lastIncludedIndex ≤ C.length := h.base_le.trans hlt.le
  have hholds := Node.adoptSnapshot_holds h.holds hidx hlabel hbase
  obtain ⟨k1, k2, k3⟩ := h.snapshot_commit hs hC rfl
  rw [overlay_drop (h.patch_base.trans hbase)] at hholds k1 k2 k3
  -- everything but the choice of the view
  have hrest : ∀ (s' : View Id Entry ℤ) (P' : List Entry), Grows i s s' → s'.term i = s.term i →
      overlay P' (s'.log i) = C ++ (s.log i).drop C.length →
      (P' = [] ∨ P'.length < (s'.log i).length) → P'.length ≤ C.length →
      s'.Committed cfg.setting n.term P' →
      NodeRel cfg.setting s' P' i (n.adoptSnapshot req) ∧
        Later (overlay P (s.log i)) (overlay P' (s'.log i)) n (n.adoptSnapshot req) := by
    intro s' P' hg hT hover hshort hle hP'
    refine ⟨{ term := hT.trans h.term, nonneg := h.nonneg, short := hshort, patch := hP'
              holds := hover.symm ▸ hholds, patch_base := a1.symm ▸ hle, commit_le := ?_
              committed := ?_, base_le := ?_, applied_le := ?_, leads := ?_ }, ?_⟩
    · rw [a2, ← overlay_length hshort, hover]
      exact k2
    · rw [a2, hover]
      exact hg.committed k3
    · rw [a1, a3]
      exact le_max_right _ _
    · rw [a2, a3]
      exact max_le_max h.applied_le le_rfl
    · exact fun hl => absurd hl hrole
    · refine ⟨a1.symm ▸ hbase, a3.symm ▸ le_max_left _ _, a2.symm ▸ le_max_left _ _, ?_⟩
      rw [hover]
      exact k1
  rcases Nat.lt_or_ge C.length (s.log i).length with hshort | hlong
  · obtain ⟨hnode, hlater⟩ := hrest s C (.refl i s) rfl rfl (.inr hshort) le_rfl hC
    exact ⟨s, C, .refl, hnode, hlater, rfl⟩
  · have hstep : Step cfg.setting s i (s.write i C) := .install C (h.term.symm ▸ hC) hlong
    obtain ⟨hnode, hlater⟩ := hrest (s.write i C) [] hstep.grows rfl (by
      rw [overlay_nil, List.drop_eq_nil_of_le hlong]
      simp [View.write]) (.inl rfl) (Nat.zero_le _) (.inl rfl)
    exact ⟨s.write i C, [], .single hstep, hnode, hlater, rfl⟩

theorem Match.installSnapshot (h : ProcRel cfg.setting s P i p) (hs : s.Sound cfg.setting)
    (hreq : SnapshotRel cfg.setting s req) (hstep : p.step (.installSnapshot req) = some e) :
    ∃ s' P', Match cfg.setting s P i p (.installSnapshot req) e s' P' := by
  simp only [Process.step] at hstep
  split at hstep
  · cases hstep
    exact Match.of_same h rfl h.node (.refl _ _) (.of_input rfl)
  · next ht =>
    cases hstep
    have hq := Node.follow_quiet p.node req.term req.leaderID
    have hterm : (p.node.follow req.term req.leaderID).term = req.term := Node.follow_term ht _
    have hrole := Node.follow_role p.node req.term req.leaderID
    have hle : p.node.term ≤ req.term := not_lt.mp ht
    by_cases hnew : req.lastIncludedIndex > (p.node.follow req.term req.leaderID).lastApplied
    · have hn : (p.node.handleInstallSnapshot req).1 =
          (p.node.follow req.term req.leaderID).adoptSnapshot req := by
        simp only [Node.handleInstallSnapshot, ht, ite_false, hnew, ite_true]
      have hnode₁ := h.node.quiet hq (hterm.symm ▸ hle)
      rw [hterm] at hnode₁
      have hstep₁ : Steps cfg.setting i s (s.raise i req.term) :=
        .single (.raise _ (h.node.term.trans_le hle))
      obtain ⟨C, hidx, hlabel, hC⟩ := hreq.grows hstep₁.grows
      obtain ⟨s', P', hsteps, hnode, hlater, hreign⟩ := hnode₁.adoptSnapshot (hstep₁.sound hs)
        (by rw [hrole]; simp) hidx hlabel (by rw [hterm]; exact hC) (by omega)
      refine ⟨s', P', ?_⟩
      refine
        { steps := hstep₁.trans hsteps, node := hn ▸ hnode, later := ?_, same := ?_, vote := by simp
          append := by simp, inline := by simp, proposed := by simp, start := by simp, reign := ?_ }
      · dsimp only
        rw [hn]
        obtain ⟨_, q2, _, q4, q5⟩ := hq.fields
        exact ⟨q2 ▸ hlater.base, q5 ▸ hlater.applied, q4 ▸ hlater.commit, q4 ▸ hlater.keeps⟩
      · intro hc
        dsimp only at hc
        rw [hn] at hc
        change (p.node.follow req.term req.leaderID).role = .candidate at hc
        rw [hrole] at hc
        cases hc
      · exact fun T r hr => .inl ⟨r, hreign ▸ hr, rfl⟩
    · have hn : (p.node.handleInstallSnapshot req).1 = p.node.follow req.term req.leaderID := by
        simp only [Node.handleInstallSnapshot, ht, ite_false, hnew]
      refine ⟨_, P, .of_quiet h (hn ▸ hq) ?_ (.of_input rfl)⟩
      dsimp only
      rw [hn, hterm]
      exact hle

end InstallSnapshot

end KvStore.Raft
