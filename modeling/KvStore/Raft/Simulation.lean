import KvStore.Raft.CommitRule
import KvStore.Raft.Refinement

/-!
# Every critical section is a run of the abstract protocol

`Process.safe` excludes, besides forgotten votes, three situations in which the
code leaves the protocol: an accepted `AppendEntries` that drops entries of its own
term beyond its end, an election won while `matchIndex` still holds a value beyond
the log, and a snapshot whose term is read after its index has been compacted away.
A restart is allowed when the store holds the node's state.

Under these conditions every section of a process is matched by steps of its node
in the abstract protocol (`Rel.step`).
-/

namespace KvStore.Raft

open KvStore.Storage (Command Bytes)
open KvStore.Consensus (Setting View Reign)
open KvStore.Consensus.View (Grows Sound Proper Committed Steps Step)

variable {Id : Type} [DecidableEq Id]

namespace Process

/-- The request is accepted and `mergeEntries` (pkg/raft/follower.go:30) drops an entry of
    the request's own term. -/
def dropsOwnTerm (p : Process Id) (req : AppendEntriesRequest Id) : Bool :=
  ¬ req.term < p.node.term ∧ p.node.checkPrevLog req.prevLogIndex req.prevLogTerm = true ∧
    ∃ e ∈ p.node.log.drop
      (req.prevLogIndex + req.entries.length - p.node.lastIncludedIndex).toNat, e.term = req.term

/-- Some `matchIndex` lies beyond the node's own log. -/
def staleMatch (p : Process Id) : Bool :=
  ∃ q ∈ p.node.peers, p.node.lastLogIndex < p.node.replState.matchIndex q

/-- The section stays within the protocol, votes apart. -/
def safe (p : Process Id) : Input Id → Bool
  | .appendEntries req => !p.dropsOwnTerm req
  | .endElection => p.stepsDownInPlace .endElection || !p.staleMatch
  | .snapshotTerm _ idx _ => idx = 0 ∨ p.node.lastIncludedIndex ≤ idx
  | .restart => p.node.dirty = false ∧ p.node.peers ≠ []
  | _ => true

end Process

/-! ## Sections that leave the log alone -/

namespace Node

/-- The log, its base, and how far it is committed and applied. -/
def core (n : Node Id) : List Entry × ℕ × ℤ × ℕ × ℕ :=
  (n.log, n.lastIncludedIndex, n.lastIncludedTerm, n.commitIndex, n.lastApplied)

/-- Nothing happens to the log, and only a leader of the term leads after it. -/
structure Quiet (n n' : Node Id) : Prop where
  core : n'.core = n.core
  leads : n'.role = .leader → n.role = .leader ∧ n'.term = n.term ∧ n'.peers = n.peers ∧
    n'.replState.matchIndex = n.replState.matchIndex

theorem Quiet.refl (n : Node Id) : Quiet n n := ⟨rfl, fun h => ⟨h, rfl, rfl, rfl⟩⟩

theorem Quiet.of_follower {n n' : Node Id} (h : n'.core = n.core) (hr : n'.role ≠ .leader) :
    Quiet n n' := ⟨h, fun h' => absurd h' hr⟩

theorem Quiet.trans {n n' n'' : Node Id} (h : Quiet n n') (h' : Quiet n' n'') : Quiet n n'' := by
  refine ⟨h'.core.trans h.core, fun hr => ?_⟩
  obtain ⟨h1, h2, h3, h4⟩ := h'.leads hr
  obtain ⟨g1, g2, g3, g4⟩ := h.leads h1
  exact ⟨g1, h2.trans g2, h3.trans g3, h4.trans g4⟩

theorem persist_quiet (n : Node Id) (d : RaftState Id) (saved : Bool) :
    Quiet n (n.persist d saved).2.1 := by
  unfold persist
  split_ifs
  · exact .refl n
  · exact ⟨rfl, fun h => ⟨h, rfl, rfl, rfl⟩⟩
  · exact .refl n

theorem withRepl_quiet (n : Node Id) : Quiet n n.withRepl :=
  ⟨rfl, fun h => ⟨h, rfl, rfl, rfl⟩⟩

theorem setInFlight_quiet (n : Node Id) (q : Id) (b : Bool) : Quiet n (n.setInFlight q b) :=
  ⟨rfl, fun h => ⟨h, rfl, rfl, rfl⟩⟩

theorem rewind_quiet (n : Node Id) (q : Id) : Quiet n (n.rewind q) :=
  ⟨rfl, fun h => ⟨h, rfl, rfl, rfl⟩⟩

theorem becomeFollower_quiet (n : Node Id) (t : ℤ) (l : Option Id) :
    Quiet n (n.becomeFollower t l) := .of_follower rfl (by simp [becomeFollower])

theorem handleRequestVote_quiet (n : Node Id) (req : VoteRequest Id) :
    Quiet n (n.handleRequestVote req).1 := by
  unfold handleRequestVote adoptTerm
  dsimp only
  split_ifs
  · exact .refl n
  · exact .of_follower rfl (by simp [becomeFollower])
  · exact becomeFollower_quiet n _ _
  · exact ⟨rfl, fun h => ⟨h, rfl, rfl, rfl⟩⟩
  · exact .refl n

theorem follow_quiet (n : Node Id) (t : ℤ) (l : Id) : Quiet n (n.follow t l) := by
  unfold follow
  split_ifs
  · exact becomeFollower_quiet n _ _
  · exact ⟨rfl, fun h => ⟨h, rfl, rfl, rfl⟩⟩

end Node

/-- The sections that leave the log alone whatever happens. -/
def Input.quiet : Input Id → Bool
  | .endElection => false
  | .appendEntries _ => false
  | .installSnapshot _ => false
  | .propose _ => false
  | .appendResponse _ _ _ => false
  | .snapshotResponse _ _ _ => false
  | .applyCheck => false
  | .applyDone => false
  | .compactLog => false
  | .restart => false
  | _ => true

theorem Process.quiet_of_step {p : Process Id} {inp : Input Id} {e : Process.Effect Id}
    (hstep : p.step inp = some e) (hq : inp.quiet = true) : Node.Quiet p.node e.proc.node := by
  cases inp with
  | endElection => cases hq
  | appendEntries _ => cases hq
  | installSnapshot _ => cases hq
  | propose _ => cases hq
  | appendResponse _ _ _ => cases hq
  | snapshotResponse _ _ _ => cases hq
  | applyCheck => cases hq
  | applyDone => cases hq
  | compactLog => cases hq
  | restart => cases hq
  | requestVote req =>
    rw [requestVote_node hstep]
    exact Node.handleRequestVote_quiet _ _
  | startElection =>
    simp only [step] at hstep
    split at hstep <;> cases hstep
    exact .of_follower rfl (by simp [Node.becomeCandidate])
  | voteResponse q req resp =>
    simp only [step] at hstep
    split at hstep <;> try contradiction
    split at hstep <;> cases hstep
    unfold voteResponse
    split
    · exact Node.becomeFollower_quiet _ _ _
    · exact .refl _
  | stepDown =>
    simp only [step] at hstep
    split at hstep <;> cases hstep
    exact Node.becomeFollower_quiet _ _ _
  | replicate peer =>
    simp only [step] at hstep
    split at hstep <;> try contradiction
    split at hstep <;> cases hstep
    · exact Node.withRepl_quiet _
    · exact (Node.withRepl_quiet _).trans (Node.setInFlight_quiet _ _ _)
  | _ =>
    simp only [step] at hstep
    repeat' split at hstep
    all_goals try cases hstep
    all_goals first
      | exact .refl _
      | exact Node.persist_quiet _ _ _
      | exact Node.withRepl_quiet _
      | exact Node.setInFlight_quiet _ _ _

/-! ## What any section does to the goroutines -/

section Goroutines

variable {S : Setting Id Entry ℤ} {s s' : View Id Entry ℤ} {P P' : List Entry} {i : Id}
  {p : Process Id} {inp : Input Id} {e : Process.Effect Id}

theorem NodeRel.shows {n : Node Id} (h : NodeRel S s P i n) {k : ℕ} {en : Entry}
    (hb : n.lastIncludedIndex < k) (hk : k ≤ n.commitIndex) (he : n.entryAt k = some en) :
    Shows S s k en.cmd := by
  rw [h.holds.entryAt_eq hb] at he
  refine ⟨_, _, en, h.committed, by omega, ?_, rfl⟩
  rw [List.getElem?_take_of_lt (by omega), he]

theorem ProcRel.apply_of_step (h : ProcRel S s P i p) (hstep : p.step inp = some e)
    (hr : inp ≠ .restart) (hg : Grows i s s')
    (hl : p.node.commitIndex ≤ e.proc.node.commitIndex) :
    ApplyRel S s' e.proc.node e.proc.apply := by
  have hold := h.apply
  cases inp with
  | restart => exact absurd rfl hr
  | applyPick =>
    simp only [Process.step] at hstep
    split at hstep <;> cases hstep
    next hc =>
    refine ⟨hc.2, fun en he => (Shows.grows (h.node.shows ?_ hc.2 he) hg)⟩
    exact Nat.lt_succ_of_le h.node.base_le
  | applyCheck =>
    simp only [Process.step] at hstep
    split at hstep <;> try contradiction
    next idx entry ha =>
    rw [ha] at hold
    split at hstep
    · cases hstep
      trivial
    · split at hstep <;> cases hstep
      · trivial
      · exact ⟨hold.1, (hold.2 _ rfl).grows hg⟩
  | applyRun =>
    simp only [Process.step] at hstep
    split at hstep <;> cases hstep
    next idx cmd ha =>
    rw [ha] at hold
    exact hold.1
  | applyDone =>
    simp only [Process.step] at hstep
    split at hstep <;> cases hstep
    trivial
  | voteResponse q req resp =>
    simp only [Process.step] at hstep
    split at hstep <;> try contradiction
    split at hstep <;> cases hstep
    unfold Process.voteResponse at hl ⊢
    split <;> exact hold.later hg (by simp [Node.becomeFollower])
  | endElection =>
    simp only [Process.step] at hstep
    split at hstep <;> try contradiction
    split at hstep <;> cases hstep
    unfold Process.endElection at hl ⊢
    split <;> exact hold.later hg (by simp [Node.becomeFollower, Node.becomeLeader])
  | _ =>
    simp only [Process.step] at hstep
    repeat' split at hstep
    all_goals try cases hstep
    all_goals exact hold.later hg hl

theorem ProcRel.compactor_of_step (h : ProcRel S s P i p) (hstep : p.step inp = some e)
    (hr : inp ≠ .restart)
    (hl : Later (overlay P (s.log i)) (overlay P' (s'.log i)) p.node e.proc.node) :
    CompactorRel (overlay P' (s'.log i)) e.proc.node e.proc.compactor := by
  have hold := h.compactor
  have ha := h.node.applied_le
  cases inp with
  | restart => exact absurd rfl hr
  | compactIndex =>
    simp only [Process.step] at hstep
    split at hstep <;> cases hstep
    exact le_refl p.node.lastApplied
  | compactTerm =>
    simp only [Process.step] at hstep
    split at hstep <;> cases hstep
    next idx hc =>
    rw [hc] at hold
    have hidx : idx ≤ p.node.lastApplied := hold
    refine ⟨hidx, ?_⟩
    rcases Nat.lt_or_ge idx p.node.lastIncludedIndex with hlt | hge
    · exact .inl hlt.le
    · refine .inr ?_
      rw [hl.take_eq (hidx.trans ha)]
      refine h.node.holds.logTermAt_eq hge ?_
      rw [h.node.length_eq]
      exact (hidx.trans ha).trans h.node.commit_le
  | compactLog =>
    simp only [Process.step] at hstep
    split at hstep <;> cases hstep
    trivial
  | voteResponse q req resp =>
    simp only [Process.step] at hstep
    split at hstep <;> try contradiction
    split at hstep <;> cases hstep
    have hc : (p.voteResponse ‹_› q resp).compactor = p.compactor := by
      unfold Process.voteResponse; split <;> rfl
    rw [hc]
    exact hold.later hl ha
  | endElection =>
    simp only [Process.step] at hstep
    split at hstep <;> try contradiction
    split at hstep <;> cases hstep
    have hc : (p.endElection ‹_›).proc.compactor = p.compactor := by
      unfold Process.endElection; split <;> rfl
    rw [hc]
    exact hold.later hl ha
  | _ =>
    simp only [Process.step] at hstep
    repeat' split at hstep
    all_goals try cases hstep
    all_goals exact hold.later hl ha

theorem ProcRel.election_of_step (h : ProcRel S s P i p) (hstep : p.step inp = some e)
    (hr : inp ≠ .restart) (hok : ¬ p.forgetsVote inp) (hg : Grows i s s')
    (hterm : ∀ el, p.election = some el → el.req.term ≤ p.node.term)
    (hlog : e.proc.node.role = .candidate → s'.log i = s.log i)
    (hstart : inp = .startElection →
      ElectionRel s' i e.proc.node ⟨p.node.becomeCandidate.voteRequest, p.node.peers, 1, false⟩)
    {el' : Election Id} (hel' : e.proc.election = some el') :
    ElectionRel s' i e.proc.node el' := by
  -- an election that goes on was known to the same candidate before
  have hkeep : ∀ el : Election Id, p.election = some el → el'.req = el.req →
      ElectionRel s' i e.proc.node el' := by
    intro el hel hreq
    obtain ⟨hpos, hold⟩ := h.election el hel
    refine ⟨hreq ▸ hpos, fun hc ht => ?_⟩
    rw [hreq] at ht ⊢
    rw [hlog hc]
    have hsame : p.node.role = .candidate ∧ p.node.term = e.proc.node.term := by
      cases Process.voteMove hstep hr hok with
      | quiet hb =>
        simp only [Node.ballot, Prod.mk.injEq] at hb
        exact ⟨hb.2.2 ▸ hc, hb.1.symm⟩
      | raise hlt hc' =>
        -- a higher term is not the term of an election that was already there
        exfalso
        have hle := hterm el hel
        omega
      | grant _ ht' _ _ hr' => exact ⟨hr' ▸ hc, ht'.symm⟩
      | quit _ hr' _ _ => rw [hr'] at hc; cases hc
      | elected _ _ _ hr' => rw [hr'] at hc; cases hc
    obtain ⟨h1, h2, h3⟩ := hold hsame.1 (hsame.2.trans ht)
    exact ⟨h1, h2, hsame.2 ▸ hg.vote _ _ _ _ h3⟩
  cases Process.electionMove hstep hel' with
  | start hi => exact hstart hi
  | keep _ hel => exact hkeep _ hel rfl
  | launch el _ hel _ _ => exact hkeep el hel rfl
  | count el _ _ hel _ _ => exact hkeep el hel rfl
  | drop el _ hel => exact hkeep el hel rfl

/-- What every section except a restart does to a process, once its effect on the node,
    the view and the new goroutines is known. -/
theorem ProcRel.of_step (h : ProcRel S s P i p) (hstep : p.step inp = some e)
    (hr : inp ≠ .restart) (hok : ¬ p.forgetsVote inp) (hg : Grows i s s')
    (hterm : ∀ el, p.election = some el → el.req.term ≤ p.node.term)
    (hnode : NodeRel S s' P' i e.proc.node)
    (hl : Later (overlay P (s.log i)) (overlay P' (s'.log i)) p.node e.proc.node)
    (hlog : e.proc.node.role = .candidate → s'.log i = s.log i)
    (hstart : inp = .startElection →
      ElectionRel s' i e.proc.node ⟨p.node.becomeCandidate.voteRequest, p.node.peers, 1, false⟩)
    (hspawn : ∀ t, Process.Spawn p inp t →
      TaskRel S s' (overlay P' (s'.log i)) i e.proc.node t) : ProcRel S s' P' i e.proc where
  node := hnode
  tasks := by
    intro t ht
    rcases Process.task_of_step hstep ht with ⟨ht, _⟩ | ht
    · exact (h.tasks t ht).later hg hl h.node.applied_le
    · exact hspawn t ht
  apply := h.apply_of_step hstep hr hg hl.commit
  compactor := h.compactor_of_step hstep hr hl
  election := fun _ hel => h.election_of_step hstep hr hok hg hterm hlog hstart hel

end Goroutines

/-! ## What a section has to be matched by -/

/-- The section `inp` of the process `p` with effect `e`, matched by steps of the node `i`
    from the view `s` to `s'`. -/
structure Match (S : Setting Id Entry ℤ) (s : View Id Entry ℤ) (P : List Entry) (i : Id)
    (p : Process Id) (inp : Input Id) (e : Process.Effect Id) (s' : View Id Entry ℤ)
    (P' : List Entry) : Prop where
  steps : Steps S i s s'
  node : NodeRel S s' P' i e.proc.node
  later : Later (overlay P (s.log i)) (overlay P' (s'.log i)) p.node e.proc.node
  same : e.proc.node.role = .candidate → s'.log i = s.log i
  vote : ∀ req, inp = .requestVote req → VoteRel s' i req (p.node.handleRequestVote req).2
  append : ∀ req, inp = .appendEntries req → AckRel s' i req (p.node.handleAppendEntries req).2.1
  inline : ∀ cmd, inp = .propose cmd → p.node.peers = [] →
    Shows S s' (p.node.appendEntry cmd).lastLogIndex cmd
  proposed : ∀ cmd, inp = .propose cmd →
    Proposed s' (p.node.appendEntry cmd).lastLogIndex (p.node.appendEntry cmd).term cmd
  start : inp = .startElection →
    ElectionRel s' i e.proc.node ⟨p.node.becomeCandidate.voteRequest, p.node.peers, 1, false⟩
  reign : ∀ T r, s'.reign T = some r → (∃ r₀, s.reign T = some r₀ ∧ r₀.who = r.who) ∨
    .becameLeader r.who T ∈ e.events

namespace Match

variable {S : Setting Id Entry ℤ} {s s' : View Id Entry ℤ} {P P' : List Entry} {i : Id}
  {p : Process Id} {inp : Input Id} {e : Process.Effect Id}

theorem task (hm : Match S s P i p inp e s' P') (h : ProcRel S s P i p)
    (hsafe : p.safe inp = true) {t : Task Id} (ht : Process.Spawn p inp t) :
    TaskRel S s' (overlay P' (s'.log i)) i e.proc.node t := by
  have hac := h.node.applied_le
  cases ht with
  | vote req _ => exact hm.vote req rfl
  | append req _ => exact hm.append req rfl
  | snapshot _ _ => trivial
  | propose cmd _ _ => exact hm.proposed cmd rfl
  | inline cmd _ hp => exact hm.inline cmd rfl hp
  | proposed _ _ _ _ hold _ => exact Proposed.grows (h.tasks _ hold) hm.steps.grows
  | awaitAppend _ _ _ _ => trivial
  | installing _ _ _ => trivial
  | snapIndex _ _ => trivial
  | snapTerm _ _ => exact hm.later.applied
  | snapSend peer idx data hidx =>
    have hle : idx ≤ p.node.lastApplied := h.tasks _ hidx
    refine ⟨hle.trans hm.later.applied, ?_⟩
    rw [hm.later.take_eq (hle.trans hac)]
    simp only [Process.safe, decide_eq_true_eq] at hsafe
    rcases hsafe with rfl | hb
    · rfl
    · refine h.node.holds.logTermAt_eq hb ?_
      rw [h.node.length_eq]
      exact (hle.trans hac).trans h.node.commit_le
  | awaitSnap peer idx label data hidx =>
    obtain ⟨hle, _⟩ : idx ≤ p.node.lastApplied ∧ _ := h.tasks _ hidx
    have hnat : (p.node.snapshotRequest idx label data).lastIncludedIndex.toNat = idx := by
      simp [Node.snapshotRequest]
    exact hnat.le.trans ((hle.trans hac).trans hm.later.commit)

/-- The requests of a leader carry its log. -/
theorem request {n : Node Id} (h : NodeRel S s P i n) (hs : s.Sound S) (hl : n.role = .leader)
    {peer : Id} (hf : n.firstIndex ≤ n.withRepl.nextFor peer) :
    RequestRel S s (n.withRepl.appendRequest peer) := by
  obtain ⟨rfl, r, hr, _, hlog, _⟩ := h.leads hl
  have hholds := h.holds
  have hcommitted := h.committed
  have hle := h.commit_le
  rw [overlay_nil, hlog] at hholds hcommitted
  rw [hlog] at hle
  have hholds' : n.withRepl.Holds r.log := hholds.congr rfl rfl rfl
  exact ⟨r, r.log.length, n.withRepl.nextFor peer - 1, n.commitIndex, hr,
    Node.appendRequest_carries hholds' List.prefix_rfl hf, (hs.init_le _ r hr).length_le, rfl, hle,
    hcommitted⟩

theorem sent (hm : Match S s P i p inp e s' P') (h : ProcRel S s P i p) (hs : s.Sound S)
    (hid : p.node.id = i) {m : Msg Id} (hsend : Process.Send p inp m) : MsgRel S s' m := by
  have hg := hm.steps.grows
  cases hsend with
  | voteReq _ _ _ _ _ _ => trivial
  | voteDenied req hd =>
    intro hv
    rw [hd] at hv
    cases hv
  | voteSaved req resp _ ht _ =>
    rw [hid]
    exact VoteRel.grows (h.tasks _ ht) hg
  | voteUnsaved _ _ _ _ =>
    intro hv
    cases hv
  | appendAnswer req _ =>
    rw [hid]
    exact hm.append req rfl
  | appendSaved req resp _ ht _ =>
    rw [hid]
    exact AckRel.grows (h.tasks _ ht) hg
  | appendUnsaved _ _ _ _ =>
    intro hv
    cases hv
  | snapStale _ _ => trivial
  | snapAnswer _ _ _ _ => trivial
  | appendReq peer hl _ hf => exact (request h.node hs hl hf).grows hg
  | snapReq peer idx label data ht =>
    obtain ⟨hle, hlabel⟩ := h.tasks _ ht
    have hci := hle.trans h.node.applied_le
    refine SnapshotRel.grows ⟨(overlay P (s.log i)).take idx, ?_, hlabel, ?_⟩ hg
    · rw [List.length_take, h.node.length_eq, min_eq_left (hci.trans h.node.commit_le)]
      rfl
    · exact h.node.committed.mono le_rfl (List.take_prefix_take_left hci)

theorem shown (hm : Match S s P i p inp e s' P') (h : ProcRel S s P i p) {ev : Event Id}
    (hshow : Process.Show p inp ev) : EventRel S s' ev := by
  have hg := hm.steps.grows
  cases hshow with
  | becameLeader _ _ _ _ _ _ => trivial
  | applied idx cmd ha =>
    have hold := h.apply
    rw [ha] at hold
    exact hold.2.grows hg
  | appliedInline idx cmd ht => exact Shows.grows (h.tasks _ ht) hg
  | returned _ _ _ _ => trivial

end Match

/-- A matched section preserves the relation. -/
theorem Rel.of_match {cfg : Config Id} {c : Cluster Id} {s s' : View Id Entry ℤ}
    {P : Id → List Entry} {P' : List Entry} {i : Id} {inp : Input Id} {e : Process.Effect Id}
    (h : Rel cfg c s P) (hv : c.VoteInv cfg) (hi : i ∈ cfg.members)
    (hok : ¬ (c.proc i).forgetsVote inp) (hsafe : (c.proc i).safe inp = true)
    (hr : inp ≠ .restart) (hstep : (c.proc i).step inp = some e)
    (hm : Match cfg.setting s (P i) i (c.proc i) inp e s' P') :
    Rel cfg (c.update i e) s' (Function.update P i P') := by
  have hp := h.proc i hi
  refine h.update hm.steps ?_ ?_ ?_ hm.reign
  · refine hp.of_step hstep hr hok hm.steps.grows ?_ hm.node hm.later hm.same hm.start
      fun t ht => hm.task hp hsafe ht
    exact fun el hel => ((hv.campaigns i).self el hel).2
  · exact fun m hmem => hm.sent hp h.sound (hv.id_eq i) (Process.send_of_step hstep hmem)
  · exact fun ev hev => hm.shown hp (Process.show_of_step hstep hev)

/-! ## Sections that do not touch the log -/

namespace Node

theorem handleRequestVote_upToDate {n : Node Id} {req : VoteRequest Id}
    (h : (n.handleRequestVote req).2.voteGranted = true) :
    req.lastLogTerm > n.lastLogTerm ∨
      (req.lastLogTerm = n.lastLogTerm ∧ req.lastLogIndex ≥ n.lastLogIndex) := by
  unfold handleRequestVote at h
  split_ifs at h
  dsimp only at h
  split_ifs at h with hg
  simp only [grants, decide_eq_true_eq, Bool.decide_and, Bool.and_eq_true] at hg
  have hlog : (n.adoptTerm req.term).lastLogTerm = n.lastLogTerm ∧
      (n.adoptTerm req.term).lastLogIndex = n.lastLogIndex := by
    unfold adoptTerm
    split_ifs <;> exact ⟨rfl, rfl⟩
  rw [← hlog.1, ← hlog.2]
  exact hg.2

end Node

section Quiet

variable {cfg : Config Id} {S : Setting Id Entry ℤ} {s : View Id Entry ℤ} {P : List Entry} {i : Id}
  {n n' : Node Id} {p : Process Id} {inp : Input Id} {e : Process.Effect Id}

theorem raise_term_self (s : View Id Entry ℤ) (i : Id) (t : ℤ) : (s.raise i t).term i = t := by
  simp [View.raise]

theorem Node.Quiet.fields (h : Node.Quiet n n') :
    n'.log = n.log ∧ n'.lastIncludedIndex = n.lastIncludedIndex ∧
      n'.lastIncludedTerm = n.lastIncludedTerm ∧ n'.commitIndex = n.commitIndex ∧
      n'.lastApplied = n.lastApplied := by
  simpa only [Node.core, Prod.mk.injEq] using h.core

theorem NodeRel.quiet (h : NodeRel S s P i n) (hq : Node.Quiet n n') (ht : n.term ≤ n'.term) :
    NodeRel S (s.raise i n'.term) P i n' := by
  obtain ⟨h1, h2, h3, h4, h5⟩ := hq.fields
  have hg : Grows i s (s.raise i n'.term) := Consensus.View.grows_raise (h.term.trans_le ht)
  exact
    { term := raise_term_self s i n'.term
      nonneg := h.nonneg.trans ht
      holds := h.holds.congr h1 h2 h3
      short := h.short
      patch_base := h2 ▸ h.patch_base
      patch := (hg.committed h.patch).mono ht List.prefix_rfl
      commit_le := h4 ▸ h.commit_le
      committed := by
        rw [h4]
        exact (hg.committed h.committed).mono ht List.prefix_rfl
      base_le := by rw [h2, h5]; exact h.base_le
      applied_le := by rw [h4, h5]; exact h.applied_le
      leads := by
        intro hr
        obtain ⟨hr', ht', hp', hm'⟩ := hq.leads hr
        rw [ht', hp', hm', h4]
        exact h.leads hr' }

theorem Node.Quiet.later (hq : Node.Quiet n n') (full : List Entry) : Later full full n n' := by
  obtain ⟨_, h2, _, h4, h5⟩ := hq.fields
  exact ⟨h2.ge, h5.ge, h4.ge, rfl⟩

/-- The sections that give a vote or an acknowledgement, or take a proposal. -/
def Input.answers : Input Id → Bool
  | .requestVote _ => true
  | .startElection => true
  | .appendEntries _ => true
  | .propose _ => true
  | _ => false

/-- The section promises nothing: it is none of these, or rejects its request. -/
structure Unanswered (p : Process Id) (inp : Input Id) : Prop where
  vote : ∀ req, inp ≠ .requestVote req
  start : inp ≠ .startElection
  append : ∀ req, inp = .appendEntries req → (p.node.handleAppendEntries req).2.1.success = false
  propose : ∀ cmd, inp ≠ .propose cmd

omit [DecidableEq Id] in
theorem Unanswered.of_input (h : inp.answers = false) : Unanswered p inp := by
  refine ⟨?_, ?_, ?_, ?_⟩
  · rintro req rfl
    cases h
  · rintro rfl
    cases h
  · rintro req rfl
    cases h
  · rintro cmd rfl
    cases h

omit [DecidableEq Id] in
theorem Unanswered.of_rejected {req : AppendEntriesRequest Id}
    (h : (p.node.handleAppendEntries req).2.1.success = false) :
    Unanswered p (.appendEntries req) := by
  refine ⟨by simp, by simp, ?_, by simp⟩
  rintro req' ⟨⟩
  exact h

/-- A section that leaves the whole log alone is matched by the move of the term. -/
theorem Match.of_raise (h : ProcRel S s P i p) (ht : p.node.term ≤ e.proc.node.term)
    (hnode : NodeRel S (s.raise i e.proc.node.term) P i e.proc.node)
    (hlater : Later (overlay P (s.log i)) (overlay P (s.log i)) p.node e.proc.node)
    (hu : Unanswered p inp) : Match S s P i p inp e (s.raise i e.proc.node.term) P where
  steps := Relation.ReflTransGen.single (.raise _ (h.node.term.trans_le ht))
  node := hnode
  later := hlater
  same := fun _ => rfl
  vote := fun req hi => absurd hi (hu.vote req)
  append := by
    intro req hi hs
    rw [hu.append req hi] at hs
    cases hs
  inline := fun cmd hi => absurd hi (hu.propose cmd)
  proposed := fun cmd hi => absurd hi (hu.propose cmd)
  start := fun hi => absurd hi hu.start
  reign := fun T r hr => .inl ⟨r, hr, rfl⟩

theorem Match.of_quiet (h : ProcRel S s P i p) (hq : Node.Quiet p.node e.proc.node)
    (ht : p.node.term ≤ e.proc.node.term) (hu : Unanswered p inp) :
    Match S s P i p inp e (s.raise i e.proc.node.term) P :=
  .of_raise h ht (h.node.quiet hq ht) (hq.later _) hu

/-- A vote that is cast changes nothing else. -/
theorem NodeRel.cast (h : NodeRel S s P i n) (t : ℤ) (k : ℕ) : NodeRel S (s.cast i t k) P i n :=
  h.grows (Consensus.View.grows_cast t k) rfl rfl fun _ _ hr _ => hr

theorem Match.requestVote {req : VoteRequest Id} (h : ProcRel cfg.setting s P i p)
    (hstep : p.step (.requestVote req) = some e) :
    ∃ s' P', Match cfg.setting s P i p (.requestVote req) e s' P' := by
  have hn := Process.requestVote_node hstep
  have hq := Node.handleRequestVote_quiet p.node req
  have ht := (Node.handleRequestVote_voteMove p.node req).term_le
  rw [← hn] at hq ht
  have hnode := h.node.quiet hq ht
  by_cases hg : (p.node.handleRequestVote req).2.voteGranted = true
  · obtain ⟨hterm, _⟩ := Node.handleRequestVote_granted hg
    rw [← hn] at hterm
    have hup : Consensus.View.UpToDate cfg.setting (s.log i) req.lastLogTerm
        req.lastLogIndex.toNat := by
      have hlog := Node.handleRequestVote_upToDate hg
      rw [h.node.lastLogTerm_eq, h.node.lastLogIndex_eq] at hlog
      rcases hlog with hlt | ⟨heq, hle⟩
      · exact .inl hlt
      · exact .inr ⟨heq.symm, by omega⟩
    refine ⟨(s.raise i e.proc.node.term).cast i req.lastLogTerm req.lastLogIndex.toNat, P, ?_⟩
    exact
      { steps := (Relation.ReflTransGen.single (.raise _ (h.node.term.trans_le ht))).tail
          (.cast _ _ hup)
        node := hnode.cast _ _
        later := hq.later _
        same := fun _ => rfl
        vote := by
          intro req' hi _
          cases hi
          exact .inr ⟨rfl, hterm.symm.trans (raise_term_self s i _).symm, rfl, rfl⟩
        append := by simp
        inline := by simp
        proposed := by simp
        start := by simp
        reign := fun T r hr => .inl ⟨r, hr, rfl⟩ }
  · refine ⟨s.raise i e.proc.node.term, P, ?_⟩
    exact
      { steps := Relation.ReflTransGen.single (.raise _ (h.node.term.trans_le ht))
        node := hnode
        later := hq.later _
        same := fun _ => rfl
        vote := by
          intro req' hi hv
          cases hi
          exact absurd hv hg
        append := by simp
        inline := by simp
        proposed := by simp
        start := by simp
        reign := fun T r hr => .inl ⟨r, hr, rfl⟩ }

theorem Match.startElection (h : ProcRel cfg.setting s P i p)
    (hstep : p.step .startElection = some e) :
    ∃ s' P', Match cfg.setting s P i p .startElection e s' P' := by
  have hq := Process.quiet_of_step hstep rfl
  have hn : e.proc.node = p.node.becomeCandidate := by
    simp only [Process.step] at hstep
    split at hstep <;> cases hstep
    rfl
  have ht : p.node.term ≤ e.proc.node.term := by
    rw [hn]
    simp [Node.becomeCandidate]
  have hpos : 0 < e.proc.node.term := by
    have := h.node.nonneg
    rw [hn]
    change 0 < p.node.term + 1
    omega
  have hup : Consensus.View.UpToDate cfg.setting (s.log i) (lastTerm (s.log i)) (s.log i).length :=
    .inr ⟨rfl, le_rfl⟩
  refine ⟨(s.raise i e.proc.node.term).cast i (lastTerm (s.log i)) (s.log i).length, P, ?_⟩
  exact
    { steps := (Relation.ReflTransGen.single (.raise _ (h.node.term.trans_le ht))).tail
        (.cast _ _ hup)
      node := (h.node.quiet hq ht).cast _ _
      later := hq.later _
      same := fun _ => rfl
      vote := by simp
      append := by simp
      inline := by simp
      proposed := by simp
      start := by
        intro _
        have hreq : p.node.becomeCandidate.voteRequest.term = e.proc.node.term := by rw [hn]; rfl
        refine ⟨hreq.symm ▸ hpos, fun _ _ => ⟨?_, ?_, ?_⟩⟩
        · exact congrArg Nat.cast h.node.lastLogIndex_eq
        · exact h.node.lastLogTerm_eq
        · exact .inr ⟨rfl, (raise_term_self s i _).symm, rfl, rfl⟩
      reign := fun T r hr => .inl ⟨r, hr, rfl⟩ }

end Quiet

end KvStore.Raft
