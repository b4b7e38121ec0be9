import KvStore.Raft.StateMachineSafety

/-!
# What a leader counts

`maybeCommit` counts the `matchIndex` of each peer. The bookkeeping is created once per
process (`replState`, pkg/raft/leader.go:31) and kept across leaderships.

* `Process.leadMove`: what one section can do to the `matchIndex` of a node that leads
  after it.
* `Cluster.match_index_current`: the counted values are acknowledgements of the current
  term exactly as long as no election is won with values from an earlier one.
* `Cluster.match_index_stale`: a leader that steps down and is elected again still counts
  what it was told in the first term.
-/

namespace KvStore.Raft

variable {Id : Type} [DecidableEq Id]

/-! ## Acknowledgements -/

/-- A successful answer: who gave it, in which term, and up to which index. -/
structure Ack (Id : Type) where
  peer : Id
  term : ℤ
  index : ℕ

/-- The acknowledgement a section handles. -/
def Input.ack : Input Id → Option (Ack Id)
  | .appendResponse peer req resp =>
    if resp.success then some ⟨peer, resp.term, (req.prevLogIndex + req.entries.length).toNat⟩
    else none
  | .snapshotResponse peer req resp =>
    if resp.success then some ⟨peer, resp.term, req.lastIncludedIndex.toNat⟩ else none
  | _ => none

/-- The index that a message acknowledges from `q` to `i` in the term `T`, `0` for any other
    message. -/
def Msg.ackIndex (q i : Id) (T : ℤ) : Msg Id → ℕ
  | .appendResp src dst req resp =>
    if src = q ∧ dst = i ∧ resp.success = true ∧ resp.term = T then
      (req.prevLogIndex + req.entries.length).toNat
    else 0
  | .snapResp src dst req resp =>
    if src = q ∧ dst = i ∧ resp.success = true ∧ resp.term = T then req.lastIncludedIndex.toNat
    else 0
  | _ => 0

/-- The message behind an acknowledgement. -/
theorem Input.msg_of_ack {inp : Input Id} {a : Ack Id} (h : inp.ack = some a) (i : Id) :
    ∃ m, inp.msg i = some m ∧ m.ackIndex a.peer i a.term = a.index := by
  cases inp with
  | appendResponse peer req resp =>
    simp only [ack] at h
    split_ifs at h with hs
    cases h
    exact ⟨_, rfl, by simp [Msg.ackIndex, hs]⟩
  | snapshotResponse peer req resp =>
    simp only [ack] at h
    split_ifs at h with hs
    cases h
    exact ⟨_, rfl, by simp [Msg.ackIndex, hs]⟩
  | _ => cases h

namespace Cluster

/-- The highest index that `q` has acknowledged to `i` in the term `T`. -/
def ackedIndex (c : Cluster Id) (q i : Id) (T : ℤ) : ℕ :=
  (c.net.map (Msg.ackIndex q i T)).foldr max 0

theorem le_ackedIndex {c : Cluster Id} {m : Msg Id} (hm : m ∈ c.net) (q i : Id) (T : ℤ) :
    m.ackIndex q i T ≤ c.ackedIndex q i T :=
  List.le_max_of_le (List.mem_map_of_mem hm) le_rfl

theorem ackedIndex_update (c : Cluster Id) (j : Id) (e : Process.Effect Id) (q i : Id) (T : ℤ) :
    c.ackedIndex q i T ≤ (c.update j e).ackedIndex q i T := by
  refine List.max_le_of_forall_le _ _ fun k hk => ?_
  obtain ⟨m, hm, rfl⟩ := List.mem_map.mp hk
  exact le_ackedIndex (by simp [hm]) q i T

end Cluster

/-! ## One section -/

namespace Process

/-- How the `matchIndex` of a node that leads after a section has moved. -/
inductive LeadMove (p : Process Id) (inp : Input Id) (p' : Process Id) : Prop
  | keep (hl : p.node.role = .leader) (ht : p'.node.term = p.node.term)
      (hm : p'.node.replState.matchIndex = p.node.replState.matchIndex)
  | count (a : Ack Id) (hl : p.node.role = .leader) (ht : p'.node.term = p.node.term)
      (ha : inp.ack = some a) (hT : a.term = p.node.term)
      (hm : p'.node.replState.matchIndex = Function.update p.node.replState.matchIndex a.peer
        (max (p.node.replState.matchIndex a.peer) a.index))
  | elected (hi : inp = .endElection) (hw : p.stepsDownInPlace .endElection = false)
      (ht : p'.node.term = p.node.term)
      (hm : p'.node.replState.matchIndex = p.node.replState.matchIndex)
  | alone (hi : inp = .restart) (hp : p'.node.peers = [])

theorem LeadMove.of_quiet {p p' : Process Id} {inp : Input Id} (hq : Node.Quiet p.node p'.node)
    (hl : p'.node.role = .leader) : LeadMove p inp p' := by
  obtain ⟨h1, h2, _, h4⟩ := hq.leads hl
  exact .keep h1 h2 h4

/-- Counting an acknowledgement of the current term. -/
theorem LeadMove.of_acknowledge {p p' : Process Id} {inp : Input Id} {q : Id} {v : ℕ}
    (hn : p'.node = (p.node.setInFlight q false).acknowledge q v) (hl : p'.node.role = .leader)
    (ha : inp.ack = some ⟨q, p.node.term, v⟩) : LeadMove p inp p' := by
  rw [hn] at hl
  refine .count ⟨q, p.node.term, v⟩ hl (by rw [hn]; rfl) ha rfl ?_
  rw [hn]
  unfold Node.acknowledge Node.maybeCommit
  dsimp only
  split_ifs <;> rfl

/-- What every section may do to the `matchIndex` of a leader. -/
theorem leadMove {p : Process Id} {inp : Input Id} {e : Effect Id} (hstep : p.step inp = some e)
    (hl : e.proc.node.role = .leader) : LeadMove p inp e.proc := by
  cases inp with
  | endElection =>
    simp only [step] at hstep
    split at hstep <;> try contradiction
    next el hel =>
    split at hstep <;> cases hstep
    unfold endElection at hl ⊢
    split at hl
    · next hw =>
      rw [if_pos hw]
      refine .elected rfl ?_ rfl (Node.replState_matchIndex rfl)
      simp [stepsDownInPlace, hel, hw]
    · cases hl
  | appendEntries req =>
    have hn := Process.appendEntries_node hstep
    by_cases ht : req.term < p.node.term
    · rw [(Node.handleAppendEntries_stale ht).1] at hn
      exact .of_quiet (hn ▸ .refl _) hl
    · have hb := congrArg (fun b => b.2.2) (Node.handleAppendEntries_ballot ht)
      rw [← hn] at hb
      exact absurd (hl.symm.trans (hb.trans (Node.follow_role _ _ _))) (by simp)
  | installSnapshot req =>
    simp only [step] at hstep
    split at hstep <;> cases hstep
    · exact .keep hl rfl rfl
    · next ht =>
      have hb := congrArg (fun b => b.2.2) (Node.handleInstallSnapshot_ballot ht)
      exact absurd (hl.symm.trans (hb.trans (Node.follow_role _ _ _))) (by simp)
  | propose cmd =>
    simp only [step] at hstep
    split at hstep <;> try contradiction
    next hrole =>
    cases hstep
    obtain ⟨f1, _, _, f4, _⟩ := p.node.appendEntry_frame cmd
    exact .keep hrole f1 (Node.replState_matchIndex f4)
  | appendResponse q req resp =>
    simp only [step] at hstep
    split at hstep <;> cases hstep
    dsimp only [next] at hl ⊢
    have hq := Node.setInFlight_quiet p.node q false
    unfold Node.handleAppendResponse at hl ⊢
    dsimp only at hl ⊢
    split_ifs at hl ⊢ with h1 h2 h3
    · cases hl
    · exact .of_quiet hq hl
    · have hT : resp.term = p.node.term := le_antisymm (not_lt.mp h1) (not_lt.mp h2)
      exact .of_acknowledge rfl hl (by rw [← hT]; simp [Input.ack, h3])
    · exact .of_quiet (hq.trans (Node.rewind_quiet _ _)) hl
  | snapshotResponse q req resp =>
    simp only [step] at hstep
    split at hstep <;> cases hstep
    dsimp only [next] at hl ⊢
    have hq := Node.setInFlight_quiet p.node q false
    unfold Node.handleSnapshotResponse at hl ⊢
    dsimp only at hl ⊢
    split_ifs at hl ⊢ with h1 h2
    · cases hl
    · exact .of_quiet hq hl
    · push Not at h2
      have hT : resp.term = p.node.term := le_antisymm (not_lt.mp h1) h2.1
      have h3 : resp.success = true := by simpa using h2.2
      exact .of_acknowledge rfl hl (by rw [← hT]; simp [Input.ack, h3])
  | applyCheck =>
    simp only [step] at hstep
    split at hstep <;> try contradiction
    split at hstep
    · cases hstep
      exact .keep hl rfl rfl
    · split at hstep <;> cases hstep <;> exact .keep hl rfl (Node.replState_matchIndex rfl)
  | applyDone =>
    simp only [step] at hstep
    split at hstep <;> cases hstep
    exact .keep hl rfl (Node.replState_matchIndex rfl)
  | compactLog =>
    simp only [step] at hstep
    split at hstep <;> cases hstep
    dsimp only at hl ⊢
    unfold Node.compactLog at hl ⊢
    split at hl
    · next hle =>
      rw [if_pos hle]
      exact .keep hl rfl rfl
    · next hlt =>
      rw [if_neg hlt]
      exact .keep hl rfl (Node.replState_matchIndex rfl)
  | restart =>
    cases hstep
    refine .alone rfl ?_
    by_contra hp
    simp [restart, Node.setRaftStore, Node.new] at hl hp
    exact hp hl
  | _ => exact .of_quiet (quiet_of_step hstep rfl) hl

end Process

/-! ## Every run -/

namespace Cluster

/-- What a leader counts for a peer is at most what the peer has acknowledged to it in the
    current term. -/
def CountsCurrent (cfg : Config Id) (c : Cluster Id) : Prop :=
  ∀ i ∈ cfg.members, (c.proc i).node.role = .leader → ∀ q ∈ (c.proc i).node.peers,
    (c.proc i).node.replState.matchIndex q ≤ c.ackedIndex q i (c.proc i).node.term

/-- An election that is won finds no `matchIndex` beyond the acknowledgements of its term. -/
def electsFresh (c : Cluster Id) (i : Id) (inp : Input Id) : Prop :=
  inp = .endElection → (c.proc i).stepsDownInPlace .endElection = false →
    ∀ q ∈ (c.proc i).node.peers,
      (c.proc i).node.replState.matchIndex q ≤ c.ackedIndex q i (c.proc i).node.term

instance (c : Cluster Id) (i : Id) (inp : Input Id) : Decidable (c.electsFresh i inp) :=
  inferInstanceAs (Decidable (_ → _))

variable {cfg : Config Id} {c : Cluster Id} {i : Id} {inp : Input Id} {e : Process.Effect Id}

theorem CountsCurrent.init (cfg : Config Id) : CountsCurrent cfg (Cluster.init cfg) :=
  fun _ _ _ _ _ => Nat.zero_le _

/-- A step keeps the counts current if it meets the condition. -/
theorem CountsCurrent.update (h : CountsCurrent cfg c) (hi : i ∈ cfg.members)
    (hm : ∀ m, inp.msg i = some m → m ∈ c.net) (hstep : (c.proc i).step inp = some e)
    (hf : c.electsFresh i inp) : CountsCurrent cfg (c.update i e) := by
  intro j hj hl q hq
  refine le_trans ?_ (c.ackedIndex_update i e q j _)
  by_cases hji : j = i
  · subst hji
    rw [update_proc_self] at hl hq ⊢
    have hpeers : e.proc.node.peers = (c.proc j).node.peers :=
      congrArg Prod.snd (Process.step_ident hstep)
    rw [hpeers] at hq
    cases Process.leadMove hstep hl with
    | keep hl' ht hmatch =>
      rw [ht, hmatch]
      exact h j hj hl' q hq
    | count a hl' ht ha hT hmatch =>
      obtain ⟨m, hmsg, hidx⟩ := Input.msg_of_ack ha j
      have hack := le_ackedIndex (hm m hmsg) a.peer j a.term
      rw [hidx, hT] at hack
      rw [ht, hmatch]
      have hold := h j hj hl' q hq
      by_cases hqa : q = a.peer
      · subst hqa
        rw [Function.update_self]
        exact max_le hold hack
      · rw [Function.update_of_ne hqa]
        exact hold
    | elected hinp hw ht hmatch =>
      rw [ht, hmatch]
      exact hf hinp hw q hq
    | alone hinp hp =>
      rw [← hpeers, hp] at hq
      cases hq
  · rw [update_proc_ne _ _ hji] at hl hq ⊢
    exact h j hj hl q hq

/-- A won election makes a leader of the node and sends nothing. -/
theorem endElection_won_effect {p : Process Id} (hstep : p.step .endElection = some e)
    (hw : p.stepsDownInPlace .endElection = false) :
    e.proc.node = p.node.becomeLeader ∧ e.sent = [] := by
  simp only [Process.step] at hstep
  split at hstep <;> try contradiction
  next el hel =>
  split at hstep <;> cases hstep
  simp only [Process.stepsDownInPlace, hel, Option.all_some, decide_eq_false_iff_not,
    not_not] at hw
  unfold Process.endElection
  rw [if_pos hw]
  exact ⟨rfl, rfl⟩

/-- A step that does not meet the condition leaves a leader that counts too much. -/
theorem electsFresh_of_update (hi : i ∈ cfg.members) (hstep : (c.proc i).step inp = some e)
    (h : CountsCurrent cfg (c.update i e)) : c.electsFresh i inp := by
  rintro rfl hw q hq
  obtain ⟨hn, hs⟩ := endElection_won_effect hstep hw
  have hnet : (c.update i e).net = c.net := by simp [Cluster.update, hs]
  have hc := h i hi (by rw [update_proc_self, hn]; rfl) q
    (by rw [update_proc_self, hn]; exact hq)
  rw [update_proc_self, hn, ackedIndex, hnet] at hc
  exact hc

/-- In every run in which no election is won with stale values, every leader counts
    acknowledgements of its own term only; and this stays so under one more step exactly if
    that step meets the condition as well. -/
theorem match_index_current (h : Reachable cfg electsFresh c) :
    CountsCurrent cfg c ∧ ∀ i inp c', c.step cfg i inp = some c' →
      (CountsCurrent cfg c' ↔ c.electsFresh i inp) := by
  have hcur : CountsCurrent cfg c := h.invariant (.init cfg)
    fun c i inp e hc hf hi hm hstep => hc.update hi hm hstep hf
  refine ⟨hcur, fun i inp c' hstep => ?_⟩
  obtain ⟨hi, hm, e, he, rfl⟩ := step_eq_some hstep
  exact ⟨electsFresh_of_update hi he, hcur.update hi hm he⟩

/-! ## A leader that is elected again -/

/-- Node 0, elected in term 1, proposes a write that node 1 acknowledges. -/
def firstAck : List (Fin 3 × Input (Fin 3)) :=
  let full := ⟨1, 0, 0, 0, [⟨1, putCommand 7⟩], 0⟩
  [(0, .replicate 1), (0, .appendError 1 ⟨1, 0, 0, 0, [], 0⟩), (0, .propose (putCommand 7)),
   (0, .replicate 1), (1, .appendEntries full), (1, .persistAppend full ⟨1, true⟩ true),
   (0, .appendResponse 1 full ⟨1, true⟩)]

/-- Node 2 campaigns without an answer in term 1 and again in term 2, so that node 0 steps
    down; node 0 is elected in term 3 with the vote of node 1. -/
def secondElection : List (Fin 3 × Input (Fin 3)) :=
  let other := ⟨2, 2, 0, 0⟩
  let req := ⟨3, 0, 1, 1⟩
  [(2, .startElection), (2, .persistElection true), (2, .voteError 0), (2, .voteError 1),
   (2, .endElection), (2, .startElection), (2, .persistElection true), (0, .requestVote other),
   (0, .startElection), (0, .persistElection true), (1, .requestVote req),
   (1, .persistVote req ⟨3, true⟩ true), (0, .voteResponse 1 req ⟨3, true⟩), (0, .endElection)]

/-- After the first leadership the counts are current. -/
theorem match_index_current_first_term :
    ∃ c, Reachable Config.three electsFresh c ∧ (c.proc 0).node.role = .leader ∧
      (c.proc 0).node.replState.matchIndex 1 = 1 ∧ CountsCurrent Config.three c := by
  have hrun : ((init Config.three).run Config.three electsFresh (firstElection ++ firstAck)).map
      (fun c => ((c.proc 0).node.role, (c.proc 0).node.replState.matchIndex 1)) =
        some (.leader, 1) := by
    decide +kernel
  obtain ⟨c, hc, he⟩ := Option.map_eq_some_iff.mp hrun
  have hreach := Reachable.init.run hc
  exact ⟨c, hreach, congrArg Prod.fst he, congrArg Prod.snd he, (match_index_current hreach).1⟩

/-- The leader of term 3 counts index 1 for node 1, which has acknowledged nothing in
    term 3, although no vote is forgotten, every `Save` succeeds and no node restarts. -/
theorem match_index_stale :
    ∃ c, Reachable Config.three
        (fun c i inp => c.keepsVotes i inp ∧ inp.saved = true ∧ inp ≠ .restart) c ∧
      ¬ CountsCurrent Config.three c := by
  have hrun : ((init Config.three).run Config.three
      (fun c i inp => c.keepsVotes i inp ∧ inp.saved = true ∧ inp ≠ .restart)
      (firstElection ++ firstAck ++ secondElection)).map
      (fun c => ((c.proc 0).node.role, (c.proc 0).node.peers,
        (c.proc 0).node.replState.matchIndex 1, c.ackedIndex 1 0 (c.proc 0).node.term)) =
        some (.leader, [1, 2], 1, 0) := by
    decide +kernel
  obtain ⟨c, hc, he⟩ := Option.map_eq_some_iff.mp hrun
  simp only [Prod.mk.injEq] at he
  obtain ⟨hrole, hpeers, hmatch, hacked⟩ := he
  refine ⟨c, Reachable.init.run hc, fun hcur => ?_⟩
  have hle := hcur 0 (by decide) hrole 1 (by simp [hpeers])
  omega

end Cluster

end KvStore.Raft
