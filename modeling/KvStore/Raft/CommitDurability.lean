import KvStore.Raft.DurableAcks
import KvStore.Raft.MatchIndex

/-!
# Committed entries and the raft stores

`maybeCommit` counts the leader's in-memory log and the acknowledgements of its peers.
When it raises the commit index to `i`, how many members have the entry at `i` in their
`RaftStore`?

* `DurableRel`: along a run within the protocol, what an acknowledgement says of the
  store of the peer that gave it, and where the counted `matchIndex` values come from.
* `Cluster.commit_durable`: a majority of the stores holds the entry, if every append
  that is acknowledged without `persist` finds the log saved, and the leader has its own
  entry saved when it counts itself.
* `Cluster.commit_before_save`: the leader commits an entry that one store of three holds.
-/

namespace KvStore.Raft

open KvStore.Consensus (Setting View Reign)
open KvStore.Consensus.View (Grows Sound Proper Committed Steps Step)

variable {Id : Type} {cfg : Config Id}

/-! ## What a store stands for -/

/-- The store has this entry at the index, or has compacted the index. -/
def RaftState.keeps (st : RaftState Id) (idx : ℕ) (en : Entry) : Prop :=
  idx ≤ st.lastIncludedIndex ∨ st.log[idx - st.lastIncludedIndex - 1]? = some en

instance (st : RaftState Id) (idx : ℕ) (en : Entry) : Decidable (st.keeps idx en) :=
  inferInstanceAs (Decidable (_ ∨ _))

/-- The store was saved from a node that stood for the matching log `l`, up to an overwritten
    beginning below its base. -/
def Stands (S : Setting Id Entry ℤ) (s : View Id Entry ℤ) (st : RaftState Id) (l : List Entry) :
    Prop :=
  ∃ (n : Node Id) (P : List Entry), st = n.raftState ∧ n.Holds (overlay P l) ∧
    (P = [] ∨ P.length < l.length) ∧ P.length ≤ n.lastIncludedIndex ∧ s.Proper S l

section Stands

variable {S : Setting Id Entry ℤ} {s s' : View Id Entry ℤ} {st : RaftState Id} {l l' : List Entry}
  {x : Id}

theorem Stands.grows (h : Stands S s st l) (hg : Grows x s s') : Stands S s' st l := by
  obtain ⟨n, P, h1, h2, h3, h4, h5⟩ := h
  exact ⟨n, P, h1, h2, h3, h4, hg.proper h5⟩

/-- The store holds the entries of the log it stands for. -/
theorem Stands.keeps (h : Stands S s st l) {k : ℕ} {en : Entry} (hk : 1 ≤ k)
    (he : l[k - 1]? = some en) : st.keeps k en := by
  obtain ⟨n, P, rfl, hholds, _, hbase, _⟩ := h
  by_cases hb : k ≤ n.lastIncludedIndex
  · exact .inl hb
  · refine .inr ?_
    change n.log[k - n.lastIncludedIndex - 1]? = some en
    rw [hholds.log_eq, List.getElem?_drop,
      show n.lastIncludedIndex + (k - n.lastIncludedIndex - 1) = k - 1 by omega,
      overlay_getElem? (by omega), he]

variable [DecidableEq Id]

/-- A node's own state. -/
theorem NodeRel.stands {P : List Entry} {i : Id} {n : Node Id} (h : NodeRel S s P i n)
    (hs : s.Sound S) : Stands S s n.raftState (s.log i) :=
  ⟨n, P, rfl, h.holds, h.short, h.patch_base, hs.proper i⟩

omit [DecidableEq Id] in
/-- Matching logs of one length that end with one term are equal. -/
theorem eq_of_last (hl : s.Proper S l) (hl' : s.Proper S l') (hlen : l.length = l'.length)
    (ht : S.lastTerm l = S.lastTerm l') : l = l' := by
  rcases Nat.eq_zero_or_pos l.length with h0 | hpos
  · have h0' : l'.length = 0 := hlen ▸ h0
    rw [List.length_eq_zero_iff.mp h0, List.length_eq_zero_iff.mp h0']
  · have hget := List.getElem?_eq_getElem (show l.length - 1 < l.length by omega)
    have hget' := List.getElem?_eq_getElem (show l.length - 1 < l'.length by omega)
    have hstamp : S.stamp l[l.length - 1] = S.stamp l'[l.length - 1] := by
      unfold Setting.lastTerm at ht
      rw [List.getLast?_eq_getElem?, List.getLast?_eq_getElem?, ← hlen, hget, hget'] at ht
      exact ht
    have htake := hl.take_eq hl' hget hget' hstamp
    rwa [show l.length - 1 + 1 = l.length by omega, List.take_length, hlen, List.take_length]
      at htake

/-- The node as its store has it. -/
def Process.stored (p : Process Id) : Node Id := p.node.setRaftStore p.disk

/-- A store whose last index and term are those of the node stands for the same log. -/
theorem Stands.eq_log {P : List Entry} {i : Id} {p : Process Id}
    (h : Stands cfg.setting s p.disk l) (hn : NodeRel cfg.setting s P i p.node)
    (hs : s.Sound cfg.setting) (hidx : p.stored.lastLogIndex = p.node.lastLogIndex)
    (hterm : p.stored.lastLogTerm = p.node.lastLogTerm) : l = s.log i := by
  obtain ⟨n, P', hdisk, hholds, hshort, _, hproper⟩ := h
  have hidx' : p.stored.lastLogIndex = n.lastLogIndex := by rw [Process.stored, hdisk]; rfl
  have hterm' : p.stored.lastLogTerm = n.lastLogTerm := by rw [Process.stored, hdisk]; rfl
  refine eq_of_last hproper (hs.proper i) ?_ ?_
  · rw [← hn.lastLogIndex_eq, ← hidx, hidx', hholds.lastLogIndex_eq, overlay_length hshort]
  · change lastTerm l = lastTerm (s.log i)
    rw [← hn.lastLogTerm_eq, ← hterm, hterm', hholds.lastLogTerm_eq, overlay_lastTerm hshort]

end Stands

/-! ## The conditions on a step -/

variable [DecidableEq Id]

namespace Node

/-- The node on which `acknowledge` calls `maybeCommit`. -/
def recordAck (n : Node Id) (peer : Id) (matched : ℕ) : Node Id :=
  let st := n.replState
  { n with repl := some { st with
      backoff := Function.update st.backoff peer 0
      matchIndex := Function.update st.matchIndex peer (max (st.matchIndex peer) matched)
      nextIndex := Function.update st.nextIndex peer (max (st.nextIndex peer) (matched + 1)) } }

/-- If `maybeCommit` finds a new entry of the term with a majority, the leader's own store `st` has
    it, or the leader does not need to count itself. -/
def CommitsSaved (n : Node Id) (st : RaftState Id) : Prop :=
  n.role = .leader → n.commitIndex < n.threshold →
    ∀ en ∈ n.entryAt n.threshold, en.term = n.term →
      st.keeps n.threshold en ∨
        majority n.peers ≤ (n.peers.filter fun q => n.threshold ≤ n.replState.matchIndex q).length

instance (n : Node Id) (st : RaftState Id) : Decidable (n.CommitsSaved st) :=
  inferInstanceAs (Decidable (_ → _))

end Node

namespace Process

/-- An append that is acknowledged without `persist` finds the last entry of the log in the
    store. -/
def acksSaved (p : Process Id) : Input Id → Bool
  | .appendEntries req =>
    (p.node.handleAppendEntries req).2.1.success = true →
      (p.node.handleAppendEntries req).2.2 = false →
      p.stored.lastLogIndex = p.node.lastLogIndex ∧ p.stored.lastLogTerm = p.node.lastLogTerm
  | _ => true

/-- A leader that commits on an acknowledgement of its term has the entry in its own store, or does
    not need to count itself. -/
def commitsSaved (p : Process Id) (inp : Input Id) : Prop :=
  ∀ a ∈ inp.ack, a.term = p.node.term →
    ((p.node.setInFlight a.peer false).recordAck a.peer a.index).CommitsSaved p.disk

instance (p : Process Id) (inp : Input Id) : Decidable (p.commitsSaved inp) :=
  inferInstanceAs (Decidable (∀ _ ∈ _, _))

end Process

namespace Cluster

/-- The section stays within the protocol, acknowledges only what is saved, and commits only
    what the counted stores hold. -/
def durableStep (c : Cluster Id) (i : Id) (inp : Input Id) : Prop :=
  c.protocolStep i inp ∧ (c.proc i).acksSaved inp = true ∧ (c.proc i).commitsSaved inp

instance (c : Cluster Id) (i : Id) (inp : Input Id) : Decidable (c.durableStep i inp) :=
  inferInstanceAs (Decidable (_ ∧ _ ∧ _))

end Cluster

/-! ## What holds along a run -/

/-- What is known of the stores and of the counted acknowledgements. -/
structure DurableRel (cfg : Config Id) (c : Cluster Id) (s : View Id Entry ℤ) : Prop where
  disks : ∀ i ∈ cfg.members, ∃ l, Stands cfg.setting s (c.proc i).disk l
  acks : ∀ q x req resp, .appendResp q x req resp ∈ c.net → resp.success = true →
    ∀ r k en, s.reign req.term = some r → r.init.length < k → k ≤ req.stop →
      s.Choosable cfg.setting req.term k → r.log[k - 1]? = some en → (c.proc q).disk.keeps k en
  counts : ∀ i ∈ cfg.members, (c.proc i).node.role = .leader →
    ∀ r, s.reign (c.proc i).node.term = some r → ∀ q ∈ (c.proc i).node.peers,
      (c.proc i).node.replState.matchIndex q ≤ max r.init.length (c.proc i).node.commitIndex ∨
      ∃ req resp, .appendResp q i req resp ∈ c.net ∧ resp.success = true ∧
        req.term = (c.proc i).node.term ∧ (c.proc i).node.replState.matchIndex q ≤ req.stop

section Step

variable {c : Cluster Id} {s s' : View Id Entry ℤ} {P P' : Id → List Entry} {i : Id}
  {inp : Input Id} {e : Process.Effect Id}

theorem DurableRel.disks_step (hd : DurableRel cfg c s) (hg : Grows i s s')
    (hrel' : Rel cfg (c.update i e) s' P') (hstep : (c.proc i).step inp = some e) :
    ∀ j ∈ cfg.members, ∃ l, Stands cfg.setting s' ((c.update i e).proc j).disk l := by
  intro j hj
  obtain ⟨l, hl⟩ := hd.disks j hj
  by_cases hji : j = i
  · subst hji
    have hnode := (hrel'.proc j hj).node
    rw [Cluster.update_proc_self] at hnode ⊢
    rcases Process.disk_of_step hstep with hdisk | hclean
    · exact ⟨l, hdisk ▸ hl.grows hg⟩
    · exact ⟨_, hclean.symm ▸ hnode.stands hrel'.sound⟩
  · rw [Cluster.update_proc_ne _ _ hji]
    exact ⟨l, hl.grows hg⟩

/-- An acknowledgement that was given before. -/
theorem DurableRel.acks_old (hd : DurableRel cfg c s) (hrel : Rel cfg c s P) (hg : Grows i s s')
    {q x : Id} {req : AppendEntriesRequest Id} {resp : AppendEntriesResponse}
    (hm : .appendResp q x req resp ∈ c.net) (hs : resp.success = true) {r' : Reign Id Entry}
    {k : ℕ} {en : Entry} (hr' : s'.reign req.term = some r') (hk : r'.init.length < k)
    (hend : k ≤ req.stop) (hch : s'.Choosable cfg.setting req.term k)
    (hen : r'.log[k - 1]? = some en) : (c.proc q).disk.keeps k en := by
  have hack : AckRel s q req resp := hrel.net _ hm
  have hle : k ≤ s.acked q req.term := hend.trans (hack hs).2
  obtain ⟨_, r, hr, hlen⟩ := hrel.sound.acked q req.term (by omega)
  obtain ⟨r'', hr'', _, hinit, hlog, _⟩ := hg.reign _ r hr
  rw [hr'] at hr''
  cases hr''
  have hget := List.getElem?_eq_getElem (show k - 1 < r.log.length by omega)
  have hsame := (Consensus.getElem?_of_le hlog hget).symm.trans hen
  exact hd.acks q x req resp hm hs r k en hr (hinit ▸ hk) hend (hg.choosable hch) (hget.trans hsame)

/-- The log of a request that is answered without `persist`. -/
theorem appendAnswer_last {n : Node Id} {req : AppendEntriesRequest Id}
    (h : (n.handleAppendEntries req).2.2 = false) :
    (n.handleAppendEntries req).1.lastLogIndex = n.lastLogIndex ∧
      (n.handleAppendEntries req).1.lastLogTerm = n.lastLogTerm := by
  obtain ⟨hlog, hbase, hterm⟩ := Node.handleAppendEntries_unchanged h
  unfold Node.lastLogIndex Node.lastLogTerm
  rw [hlog, hbase, hterm]
  exact ⟨rfl, rfl⟩

/-- An acknowledgement without `persist`: the store stands for the log of the node. -/
theorem DurableRel.stands_answer (hd : DurableRel cfg c s) (hg : Grows i s s')
    (hi : i ∈ cfg.members) (hrel' : Rel cfg (c.update i e) s' P')
    {req : AppendEntriesRequest Id} (hsaved : (c.proc i).acksSaved (.appendEntries req) = true)
    (hs : ((c.proc i).node.handleAppendEntries req).2.1.success = true)
    (hsame : ((c.proc i).node.handleAppendEntries req).2.2 = false)
    (hstep : (c.proc i).step (.appendEntries req) = some e) :
    Stands cfg.setting s' e.proc.disk (s'.log i) := by
  have hnode := (hrel'.proc i hi).node
  rw [Cluster.update_proc_self] at hnode
  obtain ⟨hlast, hterm⟩ := appendAnswer_last hsame
  have hdisk : e.proc.disk = (c.proc i).disk := by
    simp only [Process.step, hsame] at hstep
    cases hstep
    rfl
  simp only [Process.acksSaved, decide_eq_true_eq] at hsaved
  obtain ⟨hidx, hidt⟩ := hsaved hs hsame
  obtain ⟨l, hl⟩ := hd.disks i hi
  have hl' : Stands cfg.setting s' e.proc.disk l := hdisk ▸ hl.grows hg
  have heq : l = s'.log i := by
    refine hl'.eq_log hnode hrel'.sound ?_ ?_
    · rw [Process.appendEntries_node hstep, hlast, ← hidx, Process.stored, hdisk]
      rfl
    · rw [Process.appendEntries_node hstep, hterm, ← hidt, Process.stored, hdisk]
      rfl
  exact heq ▸ hl'

theorem DurableRel.acks_step (hd : DurableRel cfg c s) (hrel : Rel cfg c s P)
    (hv : c.VoteInv cfg) (hg : Grows i s s') (hi : i ∈ cfg.members)
    (hrel' : Rel cfg (c.update i e) s' P') (hsaved : (c.proc i).acksSaved inp = true)
    (hstep : (c.proc i).step inp = some e) :
    ∀ q x req resp, .appendResp q x req resp ∈ (c.update i e).net → resp.success = true →
      ∀ r k en, s'.reign req.term = some r → r.init.length < k → k ≤ req.stop →
        s'.Choosable cfg.setting req.term k → r.log[k - 1]? = some en →
          ((c.update i e).proc q).disk.keeps k en := by
  intro q x req resp hm hs r k en hr hk hend hch hen
  have hack : AckRel s' q req resp := hrel'.net _ hm
  -- the peer still holds the entry in memory
  have hret := hrel'.sound.retained req.term r q k hr hk (hend.trans (hack hs).2) hch
  have hlog : (s'.log q)[k - 1]? = some en := by
    refine Consensus.getElem?_of_le hret ?_
    rw [List.getElem?_take_of_lt (by omega), hen]
  have hnode := (hrel'.proc i hi).node
  rw [Cluster.update_proc_self] at hnode
  have hclean : q = i → e.proc.Clean → e.proc.disk.keeps k en := by
    rintro rfl hc
    rw [hc]
    exact (hnode.stands hrel'.sound).keeps (by omega) hlog
  rcases (Cluster.mem_update_net ..).mp hm with hold | hnew
  · have hkeeps := hd.acks_old hrel hg hold hs hr hk hend hch hen
    by_cases hqi : q = i
    · rw [hqi, Cluster.update_proc_self]
      rcases Process.disk_of_step hstep with hdisk | hc
      · rw [hdisk, ← hqi]
        exact hkeeps
      · exact hclean hqi hc
    · rw [Cluster.update_proc_ne _ _ hqi]
      exact hkeeps
  · have hid := hv.id_eq i
    have hcl := (hv.campaigns i).clean
    generalize hp : c.proc i = p at hstep hsaved hid hcl
    cases Process.send_of_step hstep hnew with
    | appendAnswer _ hsame =>
      rw [hid, Cluster.update_proc_self]
      subst hp
      rw [hid] at hlog
      exact (hd.stands_answer hg hi hrel' hsaved hs hsame hstep).keeps (by omega) hlog
    | appendSaved _ _ saved htask hpersist =>
      rw [hid, Cluster.update_proc_self]
      refine hclean hid ?_
      simp only [Process.step, htask, ite_true] at hstep
      cases hstep
      exact Process.persist_clean hcl hpersist
    | appendUnsaved _ _ _ _ => cases hs

/-- Where a value comes from that a leader holds after it has handled an acknowledgement:
    it was elected with it or had committed it before, or the peer acknowledged it in this
    term. -/
theorem DurableRel.counted (hd : DurableRel cfg c s) (hrel : Rel cfg c s P) (hi : i ∈ cfg.members)
    (hl : (c.proc i).node.role = .leader) {r : Reign Id Entry}
    (hr : s.reign (c.proc i).node.term = some r) {a : Ack Id} (ha : inp.ack = some a)
    (hT : a.term = (c.proc i).node.term) (hm : ∀ m, inp.msg i = some m → m ∈ c.net)
    (hstep : (c.proc i).step inp = some e) {q : Id} (hq : q ∈ (c.proc i).node.peers) :
    Function.update (c.proc i).node.replState.matchIndex a.peer
        (max ((c.proc i).node.replState.matchIndex a.peer) a.index) q ≤
      max r.init.length (c.proc i).node.commitIndex ∨
    ∃ req resp, .appendResp q i req resp ∈ c.net ∧ resp.success = true ∧
      req.term = (c.proc i).node.term ∧
      Function.update (c.proc i).node.replState.matchIndex a.peer
        (max ((c.proc i).node.replState.matchIndex a.peer) a.index) q ≤ req.stop := by
  have hold := hd.counts i hi hl r hr
  -- the new value itself
  have hnew : a.index ≤ (c.proc i).node.commitIndex ∨ ∃ req resp,
      .appendResp a.peer i req resp ∈ c.net ∧ resp.success = true ∧
        req.term = (c.proc i).node.term ∧ a.index ≤ req.stop := by
    cases inp with
    | appendResponse peer req resp =>
      simp only [Input.ack] at ha
      split_ifs at ha with hs
      cases ha
      have hmem := hm _ rfl
      have hack : AckRel s peer req resp := hrel.net _ hmem
      exact .inr ⟨req, resp, hmem, hs, (hack hs).1.symm.trans hT, le_rfl⟩
    | snapshotResponse peer req resp =>
      simp only [Input.ack] at ha
      split_ifs at ha with hs
      cases ha
      refine .inl ?_
      simp only [Process.step] at hstep
      split at hstep <;> try contradiction
      next htask => exact (hrel.proc i hi).tasks _ htask
    | _ => cases ha
  by_cases hqa : q = a.peer
  · subst hqa
    rw [Function.update_self]
    rcases le_total ((c.proc i).node.replState.matchIndex a.peer) a.index with hle | hle
    · rw [max_eq_right hle]
      exact hnew.imp_left fun h => h.trans (le_max_right _ _)
    · rw [max_eq_left hle]
      exact hold a.peer hq
  · rw [Function.update_of_ne hqa]
    exact hold q hq

/-- A leader is elected with its whole log. -/
theorem Rel.elected_init (hrel : Rel cfg c s P) (hv : c.VoteInv cfg) (hi : i ∈ cfg.members)
    (hv' : (c.update i e).VoteInv cfg) (hrel' : Rel cfg (c.update i e) s' P')
    (hw : (c.proc i).stepsDownInPlace .endElection = false)
    (hstep : (c.proc i).step .endElection = some e) {r : Reign Id Entry}
    (hr : s'.reign e.proc.node.term = some r) :
    (c.proc i).node.lastLogIndex ≤ r.init.length := by
  obtain ⟨hn, _⟩ := Cluster.endElection_won_effect hstep hw
  have hnode := (hrel.proc i hi).node
  have hnode' := (hrel'.proc i hi).node
  rw [Cluster.update_proc_self] at hnode'
  obtain ⟨_, r', hr', _, hlog, _⟩ := hnode'.leads (by rw [hn]; rfl)
  rw [hr] at hr'
  cases hr'
  have hlen : (s'.log i).length = (c.proc i).node.lastLogIndex := by
    rw [← hnode'.lastLogIndex_eq, hn]
    rfl
  have hlast : lastTerm (s.log i) = lastTerm (s'.log i) := by
    rw [← hnode.lastLogTerm_eq, ← hnode'.lastLogTerm_eq, hn]
    rfl
  by_contra hlt
  -- the log would end with an entry of the term that is being won
  have hpos : r.log.length - 1 < r.log.length := by rw [← hlog]; omega
  have hget := List.getElem?_eq_getElem hpos
  have hown := hrel'.sound.own _ r hr (r.log.length - 1) _ (by rw [← hlog]; omega) hget
  have hterm : lastTerm (s.log i) = (c.proc i).node.term := by
    rw [hlast, hlog, lastTerm, List.getLast?_eq_getElem?, hget]
    exact hown.trans (by rw [hn]; rfl)
  have hne : s.log i ≠ [] := by
    intro hnil
    have := hnode.lastLogIndex_eq
    rw [hnil, List.length_nil] at this
    omega
  obtain ⟨r₀, hr₀, _⟩ := (hrel.sound.proper i).le_last_reign hne
  have hwon : ∃ el, (c.proc i).election = some el ∧ majority (c.proc i).node.peers ≤ el.votes ∧
      (c.proc i).node.role = .candidate ∧ (c.proc i).node.term = el.req.term := by
    simp only [Process.stepsDownInPlace, Option.all_eq_false, decide_eq_false_iff_not,
      not_not] at hw
    obtain ⟨el, hel, h1, h2, h3⟩ := hw
    exact ⟨el, hel, h1, h2, h3⟩
  obtain ⟨el, hel, h1, h2, h3⟩ := hwon
  have hnone := hrel.reign_none hv hi hv' hstep hel h1 h2 h3
  rw [← hterm] at hnone
  exact absurd (hr₀.symm.trans hnone) (by simp)

theorem DurableRel.counts_step (hd : DurableRel cfg c s) (hrel : Rel cfg c s P)
    (hv : c.VoteInv cfg) (hg : Grows i s s') (hi : i ∈ cfg.members)
    (hv' : (c.update i e).VoteInv cfg) (hrel' : Rel cfg (c.update i e) s' P')
    (hcommit : inp ≠ .restart → (c.proc i).node.commitIndex ≤ e.proc.node.commitIndex)
    (hsafe : (c.proc i).safe inp = true) (hm : ∀ m, inp.msg i = some m → m ∈ c.net)
    (hstep : (c.proc i).step inp = some e) (hl : e.proc.node.role = .leader) {r : Reign Id Entry}
    (hr : s'.reign e.proc.node.term = some r) {q : Id} (hq : q ∈ e.proc.node.peers) :
    e.proc.node.replState.matchIndex q ≤ max r.init.length e.proc.node.commitIndex ∨
      ∃ req resp, .appendResp q i req resp ∈ c.net ∧ resp.success = true ∧
        req.term = e.proc.node.term ∧ e.proc.node.replState.matchIndex q ≤ req.stop := by
  have hpeers : e.proc.node.peers = (c.proc i).node.peers :=
    congrArg Prod.snd (Process.step_ident hstep)
  have hq' := hq
  rw [hpeers] at hq'
  have hrestart : inp ≠ .restart := by
    rintro rfl
    cases hstep
    have hnil : (c.proc i).node.peers = [] := by
      by_contra hp
      simp [Process.restart, Node.setRaftStore, Node.new, hp] at hl
    rw [hnil] at hq'
    cases hq'
  have hle := hcommit hrestart
  -- the reign of a node that goes on leading
  have hreign : (c.proc i).node.role = .leader → e.proc.node.term = (c.proc i).node.term →
      ∃ r₀, s.reign (c.proc i).node.term = some r₀ ∧ r₀.init = r.init := by
    intro hl₀ ht
    obtain ⟨_, r₀, hr₀, _⟩ := (hrel.proc i hi).node.leads hl₀
    obtain ⟨r', hr', _, hinit, _⟩ := hg.reign _ r₀ hr₀
    rw [← ht, hr] at hr'
    cases hr'
    exact ⟨r₀, hr₀, hinit.symm⟩
  cases Process.leadMove hstep hl with
  | keep hl₀ ht hmatch =>
    obtain ⟨r₀, hr₀, hinit⟩ := hreign hl₀ ht
    rw [hmatch, ht, ← hinit]
    exact (hd.counts i hi hl₀ r₀ hr₀ q hq').imp_left fun h => h.trans (max_le_max le_rfl hle)
  | count a hl₀ ht ha hT hmatch =>
    obtain ⟨r₀, hr₀, hinit⟩ := hreign hl₀ ht
    rw [hmatch, ht, ← hinit]
    exact (hd.counted hrel hi hl₀ hr₀ ha hT hm hstep hq').imp_left
      fun h => h.trans (max_le_max le_rfl hle)
  | elected hinp hw ht hmatch =>
    subst hinp
    have hinit := hrel.elected_init hv hi hv' hrel' hw hstep hr
    have hfresh : (c.proc i).staleMatch = false := by simpa [Process.safe, hw] using hsafe
    simp only [Process.staleMatch, decide_eq_false_iff_not, not_exists, not_and, not_lt] at hfresh
    rw [hmatch]
    exact .inl (((hfresh q hq').trans hinit).trans (le_max_left _ _))
  | alone hinp _ => exact absurd hinp hrestart

/-- One section within the protocol that acknowledges only what is saved. -/
theorem DurableRel.step (hd : DurableRel cfg c s) (hrel : Rel cfg c s P) (hv : c.VoteInv cfg)
    (hi : i ∈ cfg.members) (hok : c.keepsVotes i inp) (hsafe : (c.proc i).safe inp = true)
    (hsaved : (c.proc i).acksSaved inp = true) (hm : ∀ m, inp.msg i = some m → m ∈ c.net)
    (hstep : (c.proc i).step inp = some e) :
    ∃ s' P', Grows i s s' ∧ Rel cfg (c.update i e) s' P' ∧ DurableRel cfg (c.update i e) s' := by
  obtain ⟨s', P', hsteps, hrel', hcommit⟩ := hrel.step hv hi hok hsafe hm hstep
  have hg := hsteps.grows
  have hv' := hv.update hok hi hm hstep
  refine ⟨s', P', hg, hrel', hd.disks_step hg hrel' hstep,
    hd.acks_step hrel hv hg hi hrel' hsaved hstep, ?_⟩
  intro j hj hl r hr q hq
  by_cases hji : j = i
  · subst hji
    rw [Cluster.update_proc_self] at hl hr hq ⊢
    refine (hd.counts_step hrel hv hg hj hv' hrel' hcommit hsafe hm hstep hl hr hq).imp_right ?_
    rintro ⟨req, resp, hmem, hrest⟩
    exact ⟨req, resp, (Cluster.mem_update_net ..).mpr (.inl hmem), hrest⟩
  · rw [Cluster.update_proc_ne _ _ hji] at hl hr hq ⊢
    obtain ⟨_, r₀, hr₀, hwho, _⟩ := (hrel.proc j hj).node.leads hl
    obtain ⟨r', hr', _, hinit, _⟩ := hg.reign _ r₀ hr₀
    rw [hr] at hr'
    cases hr'
    rw [hinit]
    refine (hd.counts j hj hl r₀ hr₀ q hq).imp_right ?_
    rintro ⟨req, resp, hmem, hrest⟩
    exact ⟨req, resp, (Cluster.mem_update_net ..).mpr (.inl hmem), hrest⟩

end Step

theorem DurableRel.init (cfg : Config Id) : DurableRel cfg (Cluster.init cfg) cfg.view where
  disks := fun i _ => ⟨[], Node.new i [], [], rfl, ⟨le_rfl, rfl, rfl⟩, .inl rfl, le_rfl,
    fun _ _ h => by simp at h⟩
  acks := by simp [Cluster.init, Process.init]
  counts := fun _ _ _ _ _ _ _ => .inl (Nat.zero_le _)

/-! ## When the commit index rises -/

/-- A commit index that rises with an acknowledgement is set by `maybeCommit`, after an
    acknowledgement of the current term has been recorded. -/
theorem Process.raised_by_ack {p : Process Id} {inp : Input Id} {e : Process.Effect Id}
    {a : Ack Id} (ha : inp.ack = some a) (hstep : p.step inp = some e)
    (hraise : p.node.commitIndex < e.proc.node.commitIndex) :
    e.proc.node = ((p.node.setInFlight a.peer false).recordAck a.peer a.index).maybeCommit ∧
      a.term = p.node.term ∧ e.proc.disk = p.disk := by
  cases inp with
  | appendResponse q req resp =>
    simp only [Input.ack] at ha
    split_ifs at ha with hs
    cases ha
    simp only [step] at hstep
    split at hstep <;> cases hstep
    dsimp only [next, Node.handleAppendResponse] at hraise ⊢
    split_ifs at hraise ⊢ with h1 h2
    · exact absurd hraise (lt_irrefl _)
    · exact absurd hraise (lt_irrefl _)
    · exact ⟨rfl, le_antisymm (not_lt.mp h1) (not_lt.mp h2), rfl⟩
  | snapshotResponse q req resp =>
    simp only [Input.ack] at ha
    split_ifs at ha with hs
    cases ha
    simp only [step] at hstep
    split at hstep <;> cases hstep
    dsimp only [next, Node.handleSnapshotResponse] at hraise ⊢
    split_ifs at hraise ⊢ with h1 h2
    · exact absurd hraise (lt_irrefl _)
    · exact absurd hraise (lt_irrefl _)
    · push Not at h2
      exact ⟨rfl, le_antisymm (not_lt.mp h1) h2.1, rfl⟩
  | _ => cases ha

/-- The stores of the counted peers hold the entry that is being committed. -/
theorem DurableRel.counted_keeps {c : Cluster Id} {s : View Id Entry ℤ} {P : Id → List Entry}
    {i : Id} {inp : Input Id} {e : Process.Effect Id} (hd : DurableRel cfg c s)
    (hrel : Rel cfg c s P) (hv : c.VoteInv cfg) (hi : i ∈ cfg.members)
    (hm : ∀ m, inp.msg i = some m → m ∈ c.net) (hstep : (c.proc i).step inp = some e) {a : Ack Id}
    (ha : inp.ack = some a) (hT : a.term = (c.proc i).node.term) {m : Node Id}
    (hmdef : m = ((c.proc i).node.setInFlight a.peer false).recordAck a.peer a.index)
    (hl : m.role = .leader) (hlt : m.commitIndex < m.threshold) {en : Entry}
    (hen : m.entryAt m.threshold = some en) (hterm : en.term = m.term) {q : Id}
    (hq : q ∈ m.peers) (hcount : m.threshold ≤ m.replState.matchIndex q) :
    (c.proc q).disk.keeps m.threshold en := by
  have hnode := (hrel.proc i hi).node
  obtain ⟨hP, r, hr, hwho, hlog, hself, _⟩ := hnode.leads (by rw [hmdef] at hl; exact hl)
  have hholds : m.Holds r.log := by
    have := hnode.holds
    rw [hP, overlay_nil, hlog] at this
    rw [hmdef]
    exact this.congr rfl rfl rfl
  have hbase : m.lastIncludedIndex < m.threshold := by
    refine lt_of_le_of_lt ?_ hlt
    rw [hmdef]
    exact hnode.base_le.trans hnode.applied_le
  rw [hholds.entryAt_eq hbase] at hen
  have hlen := (List.getElem?_eq_some_iff.mp hen).1
  have hmterm : m.term = (c.proc i).node.term := by rw [hmdef]; rfl
  have hown := own_index hrel.sound hr hen (hterm.trans hmterm)
  -- where the counted values come from
  have hmatch : ∀ q ∈ m.peers, m.replState.matchIndex q ≤ max r.init.length m.commitIndex ∨
      ∃ req resp, .appendResp q i req resp ∈ c.net ∧ resp.success = true ∧
        req.term = m.term ∧ m.replState.matchIndex q ≤ req.stop := by
    intro q hq
    have := hd.counted hrel hi (by rw [hmdef] at hl; exact hl) hr ha hT hm hstep
      (by rw [hmdef] at hq; exact hq)
    rw [hmdef]
    exact this
  have hmax : max r.init.length m.commitIndex < m.threshold := max_lt (by omega) hlt
  have hchosen : s.Chosen cfg.setting m.term m.threshold := by
    refine chosen_threshold hi ?_ hmax ?_ fun q hq => ?_
    · rw [hmdef]
      exact hv.peers_eq i
    · rw [hmterm]
      omega
    · refine (hmatch q hq).imp_right ?_
      rintro ⟨req, resp, hmem, hs, ht, hle⟩
      have hack : AckRel s q req resp := hrel.net _ hmem
      exact ht ▸ hle.trans (hack hs).2
  rcases hmatch q hq with hle | ⟨req, resp, hmem, hs, ht, hle⟩
  · omega
  · exact hd.acks q i req resp hmem hs r m.threshold en (by rw [ht, hmterm]; exact hr) (by omega)
      (hcount.trans hle) (ht ▸ hchosen.choosable) hen

namespace Cluster

/-- The cluster is in a state of the abstract protocol, with stores that match it. -/
def RefinesDurably (cfg : Config Id) (c : Cluster Id) : Prop :=
  c.VoteInv cfg ∧ ∃ s P, Rel cfg c s P ∧ DurableRel cfg c s

/-- The invariant of the runs within the protocol that acknowledge only what is saved. -/
theorem Reachable.refinesDurably {c : Cluster Id} (h : Reachable cfg durableStep c) :
    RefinesDurably cfg c := by
  have hinit : RefinesDurably cfg (Cluster.init cfg) :=
    ⟨VoteInv.init cfg, cfg.view, _, Rel.init cfg, DurableRel.init cfg⟩
  refine h.invariant hinit ?_
  rintro c i inp e ⟨hv, s, P, hrel, hd⟩ ⟨⟨hok, hsafe⟩, hsaved, _⟩ hi hm hstep
  obtain ⟨s', P', _, hrel', hd'⟩ := hd.step hrel hv hi hok hsafe hsaved hm hstep
  exact ⟨hv.update hok hi hm hstep, s', P', hrel', hd'⟩

/-- The members whose store holds the entry at this index. -/
def holders (cfg : Config Id) (c : Cluster Id) (idx : ℕ) (en : Entry) : List Id :=
  cfg.members.filter fun q => (c.proc q).disk.keeps idx en

/-- Whenever an acknowledgement makes `maybeCommit` raise the commit index of a leader, a
    majority of the members has the entry at the new commit index in its store. -/
theorem commit_durable {c c' : Cluster Id} (h : Reachable cfg durableStep c) {i : Id}
    {inp : Input Id} (hok : c.durableStep i inp) (hack : inp.ack.isSome)
    (hstep : c.step cfg i inp = some c')
    (hraise : (c.proc i).node.commitIndex < (c'.proc i).node.commitIndex) :
    ∃ en, (c'.proc i).node.entryAt (c'.proc i).node.commitIndex = some en ∧
      majority (cfg.peers i) ≤ (holders cfg c' (c'.proc i).node.commitIndex en).length := by
  obtain ⟨hv, s, P, hrel, hd⟩ := h.refinesDurably
  obtain ⟨hi, hm, e, he, rfl⟩ := step_eq_some hstep
  obtain ⟨a, ha⟩ := Option.isSome_iff_exists.mp hack
  rw [update_proc_self] at hraise ⊢
  obtain ⟨hn, hT, hdisk⟩ := Process.raised_by_ack ha he hraise
  have hown := hok.2.2 a ha hT
  generalize hmdef : ((c.proc i).node.setInFlight a.peer false).recordAck a.peer a.index = m
    at hn hown
  have hcommit : e.proc.node.commitIndex = m.commitTarget := by rw [hn]; rfl
  have hpeers : m.peers = (c.proc i).node.peers := by rw [← hmdef]; rfl
  obtain ⟨htarget, hl, hlt, en, hen, hterm⟩ := m.commitTarget_cases.resolve_left (by
    intro hsame
    rw [hcommit, hsame, ← hmdef] at hraise
    exact lt_irrefl _ hraise)
  rw [htarget] at hcommit
  rw [hcommit]
  refine ⟨en, by rw [hn]; exact hen, ?_⟩
  -- the counted peers hold the entry; the step touches no store
  have hcounted : ∀ q ∈ m.peers.filter fun q => m.threshold ≤ m.replState.matchIndex q,
      (c.proc q).disk.keeps m.threshold en := by
    intro q hq
    obtain ⟨hqp, hle⟩ := List.mem_filter.mp hq
    exact hd.counted_keeps hrel hv hi hm he ha hT hmdef.symm hl hlt hen hterm hqp
      (of_decide_eq_true hle)
  have hdisks : ∀ q, ((c.update i e).proc q).disk = (c.proc q).disk := by
    intro q
    by_cases hqi : q = i
    · rw [hqi, update_proc_self, hdisk]
    · rw [update_proc_ne _ _ hqi]
  obtain ⟨hni, hnd⟩ := Cluster.peers_nodup hi
  rw [← hv.peers_eq i, ← hpeers] at hni hnd
  rw [← hv.peers_eq i, ← hpeers]
  have hbound : ∀ V : List Id, V.Nodup → (∀ q ∈ V, q ∈ cfg.members ∧
      (c.proc q).disk.keeps m.threshold en) →
      V.length ≤ (holders cfg (c.update i e) m.threshold en).length := by
    intro V hV hmem
    refine (List.Nodup.subperm hV fun q hq => List.mem_filter.mpr ⟨(hmem q hq).1, ?_⟩).length_le
    rw [hdisks q]
    exact decide_eq_true (hmem q hq).2
  have hmember : ∀ q ∈ m.peers, q ∈ cfg.members := fun q hq =>
    Cluster.mem_of_mem_peers hi (by rw [← hv.peers_eq i, ← hpeers]; exact hq)
  rcases hown hl hlt en hen hterm with hself | hothers
  · refine m.threshold_quorum.trans (hbound (i :: _) ?_ ?_)
    · exact List.nodup_cons.mpr ⟨fun hmem => hni (List.mem_of_mem_filter hmem), hnd.filter _⟩
    · intro q hq
      rcases List.mem_cons.mp hq with rfl | hq
      · exact ⟨hi, hself⟩
      · exact ⟨hmember q (List.mem_of_mem_filter hq), hcounted q hq⟩
  · refine hothers.trans (hbound _ (hnd.filter _) fun q hq => ?_)
    exact ⟨hmember q (List.mem_of_mem_filter hq), hcounted q hq⟩

/-! ## A saved write, and one that is committed before it is saved -/

/-- Node 0 proposes a write and saves it; node 1 stores it and acknowledges. -/
def savedWrite : List (Fin 3 × Input (Fin 3)) :=
  let full := ⟨1, 0, 0, 0, [⟨1, putCommand 7⟩], 0⟩
  [(0, .replicate 1), (0, .appendError 1 ⟨1, 0, 0, 0, [], 0⟩), (0, .propose (putCommand 7)),
   (0, .persistPropose 1 1 (putCommand 7) true), (0, .replicate 1), (1, .appendEntries full),
   (1, .persistAppend full ⟨1, true⟩ true)]

/-- The acknowledgement of node 1 for the first entry. -/
def firstAnswer : Input (Fin 3) :=
  .appendResponse 1 ⟨1, 0, 0, 0, [⟨1, putCommand 7⟩], 0⟩ ⟨1, true⟩

theorem commit_durable_saved_write :
    ∃ c c', Reachable Config.three durableStep c ∧ c.durableStep 0 firstAnswer ∧
      c.step Config.three 0 firstAnswer = some c' ∧ (c'.proc 0).node.commitIndex = 1 ∧
      ∃ en, (c'.proc 0).node.entryAt 1 = some en ∧
        majority (Config.three.peers 0) ≤ (holders Config.three c' 1 en).length := by
  have hrun : ((init Config.three).run Config.three durableStep
      (firstElection ++ savedWrite)).map (fun c => (decide (c.durableStep 0 firstAnswer),
        (c.proc 0).node.commitIndex,
        (c.step Config.three 0 firstAnswer).map fun c' => (c'.proc 0).node.commitIndex)) =
        some (true, 0, some 1) := by
    decide +kernel
  obtain ⟨c, hc, he⟩ := Option.map_eq_some_iff.mp hrun
  simp only [Prod.mk.injEq, decide_eq_true_eq] at he
  obtain ⟨hok, h0, hnext⟩ := he
  obtain ⟨c', hstep, h1⟩ := Option.map_eq_some_iff.mp hnext
  have hreach := Reachable.init.run hc
  have hdur := commit_durable hreach hok rfl hstep (by rw [h0, h1]; exact Nat.one_pos)
  rw [h1] at hdur
  exact ⟨c, c', hreach, hok, hstep, h1, hdur⟩

/-- Node 0 has not yet saved its own entry when the acknowledgement of node 1 makes it commit:
    one store of three holds the entry. The run stays within the protocol, every `Save`
    succeeds and no node restarts. -/
theorem commit_before_save :
    ∃ c c', Reachable Config.three
        (fun c i inp => c.protocolStep i inp ∧ inp.saved = true ∧ inp ≠ .restart) c ∧
      c.protocolStep 0 firstAnswer ∧ c.step Config.three 0 firstAnswer = some c' ∧
      (c.proc 0).node.commitIndex < (c'.proc 0).node.commitIndex ∧
      ¬ ∃ en, (c'.proc 0).node.entryAt (c'.proc 0).node.commitIndex = some en ∧
        majority (Config.three.peers 0) ≤
          (holders Config.three c' (c'.proc 0).node.commitIndex en).length := by
  have hrun : ((init Config.three).run Config.three
      (fun c i inp => c.protocolStep i inp ∧ inp.saved = true ∧ inp ≠ .restart)
      (firstElection ++ savedWrite.eraseIdx 3)).map (fun c =>
        (decide (c.protocolStep 0 firstAnswer), (c.proc 0).node.commitIndex,
        (c.step Config.three 0 firstAnswer).map fun c' => ((c'.proc 0).node.commitIndex,
          decide ((c'.proc 0).node.entryAt 1 = some ⟨1, putCommand 7⟩),
          (holders Config.three c' 1 ⟨1, putCommand 7⟩).length))) =
        some (true, 0, some (1, true, 1)) := by
    decide +kernel
  obtain ⟨c, hc, he⟩ := Option.map_eq_some_iff.mp hrun
  simp only [Prod.mk.injEq, decide_eq_true_eq] at he
  obtain ⟨hok, h0, hnext⟩ := he
  obtain ⟨c', hstep, h1⟩ := Option.map_eq_some_iff.mp hnext
  simp only [Prod.mk.injEq, decide_eq_true_eq] at h1
  obtain ⟨hcommit, hentry, hholders⟩ := h1
  refine ⟨c, c', Reachable.init.run hc, hok, hstep, by rw [h0, hcommit]; exact Nat.one_pos, ?_⟩
  rw [hcommit]
  rintro ⟨en, hen, hle⟩
  obtain rfl : ⟨1, putCommand 7⟩ = en := Option.some.inj (hentry.symm.trans hen)
  rw [hholders] at hle
  revert hle
  decide

end Cluster

end KvStore.Raft
