import KvStore.Consensus.Safety
import KvStore.Raft.FullLog
import KvStore.Raft.ElectionSafety

/-!
# The cluster as abstract log replication

`Rel cfg c s P` relates a cluster `c` to a view `s` of the abstract protocol. A
node stands for the whole log `overlay (P i) (s.log i)`: what it holds abstractly,
except that a snapshot may have overwritten the beginning with committed entries
`P i` while the code kept the rest without comparing terms. The other parts say
what a pending goroutine, a message and an event guarantee.

This file states the relation and shows that it survives the steps of other
nodes; `KvStore.Raft.Simulation` shows that every critical section is matched by
steps of the abstract protocol.
-/

namespace KvStore.Raft

open KvStore.Storage (Command Bytes)
open KvStore.Consensus (Setting View Reign)
open KvStore.Consensus.View (Grows Sound Proper Committed Steps Step)

variable {Id : Type}

/-- The abstract setting of a cluster: majorities of its members are the quorums. -/
def Config.setting (cfg : Config Id) : Setting Id Entry ℤ where
  stamp := Entry.term
  bot := 0
  IsQuorum := fun Q => ∃ V : List Id, V.Nodup ∧ (∀ x ∈ V, x ∈ cfg.members ∧ x ∈ Q) ∧
    cfg.members.length / 2 + 1 ≤ V.length
  inter := by
    rintro A B ⟨U, hU, hUs, hUc⟩ ⟨V, hV, hVs, hVc⟩
    by_contra hcon
    have hdisj : List.Disjoint U V := fun x hx hx' => hcon ⟨x, (hUs x hx).2, (hVs x hx').2⟩
    have hsub : (U ++ V).length ≤ cfg.members.length := by
      refine (List.Nodup.subperm (hU.append hV hdisj) ?_).length_le
      intro x hx
      rcases List.mem_append.mp hx with h | h
      · exact (hUs x h).1
      · exact (hVs x h).1
    rw [List.length_append] at hsub
    omega

theorem Config.majority_peers (cfg : Config Id) {i : Id} (hi : i ∈ cfg.members) :
    majority (cfg.peers i) = cfg.members.length / 2 + 1 := by
  have := (cfg.peers_perm i hi).length_eq
  rw [List.length_cons] at this
  rw [majority, this]

/-! ## A log with an overwritten beginning -/

/-- `l` with its beginning overwritten by `P`. -/
def overlay (P l : List Entry) : List Entry := P ++ l.drop P.length

@[simp] theorem overlay_nil (l : List Entry) : overlay [] l = l := by simp [overlay]

theorem overlay_length {P l : List Entry} (h : P = [] ∨ P.length < l.length) :
    (overlay P l).length = l.length := by
  rcases h with rfl | h
  · simp
  · rw [overlay, List.length_append, List.length_drop]
    omega

theorem overlay_drop {P l : List Entry} {k : ℕ} (h : P.length ≤ k) :
    (overlay P l).drop k = l.drop k := by
  rw [overlay, List.drop_append, List.drop_eq_nil_of_le h, List.nil_append, List.drop_drop]
  congr 1
  omega

theorem overlay_getElem? {P l : List Entry} {j : ℕ} (h : P.length ≤ j) :
    (overlay P l)[j]? = l[j]? := by
  rw [overlay, List.getElem?_append_right h, List.getElem?_drop]
  congr 1
  omega

theorem overlay_getElem?_left {P l : List Entry} {j : ℕ} (h : j < P.length) :
    (overlay P l)[j]? = P[j]? := by rw [overlay, List.getElem?_append_left h]

theorem overlay_of_le {P l : List Entry} (h : P <+: l) : overlay P l = l := by
  obtain ⟨t, rfl⟩ := h
  rw [overlay, List.drop_left]

theorem overlay_lastTerm {P l : List Entry} (h : P = [] ∨ P.length < l.length) :
    lastTerm (overlay P l) = lastTerm l := by
  rcases h with rfl | h
  · simp
  · have hne : l.drop P.length ≠ [] := by
      intro hnil
      rw [List.drop_eq_nil_iff] at hnil
      omega
    have hl : l ≠ [] := by rintro rfl; simp at h
    rw [lastTerm, lastTerm, overlay, List.getLast?_append_of_ne_nil _ hne,
      List.getLast?_eq_getLast_of_ne_nil hne, List.getLast_drop,
      List.getLast?_eq_getLast_of_ne_nil hl]

/-- Where the log agrees with `R` up to `k` and `P` is a beginning of `R`, so does the
    overwritten log. -/
theorem overlay_take {P l R : List Entry} {k : ℕ} (hP : P <+: R) (hk : P.length ≤ k)
    (h : l.take k = R.take k) : (overlay P l).take k = R.take k := by
  have hPR : P = R.take P.length := List.prefix_iff_eq_take.mp hP
  have hdrop : (l.drop P.length).take (k - P.length) = (R.drop P.length).take (k - P.length) := by
    have := congrArg (List.drop P.length) h
    rwa [List.drop_take, List.drop_take] at this
  rw [overlay, List.take_append, List.take_of_length_le hk, hdrop]
  conv_rhs => rw [← List.take_append_drop P.length R, List.take_append]
  rw [← hPR, List.take_of_length_le hk]

/-! ## The relation for one node -/

/-- The command was committed at this index. -/
def Shows (S : Setting Id Entry ℤ) (s : View Id Entry ℤ) (idx : ℕ) (cmd : Command) : Prop :=
  ∃ T l e, s.Committed S T l ∧ 1 ≤ idx ∧ l[idx - 1]? = some e ∧ e.cmd = cmd

theorem Shows.grows {S : Setting Id Entry ℤ} {s s' : View Id Entry ℤ} {x : Id} {idx : ℕ}
    {cmd : Command} (h : Shows S s idx cmd) (hg : Grows x s s') : Shows S s' idx cmd := by
  obtain ⟨T, l, e, hc, hr⟩ := h
  exact ⟨T, l, e, hg.committed hc, hr⟩

/-- One command per index. -/
theorem Shows.unique {S : Setting Id Entry ℤ} {s : View Id Entry ℤ} (hs : s.Sound S) {idx : ℕ}
    {cmd cmd' : Command} (h : Shows S s idx cmd) (h' : Shows S s idx cmd') : cmd = cmd' := by
  obtain ⟨T, l, e, hc, _, he, rfl⟩ := h
  obtain ⟨T', l', e', hc', _, he', rfl⟩ := h'
  obtain ⟨m, h1, h2⟩ := hc.common hs hc'
  have := (Consensus.getElem?_of_le h1 he).symm.trans (Consensus.getElem?_of_le h2 he')
  cases this
  rfl

variable [DecidableEq Id]

/-- The node `i` of the cluster against its part of the view. -/
structure NodeRel (S : Setting Id Entry ℤ) (s : View Id Entry ℤ) (P : List Entry) (i : Id)
    (n : Node Id) : Prop where
  term : s.term i = n.term
  nonneg : 0 ≤ n.term
  holds : n.Holds (overlay P (s.log i))
  short : P = [] ∨ P.length < (s.log i).length
  patch_base : P.length ≤ n.lastIncludedIndex
  patch : s.Committed S n.term P
  commit_le : n.commitIndex ≤ (s.log i).length
  committed : s.Committed S n.term ((overlay P (s.log i)).take n.commitIndex)
  base_le : n.lastIncludedIndex ≤ n.lastApplied
  applied_le : n.lastApplied ≤ n.commitIndex
  leads : n.role = .leader → P = [] ∧ ∃ r, s.reign n.term = some r ∧ r.who = i ∧
    s.log i = r.log ∧ r.log.length ≤ s.acked i n.term ∧
    ∀ p ∈ n.peers, n.replState.matchIndex p ≤ max r.init.length n.commitIndex ∨
      n.replState.matchIndex p ≤ s.acked p n.term

namespace NodeRel

variable {S : Setting Id Entry ℤ} {s s' : View Id Entry ℤ} {P : List Entry} {i x : Id}
  {n n' : Node Id}

theorem length_eq (h : NodeRel S s P i n) : (overlay P (s.log i)).length = (s.log i).length :=
  overlay_length h.short

theorem lastLogIndex_eq (h : NodeRel S s P i n) : n.lastLogIndex = (s.log i).length :=
  h.holds.lastLogIndex_eq.trans h.length_eq

theorem lastLogTerm_eq (h : NodeRel S s P i n) : n.lastLogTerm = lastTerm (s.log i) :=
  h.holds.lastLogTerm_eq.trans (overlay_lastTerm h.short)

/-- A change of the view that leaves this node's part alone. -/
theorem grows (h : NodeRel S s P i n) (hg : Grows x s s') (ht : s'.term i = s.term i)
    (hl : s'.log i = s.log i)
    (hr : ∀ T r, s.reign T = some r → r.who = i → s'.reign T = some r) : NodeRel S s' P i n where
  term := ht.trans h.term
  nonneg := h.nonneg
  holds := hl ▸ h.holds
  short := hl ▸ h.short
  patch_base := h.patch_base
  patch := hg.committed h.patch
  commit_le := hl ▸ h.commit_le
  committed := hl ▸ hg.committed h.committed
  base_le := h.base_le
  applied_le := h.applied_le
  leads := by
    intro hrole
    obtain ⟨hP, r, hreign, hwho, hlog, hack, hmatch⟩ := h.leads hrole
    refine ⟨hP, r, hr _ r hreign hwho, hwho, hl.trans hlog, hack.trans (hg.acked_le _ _), ?_⟩
    intro p hp
    exact (hmatch p hp).imp_right fun hle => hle.trans (hg.acked_le _ _)

/-- The steps of another node. -/
theorem other (h : NodeRel S s P i n) (hg : Grows x s s') (hx : i ≠ x) : NodeRel S s' P i n := by
  refine h.grows hg (hg.term_ne i hx) (hg.log_ne i hx) fun T r hr hw => ?_
  obtain ⟨r', hr', _, _, _, he⟩ := hg.reign T r hr
  rw [hr', he (hw ▸ hx)]

end NodeRel

/-! ## Goroutines, messages and events -/

/-- A granted vote was cast. -/
def VoteRel (s : View Id Entry ℤ) (q : Id) (req : VoteRequest Id) (resp : VoteResponse) : Prop :=
  resp.voteGranted = true → s.vote q req.term req.lastLogTerm req.lastLogIndex.toNat

/-- A successful answer acknowledges the request up to its end. -/
def AckRel (s : View Id Entry ℤ) (p : Id) (req : AppendEntriesRequest Id)
    (resp : AppendEntriesResponse) : Prop :=
  resp.success = true → resp.term = req.term ∧
    (req.prevLogIndex + req.entries.length).toNat ≤ s.acked p req.term

/-- An `AppendEntries` request was built from the log of the leader of its term. -/
def RequestRel (S : Setting Id Entry ℤ) (s : View Id Entry ℤ) (req : AppendEntriesRequest Id) :
    Prop :=
  ∃ r m prev k, s.reign req.term = some r ∧ Node.Carries req r.log m prev ∧
    r.init.length ≤ m ∧ req.leaderCommit = (k : ℕ) ∧ k ≤ m ∧
    s.Committed S req.term (r.log.take k)

/-- An `InstallSnapshot` request names a committed list, under its right length and term. -/
def SnapshotRel (S : Setting Id Entry ℤ) (s : View Id Entry ℤ) (req : InstallSnapshotRequest Id) :
    Prop :=
  ∃ C, req.lastIncludedIndex = (C.length : ℕ) ∧ req.lastIncludedTerm = lastTerm C ∧
    s.Committed S req.term C

/-- The entry was appended by the leader of its term. -/
def Proposed (s : View Id Entry ℤ) (idx : ℕ) (term : ℤ) (cmd : Command) : Prop :=
  ∃ r, s.reign term = some r ∧ 1 ≤ idx ∧ r.log[idx - 1]? = some ⟨term, cmd⟩

/-- What a goroutine between two sections knows; `full` is the whole log of the node. -/
def TaskRel (S : Setting Id Entry ℤ) (s : View Id Entry ℤ) (full : List Entry) (i : Id)
    (n : Node Id) : Task Id → Prop
  | .vote req resp => VoteRel s i req resp
  | .append req resp => AckRel s i req resp
  | .propose idx term cmd => Proposed s idx term cmd
  | .proposed idx term cmd => Proposed s idx term cmd
  | .inline idx cmd => Shows S s idx cmd
  | .snapTerm _ idx => idx ≤ n.lastApplied
  | .snapSend _ idx label _ => idx ≤ n.lastApplied ∧ label = lastTerm (full.take idx)
  | .awaitSnap _ req => req.lastIncludedIndex.toNat ≤ n.commitIndex
  | _ => True

/-- What the apply loop knows. -/
def ApplyRel (S : Setting Id Entry ℤ) (s : View Id Entry ℤ) (n : Node Id) : ApplyPhase → Prop
  | .idle => True
  | .picked idx entry => idx ≤ n.commitIndex ∧ ∀ e, entry = some e → Shows S s idx e.cmd
  | .running idx cmd => idx ≤ n.commitIndex ∧ Shows S s idx cmd
  | .finished idx => idx ≤ n.commitIndex

/-- What the snapshot compactor knows. -/
def CompactorRel (full : List Entry) (n : Node Id) : CompactorPhase → Prop
  | .idle => True
  | .indexed idx => idx ≤ n.lastApplied
  | .labelled idx label => idx ≤ n.lastApplied ∧
      (idx ≤ n.lastIncludedIndex ∨ label = lastTerm (full.take idx))

/-- What an election knows while the node is its candidate. -/
def ElectionRel (s : View Id Entry ℤ) (i : Id) (n : Node Id) (el : Election Id) : Prop :=
  0 < el.req.term ∧ (n.role = .candidate → n.term = el.req.term →
    el.req.lastLogIndex = ((s.log i).length : ℕ) ∧ el.req.lastLogTerm = lastTerm (s.log i) ∧
      s.vote i n.term (lastTerm (s.log i)) (s.log i).length)

/-- One process against its part of the view. -/
structure ProcRel (S : Setting Id Entry ℤ) (s : View Id Entry ℤ) (P : List Entry) (i : Id)
    (p : Process Id) : Prop where
  node : NodeRel S s P i p.node
  tasks : ∀ t ∈ p.tasks, TaskRel S s (overlay P (s.log i)) i p.node t
  apply : ApplyRel S s p.node p.apply
  compactor : CompactorRel (overlay P (s.log i)) p.node p.compactor
  election : ∀ el, p.election = some el → ElectionRel s i p.node el

/-- What a message guarantees. -/
def MsgRel (S : Setting Id Entry ℤ) (s : View Id Entry ℤ) : Msg Id → Prop
  | .voteResp q _ req resp => VoteRel s q req resp
  | .appendReq _ req => RequestRel S s req
  | .appendResp p _ req resp => AckRel s p req resp
  | .snapReq _ req => SnapshotRel S s req
  | _ => True

/-- What an event guarantees. -/
def EventRel (S : Setting Id Entry ℤ) (s : View Id Entry ℤ) : Event Id → Prop
  | .applied _ idx cmd => Shows S s idx cmd
  | _ => True

/-- The cluster against a view of the abstract protocol. -/
structure Rel (cfg : Config Id) (c : Cluster Id) (s : View Id Entry ℤ) (P : Id → List Entry) :
    Prop where
  sound : s.Sound cfg.setting
  proc : ∀ i ∈ cfg.members, ProcRel cfg.setting s (P i) i (c.proc i)
  net : ∀ m ∈ c.net, MsgRel cfg.setting s m
  events : ∀ ev ∈ c.events, EventRel cfg.setting s ev
  reigns : ∀ T r, s.reign T = some r → .becameLeader r.who T ∈ c.events ∨ T = 0

/-! ### The relations survive growth of the view -/

section Growth

variable {S : Setting Id Entry ℤ} {s s' : View Id Entry ℤ} {x i : Id}

omit [DecidableEq Id] in
theorem VoteRel.grows {q : Id} {req : VoteRequest Id} {resp : VoteResponse}
    (h : VoteRel s q req resp) (hg : Grows x s s') : VoteRel s' q req resp :=
  fun hv => hg.vote _ _ _ _ (h hv)

omit [DecidableEq Id] in
theorem AckRel.grows {p : Id} {req : AppendEntriesRequest Id} {resp : AppendEntriesResponse}
    (h : AckRel s p req resp) (hg : Grows x s s') : AckRel s' p req resp :=
  fun hs => ⟨(h hs).1, (h hs).2.trans (hg.acked_le _ _)⟩

omit [DecidableEq Id] in
theorem Proposed.grows {idx : ℕ} {term : ℤ} {cmd : Command} (h : Proposed s idx term cmd)
    (hg : Grows x s s') : Proposed s' idx term cmd := by
  obtain ⟨r, hr, hidx, he⟩ := h
  obtain ⟨r', hr', _, _, hl', _⟩ := hg.reign _ r hr
  exact ⟨r', hr', hidx, Consensus.getElem?_of_le hl' he⟩

omit [DecidableEq Id] in
theorem RequestRel.grows {req : AppendEntriesRequest Id} (h : RequestRel S s req)
    (hg : Grows x s s') : RequestRel S s' req := by
  obtain ⟨r, m, prev, k, hr, hcar, hi, hk, hkm, hcom⟩ := h
  obtain ⟨r', hr', _, hi', hl', _⟩ := hg.reign _ r hr
  refine ⟨r', m, prev, k, hr', hcar.mono hl', hi' ▸ hi, hk, hkm, ?_⟩
  rw [take_eq_of_le hl' (hkm.trans hcar.2.1)]
  exact hg.committed hcom

omit [DecidableEq Id] in
theorem SnapshotRel.grows {req : InstallSnapshotRequest Id} (h : SnapshotRel S s req)
    (hg : Grows x s s') : SnapshotRel S s' req := by
  obtain ⟨C, h1, h2, h3⟩ := h
  exact ⟨C, h1, h2, hg.committed h3⟩

omit [DecidableEq Id] in
theorem MsgRel.grows {m : Msg Id} (h : MsgRel S s m) (hg : Grows x s s') : MsgRel S s' m := by
  cases m with
  | voteReq _ _ => trivial
  | voteResp _ _ _ _ => exact VoteRel.grows h hg
  | appendReq _ _ => exact RequestRel.grows h hg
  | appendResp _ _ _ _ => exact AckRel.grows h hg
  | snapReq _ _ => exact SnapshotRel.grows h hg
  | snapResp _ _ _ _ => trivial

omit [DecidableEq Id] in
theorem EventRel.grows {ev : Event Id} (h : EventRel S s ev) (hg : Grows x s s') :
    EventRel S s' ev := by
  cases ev with
  | becameLeader _ _ => trivial
  | applied _ _ _ => exact Shows.grows h hg
  | returned _ _ _ _ => trivial

/-- How the node and its whole log move in a section that is not a restart. -/
structure Later (full full' : List Entry) (n n' : Node Id) : Prop where
  base : n.lastIncludedIndex ≤ n'.lastIncludedIndex
  applied : n.lastApplied ≤ n'.lastApplied
  commit : n.commitIndex ≤ n'.commitIndex
  keeps : full'.take n.commitIndex = full.take n.commitIndex

omit [DecidableEq Id] in
theorem Later.take_eq {full full' : List Entry} {n n' : Node Id} (h : Later full full' n n') {k : ℕ}
    (hk : k ≤ n.commitIndex) : full'.take k = full.take k := by
  have := congrArg (List.take k) h.keeps
  rwa [List.take_take, List.take_take, min_eq_left hk] at this

omit [DecidableEq Id] in
theorem Later.refl (full : List Entry) (n : Node Id) : Later full full n n :=
  ⟨le_rfl, le_rfl, le_rfl, rfl⟩

variable {full full' : List Entry} {n n' : Node Id}

omit [DecidableEq Id] in
theorem TaskRel.later {t : Task Id} (h : TaskRel S s full i n t) (hg : Grows x s s')
    (hl : Later full full' n n') (ha : n.lastApplied ≤ n.commitIndex) :
    TaskRel S s' full' i n' t := by
  cases t with
  | vote _ _ => exact VoteRel.grows h hg
  | append _ _ => exact AckRel.grows h hg
  | inline _ _ => exact Shows.grows h hg
  | snapTerm _ idx => exact le_trans h hl.applied
  | snapSend _ idx label _ =>
    exact ⟨h.1.trans hl.applied, by rw [hl.take_eq (h.1.trans ha)]; exact h.2⟩
  | awaitSnap _ _ => exact le_trans h hl.commit
  | snapshot _ _ => trivial
  | propose _ _ _ => exact Proposed.grows h hg
  | proposed _ _ _ => exact Proposed.grows h hg
  | awaitAppend _ _ => trivial
  | installing _ => trivial
  | snapIndex _ => trivial

omit [DecidableEq Id] in
theorem ApplyRel.later {a : ApplyPhase} (h : ApplyRel S s n a) (hg : Grows x s s')
    (hl : n.commitIndex ≤ n'.commitIndex) : ApplyRel S s' n' a := by
  cases a with
  | idle => trivial
  | picked idx entry => exact ⟨h.1.trans hl, fun e he => (h.2 e he).grows hg⟩
  | running idx cmd => exact ⟨h.1.trans hl, h.2.grows hg⟩
  | finished idx => exact le_trans h hl

omit [DecidableEq Id] in
theorem CompactorRel.later {k : CompactorPhase} (h : CompactorRel full n k)
    (hl : Later full full' n n') (ha : n.lastApplied ≤ n.commitIndex) : CompactorRel full' n' k := by
  cases k with
  | idle => trivial
  | indexed idx => exact le_trans h hl.applied
  | labelled idx label =>
    refine ⟨h.1.trans hl.applied, h.2.imp (fun hb => hb.trans hl.base) fun ht => ?_⟩
    rw [hl.take_eq (h.1.trans ha)]
    exact ht

theorem ProcRel.other {P : List Entry} {p : Process Id} (h : ProcRel S s P i p)
    (hg : Grows x s s') (hx : i ≠ x) : ProcRel S s' P i p := by
  have hl := hg.log_ne i hx
  refine ⟨h.node.other hg hx, fun t ht => ?_, h.apply.later hg le_rfl, ?_, fun el hel => ?_⟩
  · rw [hl]
    exact (h.tasks t ht).later hg (.refl _ _) h.node.applied_le
  · rw [hl]
    exact h.compactor
  · obtain ⟨h1, h2⟩ := h.election el hel
    refine ⟨h1, fun hr ht => ?_⟩
    obtain ⟨h3, h4, h5⟩ := h2 hr ht
    rw [hl]
    exact ⟨h3, h4, hg.vote _ _ _ _ h5⟩

/-- One section of the process `i`, matched by steps of `i` in the view. -/
theorem Rel.update {cfg : Config Id} {c : Cluster Id} {P : Id → List Entry} {P' : List Entry}
    {e : Process.Effect Id} (h : Rel cfg c s P) (hs : Steps cfg.setting i s s')
    (hproc : ProcRel cfg.setting s' P' i e.proc) (hsent : ∀ m ∈ e.sent, MsgRel cfg.setting s' m)
    (hshown : ∀ ev ∈ e.events, EventRel cfg.setting s' ev)
    (hreign : ∀ T r, s'.reign T = some r → (∃ r₀, s.reign T = some r₀ ∧ r₀.who = r.who) ∨
      .becameLeader r.who T ∈ e.events) :
    Rel cfg (c.update i e) s' (Function.update P i P') where
  sound := hs.sound h.sound
  proc := by
    intro j hj
    by_cases hji : j = i
    · subst hji
      rw [Cluster.update_proc_self, Function.update_self]
      exact hproc
    · rw [Cluster.update_proc_ne _ _ hji, Function.update_of_ne hji]
      exact (h.proc j hj).other hs.grows hji
  net := by
    intro m hm
    rcases (Cluster.mem_update_net ..).mp hm with hm | hm
    · exact (h.net m hm).grows hs.grows
    · exact hsent m hm
  events := by
    intro ev hev
    rcases (Cluster.mem_update_events ..).mp hev with hev | hev
    · exact (h.events ev hev).grows hs.grows
    · exact hshown ev hev
  reigns := by
    intro T r hr
    rcases hreign T r hr with ⟨r₀, hr₀, hw⟩ | hl
    · rw [← hw]
      exact (h.reigns T r₀ hr₀).imp_left fun hm => (Cluster.mem_update_events ..).mpr (.inl hm)
    · exact .inl ((Cluster.mem_update_events ..).mpr (.inr hl))

end Growth

end KvStore.Raft
