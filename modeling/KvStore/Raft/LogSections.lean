import KvStore.Raft.Simulation

/-!
# The sections that move the log

The matches of the remaining sections: winning an election, proposing, accepting an
`AppendEntries` or an `InstallSnapshot`, counting an acknowledgement, compacting.
-/

namespace KvStore.Raft

open KvStore.Storage (Command Bytes)
open KvStore.Consensus (Setting View Reign)
open KvStore.Consensus.View (Grows Sound Proper Committed Steps Step)

variable {Id : Type}

/-! ## Winning an election -/

variable [DecidableEq Id]

section Elected

variable {cfg : Config Id} {c : Cluster Id} {s : View Id Entry ℤ} {P : Id → List Entry} {i : Id}
  {e : Process.Effect Id} {el : Election Id}

theorem endElection_effect {p : Process Id} (hstep : p.step .endElection = some e)
    (hel : p.election = some el) (hvotes : majority p.node.peers ≤ el.votes)
    (hrole : p.node.role = .candidate) (hterm : p.node.term = el.req.term) :
    e.proc.node = p.node.becomeLeader ∧ e.events = [.becameLeader p.node.id p.node.term] := by
  simp only [Process.step, hel] at hstep
  split at hstep <;> cases hstep
  unfold Process.endElection
  rw [if_pos ⟨hvotes, hrole, hterm⟩]
  exact ⟨rfl, rfl⟩

/-- A term that is being won has no leader yet. -/
theorem Rel.reign_none (h : Rel cfg c s P) (hv : c.VoteInv cfg) (hi : i ∈ cfg.members)
    (hv' : (c.update i e).VoteInv cfg) (hstep : (c.proc i).step .endElection = some e)
    (hel : (c.proc i).election = some el) (hvotes : majority (c.proc i).node.peers ≤ el.votes)
    (hrole : (c.proc i).node.role = .candidate) (hterm : (c.proc i).node.term = el.req.term) :
    s.reign (c.proc i).node.term = none := by
  by_contra hne
  obtain ⟨r, hr⟩ := Option.ne_none_iff_exists'.mp hne
  obtain ⟨_, hev⟩ := endElection_effect hstep hel hvotes hrole hterm
  rcases h.reigns _ r hr with hl | h0
  · have hl' : .becameLeader r.who (c.proc i).node.term ∈ (c.update i e).events := by simp [hl]
    have hnew : .becameLeader i (c.proc i).node.term ∈ (c.update i e).events := by
      simp [hev, hv.id_eq i]
    have hwho := hv'.leader_unique hl' hnew
    rw [hwho] at hl
    rcases hv.bound i _ i (.inr (.inr ⟨rfl, hl⟩)) with hlt | ⟨_, _, hc⟩
    · omega
    · exact hc hrole
  · have := ((h.proc i hi).election el hel).1
    omega

/-- The votes of a won election are those of a quorum for the candidate's log. -/
theorem Rel.won_quorum (h : Rel cfg c s P) (hv : c.VoteInv cfg) (hi : i ∈ cfg.members)
    (hel : (c.proc i).election = some el) (hvotes : majority (c.proc i).node.peers ≤ el.votes)
    (hrole : (c.proc i).node.role = .candidate) (hterm : (c.proc i).node.term = el.req.term) :
    ∃ Q, cfg.setting.IsQuorum Q ∧ ∀ q ∈ Q,
      s.vote q (s.term i) (cfg.setting.lastTerm (s.log i)) (s.log i).length := by
  have hp := h.proc i hi
  obtain ⟨hidx, hlast, hself⟩ := (hp.election el hel).2 hrole hterm
  obtain ⟨_, _, V, hnd, hV, hcount⟩ := hv.tally i el hel
  have hpeers := hv.peers_eq i
  refine ⟨{x | x ∈ i :: V}, ⟨i :: V, ?_, ?_, ?_⟩, ?_⟩
  · refine List.nodup_cons.mpr ⟨fun hiV => (Cluster.peers_nodup hi).1 ?_, hnd⟩
    exact hpeers ▸ (hV i hiV).1
  · intro x hx
    refine ⟨?_, hx⟩
    rcases List.mem_cons.mp hx with rfl | hx
    · exact hi
    · exact Cluster.mem_of_mem_peers hi (hpeers ▸ (hV x hx).1)
  · rw [← cfg.majority_peers hi, ← hpeers, List.length_cons, ← hcount]
    exact hvotes
  · intro q hq
    rw [hp.node.term]
    rcases List.mem_cons.mp hq with rfl | hq
    · exact hself
    · obtain ⟨_, _, resp, hm, hg⟩ := hV q hq
      have hvote : VoteRel s q el.req resp := h.net _ hm
      have := hvote hg
      rwa [hlast, hidx, ← hterm, Int.toNat_natCast] at this

theorem Match.elected (h : Rel cfg c s P) (hv : c.VoteInv cfg) (hi : i ∈ cfg.members)
    (hv' : (c.update i e).VoteInv cfg) (hstep : (c.proc i).step .endElection = some e)
    (hel : (c.proc i).election = some el) (hvotes : majority (c.proc i).node.peers ≤ el.votes)
    (hrole : (c.proc i).node.role = .candidate) (hterm : (c.proc i).node.term = el.req.term)
    (hmatch : (c.proc i).staleMatch = false) :
    ∃ s' P', Match cfg.setting s (P i) i (c.proc i) .endElection e s' P' := by
  have hp := h.proc i hi
  have hT := hp.node.term
  obtain ⟨hn, hev⟩ := endElection_effect hstep hel hvotes hrole hterm
  have hnone := h.reign_none hv hi hv' hstep hel hvotes hrole hterm
  obtain ⟨Q, hQ, hq⟩ := h.won_quorum hv hi hel hvotes hrole hterm
  have hnone' : s.reign (s.term i) = none := hT.symm ▸ hnone
  have hbot : cfg.setting.bot ≤ s.term i := hT.symm ▸ hp.node.nonneg
  have hreign : (s.elect i).reign (s.term i) = some ⟨i, s.log i, s.log i⟩ := by simp [View.elect]
  have hsteps : Steps cfg.setting i s ((s.elect i).ack i (s.log i).length) := by
    refine (Relation.ReflTransGen.single (.elect Q hQ hbot hq hnone')).tail ?_
    refine .ack ⟨i, s.log i, s.log i⟩ _ hreign le_rfl ?_
    exact List.take_prefix _ (s.log i)
  have hg := hsteps.grows
  have hs' := hsteps.sound h.sound
  -- committed entries that a snapshot brought are part of the winner's log
  have hpatch : P i <+: s.log i := by
    have hc := hg.committed hp.node.patch
    rw [← hT] at hc
    exact hc.le_reign hs' hreign
  have hover := overlay_of_le hpatch
  have hholds := hp.node.holds
  have hcommitted := hp.node.committed
  rw [hover] at hholds hcommitted
  refine ⟨(s.elect i).ack i (s.log i).length, [], ?_⟩
  refine
    { steps := hsteps, same := fun _ => rfl, node := ?_, later := ?_
      vote := by simp, append := by simp, inline := by simp, proposed := by simp, start := by simp
      reign := ?_ }
  · rw [hn]
    refine
      { term := hT, nonneg := hp.node.nonneg, short := .inl rfl, patch := .inl rfl
        holds := ?_, patch_base := Nat.zero_le _, commit_le := hp.node.commit_le, committed := ?_
        base_le := hp.node.base_le, applied_le := hp.node.applied_le, leads := fun _ => ⟨rfl, ?_⟩ }
    · rw [overlay_nil]
      exact hholds.congr rfl rfl rfl
    · rw [overlay_nil]
      exact hg.committed hcommitted
    · refine ⟨⟨i, s.log i, s.log i⟩, hT ▸ hreign, rfl, rfl, ?_, fun q hqp => .inl ?_⟩
      · change (s.log i).length ≤ if i = i ∧ (c.proc i).node.term = s.term i then _ else _
        rw [if_pos ⟨rfl, hT.symm⟩]
        exact le_max_right _ _
      · simp only [Process.staleMatch, decide_eq_false_iff_not, not_exists, not_and, not_lt,
          hp.node.lastLogIndex_eq] at hmatch
        exact (hmatch q hqp).trans (le_max_left _ _)
  · rw [hn]
    refine ⟨le_rfl, le_rfl, le_rfl, ?_⟩
    rw [overlay_nil, hover]
    rfl
  · intro T r hr
    by_cases hTT : T = s.term i
    · subst hTT
      have hr' : (s.elect i).reign (s.term i) = some r := hr
      rw [hreign] at hr'
      cases hr'
      rw [hev, hv.id_eq i, hT]
      exact .inr (List.mem_singleton.mpr rfl)
    · refine .inl ⟨r, ?_, rfl⟩
      have hr' : (s.elect i).reign T = some r := hr
      simpa [View.elect, hTT] using hr'

end Elected

/-! ## Proposing -/

namespace Node

theorem replState_matchIndex {n n' : Node Id} (h : n'.repl = n.repl) :
    n'.replState.matchIndex = n.replState.matchIndex := by
  unfold replState
  rw [h]
  cases n.repl <;> rfl

omit [DecidableEq Id] in
/-- What `appendEntry` leaves alone. -/
theorem appendEntry_frame (n : Node Id) (cmd : Command) :
    (n.appendEntry cmd).term = n.term ∧ (n.appendEntry cmd).role = n.role ∧
      (n.appendEntry cmd).peers = n.peers ∧ (n.appendEntry cmd).repl = n.repl ∧
      (n.appendEntry cmd).lastIncludedIndex = n.lastIncludedIndex ∧
      (n.appendEntry cmd).lastApplied = n.lastApplied ∧
      (n.appendEntry cmd).commitIndex =
        if n.peers = [] then (n.appendEntry cmd).lastLogIndex else n.commitIndex := by
  unfold appendEntry
  dsimp only
  split_ifs <;> exact ⟨rfl, rfl, rfl, rfl, rfl, rfl, rfl⟩

end Node

section Propose

variable {cfg : Config Id} {s : View Id Entry ℤ} {P : List Entry} {i : Id} {p : Process Id}
  {cmd : Command} {e : Process.Effect Id}

omit [DecidableEq Id] in
/-- In a cluster of one the leader is a quorum. -/
theorem Config.single_quorum (cfg : Config Id) (hi : i ∈ cfg.members) (h : cfg.peers i = []) :
    cfg.setting.IsQuorum {i} := by
  have hlen := (cfg.peers_perm i hi).length_eq
  rw [h, List.length_singleton] at hlen
  refine ⟨[i], List.nodup_singleton i, fun x hx => ?_, ?_⟩
  · rw [List.mem_singleton.mp hx]
    exact ⟨hi, rfl⟩
  · rw [← hlen]
    exact le_rfl

/-- The leader's part of a proposal in the abstract protocol: `i` appends `en` to the log of its
    reign `r` and acknowledges it to itself. -/
structure Proposes (s : View Id Entry ℤ) (i : Id) (T : ℤ) (r : Reign Id Entry) (en : Entry)
    (s' : View Id Entry ℤ) : Prop where
  reign : s'.reign T = some { r with log := r.log ++ [en] }
  log : s'.log i = r.log ++ [en]
  term : s'.term i = s.term i
  acked : r.log.length + 1 ≤ s'.acked i T
  reign_ne : ∀ T', T' ≠ T → s'.reign T' = s.reign T'

theorem exists_proposes {S : Setting Id Entry ℤ} {r : Reign Id Entry} {en : Entry} {T : ℤ}
    (hr : s.reign T = some r) (hwho : r.who = i) (hT : s.term i = T) (hlog : s.log i = r.log)
    (hstamp : S.stamp en = T) : ∃ s', Steps S i s s' ∧ Proposes s i T r en s' := by
  subst hstamp
  have hstep : Step S s i (s.append (S.stamp en) r en) := .append r en hr hwho hT hlog
  generalize hs₁ : s.append (S.stamp en) r en = s₁ at hstep
  generalize hr' : ({ r with log := r.log ++ [en] } : Reign Id Entry) = r'
  have hlog' : r'.log = r.log ++ [en] := by rw [← hr']
  have hreign₁ : s₁.reign (S.stamp en) = some r' := by rw [← hs₁, ← hr']; simp [View.append]
  have hlog₁ : s₁.log i = r.log ++ [en] := by rw [← hs₁]; simp [View.append, hwho]
  have hterm₁ : s₁.term i = s.term i := by rw [← hs₁]; rfl
  refine ⟨s₁.ack i (r.log.length + 1), ?_, ?_⟩
  · refine (Relation.ReflTransGen.single hstep).tail (.ack r' _ ?_ ?_ ?_)
    · rw [hterm₁, hT]
      exact hreign₁
    · rw [hlog', List.length_append, List.length_singleton]
    · rw [hlog', hlog₁]
      exact List.take_prefix _ (r.log ++ [en])
  · refine
      { reign := hr'.symm ▸ hreign₁, log := hlog₁, term := hterm₁, acked := ?_
        reign_ne := fun T' hne => ?_ }
    · unfold View.ack
      dsimp only
      rw [if_pos ⟨rfl, (hterm₁.trans hT).symm⟩]
      exact le_max_right _ _
    · rw [← hs₁]
      simp [View.ack, View.append, hne]

omit [DecidableEq Id] in
/-- In a cluster of one the leader's acknowledgement commits the entry. -/
theorem Proposes.committed_single {s' : View Id Entry ℤ} {T : ℤ} {r : Reign Id Entry} {en : Entry}
    (h : Proposes s i T r en s') (hi : i ∈ cfg.members) (hpeers : cfg.peers i = [])
    (hinit : r.init.length ≤ r.log.length) :
    s'.Committed cfg.setting T (r.log ++ [en]) := by
  have hlen : (r.log ++ [en]).length = r.log.length + 1 := by simp
  refine .inr ⟨T, _, r.log.length + 1, le_rfl, h.reign, Nat.lt_succ_of_le hinit, hlen.ge, ?_, ?_⟩
  · refine ⟨{i}, cfg.single_quorum hi hpeers, fun q hq => ?_⟩
    rw [Set.mem_singleton_iff.mp hq]
    exact h.acked
  · rw [List.take_of_length_le hlen.le]

/-- The node of a leader after it has appended a command to its log. -/
theorem NodeRel.propose {S : Setting Id Entry ℤ} {n : Node Id} {s' : View Id Entry ℤ}
    {r : Reign Id Entry} (h : NodeRel S s [] i n) (hlog : s.log i = r.log) (hwho : r.who = i)
    (hmatch : ∀ q ∈ n.peers, n.replState.matchIndex q ≤ max r.init.length n.commitIndex ∨
      n.replState.matchIndex q ≤ s.acked q n.term)
    (hg : Grows i s s') (hext : Proposes s i n.term r ⟨n.term, cmd⟩ s')
    (hcommit : n.commitIndex ≤ (n.appendEntry cmd).commitIndex)
    (hsingle : n.peers = [] → s'.Committed S n.term (r.log ++ [⟨n.term, cmd⟩])) :
    NodeRel S s' [] i (n.appendEntry cmd) := by
  obtain ⟨f1, f2, f3, f4, f5, f6, f7⟩ := n.appendEntry_frame cmd
  have hholds := h.holds
  have hcommitted := h.committed
  have hle := h.commit_le
  rw [overlay_nil, hlog] at hholds hcommitted
  rw [hlog] at hle
  have hholds' := Node.appendEntry_holds hholds cmd
  have hlast := hholds'.lastLogIndex_eq
  rw [List.length_append, List.length_singleton] at hlast
  have hfull : overlay [] (s'.log i) = r.log ++ [⟨n.term, cmd⟩] := by
    rw [overlay_nil]
    exact hext.log
  have hlen : (s'.log i).length = r.log.length + 1 := by
    rw [hext.log, List.length_append, List.length_singleton]
  refine
    { term := (hext.term.trans h.term).trans f1.symm, nonneg := f1.symm ▸ h.nonneg
      short := .inl rfl, patch := .inl rfl, holds := hfull.symm ▸ hholds'
      patch_base := Nat.zero_le _, commit_le := ?_, committed := ?_, base_le := ?_
      applied_le := ?_
      leads := fun _ =>
        ⟨rfl, { r with log := r.log ++ [⟨n.term, cmd⟩] }, ?_, hwho, hext.log, ?_, ?_⟩ }
  · rw [hlen, f7]
    split_ifs
    · rw [hlast]
    · omega
  · rw [hfull, f7, f1]
    split_ifs with hp
    · exact (hsingle hp).mono le_rfl ( List.take_prefix _ _)
    · rw [List.take_append_of_le_length hle]
      exact hg.committed hcommitted
  · rw [f5, f6]
    exact h.base_le
  · rw [f6]
    exact h.applied_le.trans hcommit
  · rw [f1]
    exact hext.reign
  · rw [List.length_append, List.length_singleton, f1]
    exact hext.acked
  · rw [f3, f1, Node.replState_matchIndex f4]
    intro q hq
    rcases hmatch q hq with hm | hm
    · exact .inl (hm.trans (max_le_max le_rfl hcommit))
    · exact .inr (hm.trans (hg.acked_le _ _))

theorem Match.propose (h : ProcRel cfg.setting s P i p) (hs : s.Sound cfg.setting)
    (hi : i ∈ cfg.members) (hpeers : p.node.peers = cfg.peers i)
    (hstep : p.step (.propose cmd) = some e) :
    ∃ s' P', Match cfg.setting s P i p (.propose cmd) e s' P' := by
  simp only [Process.step] at hstep
  split at hstep <;> try contradiction
  next hl =>
  cases hstep
  obtain ⟨rfl, r, hr, hwho, hlog, hack, hmatch⟩ := h.node.leads hl
  obtain ⟨f1, f2, f3, f4, f5, f6, f7⟩ := p.node.appendEntry_frame cmd
  have hholds := h.node.holds
  have hle := h.node.commit_le
  rw [overlay_nil, hlog] at hholds
  rw [hlog] at hle
  have hlast := (Node.appendEntry_holds hholds cmd).lastLogIndex_eq
  have hinit := (hs.init_le _ r hr).length_le
  rw [List.length_append, List.length_singleton] at hlast
  have hstamp : cfg.setting.stamp ⟨p.node.term, cmd⟩ = p.node.term := rfl
  obtain ⟨s', hsteps, hext⟩ := exists_proposes hr hwho h.node.term hlog hstamp
  have hg := hsteps.grows
  have hsingle : p.node.peers = [] →
      s'.Committed cfg.setting p.node.term (r.log ++ [⟨p.node.term, cmd⟩]) := fun hp =>
    hext.committed_single hi (hpeers ▸ hp) hinit
  have hcommit : p.node.commitIndex ≤ (p.node.appendEntry cmd).commitIndex := by
    rw [f7]
    split_ifs
    · rw [hlast]; omega
    · exact le_rfl
  refine ⟨s', [], ?_⟩
  refine
    { steps := hsteps, node := h.node.propose hlog hwho hmatch hg hext hcommit hsingle
      later := ?_, same := ?_, vote := by simp, append := by simp
      inline := ?_, proposed := ?_, start := by simp, reign := ?_ }
  · dsimp only
    refine ⟨f5.ge, f6.ge, hcommit, ?_⟩
    rw [overlay_nil, overlay_nil, hext.log, hlog, List.take_append_of_le_length hle]
  · dsimp only
    rw [f2, hl]
    simp
  · intro cmd' hcmd hp
    cases hcmd
    refine ⟨_, _, ⟨p.node.term, cmd⟩, hsingle hp, by omega, ?_, rfl⟩
    rw [hlast, Nat.add_sub_cancel, List.getElem?_concat_length]
  · intro cmd' hcmd
    cases hcmd
    refine ⟨_, f1.symm ▸ hext.reign, by omega, ?_⟩
    rw [hlast, Nat.add_sub_cancel, List.getElem?_concat_length, f1]
  · intro T r₀ hr₀
    by_cases hTT : T = p.node.term
    · subst hTT
      rw [hext.reign] at hr₀
      cases hr₀
      exact .inl ⟨r, hr, rfl⟩
    · exact .inl ⟨r₀, (hext.reign_ne T hTT).symm.trans hr₀, rfl⟩

end Propose

/-! ## Counting acknowledgements -/

omit [DecidableEq Id] in
/-- An entry of a reign's own term was appended in it. -/
theorem own_index {S : Setting Id Entry ℤ} {s : View Id Entry ℤ} (hs : s.Sound S) {T : ℤ}
    {r : Reign Id Entry} (hr : s.reign T = some r) {j : ℕ} {en : Entry} (he : r.log[j]? = some en)
    (ht : S.stamp en = T) : r.init.length ≤ j := by
  by_contra hlt
  have hj : j < r.init.length := by omega
  have hget := List.prefix_iff_getElem?.mp (hs.init_le T r hr) j hj
  rw [he] at hget
  have hmem : en ∈ r.init := by
    rw [Option.some.inj hget]
    exact List.getElem_mem hj
  exact absurd ht (ne_of_lt (hs.init_lt T r hr en hmem))

section Acknowledge

variable {cfg : Config Id} {s : View Id Entry ℤ} {P : List Entry} {i : Id} {n : Node Id}
  {p : Process Id} {inp : Input Id} {e : Process.Effect Id}

/-- The threshold of a leader, when it lies above what it was elected with and above its commit
    index, was acknowledged by a quorum in its term. -/
theorem chosen_threshold {m : Node Id} {r : Reign Id Entry} (hi : i ∈ cfg.members)
    (hpeers : m.peers = cfg.peers i) (hlt : max r.init.length m.commitIndex < m.threshold)
    (hself : m.threshold ≤ s.acked i m.term)
    (hmatch : ∀ q ∈ m.peers, m.replState.matchIndex q ≤ max r.init.length m.commitIndex ∨
      m.replState.matchIndex q ≤ s.acked q m.term) :
    s.Chosen cfg.setting m.term m.threshold := by
  obtain ⟨hni, hnd⟩ := Cluster.peers_nodup hi
  rw [← hpeers] at hni hnd
  refine ⟨{x | m.threshold ≤ s.acked x m.term}, ⟨i :: m.peers.filter
    (fun q => m.threshold ≤ m.replState.matchIndex q), ?_, ?_, ?_⟩, fun q hq => hq⟩
  · exact List.nodup_cons.mpr ⟨fun hmem => hni (List.mem_of_mem_filter hmem), hnd.filter _⟩
  · intro x hx
    rcases List.mem_cons.mp hx with rfl | hx
    · exact ⟨hi, hself⟩
    · obtain ⟨hxp, hle⟩ := List.mem_filter.mp hx
      rw [decide_eq_true_eq] at hle
      refine ⟨Cluster.mem_of_mem_peers hi (hpeers ▸ hxp), ?_⟩
      rcases hmatch x hxp with hm | hm
      · omega
      · exact hle.trans hm
  · rw [← cfg.majority_peers hi, ← hpeers, List.length_cons]
    exact m.threshold_quorum

/-- `maybeCommit` commits only what a quorum has acknowledged to the leader of the term. -/
theorem NodeRel.maybeCommit {m : Node Id} (h : NodeRel cfg.setting s P i m)
    (hs : s.Sound cfg.setting) (hi : i ∈ cfg.members) (hpeers : m.peers = cfg.peers i) :
    NodeRel cfg.setting s P i m.maybeCommit ∧ m.commitIndex ≤ m.maybeCommit.commitIndex := by
  have hrepl : m.maybeCommit.replState.matchIndex = m.replState.matchIndex := by
    unfold Node.maybeCommit
    split_ifs
    · exact Node.replState_matchIndex rfl
    · rfl
  rcases m.commitTarget_cases with hc | ⟨hc, hl, hlt, en, hen, hterm⟩
  · refine ⟨{ h with holds := h.holds.congr rfl rfl rfl, commit_le := ?_, committed := ?_
                     applied_le := ?_, leads := ?_ }, hc.ge⟩
    · exact hc.trans_le h.commit_le
    · change s.Committed cfg.setting m.term (List.take m.commitTarget _)
      rw [hc]
      exact h.committed
    · exact h.applied_le.trans hc.ge
    · intro hr
      rw [hrepl]
      change _ ∧ ∃ r, _ ∧ _ ∧ _ ∧ _ ∧ ∀ q ∈ m.peers, _ ≤ max _ m.commitTarget ∨ _
      rw [hc]
      exact h.leads hr
  · obtain ⟨rfl, r, hr, hwho, hlog, hack, hmatch⟩ := h.leads hl
    have hholds := h.holds
    rw [overlay_nil, hlog] at hholds
    have hb : m.lastIncludedIndex < m.threshold :=
      lt_of_le_of_lt (h.base_le.trans h.applied_le) hlt
    rw [hholds.entryAt_eq hb] at hen
    have hlen := (List.getElem?_eq_some_iff.mp hen).1
    have hown := own_index hs hr hen hterm
    have hchosen : s.Chosen cfg.setting m.term m.threshold :=
      chosen_threshold hi hpeers (by omega) (by omega) hmatch
    refine ⟨{ h with holds := h.holds.congr rfl rfl rfl, commit_le := ?_, committed := ?_
                     applied_le := ?_, leads := ?_ }, ?_⟩
    · change m.commitTarget ≤ _
      rw [hc, hlog]
      omega
    · change s.Committed cfg.setting m.term (List.take m.commitTarget _)
      rw [hc, overlay_nil, hlog]
      exact .inr ⟨m.term, r, m.threshold, le_rfl, hr, by omega, by omega, hchosen, List.prefix_rfl⟩
    · change _ ≤ m.commitTarget
      rw [hc]
      exact h.applied_le.trans hlt.le
    · intro _
      refine ⟨rfl, r, hr, hwho, hlog, hack, fun q hq => ?_⟩
      rw [hrepl]
      change _ ≤ max _ m.commitTarget ∨ _
      rw [hc]
      exact (hmatch q hq).imp_left fun hle => hle.trans (max_le_max le_rfl hlt.le)
    · change m.commitIndex ≤ m.commitTarget
      rw [hc]
      exact hlt.le

/-- An acknowledgement that is covered by what the peer acknowledged in this term, or by what
    is committed anyway, keeps the relation. -/
theorem NodeRel.acknowledge (h : NodeRel cfg.setting s P i n) (hs : s.Sound cfg.setting)
    (hi : i ∈ cfg.members) (hpeers : n.peers = cfg.peers i) (q : Id) (v : ℕ)
    (hv : v ≤ n.commitIndex ∨ v ≤ s.acked q n.term) :
    NodeRel cfg.setting s P i (n.acknowledge q v) ∧
      n.commitIndex ≤ (n.acknowledge q v).commitIndex := by
  refine NodeRel.maybeCommit (NodeRel.mk h.term h.nonneg (h.holds.congr rfl rfl rfl) h.short
    h.patch_base h.patch h.commit_le h.committed h.base_le h.applied_le ?_) hs hi hpeers
  intro hl
  obtain ⟨hP, r, hr, hwho, hlog, hack, hmatch⟩ := h.leads hl
  refine ⟨hP, r, hr, hwho, hlog, hack, fun q' hq' => ?_⟩
  change Function.update n.replState.matchIndex q (max (n.replState.matchIndex q) v) q' ≤ _ ∨
    Function.update n.replState.matchIndex q (max (n.replState.matchIndex q) v) q' ≤ _
  by_cases hqq : q' = q
  · subst hqq
    rw [Function.update_self]
    rcases le_total (n.replState.matchIndex q') v with hle | hle
    · rw [max_eq_right hle]
      exact hv.imp_left fun hv => hv.trans (le_max_right _ _)
    · rw [max_eq_left hle]
      exact hmatch q' hq'
  · rw [Function.update_of_ne hqq]
    exact hmatch q' hq'

/-- A node that only had its commit index raised by an acknowledgement. -/
theorem acknowledge_later (full : List Entry) (q : Id) (v : ℕ)
    (h : n.commitIndex ≤ (n.acknowledge q v).commitIndex) : Later full full n (n.acknowledge q v) :=
  ⟨le_rfl, le_rfl, h, rfl⟩

theorem Later.trans_quiet {full : List Entry} {n m n' : Node Id} (hq : Node.Quiet n m)
    (h : Later full full m n') : Later full full n n' := by
  obtain ⟨_, h2, _, h4, h5⟩ := hq.fields
  exact ⟨h2 ▸ h.base, h5 ▸ h.applied, h4 ▸ h.commit, rfl⟩

/-- The relation in a view whose term of `i` was set to what it is. -/
theorem raise_self (s : View Id Entry ℤ) (i : Id) : s.raise i (s.term i) = s := by
  simp [View.raise]

theorem Match.appendResponse {q : Id} {req : AppendEntriesRequest Id}
    {resp : AppendEntriesResponse} (h : ProcRel cfg.setting s P i p) (hs : s.Sound cfg.setting)
    (hi : i ∈ cfg.members) (hpeers : p.node.peers = cfg.peers i) (hm : AckRel s q req resp)
    (hstep : p.step (.appendResponse q req resp) = some e) :
    ∃ s' P', Match cfg.setting s P i p (.appendResponse q req resp) e s' P' := by
  have hn : e.proc.node = p.node.handleAppendResponse q req resp := by
    simp only [Process.step] at hstep
    split at hstep <;> cases hstep
    rfl
  have ht := (Node.handleAppendResponse_voteMove p.node q req resp).term_le
  rw [← hn] at ht
  have hq := Node.setInFlight_quiet p.node q false
  have hflight : NodeRel cfg.setting s P i (p.node.setInFlight q false) := by
    have := h.node.quiet hq le_rfl
    rwa [show (p.node.setInFlight q false).term = s.term i from h.node.term.symm, raise_self]
      at this
  refine ⟨s.raise i e.proc.node.term, P, ?_⟩
  unfold Node.handleAppendResponse at hn
  dsimp only at hn
  split_ifs at hn with h1 h2 h3
  · exact .of_quiet h (hn ▸ hq.trans (Node.becomeFollower_quiet _ _ _)) ht (.of_input rfl)
  · exact .of_quiet h (hn ▸ hq) ht (.of_input rfl)
  · obtain ⟨hterm, hacked⟩ := hm h3
    have hT : req.term = p.node.term := by
      change ¬ resp.term > p.node.term at h1
      change ¬ resp.term < p.node.term at h2
      omega
    obtain ⟨hrel, hc⟩ := hflight.acknowledge hs hi hpeers q
      (req.prevLogIndex + req.entries.length).toNat (.inr (hT ▸ hacked))
    rw [← hn] at hrel hc
    refine .of_raise h ht ?_ ?_ (.of_input rfl)
    · rw [show e.proc.node.term = s.term i from hrel.term.symm, raise_self]
      exact hrel
    · rw [hn] at hc ⊢
      exact Later.trans_quiet hq (acknowledge_later _ _ _ hc)
  · exact .of_quiet h (hn ▸ hq.trans (Node.rewind_quiet _ _)) ht (.of_input rfl)

theorem Match.snapshotResponse {q : Id} {req : InstallSnapshotRequest Id}
    {resp : InstallSnapshotResponse} (h : ProcRel cfg.setting s P i p) (hs : s.Sound cfg.setting)
    (hi : i ∈ cfg.members) (hpeers : p.node.peers = cfg.peers i)
    (hstep : p.step (.snapshotResponse q req resp) = some e) :
    ∃ s' P', Match cfg.setting s P i p (.snapshotResponse q req resp) e s' P' := by
  have hn : e.proc.node = p.node.handleSnapshotResponse q req resp ∧ .awaitSnap q req ∈ p.tasks := by
    simp only [Process.step] at hstep
    split at hstep <;> cases hstep
    next htask => exact ⟨rfl, htask⟩
  obtain ⟨hn, htask⟩ := hn
  have hidx : req.lastIncludedIndex.toNat ≤ p.node.commitIndex := h.tasks _ htask
  have ht := (Node.handleSnapshotResponse_voteMove p.node q req resp).term_le
  rw [← hn] at ht
  have hq := Node.setInFlight_quiet p.node q false
  have hflight : NodeRel cfg.setting s P i (p.node.setInFlight q false) := by
    have := h.node.quiet hq le_rfl
    rwa [show (p.node.setInFlight q false).term = s.term i from h.node.term.symm, raise_self]
      at this
  refine ⟨s.raise i e.proc.node.term, P, ?_⟩
  unfold Node.handleSnapshotResponse at hn
  dsimp only at hn
  split_ifs at hn with h1 h2
  · exact .of_quiet h (hn ▸ hq.trans (Node.becomeFollower_quiet _ _ _)) ht (.of_input rfl)
  · exact .of_quiet h (hn ▸ hq) ht (.of_input rfl)
  · obtain ⟨hrel, hc⟩ := hflight.acknowledge hs hi hpeers q
      req.lastIncludedIndex.toNat (.inl hidx)
    rw [← hn] at hrel hc
    refine .of_raise h ht ?_ ?_ (.of_input rfl)
    · rw [show e.proc.node.term = s.term i from hrel.term.symm, raise_self]
      exact hrel
    · rw [hn] at hc ⊢
      exact Later.trans_quiet hq (acknowledge_later _ _ _ hc)

end Acknowledge

/-! ## Applying and compacting -/

section Local

variable {S : Setting Id Entry ℤ} {s : View Id Entry ℤ} {P : List Entry} {i : Id} {n : Node Id}
  {p : Process Id} {e : Process.Effect Id}

theorem NodeRel.markApplied (h : NodeRel S s P i n) {k : ℕ} (hk : k ≤ n.commitIndex) :
    NodeRel S s P i (n.markApplied k) :=
  { h with
    holds := h.holds.congr rfl rfl rfl
    base_le := h.base_le.trans (le_max_left _ _)
    applied_le := max_le h.applied_le hk }

/-- What is known of a leader does not depend on its log and base. -/
theorem NodeRel.leads_congr {n' : Node Id} (h : NodeRel S s P i n) (hrole : n'.role = n.role)
    (ht : n'.term = n.term) (hp : n'.peers = n.peers) (hr : n'.repl = n.repl)
    (hc : n'.commitIndex = n.commitIndex) :
    n'.role = .leader → P = [] ∧ ∃ r, s.reign n'.term = some r ∧ r.who = i ∧
      s.log i = r.log ∧ r.log.length ≤ s.acked i n'.term ∧
      ∀ p ∈ n'.peers, n'.replState.matchIndex p ≤ max r.init.length n'.commitIndex ∨
        n'.replState.matchIndex p ≤ s.acked p n'.term := by
  rw [hrole, ht, hp, hc, Node.replState_matchIndex hr]
  exact h.leads

theorem NodeRel.compactLog (h : NodeRel S s P i n) {k : ℕ} {label : ℤ} (hk : k ≤ n.lastApplied)
    (hlabel : k ≤ n.lastIncludedIndex ∨ label = lastTerm ((overlay P (s.log i)).take k)) :
    NodeRel S s P i (n.compactLog k label) ∧
      Later (overlay P (s.log i)) (overlay P (s.log i)) n (n.compactLog k label) := by
  have hc := hk.trans h.applied_le
  have hholds := Node.compactLog_holds h.holds (hc.trans (h.length_eq.symm ▸ h.commit_le)) hlabel
  unfold Node.compactLog at hholds ⊢
  split at hholds
  · next hle =>
    rw [if_pos hle]
    exact ⟨h, .refl _ _⟩
  · next hlt =>
    have hci : ¬ n.commitIndex < k := by omega
    have hla : ¬ n.lastApplied < k := by omega
    rw [if_neg hlt]
    simp only [hci, hla, ite_false] at hholds ⊢
    refine ⟨{ h with holds := hholds, patch_base := ?_, base_le := hk, leads := ?_ }, ?_⟩
    · exact h.patch_base.trans (not_le.mp hlt).le
    · exact h.leads_congr rfl rfl rfl rfl rfl
    · exact ⟨(not_le.mp hlt).le, le_rfl, le_rfl, rfl⟩

/-- A section that stays in the view. -/
theorem Match.of_same {inp : Input Id} (h : ProcRel S s P i p)
    (ht : e.proc.node.term = p.node.term) (hnode : NodeRel S s P i e.proc.node)
    (hlater : Later (overlay P (s.log i)) (overlay P (s.log i)) p.node e.proc.node)
    (hu : Unanswered p inp) : ∃ s' P', Match S s P i p inp e s' P' := by
  refine ⟨s.raise i e.proc.node.term, P, .of_raise h ht.ge ?_ hlater hu⟩
  rw [ht, ← h.node.term, raise_self]
  exact hnode

theorem Match.applyCheck (h : ProcRel S s P i p) (hstep : p.step .applyCheck = some e) :
    ∃ s' P', Match S s P i p .applyCheck e s' P' := by
  have hold := h.apply
  simp only [Process.step] at hstep
  split at hstep <;> try contradiction
  next idx entry ha =>
  rw [ha] at hold
  split at hstep
  · cases hstep
    exact Match.of_same h rfl h.node (.refl _ _) (.of_input rfl)
  · split at hstep <;> cases hstep
    · exact Match.of_same h rfl (h.node.markApplied hold.1) ⟨le_rfl, le_max_left _ _, le_rfl, rfl⟩
        (.of_input rfl)
    · exact Match.of_same h rfl h.node (.refl _ _) (.of_input rfl)

theorem Match.applyDone (h : ProcRel S s P i p) (hstep : p.step .applyDone = some e) :
    ∃ s' P', Match S s P i p .applyDone e s' P' := by
  have hold := h.apply
  simp only [Process.step] at hstep
  split at hstep <;> cases hstep
  next idx ha =>
  rw [ha] at hold
  exact Match.of_same h rfl (h.node.markApplied hold) ⟨le_rfl, le_max_left _ _, le_rfl, rfl⟩
    (.of_input rfl)

theorem Match.compactLog (h : ProcRel S s P i p) (hstep : p.step .compactLog = some e) :
    ∃ s' P', Match S s P i p .compactLog e s' P' := by
  have hold := h.compactor
  simp only [Process.step] at hstep
  split at hstep <;> cases hstep
  next idx label hc =>
  rw [hc] at hold
  obtain ⟨hnode, hlater⟩ := h.node.compactLog hold.1 hold.2
  refine Match.of_same h ?_ hnode hlater (.of_input rfl)
  dsimp only
  unfold Node.compactLog
  split <;> rfl

end Local

end KvStore.Raft
