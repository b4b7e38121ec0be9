import KvStore.Raft.FollowerSections

/-!
# State-machine safety

No two nodes ever run `applyCmd` on different commands at one log index, in every
run in which no section forgets a vote and every section is `safe`
(`state_machine_safety`): elections and re-elections, proposals, messages in any
order, with loss and duplication, snapshot transfer, compaction, any outcome of
`Save`, and restarts of nodes whose store is up to date.

The code itself leaves the protocol: `mergeEntries` drops the suffix beyond a
request whatever its terms. `applied_differ` is a run in which a delayed empty
`AppendEntries` removes a committed entry from the follower that made it committed,
after which the follower is elected and another command is applied at its index.
-/

namespace KvStore.Raft

open KvStore.Storage (Command Bytes)
open KvStore.Consensus (Setting View Reign)
open KvStore.Consensus.View (Grows Sound Proper Committed Steps Step)

variable {Id : Type} {cfg : Config Id}

/-! ## The initial state -/

/-- The view of a cluster that has just started. A node without peers starts as leader. -/
def Config.view (cfg : Config Id) : View Id Entry ℤ where
  term := fun _ => 0
  log := fun _ => []
  reign := fun T => match cfg.members with
    | [i] => if T = 0 then some ⟨i, [], []⟩ else none
    | _ => none
  acked := fun _ _ => 0
  vote := fun _ _ _ _ => False

theorem Config.view_reign {T : ℤ} {r : Reign Id Entry} (h : cfg.view.reign T = some r) :
    T = 0 ∧ cfg.members = [r.who] ∧ r.init = [] ∧ r.log = [] := by
  unfold Config.view at h
  dsimp only at h
  split at h
  · next i hi =>
    split_ifs at h with hT
    cases h
    exact ⟨hT, hi, rfl, rfl⟩
  · cases h

theorem Config.peers_nil {i : Id} (hm : cfg.members = [i]) : cfg.peers i = [] := by
  have := (cfg.peers_perm i (by simp [hm])).length_eq
  rw [hm, List.length_cons, List.length_singleton] at this
  exact List.length_eq_zero_iff.mp (by omega)

theorem Config.members_single {i : Id} (hi : i ∈ cfg.members) (h : cfg.peers i = []) :
    cfg.members = [i] := by
  have := cfg.peers_perm i hi
  rw [h] at this
  exact List.perm_singleton.mp this.symm

theorem Config.view_sound (cfg : Config Id) : cfg.view.Sound cfg.setting where
  base := fun T r h => (Config.view_reign h).1.ge
  init_le := fun T r h => by rw [(Config.view_reign h).2.2.1]; exact List.nil_prefix
  init_lt := fun T r h en hen => by rw [(Config.view_reign h).2.2.1] at hen; cases hen
  own := fun T r h j en _ hen => by rw [(Config.view_reign h).2.2.2] at hen; cases hen
  proper := fun _ _ _ h => by cases h
  proper_reign := fun T r h j en hen => by rw [(Config.view_reign h).2.2.2] at hen; cases hen
  log_le := fun _ _ h => by cases h
  acked := fun _ _ h => absurd rfl h
  voted := fun _ _ _ _ h => h.elim
  elected := by
    intro T r h
    obtain ⟨rfl, hm, _⟩ := Config.view_reign h
    exact ⟨{r.who}, cfg.single_quorum (by simp [hm]) (Config.peers_nil hm), fun _ _ => le_rfl⟩
  complete := by
    intro T r T' r' i h h' hT
    rw [(Config.view_reign h).1, (Config.view_reign h').1] at hT
    exact absurd hT (lt_irrefl _)
  retained := fun T r p i _ hi ha => absurd ha (by change ¬ i ≤ 0; omega)
  fresh := fun _ _ _ _ _ _ _ h => h.elim

variable [DecidableEq Id]

theorem Rel.init (cfg : Config Id) : Rel cfg (Cluster.init cfg) cfg.view fun _ => [] where
  sound := cfg.view_sound
  proc := by
    intro i hi
    refine ⟨?_, (fun _ h => by cases h), trivial, trivial, (fun _ h => by cases h)⟩
    refine
      { term := rfl, nonneg := le_rfl, holds := ⟨le_rfl, rfl, rfl⟩, short := .inl rfl
        patch_base := le_rfl, patch := .inl rfl, commit_le := le_rfl, committed := .inl rfl
        base_le := le_rfl, applied_le := le_rfl, leads := ?_ }
    intro hr
    have hp : cfg.peers i = [] := by
      by_contra hne
      simp [Cluster.init, Process.init, Node.new, hne] at hr
    have hm := Config.members_single hi hp
    refine ⟨rfl, ⟨i, [], []⟩, ?_, rfl, rfl, le_rfl, ?_⟩
    · simp [Config.view, hm, Cluster.init, Process.init, Node.new]
    · intro q hq
      change q ∈ cfg.peers i at hq
      rw [hp] at hq
      cases hq
  net := fun _ h => by cases h
  events := fun _ h => by cases h
  reigns := fun T r h => .inr (Config.view_reign h).1

/-! ## Every step -/

section Step

variable {c : Cluster Id} {s : View Id Entry ℤ} {P : Id → List Entry} {i : Id} {inp : Input Id}
  {e : Process.Effect Id}

/-- A restart from a store that holds the node's state loses the volatile progress only. -/
theorem NodeRel.restart {S : Setting Id Entry ℤ} {P : List Entry} {p : Process Id}
    (h : NodeRel S s P i p.node) (hc : p.Clean) (hp : p.node.peers ≠ []) :
    NodeRel S s P i p.restart.node := by
  have hterm : p.restart.node.term = p.node.term := by rw [Process.restart, hc]; rfl
  have hbase : p.restart.node.lastIncludedIndex = p.node.lastIncludedIndex := by
    rw [Process.restart, hc]; rfl
  have hzero : ∀ k : ℕ, (if 0 < k then k else 0) = k := fun k => by split_ifs <;> omega
  have hci : p.restart.node.commitIndex = p.node.lastIncludedIndex := by
    rw [Process.restart, hc]
    exact hzero _
  have hla : p.restart.node.lastApplied = p.node.lastIncludedIndex := by
    rw [Process.restart, hc]
    exact hzero _
  have hbc := h.base_le.trans h.applied_le
  refine
    { term := h.term.trans hterm.symm, nonneg := hterm.symm ▸ h.nonneg, short := h.short
      holds := h.holds.congr ?_ hbase ?_, patch_base := hbase.symm ▸ h.patch_base
      patch := hterm.symm ▸ h.patch, commit_le := hci.symm ▸ hbc.trans h.commit_le, committed := ?_
      base_le := by rw [hbase, hla], applied_le := by rw [hla, hci], leads := ?_ }
  · rw [Process.restart, hc]; rfl
  · rw [Process.restart, hc]; rfl
  · rw [hterm, hci]
    exact h.committed.mono le_rfl (List.take_prefix_take_left hbc)
  · intro hr
    simp [Process.restart, Node.setRaftStore, Node.new, hp] at hr

theorem Rel.restart (h : Rel cfg c s P) (hv : c.VoteInv cfg) (hi : i ∈ cfg.members)
    (hsafe : (c.proc i).safe .restart = true) (hstep : (c.proc i).step .restart = some e) :
    Rel cfg (c.update i e) s (Function.update P i (P i)) := by
  simp only [Process.step, Option.some.injEq] at hstep
  subst hstep
  simp only [Process.safe, decide_eq_true_eq] at hsafe
  refine h.update .refl ⟨?_, (fun _ h => by cases h), trivial, trivial, (fun _ h => by cases h)⟩
    (by simp) (by simp) fun T r hr => .inl ⟨r, hr, rfl⟩
  exact (h.proc i hi).node.restart ((hv.campaigns i).clean hsafe.1) hsafe.2

theorem Match.endElection (h : Rel cfg c s P) (hv : c.VoteInv cfg) (hi : i ∈ cfg.members)
    (hv' : (c.update i e).VoteInv cfg) (hsafe : (c.proc i).safe .endElection = true)
    (hstep : (c.proc i).step .endElection = some e) :
    ∃ s' P', Match cfg.setting s (P i) i (c.proc i) .endElection e s' P' := by
  have hstep' := hstep
  simp only [Process.step] at hstep'
  split at hstep' <;> try contradiction
  next el hel =>
  split at hstep' <;> try contradiction
  by_cases hw : el.votes ≥ majority (c.proc i).node.peers ∧ (c.proc i).node.role = .candidate ∧
      (c.proc i).node.term = el.req.term
  · have hdown : (c.proc i).stepsDownInPlace .endElection = false := by
      simp [Process.stepsDownInPlace, hel, hw]
    have hmatch : (c.proc i).staleMatch = false := by
      simpa [Process.safe, hdown] using hsafe
    exact Match.elected h hv hi hv' hstep hel hw.1 hw.2.1 hw.2.2 hmatch
  · have hn : e.proc.node = (c.proc i).node.becomeFollower (c.proc i).node.term none := by
      cases hstep'
      unfold Process.endElection
      rw [if_neg hw]
    refine ⟨_, P i, .of_quiet (h.proc i hi) ?_ ?_ (.of_input rfl)⟩
    · rw [hn]
      exact Node.becomeFollower_quiet _ _ _
    · rw [hn]
      exact le_rfl

/-- Simulation: every critical section that stays within the protocol is matched by steps of
    its node in the abstract protocol, and only a restart lowers the commit index. -/
theorem Rel.step (h : Rel cfg c s P) (hv : c.VoteInv cfg) (hi : i ∈ cfg.members)
    (hok : ¬ (c.proc i).forgetsVote inp) (hsafe : (c.proc i).safe inp = true)
    (hm : ∀ m, inp.msg i = some m → m ∈ c.net) (hstep : (c.proc i).step inp = some e) :
    ∃ s' P', Steps cfg.setting i s s' ∧ Rel cfg (c.update i e) s' P' ∧
      (inp ≠ .restart → (c.proc i).node.commitIndex ≤ e.proc.node.commitIndex) := by
  by_cases hr : inp = .restart
  · subst hr
    exact ⟨s, _, .refl, h.restart hv hi hsafe hstep, fun hne => absurd rfl hne⟩
  have hp := h.proc i hi
  have hpeers := hv.peers_eq i
  have hmatch : ∃ s' P', Match cfg.setting s (P i) i (c.proc i) inp e s' P' := by
    cases inp with
    | restart => exact absurd rfl hr
    | startElection => exact Match.startElection hp hstep
    | endElection => exact Match.endElection h hv hi (hv.update hok hi hm hstep) hsafe hstep
    | requestVote req => exact Match.requestVote hp hstep
    | appendEntries req => exact Match.appendEntries hp h.sound (h.net _ (hm _ rfl)) hsafe hstep
    | installSnapshot req => exact Match.installSnapshot hp h.sound (h.net _ (hm _ rfl)) hstep
    | propose cmd => exact Match.propose hp h.sound hi hpeers hstep
    | appendResponse q req resp =>
      exact Match.appendResponse hp h.sound hi hpeers (h.net _ (hm _ rfl)) hstep
    | snapshotResponse q req resp => exact Match.snapshotResponse hp h.sound hi hpeers hstep
    | applyCheck => exact Match.applyCheck hp hstep
    | applyDone => exact Match.applyDone hp hstep
    | compactLog => exact Match.compactLog hp hstep
    | _ =>
      exact ⟨_, P i, .of_quiet hp (Process.quiet_of_step hstep rfl)
        (Process.voteMove hstep hr hok).term_le (.of_input rfl)⟩
  obtain ⟨s', P', hmatch⟩ := hmatch
  exact ⟨s', _, hmatch.steps, h.of_match hv hi hok hsafe hr hstep hmatch,
    fun _ => hmatch.later.commit⟩

end Step

/-! ## Every run -/

namespace Cluster

/-- The section forgets no vote and stays within the protocol. -/
def protocolStep (c : Cluster Id) (i : Id) (inp : Input Id) : Prop :=
  c.keepsVotes i inp ∧ (c.proc i).safe inp = true

instance (c : Cluster Id) (i : Id) (inp : Input Id) : Decidable (c.protocolStep i inp) :=
  inferInstanceAs (Decidable (_ ∧ _))

/-- The cluster is in a state of the abstract protocol. -/
def Refines (cfg : Config Id) (c : Cluster Id) : Prop := c.VoteInv cfg ∧ ∃ s P, Rel cfg c s P

/-- Every run within the protocol is a run of the abstract protocol. -/
theorem Reachable.refines {c : Cluster Id} (h : Reachable cfg protocolStep c) :
    Refines cfg c := by
  have hinit : Refines cfg (Cluster.init cfg) := ⟨VoteInv.init cfg, cfg.view, _, Rel.init cfg⟩
  refine h.invariant hinit ?_
  rintro c i inp e ⟨hv, s, P, hrel⟩ ⟨hok, hsafe⟩ hi hm hstep
  obtain ⟨s', P', _, hrel', _⟩ := hrel.step hv hi hok hsafe hm hstep
  exact ⟨hv.update hok hi hm hstep, s', P', hrel'⟩

/-- State-machine safety, in every run within the protocol: whatever has been applied at an
    index, by any node at any time, is one command. -/
theorem state_machine_safety {c : Cluster Id} (h : Reachable cfg protocolStep c) {x y : Id}
    {idx : ℕ} {cmd cmd' : Command} (hx : .applied x idx cmd ∈ c.events)
    (hy : .applied y idx cmd' ∈ c.events) : cmd = cmd' := by
  obtain ⟨_, s, P, hrel⟩ := h.refines
  have h1 : Shows cfg.setting s idx cmd := hrel.events _ hx
  have h2 : Shows cfg.setting s idx cmd' := hrel.events _ hy
  exact h1.unique hrel.sound h2

/-! ## A run that stays within the protocol, and one that leaves it -/

/-- A write of the value `v` to one key. -/
def putCommand (v : UInt8) : Command := ⟨.put, [1], [], [v], 0⟩

/-- Node 0 is elected in term 1 with the vote of node 1. -/
def firstElection : List (Fin 3 × Input (Fin 3)) :=
  let req := ⟨1, 0, 0, 0⟩
  [(0, .startElection), (0, .persistElection true),
   (1, .requestVote req), (1, .persistVote req ⟨1, true⟩ true),
   (0, .voteResponse 1 req ⟨1, true⟩), (0, .endElection)]

/-- A first, empty request of node 0 to node 1 times out. Node 0 then proposes a write,
    replicates it to node 1, commits and applies it. -/
def firstWrite : List (Fin 3 × Input (Fin 3)) :=
  let empty := ⟨1, 0, 0, 0, [], 0⟩
  let full := ⟨1, 0, 0, 0, [⟨1, putCommand 7⟩], 0⟩
  [(0, .replicate 1), (0, .appendError 1 empty), (0, .propose (putCommand 7)), (0, .replicate 1),
   (1, .appendEntries full), (1, .persistAppend full ⟨1, true⟩ true),
   (0, .appendResponse 1 full ⟨1, true⟩), (0, .applyPick), (0, .applyCheck), (0, .applyRun)]

/-- Node 1 learns the commit index of node 0 and applies the write as well. -/
def secondApply : List (Fin 3 × Input (Fin 3)) :=
  let heartbeat := ⟨1, 0, 1, 1, [], 1⟩
  [(0, .replicate 1), (1, .appendEntries heartbeat), (1, .applyPick), (1, .applyCheck),
   (1, .applyRun)]

/-- The empty request reaches node 1 after all. Node 1 is elected in term 2 with the vote of
    node 2, replicates another write to it, commits and applies it. -/
def secondWrite : List (Fin 3 × Input (Fin 3)) :=
  let late := ⟨1, 0, 0, 0, [], 0⟩
  let req := ⟨2, 1, 0, 0⟩
  let full := ⟨2, 1, 0, 0, [⟨2, putCommand 8⟩], 0⟩
  [(1, .appendEntries late), (1, .startElection), (1, .persistElection true),
   (2, .requestVote req), (2, .persistVote req ⟨2, true⟩ true),
   (1, .voteResponse 2 req ⟨2, true⟩), (1, .endElection),
   (1, .replicate 2), (1, .appendError 2 ⟨2, 1, 0, 0, [], 0⟩), (1, .propose (putCommand 8)),
   (1, .replicate 2), (2, .appendEntries full), (2, .persistAppend full ⟨2, true⟩ true),
   (1, .appendResponse 2 full ⟨2, true⟩), (1, .applyPick), (1, .applyCheck), (1, .applyRun)]

theorem state_machine_safety_two_replicas :
    ∃ c, Reachable Config.three protocolStep c ∧ .applied 0 1 (putCommand 7) ∈ c.events ∧
      .applied 1 1 (putCommand 7) ∈ c.events ∧
      ∀ y cmd, .applied y 1 cmd ∈ c.events → putCommand 7 = cmd := by
  have hrun : ((init Config.three).run Config.three protocolStep
      (firstElection ++ firstWrite ++ secondApply)).map (·.events) =
        some [.becameLeader 0 1, .applied 0 1 (putCommand 7), .applied 1 1 (putCommand 7)] := by
    decide +kernel
  obtain ⟨c, hc, he⟩ := Reachable.of_run hrun
  have h0 : .applied 0 1 (putCommand 7) ∈ c.events := by simp [he]
  exact ⟨c, hc, h0, by simp [he], fun _ _ hy => state_machine_safety hc h0 hy⟩

/-- Two nodes apply different commands at index 1, although no vote is forgotten, every `Save`
    succeeds and no node restarts. -/
theorem applied_differ :
    ∃ c, Reachable Config.three
        (fun c i inp => c.keepsVotes i inp ∧ inp.saved = true ∧ inp ≠ .restart) c ∧
      .applied 0 1 (putCommand 7) ∈ c.events ∧ .applied 1 1 (putCommand 8) ∈ c.events ∧
      putCommand 7 ≠ putCommand 8 := by
  have hrun : ((init Config.three).run Config.three
      (fun c i inp => c.keepsVotes i inp ∧ inp.saved = true ∧ inp ≠ .restart)
      (firstElection ++ firstWrite ++ secondWrite)).map (·.events) =
        some [.becameLeader 0 1, .applied 0 1 (putCommand 7), .becameLeader 1 2,
          .applied 1 1 (putCommand 8)] := by
    decide +kernel
  obtain ⟨c, hc, he⟩ := Reachable.of_run hrun
  exact ⟨c, hc, by simp [he], by simp [he], by decide⟩

end Cluster

end KvStore.Raft
