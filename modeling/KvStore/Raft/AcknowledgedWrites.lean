import KvStore.Raft.StateMachineSafety

/-!
# Acknowledged writes

`propose` returns `nil` once the entry is in the leader's own store; it does not
wait for the commit. `acknowledged_write_lost` is a run in which a write is
acknowledged while one node of three holds it, and another command is applied at
its index later.

A return that happens after the commit is safe (`acknowledged_writes_survive`): the
entry is held by a majority at that moment, and in every continuation within the
protocol no other command is applied at its index.
-/

namespace KvStore.Raft

open KvStore.Storage (Command Bytes)
open KvStore.Consensus (Setting View Reign)
open KvStore.Consensus.View (Grows Sound Proper Committed Steps Step)

variable {Id : Type} [DecidableEq Id] {cfg : Config Id}

/-- The entry `(idx, term, cmd)` that `propose` is about to acknowledge is committed on this
    node: it lies at or below the commit index, and the node still holds it, or has led the
    entry's term ever since it appended it. -/
def Process.returnsCommitted (p : Process Id) (idx : ℕ) (term : ℤ) (cmd : Command) : Prop :=
  idx ≤ p.node.commitIndex ∧
    (p.node.entryAt idx = some ⟨term, cmd⟩ ∨ (p.node.role = .leader ∧ p.node.term = term))

instance (p : Process Id) (idx : ℕ) (term : ℤ) (cmd : Command) :
    Decidable (p.returnsCommitted idx term cmd) := inferInstanceAs (Decidable (_ ∧ _))

/-- The node holds the entry, in its log or in what it has compacted. -/
def Node.holdsEntry (n : Node Id) (idx : ℕ) (entry : Entry) : Prop :=
  n.entryAt idx = some entry ∨ idx ≤ n.lastIncludedIndex

instance (n : Node Id) (idx : ℕ) (entry : Entry) : Decidable (n.holdsEntry idx entry) :=
  inferInstanceAs (Decidable (_ ∨ _))

/-! ## At the moment of the return -/

section Return

variable {s : View Id Entry ℤ} {P : List Entry} {i : Id} {p : Process Id}

/-- The entry a return acknowledges is a committed entry of the node's whole log. -/
theorem ProcRel.returned (h : ProcRel cfg.setting s P i p) {idx : ℕ} {term : ℤ} {cmd : Command}
    (htask : .proposed idx term cmd ∈ p.tasks) (hret : p.returnsCommitted idx term cmd) :
    1 ≤ idx ∧ ((overlay P (s.log i)).take p.node.commitIndex)[idx - 1]? = some ⟨term, cmd⟩ := by
  obtain ⟨hle, hcase⟩ := hret
  obtain ⟨r, hr, hidx, he⟩ : Proposed s idx term cmd := h.tasks _ htask
  refine ⟨hidx, ?_⟩
  rw [List.getElem?_take_of_lt (by omega)]
  rcases hcase with hat | ⟨hl, ht⟩
  · have hb : p.node.lastIncludedIndex < idx := by
      by_contra hge
      rw [Node.Holds.entryAt_base p.node (not_lt.mp hge)] at hat
      cases hat
    rw [← h.node.holds.entryAt_eq hb, hat]
  · obtain ⟨rfl, r', hr', _, hlog, _⟩ := h.node.leads hl
    rw [ht, hr] at hr'
    cases hr'
    rw [overlay_nil, hlog, he]

/-- A node of the quorum that chose a list holds its entries. -/
theorem NodeRel.holds_committed (h : NodeRel cfg.setting s P i p.node) (hs : s.Sound cfg.setting)
    {T : ℤ} {r : Reign Id Entry} {k : ℕ} (hr : s.reign T = some r) (hk : r.init.length < k)
    (hkl : k ≤ r.log.length) (hch : s.Chosen cfg.setting T k) (hack : k ≤ s.acked i T)
    {idx : ℕ} {en : Entry} (hen : (r.log.take k)[idx - 1]? = some en) :
    p.node.holdsEntry idx en := by
  by_cases hb : idx ≤ p.node.lastIncludedIndex
  · exact .inr hb
  · refine .inl ?_
    rw [h.holds.entryAt_eq (by omega)]
    rcases Nat.lt_or_ge (idx - 1) P.length with hlt | hge
    · -- overwritten by a snapshot: two committed lists agree
      have hc : s.Committed cfg.setting T (r.log.take k) :=
        .inr ⟨T, r, k, le_rfl, hr, hk, hkl, hch, List.prefix_rfl⟩
      obtain ⟨m, h1, h2⟩ := hc.common hs h.patch
      rw [overlay_getElem?_left hlt]
      have hget := List.getElem?_eq_getElem hlt
      have := (Consensus.getElem?_of_le h1 hen).symm.trans (Consensus.getElem?_of_le h2 hget)
      rw [hget, this]
    · rw [overlay_getElem? hge]
      exact Consensus.getElem?_of_le (hs.retained T r i k hr hk hack hch.choosable) hen

end Return

/-- A committed entry is held by a majority. -/
theorem Rel.majority_holds {c : Cluster Id} {s : View Id Entry ℤ} {P : Id → List Entry}
    (h : Rel cfg c s P) {T : ℤ} {l : List Entry} (hc : s.Committed cfg.setting T l) {idx : ℕ}
    {en : Entry} (hen : l[idx - 1]? = some en) :
    ∃ V : List Id, V.Nodup ∧ cfg.members.length / 2 + 1 ≤ V.length ∧
      ∀ q ∈ V, q ∈ cfg.members ∧ (c.proc q).node.holdsEntry idx en := by
  rcases hc with rfl | ⟨T₀, r, k, _, hr, hk, hkl, hch, hl⟩
  · cases hen
  · obtain ⟨Q, ⟨V, hnd, hV, hcount⟩, hq⟩ := hch
    refine ⟨V, hnd, hcount, fun q hqV => ⟨(hV q hqV).1, ?_⟩⟩
    exact (h.proc q (hV q hqV).1).node.holds_committed h.sound hr hk hkl
      ⟨Q, ⟨V, hnd, hV, hcount⟩, hq⟩ (hq q (hV q hqV).2) (Consensus.getElem?_of_le hl hen)

/-! ## In every continuation -/

namespace Cluster

/-- `c'` is reached from `c` by a run whose steps all meet `ok`. -/
def Continues (cfg : Config Id) (ok : Cluster Id → Id → Input Id → Prop) :
    Cluster Id → Cluster Id → Prop :=
  Relation.ReflTransGen fun a b => ∃ i inp, ok a i inp ∧ a.step cfg i inp = some b

/-- What is committed stays committed in every continuation within the protocol. -/
theorem Continues.shows {c c' : Cluster Id} (h : Continues cfg protocolStep c c')
    (hv : c.VoteInv cfg) {s : View Id Entry ℤ} {P : Id → List Entry} (hrel : Rel cfg c s P)
    {idx : ℕ} {cmd : Command} (hs : Shows cfg.setting s idx cmd) :
    c'.VoteInv cfg ∧ ∃ s' P', Rel cfg c' s' P' ∧ Shows cfg.setting s' idx cmd := by
  induction h with
  | refl => exact ⟨hv, s, P, hrel, hs⟩
  | tail _ hstep ih =>
    obtain ⟨i, inp, ⟨hok, hsafe⟩, hstep⟩ := hstep
    obtain ⟨hv₁, s₁, P₁, hrel₁, hs₁⟩ := ih
    obtain ⟨hi, hm, e, he, rfl⟩ := step_eq_some hstep
    obtain ⟨s', P', hsteps, hrel', _⟩ := hrel₁.step hv₁ hi hok hsafe hm he
    exact ⟨hv₁.update hok hi hm he, s', P', hrel', hs₁.grows hsteps.grows⟩

/-- A write that is acknowledged after its commit survives: at that moment a majority of the
    members holds its entry, and in every continuation every node that applies its index applies
    this command. -/
theorem acknowledged_writes_survive {c c' : Cluster Id} (h : Reachable cfg protocolStep c) {i : Id}
    {idx : ℕ} {term : ℤ} {cmd : Command} (hret : (c.proc i).returnsCommitted idx term cmd)
    (hstep : c.step cfg i (.returnPropose idx term cmd) = some c') :
    (∃ V : List Id, V.Nodup ∧ cfg.members.length / 2 + 1 ≤ V.length ∧
      ∀ q ∈ V, q ∈ cfg.members ∧ (c.proc q).node.holdsEntry idx ⟨term, cmd⟩) ∧
    ∀ c'', Continues cfg protocolStep c' c'' → ∀ y cmd', .applied y idx cmd' ∈ c''.events →
      cmd' = cmd := by
  obtain ⟨hv, s, P, hrel⟩ := h.refines
  obtain ⟨hi, hm, e, he, rfl⟩ := step_eq_some hstep
  have hp := hrel.proc i hi
  have htask : .proposed idx term cmd ∈ (c.proc i).tasks := by
    simp only [Process.step] at he
    split at he <;> cases he
    assumption
  obtain ⟨hidx, hen⟩ := hp.returned htask hret
  refine ⟨hrel.majority_holds hp.node.committed hen, ?_⟩
  have hshows : Shows cfg.setting s idx cmd := ⟨_, _, _, hp.node.committed, hidx, hen, rfl⟩
  have hkeep : c.keepsVotes i (.returnPropose idx term cmd) := fun hf => Bool.false_ne_true hf.1
  have hcont : Continues cfg protocolStep c (c.update i e) :=
    .single ⟨i, .returnPropose idx term cmd, ⟨hkeep, rfl⟩, hstep⟩
  intro c'' hc'' y cmd' hy
  obtain ⟨_, s'', P'', hrel'', hs''⟩ := Continues.shows (.trans hcont hc'') hv hrel hshows
  have hy' : Shows cfg.setting s'' idx cmd' := hrel''.events _ hy
  exact hy'.unique hrel''.sound hs''

theorem Continues.of_run {ok : Cluster Id → Id → Input Id → Prop}
    [∀ c i inp, Decidable (ok c i inp)] {acts : List (Id × Input Id)} {c c' : Cluster Id}
    (h : c.run cfg ok acts = some c') : Continues cfg ok c c' := by
  induction acts generalizing c with
  | nil => cases h; exact .refl
  | cons a rest ih =>
    simp only [Cluster.run] at h
    split_ifs at h with ho
    obtain ⟨d, hd, h⟩ := Option.bind_eq_some_iff.mp h
    exact .head ⟨a.1, a.2, ho, hd⟩ (ih h)

/-- Node 0 proposes a write, persists it, replicates it to node 1 and commits it. -/
def committedProposal : List (Fin 3 × Input (Fin 3)) :=
  let full := ⟨1, 0, 0, 0, [⟨1, putCommand 7⟩], 0⟩
  [(0, .replicate 1), (0, .appendError 1 ⟨1, 0, 0, 0, [], 0⟩), (0, .propose (putCommand 7)),
   (0, .persistPropose 1 1 (putCommand 7) true), (0, .replicate 1), (1, .appendEntries full),
   (1, .persistAppend full ⟨1, true⟩ true), (0, .appendResponse 1 full ⟨1, true⟩)]

/-- Node 0 proposes a write and persists it. -/
def localProposal : List (Fin 3 × Input (Fin 3)) :=
  [(0, .propose (putCommand 7)), (0, .persistPropose 1 1 (putCommand 7) true)]

/-- Node 1 is elected in term 2 with the vote of node 2 and commits another write. -/
def otherWrite : List (Fin 3 × Input (Fin 3)) :=
  let req := ⟨2, 1, 0, 0⟩
  let full := ⟨2, 1, 0, 0, [⟨2, putCommand 8⟩], 0⟩
  [(1, .startElection), (1, .persistElection true),
   (2, .requestVote req), (2, .persistVote req ⟨2, true⟩ true),
   (1, .voteResponse 2 req ⟨2, true⟩), (1, .endElection),
   (1, .replicate 2), (1, .appendError 2 ⟨2, 1, 0, 0, [], 0⟩), (1, .propose (putCommand 8)),
   (1, .replicate 2), (2, .appendEntries full), (2, .persistAppend full ⟨2, true⟩ true),
   (1, .appendResponse 2 full ⟨2, true⟩), (1, .applyPick), (1, .applyCheck), (1, .applyRun)]

theorem acknowledged_writes_survive_committed :
    ∃ c c', Reachable Config.three protocolStep c ∧
      (c.proc 0).returnsCommitted 1 1 (putCommand 7) ∧
      c.step Config.three 0 (.returnPropose 1 1 (putCommand 7)) = some c' ∧
      ∀ c'', Continues Config.three protocolStep c' c'' → ∀ y cmd', .applied y 1 cmd' ∈ c''.events →
        cmd' = putCommand 7 := by
  have hrun : ((init Config.three).run Config.three protocolStep
      (firstElection ++ committedProposal)).map (fun c =>
        (decide ((c.proc 0).returnsCommitted 1 1 (putCommand 7)),
          (c.step Config.three 0 (.returnPropose 1 1 (putCommand 7))).isSome)) =
        some (true, true) := by
    decide +kernel
  obtain ⟨c, hc, he⟩ := Option.map_eq_some_iff.mp hrun
  have hret := of_decide_eq_true (congrArg Prod.fst he)
  obtain ⟨c', hc'⟩ := Option.isSome_iff_exists.mp (congrArg Prod.snd he)
  have hreach := Reachable.init.run hc
  exact ⟨c, c', hreach, hret, hc', (acknowledged_writes_survive hreach hret hc').2⟩

/-- A write is acknowledged while its entry is on one node of three, and another command is
    applied at its index later: in a run within the protocol, with every `Save` succeeding and
    without restarts. -/
theorem acknowledged_write_lost :
    let ok : Cluster (Fin 3) → Fin 3 → Input (Fin 3) → Prop :=
      fun c i inp => c.protocolStep i inp ∧ inp.saved = true ∧ inp ≠ .restart
    ∃ c c' c'', Reachable Config.three ok c ∧
      c.step Config.three 0 (.returnPropose 1 1 (putCommand 7)) = some c' ∧
      (∀ q, (c.proc q).node.holdsEntry 1 ⟨1, putCommand 7⟩ → q = 0) ∧
      Continues Config.three ok c' c'' ∧ .applied 1 1 (putCommand 8) ∈ c''.events ∧
      putCommand 8 ≠ putCommand 7 := by
  intro ok
  have hrun : ((init Config.three).run Config.three ok (firstElection ++ localProposal)).map
      (fun c => (decide (∀ q, (c.proc q).node.holdsEntry 1 ⟨1, putCommand 7⟩ → q = 0),
        (c.step Config.three 0 (.returnPropose 1 1 (putCommand 7))).bind fun c' =>
          (c'.run Config.three ok otherWrite).map (·.events))) =
      some (true, some [.becameLeader 0 1, .returned 0 1 1 (putCommand 7), .becameLeader 1 2,
        .applied 1 1 (putCommand 8)]) := by
    decide +kernel
  obtain ⟨c, hc, he⟩ := Option.map_eq_some_iff.mp hrun
  have hholds := of_decide_eq_true (congrArg Prod.fst he)
  obtain ⟨c', hc', he'⟩ := Option.bind_eq_some_iff.mp (congrArg Prod.snd he)
  obtain ⟨c'', hc'', he''⟩ := Option.map_eq_some_iff.mp he'
  exact ⟨c, c', c'', Reachable.init.run hc, hc', hholds, .of_run hc'', by simp [he''], by decide⟩

end Cluster

end KvStore.Raft
