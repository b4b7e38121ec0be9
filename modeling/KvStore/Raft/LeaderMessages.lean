import KvStore.Raft.ElectionQuorum
import KvStore.Raft.StateMachineSafety

/-!
# Who speaks as a leader

`AppendEntries` and `InstallSnapshot` requests carry the term and the name of a leader. The
request of `replicateToPeer` is built in the section that checks the role. `installSnapshot`
checks the role in one section, reads the snapshot, and builds the request in a later section
that does not look at the role again (pkg/raft/snapshot.go:92).

* `Cluster.only_leaders_speak`: in every run in which that later section finds the node still
  leading, every such request was built by the leader of its term; and exactly the steps that
  meet this condition send none but such requests.
* `Cluster.deposed_leader_speaks`: a deposed leader sends a snapshot in the name of the next
  term.
-/

namespace KvStore.Raft

open KvStore.Storage (Bytes)

variable {Id : Type} [DecidableEq Id]

/-- The term and the leader that a request of a leader names. -/
def Msg.speaker : Msg Id → Option (ℤ × Id)
  | .appendReq _ req => some (req.term, req.leaderID)
  | .snapReq _ req => some (req.term, req.leaderID)
  | _ => none

/-- The peer that the section sends a snapshot to, if it does. -/
def Input.snapshotPeer? : Input Id → Option Id
  | .snapshotSend peer _ _ _ => some peer
  | _ => none

namespace Process

variable {p : Process Id} {inp : Input Id} {e : Effect Id}

/-- If the section sends a snapshot then the node leads. -/
def SendsAsLeader (p : Process Id) : Input Id → Prop
  | .snapshotSend peer _ _ _ => p.node.replState.inFlight peer = false → p.node.role = .leader
  | _ => True

theorem sendsAsLeader_iff (p : Process Id) (inp : Input Id) :
    (∀ peer ∈ inp.snapshotPeer?, p.node.replState.inFlight peer = false → p.node.role = .leader) ↔
      p.SendsAsLeader inp := by
  cases inp <;> simp [Input.snapshotPeer?, SendsAsLeader]

instance (p : Process Id) (inp : Input Id) : Decidable (p.SendsAsLeader inp) :=
  decidable_of_iff _ (p.sendsAsLeader_iff inp)

/-- The section of `installSnapshot` that builds the request. -/
theorem sent_of_snapshotSend {peer : Id} {idx : ℕ} {label : ℤ} {data : Bytes}
    (hstep : p.step (.snapshotSend peer idx label data) = some e) :
    e.sent = if p.node.replState.inFlight peer = false then
      [.snapReq peer (p.node.snapshotRequest idx label data)] else [] := by
  simp only [step] at hstep
  split at hstep <;> try contradiction
  split at hstep <;> cases hstep
  · next hf => rw [if_neg (by simp [hf])]
  · next hf => rw [if_pos (Bool.eq_false_iff.mpr hf)]

/-- A section sends only requests of the leader of their term exactly if it does not send a
    snapshot without leading. -/
theorem speaks_iff (hstep : p.step inp = some e) :
    (∀ m ∈ e.sent, ∀ T n, m.speaker = some (T, n) →
      n = p.node.id ∧ p.node.role = .leader ∧ p.node.term = T) ↔ p.SendsAsLeader inp := by
  constructor
  · intro h
    unfold SendsAsLeader
    split
    · next peer idx label data =>
      intro hf
      have hsent := sent_of_snapshotSend hstep
      rw [if_pos hf] at hsent
      exact (h _ (by rw [hsent]; exact List.mem_singleton_self _) _ _ rfl).2.1
    · trivial
  · intro h m hm T n hsp
    cases send_of_step hstep hm with
    | appendReq peer hl _ _ =>
      cases hsp
      exact ⟨rfl, hl, rfl⟩
    | snapReq peer idx label data _ =>
      cases hsp
      have hf : p.node.replState.inFlight peer = false := by
        by_contra hf
        rw [sent_of_snapshotSend hstep, if_neg hf] at hm
        cases hm
      exact ⟨rfl, h hf, rfl⟩
    | _ => cases hsp

end Process

namespace Cluster

variable {cfg : Config Id} {c c' : Cluster Id} {i : Id} {inp : Input Id}

/-- If the step sends a snapshot then its node leads. -/
def sendsAsLeader (c : Cluster Id) (i : Id) (inp : Input Id) : Prop :=
  (c.proc i).SendsAsLeader inp

instance (c : Cluster Id) (i : Id) (inp : Input Id) : Decidable (c.sendsAsLeader i inp) :=
  inferInstanceAs (Decidable ((c.proc i).SendsAsLeader inp))

/-- The messages that a step from `c` to `c'` has added. -/
def added (c c' : Cluster Id) : List (Msg Id) := c'.net.drop c.net.length

theorem added_update (c : Cluster Id) (i : Id) (e : Process.Effect Id) :
    c.added (c.update i e) = e.sent := List.drop_left

/-- The message was built by a step of `n`, which led the term `T` when it built it. -/
def BuiltByLeader (cfg : Config Id) (c : Cluster Id) (m : Msg Id) (T : ℤ) (n : Id) : Prop :=
  ∃ c₁ c₂ inp, Earlier cfg c₁ c ∧ Earlier cfg c₂ c ∧ c₁.step cfg n inp = some c₂ ∧
    m ∈ c₁.added c₂ ∧ (c₁.proc n).node.role = .leader ∧ (c₁.proc n).node.term = T

/-- Every request of a leader has been built by it. -/
def Spoken (cfg : Config Id) (c : Cluster Id) : Prop :=
  Reachable cfg anyStep c ∧
    ∀ m ∈ c.net, ∀ T n, m.speaker = some (T, n) → BuiltByLeader cfg c m T n

theorem Spoken.update (h : Spoken cfg c) {e : Process.Effect Id} (hi : i ∈ cfg.members)
    (hm : ∀ m, inp.msg i = some m → m ∈ c.net) (hstep : (c.proc i).step inp = some e)
    (hlead : c.sendsAsLeader i inp) : Spoken cfg (c.update i e) := by
  obtain ⟨hreach, hnet⟩ := h
  have hs := step_update hi hm hstep
  refine ⟨hreach.step trivial hs, fun m hmem T n hsp => ?_⟩
  rcases (mem_update_net ..).mp hmem with hold | hnew
  · obtain ⟨c₁, c₂, inp', h1, h2, hbuilt⟩ := hnet m hold T n hsp
    exact ⟨c₁, c₂, inp', h1.tail hs, h2.tail hs, hbuilt⟩
  · obtain ⟨hn, hrole, hterm⟩ := (Process.speaks_iff hstep).mpr hlead m hnew T n hsp
    rw [(quorumInv hreach).id_eq i] at hn
    subst hn
    refine ⟨c, c.update n e, inp, ⟨hreach, .single ⟨n, inp, hs⟩⟩, .of_step hreach hs, hs, ?_,
      hrole, hterm⟩
    rw [added_update]
    exact hnew

/-- In every run in which a node still leads when it builds an `InstallSnapshot` request, every
    request of a leader was built by a node that led the term the request names. A step from a
    state of such a run adds only such requests exactly if it meets the condition. -/
theorem only_leaders_speak (h : Reachable cfg sendsAsLeader c) :
    (∀ m ∈ c.net, ∀ T n, m.speaker = some (T, n) → BuiltByLeader cfg c m T n) ∧
      ∀ i inp c', c.step cfg i inp = some c' →
        ((∀ m ∈ c.added c', ∀ T n, m.speaker = some (T, n) →
          n = i ∧ (c.proc i).node.role = .leader ∧ (c.proc i).node.term = T) ↔
            c.sendsAsLeader i inp) := by
  have hany : Reachable cfg anyStep c := h.mono fun _ _ _ _ => trivial
  have hinit : Spoken cfg (Cluster.init cfg) := ⟨.init, by intro _ hm; cases hm⟩
  have hspoken : Spoken cfg c :=
    h.invariant hinit fun _ _ _ _ hinv hok hi hm hs => hinv.update hi hm hs hok
  refine ⟨hspoken.2, fun i inp c' hstep => ?_⟩
  obtain ⟨-, -, e, he, rfl⟩ := step_eq_some hstep
  have hiff := Process.speaks_iff he
  rw [(quorumInv hany).id_eq i] at hiff
  rw [added_update]
  exact hiff

/-! ## A snapshot sent by a leader, and one sent by a deposed leader -/

/-- Node 0 compacts its log and is about to send node 2 its snapshot. -/
def snapshotInHand : List (Fin 3 × Input (Fin 3)) :=
  [(0, .applyDone), (0, .compactIndex), (0, .compactTerm), (0, .compactLog), (0, .replicate 2),
   (0, .snapshotBegin 2), (0, .snapshotIndex 2), (0, .snapshotTerm 2 1 [])]

theorem only_leaders_speak_snapshot :
    ∃ c, Reachable Config.three sendsAsLeader c ∧ .snapReq 2 ⟨1, 0, 1, 1, []⟩ ∈ c.net ∧
      BuiltByLeader Config.three c (.snapReq 2 ⟨1, 0, 1, 1, []⟩) 1 0 := by
  have hrun : ((init Config.three).run Config.three sendsAsLeader
      (firstElection ++ firstWrite ++ snapshotInHand ++ [(0, .snapshotSend 2 1 1 [])])).map
        (fun c => c.net.getLast?) = some (some (.snapReq 2 ⟨1, 0, 1, 1, []⟩)) := by
    decide +kernel
  obtain ⟨c, hc, hlast⟩ := Option.map_eq_some_iff.mp hrun
  have hreach := Reachable.init.run hc
  have hmem := List.mem_of_getLast? hlast
  exact ⟨c, hreach, hmem, (only_leaders_speak hreach).1 _ hmem 1 0 rfl⟩

/-- Node 1 campaigns in term 2 and node 0 follows it into the term. -/
def deposition : List (Fin 3 × Input (Fin 3)) :=
  [(1, .startElection), (1, .persistElection true), (0, .requestVote ⟨2, 1, 1, 1⟩)]

/-- Node 0 names itself the leader of term 2, in which it is a follower. -/
theorem deposed_leader_speaks :
    ∃ c c', Reachable Config.three (fun _ _ inp => inp.saved = true ∧ inp ≠ .restart) c ∧
      c.step Config.three 0 (.snapshotSend 2 1 1 []) = some c' ∧
      c.added c' = [.snapReq 2 ⟨2, 0, 1, 1, []⟩] ∧ (c.proc 0).node.role = .follower ∧
      .becameLeader 0 2 ∉ c'.events := by
  have hrun : ((init Config.three).run Config.three (fun _ _ inp => inp.saved = true ∧ inp ≠ .restart)
      (firstElection ++ firstWrite ++ snapshotInHand ++ deposition)).bind (fun c =>
        (c.step Config.three 0 (.snapshotSend 2 1 1 [])).map fun c' =>
          (c.added c', (c.proc 0).node.role, c'.events)) =
      some ([.snapReq 2 ⟨2, 0, 1, 1, []⟩], .follower,
        [.becameLeader 0 1, .applied 0 1 (putCommand 7)]) := by
    decide +kernel
  obtain ⟨c, hc, hlast⟩ := Option.bind_eq_some_iff.mp hrun
  obtain ⟨c', hstep, hshow⟩ := Option.map_eq_some_iff.mp hlast
  simp only [Prod.mk.injEq] at hshow
  obtain ⟨hadded, hrole, hev⟩ := hshow
  refine ⟨c, c', Reachable.init.run hc, hstep, hadded, hrole, ?_⟩
  rw [hev]
  decide

end Cluster

end KvStore.Raft
