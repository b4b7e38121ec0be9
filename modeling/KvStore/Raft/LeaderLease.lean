import KvStore.Raft.DurableAcks
import KvStore.Raft.ElectionQuorum
import KvStore.Raft.MatchIndex
import KvStore.Transition.Reach

/-!
# How long a deposed leader stays

`Loop` (`pkg/raft/election.go`) makes a leader step down when no majority has acknowledged it for
`electionTimeoutMin`. It runs the elections and the heartbeats one after the other: on a tick it
calls `sendHeartbeats`, which waits for one `replicateToPeer` per peer and takes the time if a
majority has acknowledged, and then compares that time with the clock. Here the clock is added to
the sections of `Cluster`.

A call of `replicateToPeer` is an RPC: what it returns was said by the peer after the call. The
network of `Cluster` does not know which of two equal calls an answer belongs to, so this is asked
of the step that counts the answer (`Round.inTerm`).

* `StoredTerms`: a majority has stored the term of each leader before it is elected.
* `Timed.Inv`: the members that a heartbeat round counts have been in its term since it began.
* `deposed_leader_bounded`: a leader that stays after the check has been deposed for no longer than
  `electionTimeoutMin` and the time its last counted round took.
-/

namespace KvStore.Raft

open KvStore.Transition (Reach)

variable {Id : Type}

/-! ## The loop -/

/-- `electionTimeoutMin` in milliseconds (pkg/raft/types.go:20). -/
def electionTimeoutMin : ℕ := 500

/-- `sendHeartbeats` (pkg/raft/election.go:139) in its `wg.Wait`: when it has begun and in which
    term, the peers whose goroutine still runs, and those that have acknowledged. `inTerm` are the
    members that have been in the term since it has begun. -/
structure Round (Id : Type) where
  started : ℕ
  term : ℤ
  waiting : List Id
  acks : List Id
  inTerm : List Id

/-- Where `Loop` (pkg/raft/election.go:22) stands. -/
inductive LoopPhase (Id : Type) where
  /-- in the `select`, or in `startElection` -/
  | select
  /-- before `sendHeartbeats` -/
  | ticked
  | round (r : Round Id)
  /-- before the look at `lastQuorumAck` -/
  | check

/-- `lastQuorumAck` is `acked`; it was taken at the end of the round that has begun at `started` in
    the term `term`. -/
structure QuorumAck where
  acked : ℕ
  started : ℕ
  term : ℤ

structure Loop (Id : Type) where
  phase : LoopPhase Id
  /-- `none` is the zero time -/
  lastQuorumAck : Option QuorumAck

def Loop.start : Loop Id := { phase := .select, lastQuorumAck := none }

/-- A node has become leader of the term at this time. -/
structure Elected (Id : Type) where
  node : Id
  term : ℤ
  time : ℕ

/-- The cluster with the loops of its members and a clock. -/
structure Timed (Id : Type) where
  cluster : Cluster Id
  now : ℕ
  loop : Id → Loop Id
  elected : List (Elected Id)

inductive TimedAct (Id : Type) where
  | pass (d : ℕ)
  /-- any section of a member -/
  | run (i : Id) (inp : Input Id)
  /-- `case <-heartbeat.C` on a leader -/
  | tick (i : Id)
  /-- `sendHeartbeats` starts its goroutines -/
  | spawn (i : Id)
  /-- a goroutine handles a successful answer in the term of the node and returns `true` -/
  | ack (i : Id) (inp : Input Id)
  /-- a goroutine returns `false` -/
  | fail (i q : Id)
  /-- the end of `sendHeartbeats` -/
  | close (i : Id)
  /-- the look at `lastQuorumAck` (pkg/raft/election.go:57) -/
  | check (i : Id)

/-- The sections of `startElection`, which `Loop` runs itself. -/
def Input.elects : Input Id → Bool
  | .startElection | .persistElection _ | .voteResponse _ _ _ | .voteError _ | .endElection => true
  | _ => false

/-- The event is the election of a leader at the time `now`. -/
def Event.elected? (now : ℕ) : Event Id → Option (Elected Id)
  | .becameLeader node term => some ⟨node, term, now⟩
  | _ => none

variable [DecidableEq Id]

namespace Timed

/-- The members that are in the term. -/
def membersIn (cfg : Config Id) (c : Cluster Id) (T : ℤ) : List Id :=
  cfg.members.filter fun q => (c.proc q).node.term = T

/-- A round that is open takes note of the members that are in its term. -/
def observe (cfg : Config Id) (c : Cluster Id) (l : Loop Id) : Loop Id :=
  match l.phase with
  | .round r => { l with phase := .round { r with inTerm := r.inTerm ++ membersIn cfg c r.term } }
  | _ => l

def init (cfg : Config Id) : Timed Id :=
  { cluster := .init cfg, now := 0, loop := fun _ => .start, elected := [] }

/-- The cluster takes a step of `i`; a restart begins a new loop. -/
def advance (cfg : Config Id) (s : Timed Id) (i : Id) (inp : Input Id) : Option (Timed Id) :=
  (s.cluster.step cfg i inp).map fun c =>
    { s with
      cluster := c
      loop := fun j => if inp = .restart ∧ j = i then .start else observe cfg c (s.loop j)
      elected := s.elected ++
        (c.events.drop s.cluster.events.length).filterMap (Event.elected? s.now) }

def setLoop (s : Timed Id) (i : Id) (l : Loop Id) : Timed Id :=
  { s with loop := Function.update s.loop i l }

def setPhase (s : Timed Id) (i : Id) (ph : LoopPhase Id) : Timed Id :=
  s.setLoop i { s.loop i with phase := ph }

/-- The answer is one that the round may count. -/
def counts (s : Timed Id) (i : Id) (r : Round Id) (a : Ack Id) : Prop :=
  a.peer ∈ r.waiting ∧ a.term = (s.cluster.proc i).node.term ∧ (a.term = r.term → a.peer ∈ r.inTerm)

instance (s : Timed Id) (i : Id) (r : Round Id) (a : Ack Id) : Decidable (s.counts i r a) :=
  inferInstanceAs (Decidable (_ ∧ _ ∧ _))

/-- `time.Since(n.lastQuorumAck) > electionTimeoutMin`. -/
def overdue (s : Timed Id) (i : Id) : Bool :=
  match (s.loop i).lastQuorumAck with
  | none => true
  | some a => a.acked + electionTimeoutMin < s.now

def step (cfg : Config Id) (s : Timed Id) : TimedAct Id → Option (Timed Id)
  | .pass d => some { s with now := s.now + d }
  | .run i inp =>
    match (s.loop i).phase with
    | .select => if inp ≠ .stepDown then s.advance cfg i inp else none
    | _ => if inp ≠ .stepDown ∧ inp.elects = false then s.advance cfg i inp else none
  | .tick i =>
    match (s.loop i).phase with
    | .select =>
      if (s.cluster.proc i).node.role = .leader ∧ (s.cluster.proc i).election.isNone then
        some (s.setPhase i .ticked)
      else none
    | _ => none
  | .spawn i =>
    match (s.loop i).phase with
    | .ticked =>
      let n := (s.cluster.proc i).node
      if n.role = .leader then
        some (s.setPhase i (.round
          { started := s.now, term := n.term, waiting := n.peers, acks := []
            inTerm := membersIn cfg s.cluster n.term }))
      else some (s.setPhase i .check)
    | _ => none
  | .ack i inp =>
    match (s.loop i).phase, inp.ack with
    | .round r, some a =>
      if s.counts i r a then
        (s.setPhase i (.round
          { r with waiting := r.waiting.erase a.peer, acks := a.peer :: r.acks })).advance cfg i inp
      else none
    | _, _ => none
  | .fail i q =>
    match (s.loop i).phase with
    | .round r => some (s.setPhase i (.round { r with waiting := r.waiting.erase q }))
    | _ => none
  | .close i =>
    match (s.loop i).phase with
    | .round r =>
      if r.waiting = [] then
        let n := (s.cluster.proc i).node
        if n.role = .leader ∧ r.acks.length + 1 ≥ majority n.peers then
          some (s.setLoop i
            { phase := .check, lastQuorumAck := some ⟨s.now, r.started, r.term⟩ })
        else some (s.setPhase i .check)
      else none
    | _ => none
  | .check i =>
    match (s.loop i).phase with
    | .check =>
      if (s.cluster.proc i).node.role = .leader ∧ s.overdue i = true then
        (s.setPhase i .select).advance cfg i .stepDown
      else some (s.setPhase i .select)
    | _ => none

end Timed

/-! ## The terms in the stores -/

namespace Cluster

variable {cfg : Config Id} {c : Cluster Id} {i : Id} {inp : Input Id} {e : Process.Effect Id}

/-- Every vote that is sent, and every campaign, has its term in the store of the voter, which
    only grows: a voter does not fall behind it by a crash. -/
structure StoredTerms (cfg : Config Id) (c : Cluster Id) : Prop where
  quorum : QuorumInv cfg c
  clean : ∀ q, (c.proc q).node.dirty = false → (c.proc q).Clean
  disk : ∀ q, (c.proc q).disk.term ≤ (c.proc q).node.term
  pending : ∀ q req resp, .vote req resp ∈ (c.proc q).tasks → req.term ≤ (c.proc q).node.term
  granted : ∀ q x req resp, .voteResp q x req resp ∈ c.net → resp.voteGranted = true →
    req.term ≤ (c.proc q).disk.term
  campaign : ∀ q el, (c.proc q).election = some el → el.campaigning = true →
    el.req.term ≤ (c.proc q).disk.term

theorem StoredTerms.init (cfg : Config Id) : StoredTerms cfg (Cluster.init cfg) where
  quorum := .init cfg
  clean := by intro _ _; rfl
  disk := by intro _; exact le_refl _
  pending := by intro _ _ _ h; cases h
  granted := by intro _ _ _ _ h; cases h
  campaign := by intro _ _ h; cases h

/-- No store falls behind. -/
theorem StoredTerms.disk_le (h : StoredTerms cfg c) (hstep : (c.proc i).step inp = some e)
    (q : Id) : (c.proc q).disk.term ≤ ((c.update i e).proc q).disk.term := by
  by_cases hq : q = i
  · subst hq
    rw [update_proc_self]
    exact (Process.disk_term_le_of_step (h.disk q) hstep).1
  · rw [update_proc_ne c e hq]

theorem StoredTerms.pending_update (h : StoredTerms cfg c) (hstep : (c.proc i).step inp = some e)
    {req : VoteRequest Id} {resp : VoteResponse} (ht : .vote req resp ∈ e.proc.tasks) :
    req.term ≤ e.proc.node.term := by
  rcases Process.task_of_step hstep ht with ⟨hold, hr⟩ | hspawn
  · exact (h.pending i req resp hold).trans (Process.term_le_of_step hstep hr)
  · cases hspawn with
    | vote _ hg =>
      rw [Process.requestVote_node hstep]
      exact (Node.handleRequestVote_granted hg).1.ge

/-- A granted vote is sent once the node is in the store. -/
theorem StoredTerms.granted_update (h : StoredTerms cfg c) (hstep : (c.proc i).step inp = some e)
    {q x : Id} {req : VoteRequest Id} {resp : VoteResponse}
    (hm : .voteResp q x req resp ∈ e.sent) (hg : resp.voteGranted = true) :
    q = i ∧ req.term ≤ e.proc.disk.term := by
  have hsend := Process.send_of_step hstep hm
  cases hsend with
  | voteDenied _ hd =>
    rw [hd] at hg
    cases hg
  | voteUnsaved _ _ _ _ => cases hg
  | voteSaved _ _ saved ht hs =>
    refine ⟨h.quorum.id_eq i, ?_⟩
    rw [(Process.persistVote_proc hstep).2, Process.persist_disk (h.clean i) hs]
    exact h.pending i req resp ht

theorem StoredTerms.campaign_update (h : StoredTerms cfg c) (hstep : (c.proc i).step inp = some e)
    {el : Election Id} (hel : e.proc.election = some el) (hc : el.campaigning = true) :
    el.req.term ≤ e.proc.disk.term := by
  have hle := (Process.disk_term_le_of_step (h.disk i) hstep).1
  cases Process.electionMove hstep hel with
  | start _ => cases hc
  | keep _ hold => exact (h.campaign i _ hold hc).trans hle
  | count _ _ _ hold _ _ => exact (h.campaign i _ hold hc).trans hle
  | drop _ _ hold => exact (h.campaign i _ hold hc).trans hle
  | launch el₀ saved hold hi hp =>
    subst hi
    have hdisk : e.proc.disk = (c.proc i).node.raftState := by
      simp only [Process.step, hold] at hstep
      split_ifs at hstep
      cases hstep
      exact Process.persist_disk (h.clean i) hp
    rw [hdisk]
    exact (h.quorum.campaign i el₀ hold).term_le

theorem StoredTerms.update (h : StoredTerms cfg c) (hi : i ∈ cfg.members)
    (hm : ∀ m, inp.msg i = some m → m ∈ c.net) (hstep : (c.proc i).step inp = some e) :
    StoredTerms cfg (c.update i e) := by
  have hother : ∀ {q}, q ≠ i → (c.update i e).proc q = c.proc q := update_proc_ne c e
  refine ⟨h.quorum.update hi hm hstep, ?_, ?_, ?_, ?_, ?_⟩
  · intro q
    by_cases hq : q = i
    · subst hq
      rw [update_proc_self]
      exact Process.clean_of_step (h.clean q) hstep
    · rw [hother hq]
      exact h.clean q
  · intro q
    by_cases hq : q = i
    · subst hq
      rw [update_proc_self]
      exact (Process.disk_term_le_of_step (h.disk q) hstep).2
    · rw [hother hq]
      exact h.disk q
  · intro q req resp ht
    by_cases hq : q = i
    · subst hq
      rw [update_proc_self] at ht ⊢
      exact h.pending_update hstep ht
    · rw [hother hq] at ht ⊢
      exact h.pending q req resp ht
  · intro q x req resp hsent hg
    rcases (mem_update_net ..).mp hsent with hold | hnew
    · exact (h.granted q x req resp hold hg).trans (h.disk_le hstep q)
    · obtain ⟨rfl, hle⟩ := h.granted_update hstep hnew hg
      rw [update_proc_self]
      exact hle
  · intro q el hel hc
    by_cases hq : q = i
    · subst hq
      rw [update_proc_self] at hel ⊢
      exact h.campaign_update hstep hel hc
    · rw [hother hq] at hel ⊢
      exact h.campaign q el hel hc

/-- A majority has stored the term `T` or a later one, and none of `X` is in it. -/
def Stored (cfg : Config Id) (c : Cluster Id) (i : Id) (T : ℤ) (X : List Id) : Prop :=
  ∃ U : List Id, U.Nodup ∧ U ⊆ cfg.members ∧ majority (cfg.peers i) ≤ U.length ∧
    ∀ q ∈ U, T ≤ (c.proc q).disk.term ∧ q ∉ X

/-- Whoever becomes leader has its term in the stores of a majority. -/
theorem StoredTerms.won (h : StoredTerms cfg c) (hi : i ∈ cfg.members)
    (hstep : (c.proc i).step inp = some e) {x : Id} {T : ℤ}
    (hev : .becameLeader x T ∈ e.events) : x = i ∧ Stored cfg c i T [] := by
  have hid := h.quorum.id_eq i
  have hpeers := h.quorum.peers_eq i
  cases Process.show_of_step hstep hev with
  | becameLeader el hel hc hv _ ht =>
    obtain ⟨-, -, V, hn, hV, hcount⟩ := h.quorum.tally i el hel
    rw [hpeers] at hv
    refine ⟨hid, i :: V, List.nodup_cons.mpr ⟨fun hiV => ?_, hn⟩, ?_, ?_, ?_⟩
    · exact (peers_nodup hi).1 (hpeers ▸ (hV i hiV).1)
    · exact List.cons_subset.mpr ⟨hi, fun q hq => mem_of_mem_peers hi (hpeers ▸ (hV q hq).1)⟩
    · rw [List.length_cons]
      omega
    · intro q hq
      refine ⟨?_, List.not_mem_nil⟩
      rw [ht]
      rcases List.mem_cons.mp hq with rfl | hq
      · exact h.campaign q el hel hc
      · obtain ⟨-, -, resp, hm, hg⟩ := hV q hq
        exact h.granted q i el.req resp hm hg

end Cluster

/-! ## The invariant -/

namespace Timed

open Cluster (Stored StoredTerms)

variable {cfg : Config Id} {s s' : Timed Id} {c : Cluster Id} {now : ℕ}
  {elected : List (Elected Id)} {i : Id} {inp : Input Id} {e : Process.Effect Id}

/-- What a round of `i` that is open has counted: if the node is still in its term, the members
    behind the acknowledgements have been in it, and so no majority had stored a later term when
    the round began. -/
structure RoundInv (cfg : Config Id) (c : Cluster Id) (now : ℕ) (elected : List (Elected Id))
    (i : Id) (r : Round Id) : Prop where
  started : r.started ≤ now
  term_le : r.term ≤ (c.proc i).node.term
  leads : (c.proc i).node.role = .leader → (c.proc i).node.term = r.term
  nodup : (r.waiting ++ r.acks).Nodup
  peers : r.waiting ++ r.acks ⊆ cfg.peers i
  counted : (c.proc i).node.term = r.term → r.acks ⊆ r.inTerm
  self : i ∈ r.inTerm
  later : ∀ el ∈ elected, el.time < r.started → r.term < el.term →
    Stored cfg c el.node el.term r.inTerm

/-- No leader of a later term was elected before the round that `lastQuorumAck` stands for. -/
structure AckInv (c : Cluster Id) (now : ℕ) (elected : List (Elected Id)) (i : Id) (a : QuorumAck) :
    Prop where
  started : a.started ≤ a.acked
  acked : a.acked ≤ now
  term_le : a.term ≤ (c.proc i).node.term
  later : ∀ el ∈ elected, a.term < el.term → a.started ≤ el.time

structure Inv (cfg : Config Id) (s : Timed Id) : Prop where
  stored : StoredTerms cfg s.cluster
  elected : ∀ el ∈ s.elected, el.node ∈ cfg.members ∧ el.time ≤ s.now ∧
    Stored cfg s.cluster el.node el.term []
  round : ∀ i ∈ cfg.members, ∀ r, (s.loop i).phase = .round r →
    RoundInv cfg s.cluster s.now s.elected i r
  ack : ∀ i ∈ cfg.members, ∀ a, (s.loop i).lastQuorumAck = some a →
    AckInv s.cluster s.now s.elected i a

theorem Inv.init (cfg : Config Id) : Inv cfg (init cfg) where
  stored := .init cfg
  elected := by intro _ h; cases h
  round := by intro _ _ _ h; cases h
  ack := by intro _ _ _ h; cases h

/-- Members in an earlier term are none of those that have stored the later one. -/
theorem stored_membersIn (h : StoredTerms cfg c) {x : Id} {T T' : ℤ} {X : List Id}
    (hs : Stored cfg c x T X) (hlt : T' < T) : Stored cfg c x T (X ++ membersIn cfg c T') := by
  obtain ⟨U, hn, hsub, hcount, hU⟩ := hs
  refine ⟨U, hn, hsub, hcount, fun q hq => ⟨(hU q hq).1, fun hmem => ?_⟩⟩
  rcases List.mem_append.mp hmem with hX | hin
  · exact (hU q hq).2 hX
  · have hterm : (c.proc q).node.term = T' := by simpa using (List.mem_filter.mp hin).2
    have h1 := (hU q hq).1
    have h2 := h.disk q
    omega

theorem stored_update (h : StoredTerms cfg c) (hstep : (c.proc i).step inp = some e) {x : Id}
    {T : ℤ} {X : List Id} (hs : Stored cfg c x T X) : Stored cfg (c.update i e) x T X := by
  obtain ⟨U, hn, hsub, hcount, hU⟩ := hs
  exact ⟨U, hn, hsub, hcount, fun q hq => ⟨(hU q hq).1.trans (h.disk_le hstep q), (hU q hq).2⟩⟩

/-! ### Steps of the loop -/

theorem Inv.pass (h : Inv cfg s) (d : ℕ) : Inv cfg { s with now := s.now + d } where
  stored := h.stored
  elected := by
    intro el hel
    obtain ⟨h1, h2, h3⟩ := h.elected el hel
    exact ⟨h1, h2.trans (Nat.le_add_right _ _), h3⟩
  round := by
    intro j hj r hr
    have hround := h.round j hj r hr
    exact { hround with started := hround.started.trans (Nat.le_add_right _ _) }
  ack := by
    intro j hj a ha
    have hack := h.ack j hj a ha
    exact { hack with acked := hack.acked.trans (Nat.le_add_right _ _) }

theorem setLoop_self (s : Timed Id) (i : Id) (l : Loop Id) : (s.setLoop i l).loop i = l := by
  simp [setLoop]

theorem setLoop_ne (s : Timed Id) {i j : Id} (l : Loop Id) (h : j ≠ i) :
    (s.setLoop i l).loop j = s.loop j := by simp [setLoop, h]

theorem Inv.setLoop (h : Inv cfg s) {l : Loop Id}
    (hround : ∀ r, l.phase = .round r → i ∈ cfg.members →
      RoundInv cfg s.cluster s.now s.elected i r)
    (hack : ∀ a, l.lastQuorumAck = some a → i ∈ cfg.members →
      AckInv s.cluster s.now s.elected i a) : Inv cfg (s.setLoop i l) where
  stored := h.stored
  elected := h.elected
  round := by
    intro j hj r hr
    by_cases hji : j = i
    · subst hji
      rw [setLoop_self] at hr
      exact hround r hr hj
    · rw [setLoop_ne s l hji] at hr
      exact h.round j hj r hr
  ack := by
    intro j hj a ha
    by_cases hji : j = i
    · subst hji
      rw [setLoop_self] at ha
      exact hack a ha hj
    · rw [setLoop_ne s l hji] at ha
      exact h.ack j hj a ha

theorem Inv.setPhase (h : Inv cfg s) {ph : LoopPhase Id}
    (hround : ∀ r, ph = .round r → i ∈ cfg.members →
      RoundInv cfg s.cluster s.now s.elected i r) : Inv cfg (s.setPhase i ph) :=
  h.setLoop hround fun a ha hi => h.ack i hi a ha

/-- A round that begins. -/
theorem Inv.spawn (h : Inv cfg s) (hi : i ∈ cfg.members) :
    RoundInv cfg s.cluster s.now s.elected i
      { started := s.now, term := (s.cluster.proc i).node.term
        waiting := (s.cluster.proc i).node.peers, acks := []
        inTerm := membersIn cfg s.cluster (s.cluster.proc i).node.term } where
  started := le_refl _
  term_le := le_refl _
  leads := fun _ => rfl
  nodup := by
    rw [List.append_nil, h.stored.quorum.peers_eq i]
    exact (Cluster.peers_nodup hi).2
  peers := by
    rw [List.append_nil, h.stored.quorum.peers_eq i]
    exact List.Subset.refl _
  counted := fun _ => List.nil_subset _
  self := List.mem_filter.mpr ⟨hi, by simp⟩
  later := by
    intro el hel _ hlt
    exact stored_membersIn h.stored (h.elected el hel).2.2 hlt

/-- A round counts an answer of its own call. -/
theorem RoundInv.count {r : Round Id} {a : Ack Id} (h : RoundInv cfg c now elected i r)
    (hw : a.peer ∈ r.waiting) (hterm : a.term = (c.proc i).node.term)
    (hin : a.term = r.term → a.peer ∈ r.inTerm) :
    RoundInv cfg c now elected i
      { r with waiting := r.waiting.erase a.peer, acks := a.peer :: r.acks } := by
  have hperm : (r.waiting.erase a.peer ++ a.peer :: r.acks).Perm (r.waiting ++ r.acks) :=
    List.perm_middle.trans ((List.perm_cons_erase hw).symm.append_right r.acks)
  exact { h with
    nodup := hperm.nodup_iff.mpr h.nodup
    peers := fun q hq => h.peers (hperm.subset hq)
    counted := fun ht => List.cons_subset.mpr ⟨hin (hterm.trans ht), h.counted ht⟩ }

/-- A goroutine of a round returns without an acknowledgement. -/
theorem RoundInv.drop {r : Round Id} (h : RoundInv cfg c now elected i r) (q : Id) :
    RoundInv cfg c now elected i { r with waiting := r.waiting.erase q } := by
  have hsub : (r.waiting.erase q ++ r.acks).Sublist (r.waiting ++ r.acks) :=
    List.erase_sublist.append_right r.acks
  exact { h with nodup := h.nodup.sublist hsub, peers := fun x hx => h.peers (hsub.subset hx) }

/-- A majority has acknowledged: a majority that had stored a later term before the round began
    would have a member among those that have been in the term of the round. -/
theorem Inv.close (h : Inv cfg s) (hi : i ∈ cfg.members) {r : Round Id}
    (hr : (s.loop i).phase = .round r) (hlead : (s.cluster.proc i).node.role = .leader)
    (hcount : majority (s.cluster.proc i).node.peers ≤ r.acks.length + 1) :
    AckInv s.cluster s.now s.elected i ⟨s.now, r.started, r.term⟩ := by
  have hround := h.round i hi r hr
  refine ⟨hround.started, le_refl _, hround.term_le, fun el hel hlt => ?_⟩
  by_contra hbefore
  obtain ⟨U, hn, hsub, hmaj, hU⟩ := hround.later el hel (not_le.mp hbefore) hlt
  have hpeers : r.acks ⊆ cfg.peers i :=
    fun q hq => hround.peers (List.mem_append_right _ hq)
  have hself : i ∉ r.acks := fun hmem => (Cluster.peers_nodup hi).1 (hpeers hmem)
  have hacks : r.acks.Nodup := (List.nodup_append.mp hround.nodup).2.1
  rw [h.stored.quorum.peers_eq i] at hcount
  obtain ⟨x, hxU, hx⟩ := Cluster.majority_inter (h.elected el hel).1 hi hn
    (List.nodup_cons.mpr ⟨hself, hacks⟩) (fun q hq => hsub hq)
    (List.forall_mem_cons.mpr ⟨hi, fun q hq => Cluster.mem_of_mem_peers hi (hpeers hq)⟩)
    hmaj hcount
  refine (hU x hxU).2 ?_
  rcases List.mem_cons.mp hx with rfl | hx
  · exact hround.self
  · exact hround.counted (hround.leads hlead) hx

/-! ### Steps of the cluster -/

theorem advance_eq_some (h : s.advance cfg i inp = some s') :
    i ∈ cfg.members ∧ (∀ m, inp.msg i = some m → m ∈ s.cluster.net) ∧
      ∃ e, (s.cluster.proc i).step inp = some e ∧ s' =
        { cluster := s.cluster.update i e, now := s.now
          loop := fun j => if inp = .restart ∧ j = i then .start
            else observe cfg (s.cluster.update i e) (s.loop j)
          elected := s.elected ++ e.events.filterMap (Event.elected? s.now) } := by
  obtain ⟨c, hc, rfl⟩ := Option.map_eq_some_iff.mp h
  obtain ⟨hi, hm, e, he, rfl⟩ := Cluster.step_eq_some hc
  refine ⟨hi, hm, e, he, ?_⟩
  rw [show (s.cluster.update i e).events.drop s.cluster.events.length = e.events from
    List.drop_left]

omit [DecidableEq Id] in
theorem observe_round {l : Loop Id} {r : Round Id} (h : (observe cfg c l).phase = .round r) :
    ∃ r₀, l.phase = .round r₀ ∧ r = { r₀ with inTerm := r₀.inTerm ++ membersIn cfg c r₀.term } := by
  unfold observe at h
  split at h
  · next r₀ hr₀ =>
    cases h
    exact ⟨r₀, hr₀, rfl⟩
  · next hnot => exact absurd h (hnot r)

omit [DecidableEq Id] in
theorem observe_lastQuorumAck (cfg : Config Id) (c : Cluster Id) (l : Loop Id) :
    (observe cfg c l).lastQuorumAck = l.lastQuorumAck := by
  unfold observe
  split <;> rfl

omit [DecidableEq Id] in
theorem elected_of_mem {events : List (Event Id)} {el : Elected Id}
    (h : el ∈ events.filterMap (Event.elected? now)) :
    el.time = now ∧ .becameLeader el.node el.term ∈ events := by
  obtain ⟨ev, hev, hel⟩ := List.mem_filterMap.mp h
  cases ev with
  | becameLeader x T =>
    cases hel
    exact ⟨rfl, hev⟩
  | applied _ _ _ => cases hel
  | returned _ _ _ _ => cases hel

/-- A round through a section of any member: the node of the round can only have left its term, and
    a leader that is elected now is not elected before the round. -/
theorem RoundInv.update {j : Id} {r : Round Id} (h : RoundInv cfg s.cluster s.now s.elected j r)
    (hst : StoredTerms cfg s.cluster) (hst' : StoredTerms cfg (s.cluster.update i e))
    (hstep : (s.cluster.proc i).step inp = some e)
    (hself : j = i → inp ≠ .restart ∧ inp ≠ .endElection) :
    RoundInv cfg (s.cluster.update i e) s.now
      (s.elected ++ e.events.filterMap (Event.elected? s.now)) j
      { r with inTerm := r.inTerm ++ membersIn cfg (s.cluster.update i e) r.term } := by
  -- what the section does to the node of the round
  have hnode : (s.cluster.proc j).node.term ≤ ((s.cluster.update i e).proc j).node.term ∧
      (((s.cluster.update i e).proc j).node.role = .leader →
        ((s.cluster.update i e).proc j).node.term = r.term) := by
    by_cases hj : j = i
    · subst hj
      obtain ⟨hr, hend⟩ := hself rfl
      rw [Cluster.update_proc_self]
      refine ⟨Process.term_le_of_step hstep hr, fun hlead => ?_⟩
      cases Process.leadMove hstep hlead with
      | keep hl ht _ => exact ht.trans (h.leads hl)
      | count _ hl ht _ _ _ => exact ht.trans (h.leads hl)
      | elected hi _ _ _ => exact absurd hi hend
      | alone hi _ => exact absurd hi hr
    · rw [Cluster.update_proc_ne _ e hj]
      exact ⟨le_refl _, h.leads⟩
  exact {
    started := h.started
    term_le := h.term_le.trans hnode.1
    leads := hnode.2
    nodup := h.nodup
    peers := h.peers
    counted := by
      intro hterm q hq
      have hsame : (s.cluster.proc j).node.term = r.term :=
        le_antisymm (hnode.1.trans hterm.le) h.term_le
      exact List.mem_append_left _ (h.counted hsame hq)
    self := List.mem_append_left _ h.self
    later := by
      intro el hel hbefore hlt
      rcases List.mem_append.mp hel with hold | hnew
      · exact stored_membersIn hst' (stored_update hst hstep (h.later el hold hbefore hlt)) hlt
      · have htime := (elected_of_mem hnew).1
        exact absurd (htime ▸ hbefore) (not_lt.mpr h.started) }

theorem AckInv.update {j : Id} {a : QuorumAck} (h : AckInv s.cluster s.now s.elected j a)
    (hstep : (s.cluster.proc i).step inp = some e) (hself : j = i → inp ≠ .restart) :
    AckInv (s.cluster.update i e) s.now
      (s.elected ++ e.events.filterMap (Event.elected? s.now)) j a where
  started := h.started
  acked := h.acked
  term_le := by
    by_cases hj : j = i
    · subst hj
      rw [Cluster.update_proc_self]
      exact h.term_le.trans (Process.term_le_of_step hstep (hself rfl))
    · rw [Cluster.update_proc_ne _ e hj]
      exact h.term_le
  later := by
    intro el hel hlt
    rcases List.mem_append.mp hel with hold | hnew
    · exact h.later el hold hlt
    · rw [(elected_of_mem hnew).1]
      exact h.started.trans h.acked

/-- A section of `i` that does not win an election while `Loop` is in a round. -/
theorem Inv.advance (h : Inv cfg s) (hs : s.advance cfg i inp = some s')
    (hend : inp = .endElection → ∀ r, (s.loop i).phase ≠ .round r) : Inv cfg s' := by
  obtain ⟨hi, hm, e, hstep, rfl⟩ := advance_eq_some hs
  have hst' := h.stored.update hi hm hstep
  refine ⟨hst', ?_, ?_, ?_⟩
  · intro el hel
    rcases List.mem_append.mp hel with hold | hnew
    · obtain ⟨h1, h2, h3⟩ := h.elected el hold
      exact ⟨h1, h2, stored_update h.stored hstep h3⟩
    · obtain ⟨htime, hev⟩ := elected_of_mem hnew
      obtain ⟨hnode, hwon⟩ := h.stored.won hi hstep hev
      rw [hnode, htime]
      exact ⟨hi, le_refl _, stored_update h.stored hstep hwon⟩
  · intro j hj r hr
    dsimp only at hr
    split_ifs at hr with hnew
    · cases hr
    · obtain ⟨r₀, hr₀, rfl⟩ := observe_round hr
      refine (h.round j hj r₀ hr₀).update h.stored hst' hstep ?_
      rintro rfl
      exact ⟨fun hrestart => hnew ⟨hrestart, rfl⟩, fun hwin => hend hwin r₀ hr₀⟩
  · intro j hj a ha
    dsimp only at ha
    split_ifs at ha with hnew
    · cases ha
    · rw [observe_lastQuorumAck] at ha
      refine (h.ack j hj a ha).update hstep ?_
      rintro rfl hrestart
      exact hnew ⟨hrestart, rfl⟩

/-! ### Every step -/

theorem Inv.step {a : TimedAct Id} (h : Inv cfg s) (hs : s.step cfg a = some s') : Inv cfg s' := by
  cases a with
  | pass d =>
    cases hs
    exact h.pass d
  | run i inp =>
    simp only [Timed.step] at hs
    split at hs
    · next hph =>
      split_ifs at hs
      exact h.advance hs fun _ r hr => by rw [hph] at hr; cases hr
    · split_ifs at hs with hg
      refine h.advance hs fun hend => ?_
      rw [hend] at hg
      cases hg.2
  | tick i =>
    simp only [Timed.step] at hs
    split at hs <;> try contradiction
    split_ifs at hs
    cases hs
    exact h.setPhase fun _ hr => by cases hr
  | spawn i =>
    simp only [Timed.step] at hs
    split at hs <;> try contradiction
    split_ifs at hs <;> cases hs
    · refine h.setPhase fun r hr hi => ?_
      cases hr
      exact h.spawn hi
    · exact h.setPhase fun _ hr => by cases hr
  | ack i inp =>
    simp only [Timed.step] at hs
    split at hs <;> try contradiction
    next r a hr ha =>
    split_ifs at hs with hc
    have hcounted : Inv cfg (s.setPhase i (.round
        { r with waiting := r.waiting.erase a.peer, acks := a.peer :: r.acks })) := by
      refine h.setPhase fun r' hr' hi => ?_
      cases hr'
      exact (h.round i hi r hr).count hc.1 hc.2.1 hc.2.2
    refine hcounted.advance hs fun hend => ?_
    rw [hend] at ha
    cases ha
  | fail i q =>
    simp only [Timed.step] at hs
    split at hs <;> try contradiction
    next r hr =>
    cases hs
    refine h.setPhase fun r' hr' hi => ?_
    cases hr'
    exact (h.round i hi r hr).drop q
  | close i =>
    simp only [Timed.step] at hs
    split at hs <;> try contradiction
    next r hr =>
    split_ifs at hs with hw hq <;> cases hs
    · refine h.setLoop (fun _ hr' => by cases hr') fun a ha hi => ?_
      cases ha
      exact h.close hi hr hq.1 hq.2
    · exact h.setPhase fun _ hr' => by cases hr'
  | check i =>
    simp only [Timed.step] at hs
    split at hs <;> try contradiction
    split_ifs at hs with hc
    · refine Inv.advance (h.setPhase fun _ hr => by cases hr) hs fun hend => ?_
      cases hend
    · cases hs
      exact h.setPhase fun _ hr => by cases hr

theorem inv (h : Reach (step cfg) (fun _ _ => True) (init cfg) s) : Inv cfg s :=
  h.invariant (.init cfg) fun hinv _ hs => hinv.step hs

/-! ## The bound -/

/-- A leader stays after the check only if a round that a majority acknowledged ended at most
    `electionTimeoutMin` ago; every leader of a later term was elected after that round began. So
    the node has been deposed for no longer than the timeout and the time the round took. -/
theorem deposed_leader_bounded (h : Reach (step cfg) (fun _ _ => True) (init cfg) s)
    (hi : i ∈ cfg.members) (hs : s.step cfg (.check i) = some s')
    (hlead : (s'.cluster.proc i).node.role = .leader) :
    ∃ a, (s.loop i).lastQuorumAck = some a ∧ a.started ≤ a.acked ∧
      s.now ≤ a.acked + electionTimeoutMin ∧
      ∀ el ∈ s.elected, (s.cluster.proc i).node.term < el.term →
        a.started ≤ el.time ∧ s.now ≤ el.time + (a.acked - a.started) + electionTimeoutMin := by
  have hinv := inv h
  simp only [step] at hs
  split at hs <;> try contradiction
  split_ifs at hs with hc
  · -- the node has stepped down
    obtain ⟨-, -, e, hstep, rfl⟩ := advance_eq_some hs
    simp only [Process.step] at hstep
    split_ifs at hstep
    cases hstep
    rw [Cluster.update_proc_self] at hlead
    cases hlead
  · cases hs
    have hrecent : s.overdue i ≠ true := fun hover => hc ⟨hlead, hover⟩
    unfold overdue at hrecent
    cases ha : (s.loop i).lastQuorumAck with
    | none =>
      rw [ha] at hrecent
      exact absurd rfl hrecent
    | some a =>
      rw [ha] at hrecent
      have hnow : s.now ≤ a.acked + electionTimeoutMin := by simpa using hrecent
      have hack := hinv.ack i hi a ha
      have hstarted := hack.started
      refine ⟨a, rfl, hstarted, hnow, fun el hel hlt => ?_⟩
      have hlater := hack.later el hel (hack.term_le.trans_lt hlt)
      exact ⟨hlater, by omega⟩

/-- Node 0 leads and hears of node 1 at 120. Node 2 is elected in term 2 at 320. At 570 node 0 is
    cut off and looks at the time. -/
def cutOffLeader : List (TimedAct (Fin 3)) :=
  let vote : VoteRequest (Fin 3) := ⟨2, 2, 0, 0⟩
  let beat : AppendEntriesRequest (Fin 3) := ⟨1, 0, 0, 0, [], 0⟩
  let heard : List (TimedAct (Fin 3)) :=
    [.pass 100, .tick 0, .spawn 0, .run 0 (.replicate 1), .run 1 (.appendEntries beat),
     .ack 0 (.appendResponse 1 beat ⟨1, true⟩), .fail 0 2, .pass 20, .close 0, .check 0, .pass 200]
  let elected : List (TimedAct (Fin 3)) :=
    [.run 2 (.voteError 0), .run 2 (.voteError 1), .run 2 .endElection, .run 2 .startElection,
     .run 2 (.persistElection true), .run 1 (.requestVote vote),
     .run 1 (.persistVote vote ⟨2, true⟩ true), .run 2 (.voteResponse 1 vote ⟨2, true⟩),
     .run 2 .endElection]
  let first := Cluster.contestedElection.map fun a => TimedAct.run a.1 a.2
  let late : List (TimedAct (Fin 3)) :=
    [.pass 250, .tick 0, .spawn 0, .fail 0 1, .fail 0 2, .close 0]
  first ++ heard ++ elected ++ late

theorem deposed_leader_bounded_cutOff :
    ∃ s s', Reach (step Config.three) (fun _ _ => True) (init Config.three) s ∧
      s.step Config.three (.check 0) = some s' ∧ (s'.cluster.proc 0).node.role = .leader ∧
      (s.elected.map fun el => (el.node, el.term, el.time)) = [(0, 1, 0), (2, 2, 320)] ∧
      ∃ a, (s.loop 0).lastQuorumAck = some a ∧ s.now ≤ a.acked + electionTimeoutMin ∧
        ∀ el ∈ s.elected, 1 < el.term → a.started ≤ el.time := by
  obtain ⟨s, hrun, heval⟩ := Option.map_eq_some_iff.mp
    (show (Transition.run (step Config.three) (fun _ _ => True) (init Config.three)
      cutOffLeader).map (fun s => ((s.cluster.proc 0).node.term,
        s.elected.map (fun el => (el.node, el.term, el.time)),
        (s.step Config.three (.check 0)).map fun s' => (s'.cluster.proc 0).node.role)) =
      some (1, [(0, 1, 0), (2, 2, 320)], some .leader) by decide +kernel)
  simp only [Prod.mk.injEq] at heval
  obtain ⟨hterm, helected, hcheck⟩ := heval
  obtain ⟨s', hs, hlead⟩ := Option.map_eq_some_iff.mp hcheck
  have hreach : Reach (step Config.three) (fun _ _ => True) (init Config.three) s := .of_run hrun
  obtain ⟨a, ha, -, hnow, hlater⟩ := deposed_leader_bounded hreach (by decide) hs hlead
  exact ⟨s, s', hreach, hs, hlead, helected, a, ha, hnow,
    fun el hel hlt => (hlater el hel (hterm ▸ hlt)).1⟩

end Timed

end KvStore.Raft
