import KvStore.Raft.NodeRuns
import KvStore.Raft.ReplicateToPeer

/-!
# One replication call per peer

`replicateToPeer` (pkg/raft/leader.go:241) and `installSnapshot` (pkg/raft/snapshot.go:74) both
test `inFlight[peer]`, set it, call the peer without the lock, and clear it in the section that
handles the outcome. Any number of heartbeats and proposals run them at the same time. The
bookkeeping is created once per process and survives changes of the role, so that the outcome
of a call from an earlier leadership clears the flag that the call has set.

* `CallMove`, `callMove`: what one section does to the flags, to the goroutines inside a call
  and to the calls on the wire.
* `one_call_per_peer`: in every run, the flag of a peer is set exactly while one call to it is
  issued and not settled.
-/

namespace KvStore.Raft

open KvStore.Storage (Command Bytes)

variable {Id : Type}

/-! ## Calls -/

variable [DecidableEq Id]

/-- The message is a replication call to `q`. -/
def Msg.callsTo (q : Id) : Msg Id → Bool
  | .appendReq dst _ => dst = q
  | .snapReq dst _ => dst = q
  | _ => false

/-- The peer whose call a section settles: it handles the response or the error. -/
def Input.settles : Input Id → Option Id
  | .appendResponse peer _ _ => some peer
  | .appendError peer _ => some peer
  | .snapshotResponse peer _ _ => some peer
  | .snapshotError peer _ => some peer
  | _ => none

/-- The sections that may issue or settle a call, and the crash. -/
def Input.aboutCalls : Input Id → Bool
  | .replicate _ => true
  | .snapshotSend _ _ _ _ => true
  | .restart => true
  | inp => inp.settles.isSome

/-- The goroutine is inside a call to `q`. -/
def Task.callsTo (q : Id) : Task Id → Bool
  | .awaitAppend peer _ => peer = q
  | .awaitSnap peer _ => peer = q
  | _ => false

/-- A process with the numbers of calls that it has issued to each peer and settled. -/
structure Ledger (Id : Type) where
  proc : Process Id
  issued : Id → ℕ
  settled : Id → ℕ

namespace Ledger

/-- A process that has made no calls. -/
def start (p : Process Id) : Ledger Id := { proc := p, issued := fun _ => 0, settled := fun _ => 0 }

/-- One section. A crash ends the calls with the process. -/
def step (l : Ledger Id) (inp : Input Id) : Option (Ledger Id) :=
  (l.proc.step inp).map fun e =>
    if inp = .restart then start e.proc
    else
      { proc := e.proc
        issued := fun q => l.issued q + e.sent.countP (Msg.callsTo q)
        settled := fun q => l.settled q + if inp.settles = some q then 1 else 0 }

end Ledger

/-! ## One section -/

namespace Node

theorem inFlight_congr {n n' : Node Id} (h : n'.repl = n.repl) :
    n'.replState.inFlight = n.replState.inFlight := by
  unfold replState
  rw [h]
  cases n.repl <;> rfl

theorem handleRequestVote_repl (n : Node Id) (req : VoteRequest Id) :
    (n.handleRequestVote req).1.repl = n.repl := by
  unfold handleRequestVote adoptTerm
  split_ifs
  · rfl
  · dsimp only
    split_ifs <;> rfl
  · dsimp only
    split_ifs <;> rfl

omit [DecidableEq Id] in
theorem follow_repl (n : Node Id) (term : ℤ) (leader : Id) :
    (n.follow term leader).repl = n.repl := by
  unfold follow
  split_ifs <;> rfl

omit [DecidableEq Id] in
theorem handleAppendEntries_repl (n : Node Id) (req : AppendEntriesRequest Id) :
    (n.handleAppendEntries req).1.repl = n.repl := by
  unfold handleAppendEntries
  dsimp only
  split_ifs
  · rfl
  all_goals exact n.follow_repl req.term req.leaderID

omit [DecidableEq Id] in
theorem handleInstallSnapshot_repl (n : Node Id) (req : InstallSnapshotRequest Id) :
    (n.handleInstallSnapshot req).1.repl = n.repl := by
  unfold handleInstallSnapshot
  dsimp only
  split_ifs
  · rfl
  all_goals exact n.follow_repl req.term req.leaderID

omit [DecidableEq Id] in
theorem appendEntry_repl (n : Node Id) (cmd : Command) : (n.appendEntry cmd).repl = n.repl := by
  unfold appendEntry
  dsimp only
  split_ifs <;> rfl

omit [DecidableEq Id] in
theorem persist_repl (n : Node Id) (disk : RaftState Id) (saved : Bool) :
    (n.persist disk saved).2.1.repl = n.repl := by
  unfold persist
  split_ifs <;> rfl

omit [DecidableEq Id] in
theorem compactLog_repl (n : Node Id) (index : ℕ) (label : ℤ) :
    (n.compactLog index label).repl = n.repl := by
  unfold compactLog
  split_ifs <;> rfl

theorem inFlight_setInFlight (n : Node Id) (q : Id) (b : Bool) :
    (n.setInFlight q b).replState.inFlight = Function.update n.replState.inFlight q b := rfl

/-- However the response is taken, it clears the flag of its peer. -/
theorem inFlight_handleAppendResponse (n : Node Id) (q : Id) (req : AppendEntriesRequest Id)
    (resp : AppendEntriesResponse) : (n.handleAppendResponse q req resp).replState.inFlight =
      Function.update n.replState.inFlight q false := by
  unfold handleAppendResponse
  dsimp only
  split_ifs
  · exact inFlight_congr rfl
  · rfl
  · rw [inFlight_acknowledge, inFlight_setInFlight]
  · rfl

theorem inFlight_handleSnapshotResponse (n : Node Id) (q : Id) (req : InstallSnapshotRequest Id)
    (resp : InstallSnapshotResponse) : (n.handleSnapshotResponse q req resp).replState.inFlight =
      Function.update n.replState.inFlight q false := by
  unfold handleSnapshotResponse
  dsimp only
  split_ifs
  · exact inFlight_congr rfl
  · rfl
  · rw [inFlight_acknowledge, inFlight_setInFlight]

end Node

namespace Process

/-- The goroutines inside a call to `q`. -/
def callers (p : Process Id) (q : Id) : ℕ := p.tasks.countP (Task.callsTo q)

/-- How a section moves flags, goroutines and calls. -/
inductive CallMove (p : Process Id) (inp : Input Id) (e : Effect Id) : Prop
  | restart (hi : inp = .restart) (hf : e.proc.node.replState.inFlight = fun _ => false)
      (ht : e.proc.tasks = [])
  | issue (q : Id) (hi : inp.settles = none ∧ inp ≠ .restart)
      (hfree : p.node.replState.inFlight q = false)
      (hf : e.proc.node.replState.inFlight = Function.update p.node.replState.inFlight q true)
      (ht : ∀ r, e.proc.callers r = p.callers r + if q = r then 1 else 0)
      (hs : ∀ r, e.sent.countP (Msg.callsTo r) = if q = r then 1 else 0)
  | settle (q : Id) (hi : inp.settles = some q ∧ inp ≠ .restart)
      (hf : e.proc.node.replState.inFlight = Function.update p.node.replState.inFlight q false)
      (ht : ∀ r, e.proc.callers r + (if q = r then 1 else 0) = p.callers r)
      (hs : ∀ r, e.sent.countP (Msg.callsTo r) = 0)
  | aside (hi : inp.settles = none ∧ inp ≠ .restart)
      (hf : e.proc.node.replState.inFlight = p.node.replState.inFlight)
      (ht : ∀ r, e.proc.callers r = p.callers r)
      (hs : ∀ r, e.sent.countP (Msg.callsTo r) = 0)

variable {p : Process Id} {inp : Input Id} {e : Effect Id}

/-- A goroutine that has gone on from `t` to `new`. -/
theorem callers_next {p' : Process Id} {t : Task Id} {new : List (Task Id)} (ht : t ∈ p.tasks)
    (h : p'.tasks = p.tasks.erase t ++ new) (q : Id) :
    p'.callers q + (if t.callsTo q then 1 else 0) = p.callers q + new.countP (Task.callsTo q) := by
  have hpos : t.callsTo q = true → 0 < p.tasks.countP (Task.callsTo q) := fun hq =>
    List.countP_pos_iff.mpr ⟨t, ht, hq⟩
  rw [callers, callers, h, List.countP_append, List.countP_erase]
  by_cases hq : t.callsTo q = true
  · have := hpos hq
    rw [if_pos hq, if_pos ⟨ht, hq⟩]
    omega
  · rw [if_neg hq, if_neg (fun h => hq h.2)]
    omega

/-- A goroutine that is not about calls has gone on. -/
theorem callers_moved {p' : Process Id} {t : Task Id} {new : List (Task Id)} (ht : t ∈ p.tasks)
    (h : p'.tasks = p.tasks.erase t ++ new) {q : Id} (hq : t.callsTo q = false)
    (hnew : new.countP (Task.callsTo q) = 0) : p'.callers q = p.callers q := by
  have hnext := callers_next ht h q
  simpa [hq, hnew] using hnext

/-- A goroutine has been started. -/
theorem callers_append {p' : Process Id} {t : Task Id} (h : p'.tasks = p.tasks ++ [t]) (q : Id) :
    p'.callers q = p.callers q + if t.callsTo q then 1 else 0 := by
  rw [callers, callers, h, List.countP_append, List.countP_singleton]

/-- A goroutine that is not about calls has been started. -/
theorem callers_started {p' : Process Id} {t : Task Id} (h : p'.tasks = p.tasks ++ [t]) {q : Id}
    (hq : t.callsTo q = false) : p'.callers q = p.callers q := by
  rw [callers_append h, hq]
  rfl

/-- The bookkeeping of a leader is only touched by the sections about calls, and created by
    `snapshotBegin`. -/
theorem inFlight_of_step (hstep : p.step inp = some e) (hi : inp.aboutCalls = false) :
    e.proc.node.replState.inFlight = p.node.replState.inFlight := by
  cases inp with
  | requestVote req =>
    rw [requestVote_node hstep]
    exact Node.inFlight_congr (Node.handleRequestVote_repl _ _)
  | appendEntries req =>
    rw [appendEntries_node hstep]
    exact Node.inFlight_congr (Node.handleAppendEntries_repl _ _)
  | installSnapshot req =>
    rw [installSnapshot_node hstep]
    exact Node.inFlight_congr (Node.handleInstallSnapshot_repl _ _)
  | voteResponse q req resp =>
    simp only [step] at hstep
    split at hstep <;> try contradiction
    split at hstep <;> cases hstep
    unfold voteResponse
    split <;> exact Node.inFlight_congr rfl
  | endElection =>
    simp only [step] at hstep
    split at hstep <;> try contradiction
    split at hstep <;> cases hstep
    unfold endElection
    split <;> exact Node.inFlight_congr rfl
  | replicate peer => cases hi
  | snapshotSend peer idx label data => cases hi
  | appendResponse peer req resp => cases hi
  | appendError peer req => cases hi
  | snapshotResponse peer req resp => cases hi
  | snapshotError peer req => cases hi
  | restart => cases hi
  | _ =>
    simp only [step] at hstep
    repeat' split at hstep
    all_goals try cases hstep
    all_goals first
      | rfl
      | exact Node.inFlight_congr rfl
      | exact Node.inFlight_congr (Node.persist_repl _ _ _)
      | exact Node.inFlight_congr (Node.appendEntry_repl _ _)
      | exact Node.inFlight_congr (Node.compactLog_repl _ _ _)

/-- Outside of these sections no goroutine enters or leaves a call. -/
theorem callers_of_step (hstep : p.step inp = some e) (hi : inp.aboutCalls = false) (q : Id) :
    e.proc.callers q = p.callers q := by
  cases inp with
  | replicate peer => cases hi
  | snapshotSend peer idx label data => cases hi
  | appendResponse peer req resp => cases hi
  | appendError peer req => cases hi
  | snapshotResponse peer req resp => cases hi
  | snapshotError peer req => cases hi
  | restart => cases hi
  | voteResponse peer req resp =>
    simp only [step] at hstep
    split at hstep <;> try contradiction
    split at hstep <;> cases hstep
    unfold voteResponse
    split <;> rfl
  | endElection =>
    simp only [step] at hstep
    split at hstep <;> try contradiction
    split at hstep <;> cases hstep
    unfold endElection
    split <;> rfl
  | persistPropose index term cmd saved =>
    simp only [step] at hstep
    split at hstep
    · next ht =>
      cases hstep
      dsimp only
      split_ifs
      · have hnew : [Task.proposed index term cmd].countP (Task.callsTo q) = 0 := rfl
        refine callers_moved ht ?_ rfl hnew
        simp [next, persist]
      · exact callers_moved ht rfl rfl rfl
    · cases hstep
  | _ =>
    simp only [step] at hstep
    repeat' split at hstep
    all_goals try cases hstep
    all_goals first
      | rfl
      | exact callers_started rfl rfl
      | exact callers_moved (by assumption) rfl rfl rfl

/-- Outside of these sections no call goes out. -/
theorem sent_of_step (hstep : p.step inp = some e) (hi : inp.aboutCalls = false) (q : Id) :
    e.sent.countP (Msg.callsTo q) = 0 := by
  rw [List.countP_eq_zero]
  intro m hm
  cases send_of_step hstep hm with
  | appendReq peer _ _ _ => cases hi
  | snapReq peer idx label data _ => cases hi
  | _ => simp [Msg.callsTo]

theorem CallMove.of_aside (hstep : p.step inp = some e) (hi : inp.aboutCalls = false) :
    CallMove p inp e := by
  refine .aside ⟨?_, ?_⟩ (inFlight_of_step hstep hi) (callers_of_step hstep hi)
    (sent_of_step hstep hi)
  · cases inp with
    | appendResponse peer req resp => cases hi
    | appendError peer req => cases hi
    | snapshotResponse peer req resp => cases hi
    | snapshotError peer req => cases hi
    | _ => rfl
  · rintro rfl
    cases hi

/-- The outcome of a call is handled. -/
theorem CallMove.of_outcome {t : Task Id} {n : Node Id} {peer : Id} (ht : t ∈ p.tasks)
    (htask : ∀ q, t.callsTo q = decide (peer = q))
    (hi : inp.settles = some peer ∧ inp ≠ .restart)
    (hf : n.replState.inFlight = Function.update p.node.replState.inFlight peer false) :
    CallMove p inp { proc := p.next t n [] } := by
  refine .settle peer hi hf (fun q => ?_) fun _ => rfl
  have hnext := callers_next ht (rfl : (p.next t n []).tasks = _) q
  simpa [htask] using hnext

/-- **What one section does** to flags, goroutines and calls. -/
theorem callMove (hstep : p.step inp = some e) : CallMove p inp e := by
  cases inp with
  | restart =>
    cases hstep
    exact .restart rfl rfl rfl
  | replicate peer =>
    simp only [step] at hstep
    split at hstep
    · next hguard =>
      obtain ⟨-, -, hfree⟩ := hguard
      split at hstep
      · cases hstep
        exact .aside ⟨rfl, by simp⟩ rfl (fun q => callers_started rfl rfl) fun _ => rfl
      · cases hstep
        refine .issue peer ⟨rfl, by simp⟩ hfree rfl (fun q => ?_) fun q => ?_
        · refine (callers_append rfl q).trans ?_
          simp [Task.callsTo]
        · simp [Msg.callsTo, List.countP_singleton]
    · cases hstep
  | snapshotSend peer idx label data =>
    simp only [step] at hstep
    split at hstep
    · next ht =>
      split at hstep
      · cases hstep
        exact .aside ⟨rfl, by simp⟩ rfl (fun q => callers_moved ht rfl rfl rfl) fun _ => rfl
      · next hfree =>
        cases hstep
        refine .issue peer ⟨rfl, by simp⟩ (by simpa using hfree) rfl (fun q => ?_) fun q => ?_
        · refine (callers_next ht rfl q).trans ?_
          simp [Task.callsTo, List.countP_singleton]
        · simp [Msg.callsTo, List.countP_singleton]
    · cases hstep
  | appendResponse peer req resp =>
    simp only [step] at hstep
    split at hstep
    · next ht =>
      cases hstep
      exact .of_outcome ht (fun _ => rfl) ⟨rfl, by simp⟩
        (Node.inFlight_handleAppendResponse p.node peer req resp)
    · cases hstep
  | appendError peer req =>
    simp only [step] at hstep
    split at hstep
    · next ht =>
      cases hstep
      exact .of_outcome ht (fun _ => rfl) ⟨rfl, by simp⟩ rfl
    · cases hstep
  | snapshotResponse peer req resp =>
    simp only [step] at hstep
    split at hstep
    · next ht =>
      cases hstep
      exact .of_outcome ht (fun _ => rfl) ⟨rfl, by simp⟩
        (Node.inFlight_handleSnapshotResponse p.node peer req resp)
    · cases hstep
  | snapshotError peer req =>
    simp only [step] at hstep
    split at hstep
    · next ht =>
      cases hstep
      exact .of_outcome ht (fun _ => rfl) ⟨rfl, by simp⟩ rfl
    · cases hstep
  | _ => exact .of_aside hstep rfl

end Process

/-! ## Whole runs -/

namespace Ledger

/-- The flag of a peer is set exactly while one goroutine is inside a call to it, and the
    goroutines inside calls are those whose call is issued and not settled. -/
structure Balanced (l : Ledger Id) : Prop where
  callers : ∀ q, l.proc.callers q = if l.proc.node.replState.inFlight q then 1 else 0
  open_calls : ∀ q, l.issued q = l.settled q + l.proc.callers q

theorem balanced_start {p : Process Id} (hf : p.node.replState.inFlight = fun _ => false)
    (ht : p.tasks = []) : (start p).Balanced where
  callers q := by
    rw [start, hf, Process.callers, ht]
    rfl
  open_calls q := by
    rw [start, Process.callers, ht]
    rfl

/-- One section keeps the balance. -/
theorem Balanced.step {l l' : Ledger Id} {inp : Input Id} (h : l.Balanced)
    (hstep : l.step inp = some l') : l'.Balanced := by
  obtain ⟨e, he, hl'⟩ := Option.map_eq_some_iff.mp hstep
  subst hl'
  cases Process.callMove he with
  | restart hi hf ht =>
    rw [if_pos hi]
    exact balanced_start hf ht
  | issue q hi hfree hf ht hs =>
    rw [if_neg hi.2]
    refine ⟨fun r => ?_, fun r => ?_⟩
    · dsimp only
      rw [ht, h.callers, hf]
      by_cases hr : q = r
      · subst hr
        simp [hfree]
      · simp [hr, Function.update_of_ne (Ne.symm hr)]
    · dsimp only
      rw [ht, hs, h.open_calls, hi.1]
      simp [Nat.add_assoc]
  | settle q hi hf ht hs =>
    rw [if_neg hi.2]
    refine ⟨fun r => ?_, fun r => ?_⟩
    · have hcallers := h.callers r
      rw [← ht r] at hcallers
      dsimp only
      rw [hf]
      by_cases hr : q = r
      · subst hr
        rw [if_pos rfl] at hcallers
        simp only [Function.update_self]
        split_ifs at hcallers
        · simpa using hcallers
      · simpa [hr, Function.update_of_ne (Ne.symm hr)] using hcallers
    · have hopen := h.open_calls r
      rw [← ht r] at hopen
      dsimp only
      rw [hs, hi.1, hopen]
      simp only [Option.some.injEq]
      omega
  | aside hi hf ht hs =>
    rw [if_neg hi.2]
    refine ⟨fun r => ?_, fun r => ?_⟩
    · dsimp only
      rw [ht, hf, h.callers]
    · dsimp only
      rw [ht, hs, hi.1, h.open_calls]
      rfl

theorem Balanced.run {l l' : Ledger Id} (inputs : List (Input Id)) (h : l.Balanced)
    (hrun : inputs.foldlM Ledger.step l = some l') : l'.Balanced := by
  induction inputs generalizing l with
  | nil =>
    cases hrun
    exact h
  | cons inp inputs ih =>
    obtain ⟨l₁, hl₁, hrest⟩ := Option.bind_eq_some_iff.mp hrun
    exact ih (h.step hl₁) hrest

/-- **At most one replication call per peer.** After any sections of a node that was wired to its
    store, `inFlight` of a peer is set exactly if one `AppendEntries` or `InstallSnapshot` to it
    has been issued and its outcome has not been handled, and there are never two. -/
theorem one_call_per_peer (id : Id) (peers : List Id) (st : RaftState Id)
    (inputs : List (Input Id)) (l : Ledger Id)
    (hrun : inputs.foldlM step (start (Process.opened (Node.new id peers) st)) = some l) (q : Id) :
    (l.proc.node.replState.inFlight q = true ↔ l.issued q = l.settled q + 1) ∧
      (l.issued q = l.settled q ∨ l.issued q = l.settled q + 1) := by
  have h0 : (start (Process.opened (Node.new id peers) st)).Balanced := balanced_start rfl rfl
  have hb : l.Balanced := h0.run inputs hrun
  have hopen := hb.open_calls q
  rw [hb.callers q] at hopen
  cases hf : l.proc.node.replState.inFlight q with
  | true =>
    rw [hf, if_pos rfl] at hopen
    exact ⟨iff_of_true rfl hopen, Or.inr hopen⟩
  | false =>
    rw [hf, if_neg (by simp), Nat.add_zero] at hopen
    exact ⟨iff_of_false (by simp) (by omega), Or.inl hopen⟩

/-- The sections of an election that is won with the vote of 1, and a first heartbeat to 1. -/
def firstHeartbeat : List (Input (Fin 3)) :=
  [.startElection, .persistElection true, .voteResponse 1 ⟨1, 0, 0, 0⟩ ⟨1, true⟩, .endElection,
    .replicate 1]

theorem one_call_per_peer_heartbeat :
    ∃ l, firstHeartbeat.foldlM step (start (Process.opened (Node.new 0 [1, 2]) .empty)) = some l ∧
      l.proc.node.replState.inFlight 1 = true ∧ l.issued 1 = l.settled 1 + 1 :=
  ⟨_, rfl, rfl, (one_call_per_peer 0 [1, 2] .empty firstHeartbeat _ rfl 1).1.mp rfl⟩

end Ledger

end KvStore.Raft
