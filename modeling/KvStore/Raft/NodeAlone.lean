import KvStore.Raft.IndexChain
import KvStore.Raft.InFlight
import KvStore.Raft.ReplicateToPeer

/-!
# What a node can do on its own

The sections that wait for no message: timers, client calls, RPCs that come back with an error and
the apply loop. From any state, by such sections alone and with every `Save` succeeding:

* `exists_quiet`: a node ends the election in progress and is not leader.
* `exists_term`: it raises its term as far as needed.
* `exists_idle`: the RPCs it waits for come back and clear their `inFlight` flags.
* `exists_proposed`: a leader takes a write.
* `exists_running`: the apply loop comes to any index that is committed.
-/

namespace KvStore.Raft

open KvStore.Storage (Command)

variable {Id : Type}

/-- A section that handles no message, fails in no `Save` and is not the end of the process. -/
def Input.alone : Input Id → Bool
  | .voteResponse .. | .requestVote _ | .appendEntries _ | .installSnapshot _
  | .appendResponse .. | .snapshotResponse .. | .restart => false
  | inp => inp.saved

theorem Input.alone_iff (inp : Input Id) (i : Id) :
    inp.alone = true ↔ inp.msg i = none ∧ inp.saved = true ∧ inp ≠ .restart := by
  cases inp <;> simp [alone, msg, saved]

variable [DecidableEq Id]

namespace Process

/-- `p'` is reached from `p` by sections of the node alone. -/
def Alone : Process Id → Process Id → Prop :=
  Relation.ReflTransGen fun p p' => ∃ inp e, inp.alone = true ∧ p.step inp = some e ∧ e.proc = p'

theorem Alone.refl (p : Process Id) : Alone p p := Relation.ReflTransGen.refl

theorem Alone.trans {p p' p'' : Process Id} (h : Alone p p') (h' : Alone p' p'') : Alone p p'' :=
  Relation.ReflTransGen.trans h h'

theorem Alone.step {p p' : Process Id} (h : Alone p p') {inp : Input Id} {e : Effect Id}
    (hs : p'.step inp = some e) (hi : inp.alone = true) : Alone p e.proc :=
  Relation.ReflTransGen.tail h ⟨inp, e, hi, hs, rfl⟩

variable {p : Process Id}

/-! ## Elections -/

/-- What the election goroutine leaves alone. -/
def kept (p : Process Id) : (Id × List Id) × List Entry × ℕ × ℤ × ℕ × ℕ ×
    Option (ReplicationState Id) × List (Task Id) × ApplyPhase :=
  (p.node.ident, p.node.log, p.node.lastIncludedIndex, p.node.lastIncludedTerm, p.node.commitIndex,
    p.node.lastApplied, p.node.repl, p.tasks, p.apply)

/-- The votes that are still out fail to come. -/
theorem exists_unanswered {el : Election Id} (hel : p.election = some el)
    (hc : el.campaigning = true) :
    Alone p { p with election := some { el with waiting := [] } } := by
  induction hw : el.waiting generalizing p el with
  | nil =>
    rw [← hw, ← hel]
    exact .refl p
  | cons q rest ih =>
    have hstep : p.step (.voteError q) = some
        { proc := { p with election := some { el with waiting := rest } } } := by
      simp only [step, hel, hc, if_true, hw, List.erase_cons_head]
    exact ((Alone.refl p).step hstep rfl).trans (@ih _ { el with waiting := rest } rfl hc rfl)

/-- An election that has sent its requests ends without a further answer. -/
theorem exists_ended {el : Election Id} (hel : p.election = some el) (hc : el.campaigning = true) :
    Alone p (p.endElection el).proc := by
  have hstep : ({ p with election := some { el with waiting := [] } } : Process Id).step
      .endElection = some (p.endElection el) := by
    simp only [step, hc, or_true, and_self, if_true]
    rfl
  exact (exists_unanswered hel hc).step hstep rfl

omit [DecidableEq Id] in
theorem endElection_kept (p : Process Id) (el : Election Id) :
    (p.endElection el).proc.kept = p.kept ∧ (p.endElection el).proc.election = none := by
  unfold endElection
  split <;> exact ⟨rfl, rfl⟩

/-- The election in progress, if any, comes to its end. -/
theorem exists_no_election (p : Process Id) :
    ∃ p', Alone p p' ∧ p'.kept = p.kept ∧ p'.election = none := by
  cases hel : p.election with
  | none => exact ⟨p, .refl p, rfl, hel⟩
  | some el =>
    by_cases hc : el.campaigning = true
    · exact ⟨_, exists_ended hel hc, p.endElection_kept el⟩
    · -- the requests go out first
      let p₁ : Process Id :=
        { (p.persist true).2 with election := some { el with campaigning := true } }
      have hstep : p.step (.persistElection true) = some
          { proc := p₁, sent := el.waiting.map fun q => .voteReq q el.req } := by
        simp only [step, hel, if_neg hc, persist_saved, if_true]
        rfl
      have hkept : p₁.kept = p.kept := by
        unfold kept
        rw [show p₁.node = p.node.saved from Node.persist_saved p.node p.disk]
        rfl
      refine ⟨_, ((Alone.refl p).step hstep rfl).trans (exists_ended rfl rfl), ?_⟩
      rw [← hkept]
      exact p₁.endElection_kept _

/-- The node is not leader and runs no election. -/
structure Quiet (p : Process Id) : Prop where
  election : p.election = none
  role : p.node.role ≠ .leader

theorem exists_quiet (p : Process Id) : ∃ p', Alone p p' ∧ p'.kept = p.kept ∧ p'.Quiet := by
  obtain ⟨p₁, h₁, hkept, hel⟩ := p.exists_no_election
  by_cases hrole : p₁.node.role = .leader
  · have hstep : p₁.step .stepDown = some
        { proc := { p₁ with node := p₁.node.becomeFollower p₁.node.term none } } := by
      simp only [step, hrole, hel, Option.isNone_none, and_self, if_true]
    exact ⟨_, h₁.step hstep rfl, hkept, hel, fun hl => by cases hl⟩
  · exact ⟨p₁, h₁, hkept, hel, hrole⟩

/-! ## The term -/

/-- The election that `startElection` begins, with its state saved and its requests sent. -/
def campaign (p : Process Id) : Process Id :=
  let n := p.node.becomeCandidate
  { p with
    node := n.saved, disk := n.raftState, election := some ⟨n.voteRequest, n.peers, 1, true⟩ }

/-- The section of `startElection` up to `persist`, and the one that sends the requests. -/
theorem campaign_of_quiet (h : p.Quiet) : ∃ e, p.step .startElection = some e ∧
    e.events = [] ∧ e.proc.step (.persistElection true) = some
      { proc := p.campaign
        sent := p.node.peers.map fun q => .voteReq q p.node.becomeCandidate.voteRequest } := by
  refine ⟨{ proc := { p with
    node := p.node.becomeCandidate
    election := some ⟨p.node.becomeCandidate.voteRequest, p.node.peers, 1, false⟩ } }, ?_, rfl, ?_⟩
  · simp only [step, h.election, Option.isNone_none, and_true]
    rw [if_pos h.role]
    rfl
  · rfl

theorem exists_campaign (h : p.Quiet) : Alone p p.campaign := by
  obtain ⟨e, hstart, -, hsave⟩ := campaign_of_quiet h
  exact ((Alone.refl p).step hstart rfl).step hsave rfl

/-- An election of a node that hears of no one is lost in the next term. -/
theorem exists_next_term (h : p.Quiet) (hpeers : p.node.peers ≠ []) :
    ∃ p', Alone p p' ∧ p'.kept = p.kept ∧ p'.Quiet ∧ p'.node.term = p.node.term + 1 := by
  let el : Election Id := ⟨p.node.becomeCandidate.voteRequest, p.node.peers, 1, true⟩
  have hlost : p.campaign.endElection el =
      { proc := { p.campaign with
          node := p.campaign.node.becomeFollower (p.node.term + 1) none, election := none } } := by
    refine if_neg fun hw => ?_
    have hmaj : majority p.node.peers ≤ 1 := hw.1
    have hlen := List.length_pos_iff.mpr hpeers
    unfold majority at hmaj
    omega
  have hended : Alone p.campaign (p.campaign.endElection el).proc := exists_ended rfl rfl
  rw [hlost] at hended
  exact ⟨_, (exists_campaign h).trans hended, rfl, ⟨rfl, fun hl => by cases hl⟩, rfl⟩

theorem exists_term (h : p.Quiet) (hpeers : p.node.peers ≠ []) (k : ℕ) :
    ∃ p', Alone p p' ∧ p'.kept = p.kept ∧ p'.Quiet ∧ p'.node.term = p.node.term + k := by
  induction k with
  | zero => exact ⟨p, .refl p, rfl, h, by simp⟩
  | succ k ih =>
    obtain ⟨p₁, h₁, hkept, hquiet, hterm⟩ := ih
    have hpeers₁ : p₁.node.peers ≠ [] := by
      have hident : p₁.node.ident = p.node.ident := congrArg Prod.fst hkept
      rwa [show p₁.node.peers = p.node.peers from congrArg Prod.snd hident]
    obtain ⟨p₂, h₂, hkept₂, hquiet₂, hterm₂⟩ := exists_next_term hquiet hpeers₁
    refine ⟨p₂, h₁.trans h₂, hkept₂.trans hkept, hquiet₂, ?_⟩
    rw [hterm₂, hterm]
    push_cast
    ring

/-! ## RPCs that come back with an error -/

/-- The flag of a peer is set exactly while one goroutine is inside a call to it. -/
def Flags (p : Process Id) : Prop :=
  ∀ q, p.callers q = if p.node.replState.inFlight q then 1 else 0

theorem Flags.of_step {inp : Input Id} {e : Effect Id} (h : p.Flags) (hs : p.step inp = some e) :
    e.proc.Flags := by
  let l : Ledger Id := { proc := p, issued := p.callers, settled := fun _ => 0 }
  have hl : l.Balanced := ⟨h, fun q => (Nat.zero_add _).symm⟩
  have hstep : l.step inp = some _ := Option.map_eq_some_iff.mpr ⟨e, hs, rfl⟩
  have hb := (hl.step hstep).callers
  split_ifs at hb <;> exact hb

/-- What the outcome of an RPC leaves alone if it is an error. -/
def standing (p : Process Id) :
    (Id × List Id) × Role × ℤ × List Entry × ℕ × ℕ × ℕ × ApplyPhase × (Id → ℕ) × (Id → ℕ) :=
  (p.node.ident, p.node.role, p.node.term, p.node.log, p.node.lastIncludedIndex,
    p.node.commitIndex, p.node.lastApplied, p.apply, p.node.replState.nextIndex,
    p.node.replState.matchIndex)

/-- The goroutine that has set the flag gets an error and clears it. -/
theorem exists_error (h : p.Flags) {q : Id} (hq : p.node.replState.inFlight q = true) :
    ∃ p', Alone p p' ∧ p'.standing = p.standing ∧ p'.Flags ∧
      p'.node.replState.inFlight = Function.update p.node.replState.inFlight q false := by
  have hpos : 0 < p.callers q := by
    rw [h q, hq]
    exact Nat.one_pos
  obtain ⟨t, ht, hcalls⟩ := List.countP_pos_iff.mp hpos
  obtain ⟨inp, hi, hs⟩ : ∃ inp : Input Id, inp.alone = true ∧
      p.step inp = some { proc := p.next t (p.node.setInFlight q false) [] } := by
    cases t with
    | awaitAppend peer req =>
      obtain rfl : peer = q := by simpa [Task.callsTo] using hcalls
      exact ⟨.appendError peer req, rfl, if_pos ht⟩
    | awaitSnap peer req =>
      obtain rfl : peer = q := by simpa [Task.callsTo] using hcalls
      exact ⟨.snapshotError peer req, rfl, if_pos ht⟩
    | _ => cases hcalls
  exact ⟨_, (Alone.refl p).step hs hi, rfl, h.of_step hs, rfl⟩

theorem exists_idle (h : p.Flags) (Q : List Id) :
    ∃ p', Alone p p' ∧ p'.standing = p.standing ∧ p'.Flags ∧
      ∀ q ∈ Q, p'.node.replState.inFlight q = false := by
  induction Q with
  | nil => exact ⟨p, .refl p, rfl, h, by simp⟩
  | cons q Q ih =>
    obtain ⟨p₁, h₁, hstand, hflags, hidle⟩ := ih
    cases hq : p₁.node.replState.inFlight q with
    | false => exact ⟨p₁, h₁, hstand, hflags, List.forall_mem_cons.mpr ⟨hq, hidle⟩⟩
    | true =>
      obtain ⟨p₂, h₂, hstand₂, hflags₂, hf⟩ := exists_error hflags hq
      refine ⟨p₂, h₁.trans h₂, hstand₂.trans hstand, hflags₂, fun r hr => ?_⟩
      rw [hf, Function.update_apply]
      split_ifs with hrq
      · rfl
      · exact hidle r ((List.mem_cons.mp hr).resolve_left hrq)

/-! ## A write -/

/-- The leader appends the write, and saves it if it has peers. -/
theorem exists_proposed (h : p.Flags) (hrole : p.node.role = .leader) (cmd : Command) :
    ∃ p', Alone p p' ∧ p'.Flags ∧ p'.apply = p.apply ∧
      p'.node.saved = (p.node.appendEntry cmd).saved := by
  let n := p.node.appendEntry cmd
  by_cases hpeers : p.node.peers = []
  · have hstep : p.step (.propose cmd) = some
        { proc := { p with node := n, tasks := p.tasks ++ [.inline n.lastLogIndex cmd] } } := by
      simp only [step, hrole, hpeers, if_true]
      rfl
    exact ⟨_, (Alone.refl p).step hstep rfl, h.of_step hstep, rfl, rfl⟩
  · have hstep : p.step (.propose cmd) = some
        { proc := { p with
            node := n, tasks := p.tasks ++ [.propose n.lastLogIndex n.term cmd] } } := by
      simp only [step, hrole, hpeers, if_true, if_false]
      rfl
    have hsave : ({ p with node := n, tasks := p.tasks ++ [.propose n.lastLogIndex n.term cmd] } :
        Process Id).step (.persistPropose n.lastLogIndex n.term cmd true) = some _ :=
      if_pos (List.mem_append_right _ (List.mem_singleton_self _))
    refine ⟨_, ((Alone.refl p).step hstep rfl).step hsave rfl, (h.of_step hstep).of_step hsave,
      ?_, ?_⟩
    · simp only [persist_saved, if_true]
      rfl
    · simp only [persist_saved, if_true]
      have hnode := congrArg Node.saved (Node.persist_saved n p.disk)
      exact hnode

/-! ## The apply loop -/

/-- The process with `lastApplied` at `k`. -/
def appliedTo (p : Process Id) (k : ℕ) : Process Id :=
  { p with node := { p.node with lastApplied := k }, apply := .idle }

/-- The command of the index `idx` is run and the index marked. -/
theorem exists_done {idx : ℕ} {cmd : Command} (h : p.apply = .running idx cmd) :
    Alone p (p.appliedTo (max p.node.lastApplied idx)) := by
  have hrun : p.step .applyRun = some
      { proc := { p with apply := .finished idx }, events := [.applied p.node.id idx cmd] } := by
    simp only [step, h]
  have hmark : ({ p with apply := .finished idx } : Process Id).step .applyDone = some
      { proc := p.appliedTo (max p.node.lastApplied idx) } := rfl
  exact ((Alone.refl p).step hrun rfl).step hmark rfl

/-- The iteration of `applyLoop` that has the index `idx` in hand comes to its end. -/
theorem exists_marked {idx : ℕ} {entry : Option Entry} (h : p.apply = .picked idx entry) :
    ∃ k, Alone p (p.appliedTo k) ∧ p.node.lastApplied ≤ k ∧ k ≤ max p.node.lastApplied idx ∧
      idx ≤ k := by
  by_cases hle : idx ≤ p.node.lastApplied
  · have hstep : p.step .applyCheck = some { proc := p.appliedTo p.node.lastApplied } := by
      simp only [step, h, ge_iff_le, hle, if_true]
      rfl
    exact ⟨_, (Alone.refl p).step hstep rfl, le_refl _, le_max_left _ _, hle⟩
  · refine ⟨max p.node.lastApplied idx, ?_, le_max_left _ _, le_refl _, le_max_right _ _⟩
    cases entry with
    | none =>
      have hstep : p.step .applyCheck = some
          { proc := p.appliedTo (max p.node.lastApplied idx) } := by
        simp only [step, h, ge_iff_le, hle, if_false]
        rfl
      exact (Alone.refl p).step hstep rfl
    | some en =>
      have hcheck : p.step .applyCheck = some
          { proc := { p with apply := .running idx en.cmd } } := by
        simp only [step, h, ge_iff_le, hle, if_false]
      exact ((Alone.refl p).step hcheck rfl).trans (exists_done rfl)

/-- The apply loop comes back to its start. -/
theorem exists_waiting (p : Process Id) : ∃ k, Alone p (p.appliedTo k) ∧
    p.node.lastApplied ≤ k ∧ k ≤ max p.node.lastApplied p.apply.index := by
  have hmark : ∀ idx : ℕ, p.node.lastApplied ≤ max p.node.lastApplied idx ∧
      max p.node.lastApplied idx ≤ max p.node.lastApplied idx :=
    fun _ => ⟨le_max_left _ _, le_refl _⟩
  cases hap : p.apply with
  | idle =>
    have hp : p.appliedTo p.node.lastApplied = p := by
      unfold appliedTo
      rw [← hap]
    exact ⟨p.node.lastApplied, hp.symm ▸ .refl p, le_refl _, le_max_left _ _⟩
  | picked idx entry =>
    obtain ⟨k, hk, h1, h2, -⟩ := exists_marked hap
    exact ⟨k, hk, h1, h2⟩
  | running idx cmd => exact ⟨_, exists_done hap, hmark idx⟩
  | finished idx =>
    have hdone : p.step .applyDone = some
        { proc := p.appliedTo (max p.node.lastApplied idx) } := by
      simp only [step, hap]
      rfl
    exact ⟨_, (Alone.refl p).step hdone rfl, hmark idx⟩

/-- A committed entry that is not applied and not in hand is about to be applied. -/
theorem exists_running {idx : ℕ} {en : Entry} (hentry : p.node.entryAt idx = some en)
    (hcommit : idx ≤ p.node.commitIndex) (happ : p.node.lastApplied < idx)
    (hhand : p.apply.index < idx) :
    ∃ k, Alone p { p.appliedTo k with apply := .running idx en.cmd } := by
  obtain ⟨k₀, h₀, -, hle⟩ := p.exists_waiting
  have hk₀ : k₀ < idx := hle.trans_lt (max_lt happ hhand)
  clear happ hhand hle
  induction hd : idx - k₀ using Nat.strongRecOn generalizing k₀ with
  | ind d ih =>
    have hpick : (p.appliedTo k₀).step .applyPick = some
        { proc := { p.appliedTo k₀ with
            apply := .picked (k₀ + 1) (p.node.entryAt ((k₀ + 1 : ℕ) : ℤ)) } } := by
      have hlt : k₀ < p.node.commitIndex := by omega
      simp only [step, appliedTo, hlt, and_self, if_true]
      rfl
    have hpicked := h₀.step hpick rfl
    by_cases hlast : k₀ + 1 = idx
    · subst hlast
      rw [hentry] at hpicked
      have hcheck : ({ p.appliedTo k₀ with apply := .picked (k₀ + 1) (some en) } : Process Id).step
          .applyCheck = some
            { proc := { p.appliedTo k₀ with apply := .running (k₀ + 1) en.cmd } } :=
        if_neg (Nat.not_succ_le_self k₀)
      exact ⟨k₀, hpicked.step hcheck rfl⟩
    · obtain ⟨k, hk, h1, h2, h3⟩ := exists_marked (p := { p.appliedTo k₀ with
        apply := .picked (k₀ + 1) (p.node.entryAt ((k₀ + 1 : ℕ) : ℤ)) }) rfl
      have hbound : k ≤ max k₀ (k₀ + 1) := h2
      exact ih (idx - k) (by omega) k (hpicked.trans hk) (by omega) rfl

end Process

end KvStore.Raft
