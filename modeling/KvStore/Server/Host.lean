import KvStore.Raft.Executions
import KvStore.Storage.Recovery

/-!
# A node and the state machine behind it

`Raft.Process` leaves the store out. A `Host` is a node together with its store, for one
lifetime of the process: the apply loop and, on a node without peers, `propose` execute
commands on the store, and `HandleInstallSnapshot` replaces it in a section of its own,
some time after the section that has moved `lastApplied` (pkg/raft/snapshot.go:142).

What is behind the node is any `StateMachine`; `diskMachine` is the one
`cmd/server/main.go` uses. The sections that write the store exclude each other by `applyMu`:
the apply loop holds it from its check to the end of the execution.
-/

namespace KvStore.Storage

namespace DiskStore

/-- `applyCmd` (pkg/raft/leader.go:340) on a `DiskStore`. The apply loop waits for every
    command, so a batch has one request. -/
def applyCmd (d : DiskStore) (cmd : Command) (nonce : Nonce) (now later : Int64) :
    DiskStore :=
  match cmd.op with
  | .put | .delete | .clear => d.writeBatch [(cmd, nonce)]
  | .incr | .cas | .expire => (d.writeSingle cmd nonce now later).2
  -- `raft: unknown command op`
  | .other _ => d

/-- What `applyCmd` (pkg/raft/leader.go:340) returns on a `DiskStore`. -/
def applyResult (d : DiskStore) (cmd : Command) (nonce : Nonce) (now later : Int64) :
    Except Err Value :=
  match cmd.op with
  | .put | .delete | .clear => .ok .none
  | .incr | .cas | .expire => (d.writeSingle cmd nonce now later).1
  | .other _ => .error .unknownOp

/-- `Put`, `Delete` and `Clear` do to the memory what they do to a `MemStore`. -/
theorem applyCmd_mem (d : DiskStore) {cmd : Command} (nonce : Nonce) (now later : Int64)
    (hop : cmd.op.conditional = false) :
    (d.applyCmd cmd nonce now later).mem = (d.mem.apply cmd now).2 := by
  obtain ⟨op, key, old, value, expiresAt⟩ := cmd
  cases op with
  | put => rfl
  | delete => rfl
  | clear => rfl
  | other code => rfl
  | _ => simp [Op.conditional] at hop

theorem restoreSnapshot_cell (d : DiskStore) (data : List (Bytes × Entry)) (k : Bytes) :
    (d.restoreSnapshot data).mem.cell k = (decodeSnapshot data).cell k := rfl

/-- A successful `Incr` returns a number. -/
theorem applyResult_incr {d : DiskStore} {cmd : Command} {nonce : Nonce} {now later : Int64}
    {v : Value} (hop : cmd.op = .incr) (h : d.applyResult cmd nonce now later = .ok v) :
    ∃ n, v = .int n := by
  simp only [applyResult, writeSingle, hop] at h
  cases hr : ((d.append (.incr cmd.key) nonce).mem.incr cmd.key now).1 with
  | error e => simp [hr, Except.map] at h
  | ok n =>
    rw [hr] at h
    cases h
    exact ⟨n, rfl⟩

/-- A successful `CAS` returns a truth value. -/
theorem applyResult_cas {d : DiskStore} {cmd : Command} {nonce : Nonce} {now later : Int64}
    {v : Value} (hop : cmd.op = .cas) (h : d.applyResult cmd nonce now later = .ok v) :
    ∃ b, v = .bool b := by
  simp only [applyResult, writeSingle, hop] at h
  split at h
  · cases h
  · split_ifs at h <;> cases h <;> exact ⟨_, rfl⟩

end DiskStore

end KvStore.Storage

namespace KvStore

open KvStore.Storage (Bytes Command DiskStore Nonce Err Value)
open KvStore.Raft (Process Input Event InstallSnapshotRequest InstallSnapshotResponse Node RaftState)

/-- The sections of the node that neither write nor replace the store. -/
def storeless {Id : Type} : Input Id → Bool
  | .applyRun => false
  | .applyInline _ _ => false
  | .installSnapshot _ => false
  | .persistSnapshot _ _ _ => false
  | .restart => false
  | _ => true

/-- The state machine behind a node: `applyCmd` (pkg/raft/leader.go:340), the two sides of the
    snapshot bridge (cmd/server/snapshot_bridge.go:22), and what the store does by itself. An
    execution takes readings and nonces `ε` from outside. -/
structure StateMachine (σ ε κ : Type) where
  exec : Command → ε → σ → Except Err Value × σ
  serialize : σ → Bytes
  /-- `none` is a document that cannot be read; the store is then left as it is. -/
  restore : Bytes → σ → Option σ
  tend : κ → σ → σ
  incr_int : ∀ {cmd env s v}, cmd.op = .incr → (exec cmd env s).1 = .ok v → ∃ n, v = .int n
  cas_bool : ∀ {cmd env s v}, cmd.op = .cas → (exec cmd env s).1 = .ok v → ∃ b, v = .bool b

namespace StateMachine

variable {σ ε κ : Type} (M : StateMachine σ ε κ)

/-- The state after a sequence of commands. -/
def run (calls : List (Command × ε)) (s : σ) : σ := calls.foldl (fun s c => (M.exec c.1 c.2 s).2) s

@[simp] theorem run_nil (s : σ) : M.run [] s = s := rfl

@[simp] theorem run_concat (calls : List (Command × ε)) (c : Command × ε) (s : σ) :
    M.run (calls ++ [c]) s = (M.exec c.1 c.2 (M.run calls s)).2 := by
  simp [run]

end StateMachine

/-- What the goroutines of the store and its readers do to it. -/
inductive Upkeep where
  | get (key : Bytes) (now later : Int64)
  | sweep (now : Int64)
  | compact

def Upkeep.action : Upkeep → Storage.Action
  | .get key now later => .get key now later
  | .sweep now => .sweep now
  | .compact => .compact

/-- The nonce and the two readings of an execution on a `DiskStore`. -/
abbrev DiskEnv := Nonce × Int64 × Int64

/-- The store of the server. `encode` and `decode` are the JSON text of a snapshot, which the
    model of the store does not spell out. -/
def diskMachine (encode : List (Bytes × Storage.Entry) → Bytes)
    (decode : Bytes → Option (List (Bytes × Storage.Entry))) :
    StateMachine DiskStore DiskEnv Upkeep where
  exec := fun cmd env d =>
    (d.applyResult cmd env.1 env.2.1 env.2.2, d.applyCmd cmd env.1 env.2.1 env.2.2)
  serialize := fun d => encode d.serializeSnapshot
  restore := fun data d => (decode data).map d.restoreSnapshot
  tend := fun u d => d.step u.action
  incr_int := Storage.DiskStore.applyResult_incr
  cas_bool := Storage.DiskStore.applyResult_cas

/-- A node and its store; the installed snapshots whose data has not been restored yet. On the
    side: the snapshots that have been installed, what each index was executed with, and what
    the node has shown. -/
structure Host (Id σ ε : Type) where
  proc : Process Id
  store : σ
  restores : List (InstallSnapshotRequest Id)
  installed : List (InstallSnapshotRequest Id)
  readings : ℕ → Option ε
  events : List (Event Id)

namespace Host

variable {Id : Type} [DecidableEq Id] {σ ε κ : Type}

/-- What may happen next on a host. -/
inductive Act (Id ε κ : Type) where
  | raft (inp : Input Id)
  /-- `applyLoop` executes the command it has picked (pkg/raft/apply.go:163). -/
  | apply (env : ε)
  /-- `propose` on a node without peers executes its command (pkg/raft/leader.go:142). -/
  | inline (index : ℕ) (cmd : Command) (env : ε)
  /-- The section of `HandleInstallSnapshot` under `n.mu` (pkg/raft/snapshot.go:143). -/
  | install (req : InstallSnapshotRequest Id)
  /-- Its section under `applyMu` (pkg/raft/snapshot.go:187). -/
  | restore (req : InstallSnapshotRequest Id)
  /-- Its last section, `persist` (pkg/raft/snapshot.go:197). -/
  | persist (req : InstallSnapshotRequest Id) (resp : InstallSnapshotResponse) (saved : Bool)
  | tend (u : κ)

/-- A node opened on its raft store, with the store `s`. -/
def opened (id : Id) (peers : List Id) (st : RaftState Id) (s : σ) : Host Id σ ε :=
  { proc := Process.opened (Node.new id peers) st, store := s, restores := [], installed := []
    readings := fun _ => none, events := [] }

/-- `installed` of `HandleInstallSnapshot` (pkg/raft/snapshot.go:164). -/
def installs (n : Node Id) (req : InstallSnapshotRequest Id) : Prop :=
  n.term ≤ req.term ∧ (n.lastApplied : ℤ) < req.lastIncludedIndex

instance (n : Node Id) (req : InstallSnapshotRequest Id) : Decidable (installs n req) := by
  unfold installs
  infer_instance

/-- What the first section of `HandleInstallSnapshot` does to the indices. -/
theorem installs_of_step {p : Process Id} {e : Process.Effect Id} {req : InstallSnapshotRequest Id}
    (hstep : p.step (.installSnapshot req) = some e) (hi : installs p.node req) :
    (e.proc.node.lastIncludedIndex : ℤ) = req.lastIncludedIndex ∧
      (e.proc.node.lastApplied : ℤ) = req.lastIncludedIndex ∧ e.proc.apply = p.apply := by
  obtain ⟨ht, hla⟩ := hi
  have happ := (Node.follow_quiet p.node req.term req.leaderID).fields.2.2.2.2
  simp only [Process.step, if_neg (not_lt.mpr ht)] at hstep
  cases hstep
  have hlt : (p.node.follow req.term req.leaderID).lastApplied < req.lastIncludedIndex.toNat := by
    omega
  simp only [Node.handleInstallSnapshot, if_neg (not_lt.mpr ht), happ, gt_iff_lt, if_pos hla,
    Node.adoptSnapshot, and_true]
  rw [happ] at hlt
  rw [if_pos hlt]
  omega

theorem quiet_of_not_installs {p : Process Id} {e : Process.Effect Id}
    {req : InstallSnapshotRequest Id} (hstep : p.step (.installSnapshot req) = some e)
    (hi : ¬ installs p.node req) : Node.Quiet p.node e.proc.node ∧ e.proc.apply = p.apply := by
  have hquiet := Node.follow_quiet p.node req.term req.leaderID
  have happ := hquiet.fields.2.2.2.2
  simp only [Process.step] at hstep
  split_ifs at hstep with ht
  · cases hstep
    exact ⟨.refl _, rfl⟩
  · cases hstep
    have hla : ¬ ((p.node.lastApplied : ℤ) < req.lastIncludedIndex) := fun hlt =>
      hi ⟨not_lt.mp ht, hlt⟩
    simp only [Node.handleInstallSnapshot, if_neg ht, happ, gt_iff_lt, if_neg hla, and_true]
    exact hquiet

/-- Outside the apply loop only an installed snapshot raises `lastApplied`. -/
theorem raised_of_step {p : Process Id} {e : Process.Effect Id} {inp : Input Id} (h : p.IndexInv)
    (hstep : p.step inp = some e) (hr : inp ≠ .restart) (ha : Process.ofApplyLoop inp = false) :
    e.proc.node.lastApplied ≤ p.node.lastApplied ∨
      ∃ req, inp = .installSnapshot req ∧ installs p.node req ∧
        (e.proc.node.lastApplied : ℤ) = req.lastIncludedIndex := by
  rcases Process.lastApplied_of_step h hstep hr ha with hle | ⟨⟨req, rfl⟩, -⟩
  · exact .inl hle
  · by_cases hi : installs p.node req
    · exact .inr ⟨req, rfl, hi, (installs_of_step hstep hi).2.1⟩
    · exact .inl (quiet_of_not_installs hstep hi).1.fields.2.2.2.2.le

/-- Whether the data of a snapshot waits to be restored. -/
instance decidableMemRestores (req : InstallSnapshotRequest Id)
    (restores : List (InstallSnapshotRequest Id)) : Decidable (req ∈ restores) :=
  inferInstance

/-- `applyMu` is held by the apply loop. -/
def applying (h : Host Id σ ε) : Bool :=
  match h.proc.apply with
  | .running _ _ => true
  | .finished _ => true
  | _ => false

/-- The host after a section of its node. -/
def next (h : Host Id σ ε) (inp : Input Id) : Option (Host Id σ ε) :=
  (h.proc.step inp).map fun e => { h with proc := e.proc, events := h.events ++ e.events }

/-- One step. `none` means that it cannot happen in this state. -/
def step (M : StateMachine σ ε κ) (h : Host Id σ ε) : Act Id ε κ → Option (Host Id σ ε)
  | .raft inp => if storeless inp then h.next inp else none
  | .apply env =>
    match h.proc.apply with
    | .running idx cmd =>
      (h.next .applyRun).map fun h' =>
        { h' with
          store := (M.exec cmd env h.store).2
          readings := Function.update h.readings idx (some env) }
    | _ => none
  | .inline index cmd env =>
    (h.next (.applyInline index cmd)).map fun h' => { h' with store := (M.exec cmd env h.store).2 }
  | .install req =>
    (h.next (.installSnapshot req)).map fun h' =>
      if installs h.proc.node req then
        { h' with restores := h.restores ++ [req], installed := h.installed ++ [req] }
      else h'
  | .restore req =>
    if req ∈ h.restores ∧ h.applying = false then
      some { h with
        store := (M.restore req.data h.store).getD h.store, restores := h.restores.erase req }
    else none
  | .persist req resp saved =>
    -- the restore of the same call has come first
    if h.restores.count req < h.proc.tasks.count (.snapshot req resp) then
      h.next (.persistSnapshot req resp saved)
    else none
  | .tend u => some { h with store := M.tend u h.store }

/-- The section of the node that an action contains. -/
def Act.input : Act Id ε κ → Option (Input Id)
  | .raft inp => some inp
  | .apply _ => some .applyRun
  | .inline index cmd _ => some (.applyInline index cmd)
  | .install req => some (.installSnapshot req)
  | .persist req resp saved => some (.persistSnapshot req resp saved)
  | .restore _ => none
  | .tend _ => none

theorem next_eq_some {h h' : Host Id σ ε} {inp : Input Id} (hn : h.next inp = some h') :
    ∃ e, h.proc.step inp = some e ∧
      h' = { h with proc := e.proc, events := h.events ++ e.events } := by
  obtain ⟨e, hstep, rfl⟩ := Option.map_eq_some_iff.mp hn
  exact ⟨e, hstep, rfl⟩

theorem raft_eq_some {M : StateMachine σ ε κ} {h h' : Host Id σ ε} {inp : Input Id}
    (hs : h.step M (.raft inp) = some h') :
    ∃ e, h.proc.step inp = some e ∧
      h' = { h with proc := e.proc, events := h.events ++ e.events } :=
  next_eq_some (Option.ite_none_right_eq_some.mp hs).2

/-- The node takes the step the action contains, or none. -/
theorem proc_of_step {M : StateMachine σ ε κ} {h h' : Host Id σ ε} {a : Act Id ε κ}
    (hs : h.step M a = some h') :
    (∃ inp e, a.input = some inp ∧ inp ≠ .restart ∧ h.proc.step inp = some e ∧
      h'.proc = e.proc ∧ h'.events = h.events ++ e.events) ∨
    (a.input = none ∧ h'.proc = h.proc ∧ h'.events = h.events) := by
  cases a with
  | raft inp =>
    obtain ⟨hst, hn⟩ := Option.ite_none_right_eq_some.mp hs
    obtain ⟨e, hstep, rfl⟩ := next_eq_some hn
    refine .inl ⟨inp, e, rfl, ?_, hstep, rfl, rfl⟩
    rintro rfl
    cases hst
  | apply env =>
    simp only [step] at hs
    split at hs
    · obtain ⟨h₁, hn, rfl⟩ := Option.map_eq_some_iff.mp hs
      obtain ⟨e, hstep, rfl⟩ := next_eq_some hn
      exact .inl ⟨_, e, rfl, (by simp), hstep, rfl, rfl⟩
    · cases hs
  | inline index cmd env =>
    obtain ⟨h₁, hn, rfl⟩ := Option.map_eq_some_iff.mp hs
    obtain ⟨e, hstep, rfl⟩ := next_eq_some hn
    exact .inl ⟨_, e, rfl, (by simp), hstep, rfl, rfl⟩
  | install req =>
    obtain ⟨h₁, hn, rfl⟩ := Option.map_eq_some_iff.mp hs
    obtain ⟨e, hstep, rfl⟩ := next_eq_some hn
    refine .inl ⟨_, e, rfl, (by simp), hstep, ?_, ?_⟩ <;> split_ifs <;> rfl
  | restore req =>
    obtain ⟨-, hs⟩ := Option.ite_none_right_eq_some.mp hs
    cases hs
    exact .inr ⟨rfl, rfl, rfl⟩
  | persist req resp saved =>
    obtain ⟨-, hn⟩ := Option.ite_none_right_eq_some.mp hs
    obtain ⟨e, hstep, rfl⟩ := next_eq_some hn
    exact .inl ⟨_, e, rfl, (by simp), hstep, rfl, rfl⟩
  | tend u =>
    cases hs
    exact .inr ⟨rfl, rfl, rfl⟩

/-- The state after a run all of whose steps meet `ok` in the state before them. -/
def run (M : StateMachine σ ε κ) (ok : Host Id σ ε → Act Id ε κ → Prop)
    [∀ h a, Decidable (ok h a)] (h : Host Id σ ε) (acts : List (Act Id ε κ)) :
    Option (Host Id σ ε) :=
  Transition.run (Host.step M) ok h acts

end Host

end KvStore
