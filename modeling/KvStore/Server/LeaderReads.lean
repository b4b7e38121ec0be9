import KvStore.Server.Host

/-!
# Reading one's own write on the leader

`Put` and `Delete` return once the entry is in the leader's own log (`propose`,
pkg/raft/leader.go:124); `Get` reads the local store (pkg/raft/leader.go:65). Commit, apply loop
and read are scheduled independently.

* `Host.reads_own_write`: on a node that stays leader, with no other command on the key proposed
  since, `Get` returns what the write has left once the write has been executed, as long as no
  snapshot is restored and no earlier command on the key executed again after that.
* `Host.read_misses_write`: `Get` right after the acknowledgement does not find the key; on a
  node without peers the apply loop brings back an overwritten value.
-/

namespace KvStore.Storage

/-! ## One key of the store -/

/-- A cell without a deadline. -/
def Lasting (c : Option Entry) : Prop := ∀ e, c = some e → e.exp = 0

namespace MemStore

variable {m : MemStore} {k : Bytes}

theorem get_cell_of_lasting (h : Lasting (m.cell k)) (key : Bytes) (now later : Int64) :
    (m.get key now later).2.cell k = m.cell k := by
  rcases m.cell_get key k now later with heq | ⟨-, e, he, hdead⟩
  · exact heq
  · simp [entryExpired, h e he] at hdead

theorem get_cell_of_ne {key : Bytes} (h : key ≠ k) (m : MemStore) (now later : Int64) :
    (m.get key now later).2.cell k = m.cell k := by
  unfold get
  split
  · rfl
  · split_ifs
    · rw [cell_erase, if_neg h]
      rfl
    · rfl
    · rfl

theorem sweep_cell_of_lasting (h : Lasting (m.cell k)) (now : Int64) :
    (m.sweepExpired now).2.cell k = m.cell k := by
  rw [cell_sweepExpired]
  cases hc : m.cell k with
  | none => rfl
  | some e =>
    refine Expiring.live_some_of_not_dead ?_
    simp [dead_eq, entryExpired, h e hc]

end MemStore

namespace DiskStore

/-- A command on another key leaves the cell alone. -/
theorem applyCmd_cell_of_not_touches (d : DiskStore) {cmd : Command} {k : Bytes} (nonce : Nonce)
    (now later : Int64) (hk : ¬ cmd.Touches k) :
    (d.applyCmd cmd nonce now later).mem.cell k = d.mem.cell k := by
  have hother : ∀ (m : MemStore) (t : Int64), (m.apply cmd t).2.cell k = m.cell k := by
    intro m t
    rw [MemStore.apply_cell, if_neg hk]
  have hkey : cmd.key ≠ k := fun h => hk (.inr h)
  obtain ⟨op, key, old, value, expiresAt⟩ := cmd
  cases op with
  | incr => exact hother d.mem now
  | cas =>
    have hget := MemStore.get_cell_of_ne hkey d.mem now later
    simp only [applyCmd, writeSingle]
    split
    · next e m hm => rwa [hm] at hget
    · next cur m hm =>
      rw [hm] at hget
      split_ifs
      · exact hget
      · change (m.put key value).cell k = _
        rw [MemStore.cell_put, if_neg hkey]
        exact hget
  | expire =>
    have hget := MemStore.get_cell_of_ne hkey d.mem now later
    simp only [applyCmd, writeSingle]
    split
    · next e m hm => rwa [hm] at hget
    · next cur m hm =>
      rw [hm] at hget
      exact (hother m later).trans hget
  | _ =>
    rw [applyCmd_mem d nonce now later rfl]
    exact hother d.mem now

end DiskStore

/-- What a `Put` or a `Delete` leaves in its cell. -/
def Command.leaves (cmd : Command) : Option Entry :=
  if cmd.op = .put then some { value := cmd.value } else none

/-- What `Get` is to return after a `Put` or a `Delete`. -/
def Command.readBack (cmd : Command) : Except Err Bytes :=
  if cmd.op = .put then .ok cmd.value else .error .notFound

theorem Command.lasting_leaves (cmd : Command) : Lasting cmd.leaves := by
  intro e he
  unfold leaves at he
  split_ifs at he
  cases he
  rfl

theorem DiskStore.applyCmd_leaves (d : DiskStore) {cmd : Command} (nonce : Nonce)
    (now later : Int64) (hop : cmd.op = .put ∨ cmd.op = .delete) :
    (d.applyCmd cmd nonce now later).mem.cell cmd.key = cmd.leaves := by
  have hc : cmd.op.conditional = false := by
    rcases hop with h | h <;> rw [h] <;> rfl
  rw [applyCmd_mem d nonce now later hc, MemStore.apply_cell, if_pos (.inr rfl)]
  rcases hop with h | h <;> simp [Command.onCell, Command.leaves, h]

theorem MemStore.get_leaves {m : MemStore} {cmd : Command} (h : m.cell cmd.key = cmd.leaves)
    (now later : Int64) : (m.get cmd.key now later).1 = cmd.readBack := by
  unfold get Command.readBack
  rw [h]
  unfold Command.leaves
  split_ifs <;> simp

end KvStore.Storage

namespace KvStore.Host

open KvStore.Storage (Bytes Command DiskStore Err Value)
open KvStore.Raft (Process Input InstallSnapshotRequest Node RaftState ApplyPhase Entry)

variable {Id : Type}

/-! ## The log above the write -/

/-- At the index of the write there is the write, and above it nothing on its key. -/
def Allowed (idx : ℕ) (cmd : Command) (i : ℕ) (c : Command) : Prop :=
  (i = idx → c = cmd) ∧ (idx < i → ¬ c.Touches cmd.key)

/-- What the apply loop has in hand. -/
def AllowedInHand (idx : ℕ) (cmd : Command) : ApplyPhase → Prop
  | .picked i entry => ∀ en, entry = some en → Allowed idx cmd i en.cmd
  | .running i c => Allowed idx cmd i c
  | _ => True

structure Above (idx : ℕ) (cmd : Command) (p : Process Id) : Prop where
  last : idx ≤ p.node.lastLogIndex
  log : ∀ (i : ℕ) en, p.node.entryAt i = some en → Allowed idx cmd i en.cmd
  hand : AllowedInHand idx cmd p.apply

section Steps

variable {p : Process Id} {inp : Input Id} {e : Process.Effect Id} {idx : ℕ} {cmd : Command}

theorem entryAt_of_appendEntry {n : Node Id} {c : Command} {i : ℕ} {en : Entry}
    (h : (n.appendEntry c).entryAt i = some en) :
    n.entryAt i = some en ∨ n.lastLogIndex < i ∧ en.cmd = c := by
  have hbase := (n.appendEntry_frame c).2.2.2.2.1
  have hlog := n.appendEntry_log c
  by_cases hb : i ≤ n.lastIncludedIndex
  · rw [Node.Holds.entryAt_base _ (hbase ▸ hb)] at h
    cases h
  · rw [Node.entryAt_eq_getElem? _ (by rw [hbase]; omega), hlog, hbase] at h
    rw [Node.entryAt_eq_getElem? n (by omega)]
    by_cases hlt : ((i : ℤ) - n.lastIncludedIndex - 1).toNat < n.log.length
    · rw [List.getElem?_append_left hlt] at h
      exact .inl h
    · rw [List.getElem?_append_right (not_lt.mp hlt)] at h
      obtain ⟨hlen, rfl⟩ := List.getElem?_eq_some_iff.mp h
      refine .inr ⟨?_, ?_⟩
      · unfold Node.lastLogIndex
        omega
      · simp

theorem entryAt_of_compactLog {n : Node Id} {index i : ℕ} {label : ℤ} {en : Entry}
    (h : (n.compactLog index label).entryAt i = some en) : n.entryAt i = some en := by
  by_cases hle : index ≤ n.lastIncludedIndex
  · rw [Node.compactLog, if_pos hle] at h
    exact h
  · have hb : (n.compactLog index label).lastIncludedIndex < i := by
      by_contra hge
      rw [Node.Holds.entryAt_base _ (not_lt.mp hge)] at h
      cases h
    have hlast : i ≤ n.lastLogIndex := by
      have hi := Node.le_lastLogIndex_of_entryAt h
      rw [Node.compactLog, if_neg hle] at hi hb
      unfold Node.lastLogIndex at hi ⊢
      dsimp only at hi hb
      split_ifs at hi with hge
      · rw [List.length_nil] at hi
        omega
      · rw [List.length_drop] at hi
        omega
    rw [← n.compactLog_entryAt label hb hlast]
    exact h

theorem lastLogIndex_le_compactLog (n : Node Id) (index : ℕ) (label : ℤ) :
    n.lastLogIndex ≤ (n.compactLog index label).lastLogIndex := by
  by_cases hle : index ≤ n.lastIncludedIndex
  · rw [Node.compactLog, if_pos hle]
  · rw [Node.compactLog, if_neg hle]
    by_cases hge : index ≥ n.lastLogIndex
    · rw [if_pos hge]
      exact hge
    · rw [if_neg hge]
      unfold Node.lastLogIndex at hge ⊢
      rw [List.length_drop]
      dsimp only
      omega

variable [DecidableEq Id]

/-- A node that is leader after a section has at most appended to its log, or compacted it. -/
theorem log_of_step (hstep : p.step inp = some e) (hr : inp ≠ .restart)
    (hlead : e.proc.node.role = .leader) :
    p.node.lastLogIndex ≤ e.proc.node.lastLogIndex ∧
      ∀ (i : ℕ) en, e.proc.node.entryAt i = some en → p.node.entryAt i = some en ∨
        ∃ c, inp = .propose c ∧ p.node.lastLogIndex < i ∧ en.cmd = c := by
  have hmove := Process.logMove hstep
  generalize e.proc.node = n' at hmove hlead
  cases hmove with
  | keep _ hl _ _ =>
    constructor
    · unfold Node.lastLogIndex
      rw [hl.log, hl.base]
    · intro i en hen
      unfold Node.entryAt Node.logOffset at hen ⊢
      rw [hl.log, hl.base] at hen
      exact .inl hen
  | elected _ _ _ _ _ _ => exact ⟨le_refl _, fun i en hen => .inl hen⟩
  | propose c _ =>
    constructor
    · unfold Node.lastLogIndex
      rw [p.node.appendEntry_log c, (p.node.appendEntry_frame c).2.2.2.2.1, List.length_append]
      omega
    · intro i en hen
      exact (entryAt_of_appendEntry hen).imp_right fun h => ⟨c, rfl, h⟩
  | accept req ht hc =>
    obtain ⟨-, -, -, -, -, hrole, -⟩ := Node.handleAppendEntries_accepted ht
      ((Node.follow_checkPrevLog p.node req.term req.leaderID _ _).trans hc)
    rw [hrole] at hlead
    cases hlead
  | install req _ _ =>
    have hrole := Node.follow_role p.node req.term req.leaderID
    change (p.node.follow req.term req.leaderID).role = .leader at hlead
    rw [hrole] at hlead
    cases hlead
  | compact index label _ =>
    exact ⟨lastLogIndex_le_compactLog p.node index label, fun i en hen => .inl (entryAt_of_compactLog hen)⟩
  | restart => exact absurd rfl hr

theorem Above.step (h : Above idx cmd p) (hstep : p.step inp = some e) (hr : inp ≠ .restart)
    (hlead : e.proc.node.role = .leader) (hprop : ∀ c, inp = .propose c → ¬ c.Touches cmd.key) :
    Above idx cmd e.proc := by
  obtain ⟨hlast, hlog⟩ := log_of_step hstep hr hlead
  refine ⟨h.last.trans hlast, ?_, ?_⟩
  · intro i en hen
    rcases hlog i en hen with hold | ⟨c, rfl, hi, rfl⟩
    · exact h.log i en hold
    · have hle := h.last
      exact ⟨fun heq => by omega, fun _ => hprop _ rfl⟩
  · have hhand := h.hand
    by_cases ha : Process.ofApplyLoop inp = false
    · rw [Process.apply_eq_of_step hstep hr ha]
      exact hhand
    cases inp with
    | applyPick =>
      obtain ⟨-, hstep⟩ := Option.ite_none_right_eq_some.mp hstep
      cases hstep
      exact fun en hen => h.log _ en hen
    | applyCheck =>
      simp only [Process.step] at hstep
      split at hstep
      · next i entry hpick =>
        rw [hpick] at hhand
        split_ifs at hstep
        · cases hstep
          trivial
        · split at hstep <;> cases hstep
          · trivial
          · exact hhand _ rfl
      · cases hstep
    | applyRun =>
      simp only [Process.step] at hstep
      split at hstep <;> cases hstep
      trivial
    | applyDone =>
      simp only [Process.step] at hstep
      split at hstep <;> cases hstep
      trivial
    | _ => exact absurd rfl ha

end Steps

/-! ## From the proposal to the read -/

/-- The node is leader, and no command on the key is proposed. -/
def Leads (k : Bytes) (h : Host Id DiskStore DiskEnv) (a : Act Id DiskEnv Upkeep) : Prop :=
  h.proc.node.role = .leader ∧
    match a with
    | .raft (.propose c) => ¬ c.Touches k
    | _ => True

instance (k : Bytes) (h : Host Id DiskStore DiskEnv) (a : Act Id DiskEnv Upkeep) : Decidable (Leads k h a) := by
  unfold Leads
  split <;> infer_instance

/-- The action executes the command at the index. -/
def Executes (idx : ℕ) (cmd : Command) (h : Host Id DiskStore DiskEnv) : Act Id DiskEnv Upkeep → Prop
  | .apply _ => match h.proc.apply with
    | .running i _ => i = idx
    | _ => False
  | .inline i c _ => i = idx ∧ c = cmd
  | _ => False

instance (idx : ℕ) (cmd : Command) (h : Host Id DiskStore DiskEnv) (a : Act Id DiskEnv Upkeep) :
    Decidable (Executes idx cmd h a) := by
  unfold Executes
  split
  · split <;> infer_instance
  · infer_instance
  · infer_instance

/-- No snapshot is restored, and no command on the key from below the index is executed. -/
def Undisturbed (idx : ℕ) (cmd : Command) (h : Host Id DiskStore DiskEnv) : Act Id DiskEnv Upkeep → Prop
  | .restore _ => False
  | .apply _ => match h.proc.apply with
    | .running i c => idx ≤ i ∨ ¬ c.Touches cmd.key
    | _ => True
  | .inline _ c _ => c = cmd ∨ ¬ c.Touches cmd.key
  | _ => True

instance (idx : ℕ) (cmd : Command) (h : Host Id DiskStore DiskEnv) (a : Act Id DiskEnv Upkeep) :
    Decidable (Undisturbed idx cmd h a) := by
  unfold Undisturbed
  split
  · infer_instance
  · split <;> infer_instance
  · infer_instance
  · infer_instance

variable [DecidableEq Id]

section Reads

variable {encode : List (Bytes × Storage.Entry) → Bytes}
  {decode : Bytes → Option (List (Bytes × Storage.Entry))} {h h' : Host Id DiskStore DiskEnv}
  {a : Act Id DiskEnv Upkeep} {idx : ℕ} {cmd : Command}

/-- What is known of the log of a leader. -/
def LeadsAbove (idx : ℕ) (cmd : Command) (h : Host Id DiskStore DiskEnv) : Prop :=
  h.proc.node.role = .leader → Above idx cmd h.proc

theorem LeadsAbove.step (hinv : LeadsAbove idx cmd h) (hok : Leads cmd.key h a)
    (hs : h.step (diskMachine encode decode) a = some h') : LeadsAbove idx cmd h' := by
  intro hlead
  obtain ⟨hrole, hprop⟩ := hok
  have habove := hinv hrole
  rcases proc_of_step hs with ⟨inp, e, hinp, hr, hstep, hproc, -⟩ | ⟨-, hproc, -⟩
  · rw [hproc] at hlead ⊢
    refine habove.step hstep hr hlead ?_
    rintro c rfl
    cases a <;> cases hinp
    exact hprop
  · rw [hproc]
    exact habove

/-- The index of a proposal is new: nothing is above it, and the apply loop is below it. -/
theorem above_of_propose (hhand : h.proc.apply.index ≤ h.proc.node.lastLogIndex)
    (hs : h.step (diskMachine encode decode) (.raft (.propose cmd)) = some h') :
    Above h'.proc.node.lastLogIndex cmd h'.proc := by
  obtain ⟨e, hstep, rfl⟩ := raft_eq_some hs
  obtain ⟨-, hstep⟩ := Option.ite_none_right_eq_some.mp hstep
  cases hstep
  have hlast : (h.proc.node.appendEntry cmd).lastLogIndex = h.proc.node.lastLogIndex + 1 := by
    rw [Node.lastLogIndex, Node.lastLogIndex, h.proc.node.appendEntry_log cmd,
      (h.proc.node.appendEntry_frame cmd).2.2.2.2.1, List.length_append, List.length_singleton]
    omega
  have hbelow : ∀ {i : ℕ} {c : Command}, i ≤ h.proc.node.lastLogIndex →
      Allowed (h.proc.node.appendEntry cmd).lastLogIndex cmd i c := by
    intro i c hi
    exact ⟨fun heq => by omega, fun hlt => by omega⟩
  refine ⟨le_refl _, ?_, ?_⟩
  · intro i en hen
    change (h.proc.node.appendEntry cmd).entryAt i = some en at hen
    have hi := Node.le_lastLogIndex_of_entryAt hen
    rcases entryAt_of_appendEntry hen with hold | ⟨hlt, rfl⟩
    · exact hbelow (Node.le_lastLogIndex_of_entryAt hold)
    · exact ⟨fun _ => rfl, fun hgt => absurd hi (not_le.mpr hgt)⟩
  · change AllowedInHand _ cmd h.proc.apply
    cases hp : h.proc.apply with
    | picked i entry =>
      rw [hp] at hhand
      exact fun en _ => hbelow hhand
    | running i c =>
      rw [hp] at hhand
      exact hbelow hhand
    | _ => trivial

/-- The execution of the write leaves its value in the cell. -/
theorem cell_of_executes (hop : cmd.op = .put ∨ cmd.op = .delete) (habove : Above idx cmd h.proc)
    (hex : Executes idx cmd h a) (hs : h.step (diskMachine encode decode) a = some h') :
    h'.store.mem.cell cmd.key = cmd.leaves := by
  cases a with
  | apply env =>
    simp only [Host.step] at hs
    split at hs
    · next i c hrun =>
      obtain ⟨h₁, -, rfl⟩ := Option.map_eq_some_iff.mp hs
      have hhand := habove.hand
      simp only [Executes, hrun] at hex
      rw [hrun] at hhand
      obtain rfl := hhand.1 hex
      exact h.store.applyCmd_leaves env.1 env.2.1 env.2.2 hop
    · cases hs
  | inline i c env =>
    obtain ⟨h₁, -, rfl⟩ := Option.map_eq_some_iff.mp hs
    obtain ⟨-, rfl⟩ := hex
    exact h.store.applyCmd_leaves env.1 env.2.1 env.2.2 hop
  | _ => cases hex

/-- The value stays. -/
theorem cell_of_step (hop : cmd.op = .put ∨ cmd.op = .delete) (habove : Above idx cmd h.proc)
    (hcell : h.store.mem.cell cmd.key = cmd.leaves) (hok : Undisturbed idx cmd h a)
    (hs : h.step (diskMachine encode decode) a = some h') :
    h'.store.mem.cell cmd.key = cmd.leaves := by
  have hlasting : Storage.Lasting (h.store.mem.cell cmd.key) := by
    rw [hcell]
    exact cmd.lasting_leaves
  have hexec : ∀ (c : Command) (env : DiskEnv), c = cmd ∨ ¬ c.Touches cmd.key →
      (h.store.applyCmd c env.1 env.2.1 env.2.2).mem.cell cmd.key = cmd.leaves := by
    rintro c env (rfl | hnot)
    · exact h.store.applyCmd_leaves env.1 env.2.1 env.2.2 hop
    · rw [h.store.applyCmd_cell_of_not_touches env.1 env.2.1 env.2.2 hnot]
      exact hcell
  cases a with
  | raft inp =>
    obtain ⟨e, -, rfl⟩ := raft_eq_some hs
    exact hcell
  | apply env =>
    simp only [Host.step] at hs
    split at hs
    · next i c hrun =>
      obtain ⟨h₁, -, rfl⟩ := Option.map_eq_some_iff.mp hs
      have hhand := habove.hand
      simp only [Undisturbed, hrun] at hok
      rw [hrun] at hhand
      refine hexec c env ?_
      rcases hok with hle | hnot
      · rcases Nat.eq_or_lt_of_le hle with heq | hlt
        · exact .inl (hhand.1 heq.symm)
        · exact .inr (hhand.2 hlt)
      · exact .inr hnot
    · cases hs
  | inline i c env =>
    obtain ⟨h₁, -, rfl⟩ := Option.map_eq_some_iff.mp hs
    exact hexec c env hok
  | install req =>
    obtain ⟨h₁, hn, rfl⟩ := Option.map_eq_some_iff.mp hs
    obtain ⟨e, -, rfl⟩ := next_eq_some hn
    split_ifs <;> exact hcell
  | restore req => cases hok
  | persist req resp saved =>
    obtain ⟨-, hn⟩ := Option.ite_none_right_eq_some.mp hs
    obtain ⟨e, -, rfl⟩ := next_eq_some hn
    exact hcell
  | tend u =>
    cases hs
    cases u with
    | get key now later => exact (Storage.MemStore.get_cell_of_lasting hlasting key now later).trans hcell
    | sweep now => exact (Storage.MemStore.sweep_cell_of_lasting hlasting now).trans hcell
    | compact => exact hcell

end Reads

/-- A leader proposes a `Put` or a `Delete` in the state `h₁`, and stays leader; no other command
    on the key is proposed. Once the command at its index has been executed, and as long as
    nothing older comes back after that, `Get` returns what the write has left. -/
theorem reads_own_write (encode : List (Bytes × Storage.Entry) → Bytes)
    (decode : Bytes → Option (List (Bytes × Storage.Entry)))
    {h₁ h₂ h₃ h₄ h₅ : Host Id DiskStore DiskEnv} {cmd : Command} {mid post : List (Act Id DiskEnv Upkeep)}
    {a : Act Id DiskEnv Upkeep} (hop : cmd.op = .put ∨ cmd.op = .delete)
    (hhand : h₁.proc.apply.index ≤ h₁.proc.node.lastLogIndex)
    (hput : h₁.step (diskMachine encode decode) (.raft (.propose cmd)) = some h₂)
    (hmid : h₂.run (diskMachine encode decode) (Leads cmd.key) mid = some h₃)
    (hlead : Leads cmd.key h₃ a) (hex : Executes h₂.proc.node.lastLogIndex cmd h₃ a)
    (hexec : h₃.step (diskMachine encode decode) a = some h₄)
    (hpost : h₄.run (diskMachine encode decode)
      (fun h a => Leads cmd.key h a ∧ Undisturbed h₂.proc.node.lastLogIndex cmd h a) post = some h₅)
    (now later : Int64) : (h₅.store.mem.get cmd.key now later).1 = cmd.readBack := by
  have h2 : LeadsAbove h₂.proc.node.lastLogIndex cmd h₂ := fun _ => above_of_propose hhand hput
  have h3 : LeadsAbove h₂.proc.node.lastLogIndex cmd h₃ :=
    Transition.run_invariant h2 (fun hinv hok hs => hinv.step hok hs) hmid
  have h4 := h3.step hlead hexec
  have hcell := cell_of_executes hop (h3 hlead.1) hex hexec
  have h5 : LeadsAbove h₂.proc.node.lastLogIndex cmd h₅ ∧
      h₅.store.mem.cell cmd.key = cmd.leaves := by
    refine Transition.run_invariant
      (P := fun g => LeadsAbove h₂.proc.node.lastLogIndex cmd g ∧
        g.store.mem.cell cmd.key = cmd.leaves) ⟨h4, hcell⟩ ?_ hpost
    rintro g g' b ⟨hg, hc⟩ ⟨hl, hu⟩ hs
    exact ⟨hg.step hl hs, cell_of_step hop (hg hl.1) hc hu hs⟩
  exact Storage.MemStore.get_leaves h5.2 now later

/-! ## A read that finds the write, and two that do not -/

open Raft.Cluster (putCommand)

/-- Snapshots play no part in the examples. -/
def plainMachine : StateMachine DiskStore DiskEnv Upkeep := diskMachine (fun _ => []) fun _ => none

/-- Node 0 of three is elected in term 1; its first, empty request times out. -/
def elected : List (Act (Fin 3) DiskEnv Upkeep) :=
  [.raft .startElection, .raft (.persistElection true),
   .raft (.voteResponse 1 ⟨1, 0, 0, 0⟩ ⟨1, true⟩), .raft .endElection, .raft (.replicate 1),
   .raft (.appendError 1 ⟨1, 0, 0, 0, [], 0⟩)]

/-- The write is durable on node 0, and `Put` returns. -/
def acknowledged : List (Act (Fin 3) DiskEnv Upkeep) :=
  [.raft (.persistPropose 1 1 (putCommand 7) true), .raft (.returnPropose 1 1 (putCommand 7))]

/-- Node 1 has the write as well; the apply loop of node 0 is about to execute it. -/
def committed : List (Act (Fin 3) DiskEnv Upkeep) :=
  [.raft (.replicate 1), .raft (.appendResponse 1 ⟨1, 0, 0, 0, [⟨1, putCommand 7⟩], 0⟩ ⟨1, true⟩),
   .raft .applyPick, .raft .applyCheck]

/-- A leader of three nodes, before it has proposed anything. -/
def leaderOfThree : Option (Host (Fin 3) DiskStore DiskEnv) :=
  (opened 0 [1, 2] RaftState.empty (DiskStore.new none)).run plainMachine (fun _ _ => True) elected

theorem reads_own_write_three :
    ∃ h₁ h₂ h₃ h₄ h₅, leaderOfThree = some h₁ ∧
      h₁.step plainMachine (.raft (.propose (putCommand 7))) = some h₂ ∧
      h₂.run plainMachine (Leads [1]) (acknowledged ++ committed) = some h₃ ∧
      h₃.step plainMachine (.apply (Storage.zeroNonce, 0, 0)) = some h₄ ∧
      h₄.run plainMachine (fun h a => Leads [1] h a ∧ Undisturbed 1 (putCommand 7) h a)
        [.raft .applyDone, .tend (.sweep 5)] = some h₅ ∧
      (h₅.store.mem.get [1] 5 5).1 = .ok [7] := by
  have hrun : (leaderOfThree.bind fun h₁ =>
      (h₁.step plainMachine (.raft (.propose (putCommand 7)))).bind fun h₂ =>
      (h₂.run plainMachine (Leads [1]) (acknowledged ++ committed)).bind fun h₃ =>
      (h₃.step plainMachine (.apply (Storage.zeroNonce, 0, 0))).bind fun h₄ =>
      (h₄.run plainMachine (fun h a => Leads [1] h a ∧ Undisturbed 1 (putCommand 7) h a)
        [.raft .applyDone, .tend (.sweep 5)]).map fun _ =>
      (decide (h₁.proc.apply.index ≤ h₁.proc.node.lastLogIndex), h₂.proc.node.lastLogIndex,
        decide (Leads [1] h₃ (.apply (Storage.zeroNonce, 0, 0))),
        decide (Executes 1 (putCommand 7) h₃ (.apply (Storage.zeroNonce, 0, 0))))) =
      some (true, 1, true, true) := by
    decide +kernel
  obtain ⟨h₁, e1, hrun⟩ := Option.bind_eq_some_iff.mp hrun
  obtain ⟨h₂, e2, hrun⟩ := Option.bind_eq_some_iff.mp hrun
  obtain ⟨h₃, e3, hrun⟩ := Option.bind_eq_some_iff.mp hrun
  obtain ⟨h₄, e4, hrun⟩ := Option.bind_eq_some_iff.mp hrun
  obtain ⟨h₅, e5, hshow⟩ := Option.map_eq_some_iff.mp hrun
  simp only [Prod.mk.injEq, decide_eq_true_eq] at hshow
  obtain ⟨hhand, hidx, hlead, hex⟩ := hshow
  have hpost := e5
  rw [← hidx] at hex hpost
  exact ⟨h₁, h₂, h₃, h₄, h₅, e1, e2, e3, e4, e5,
    reads_own_write _ _ (.inl rfl) hhand e2 e3 hlead hex e4 hpost 5 5⟩

/-- A node without peers has executed a first write inline. -/
def leaderAlone : Option (Host (Fin 3) DiskStore DiskEnv) :=
  (opened 0 [] RaftState.empty (DiskStore.new none)).run plainMachine (fun _ _ => True)
    [.raft (.propose (putCommand 7)), .inline 1 (putCommand 7) (Storage.zeroNonce, 0, 0)]

/-- A second write is executed inline and acknowledged; then the apply loop executes the first
    one again. -/
def executedAgain : List (Act (Fin 3) DiskEnv Upkeep) :=
  [.inline 2 (putCommand 8) (Storage.zeroNonce, 0, 0), .raft .applyPick, .raft .applyCheck,
   .apply (Storage.zeroNonce, 0, 0)]

/-- `Put` has returned, the node is leader throughout and nothing else is proposed: on a node of
    three the key is not found, on a node alone it has the value from before. -/
theorem read_misses_write :
    (∃ h₁ h₂ h₃, leaderOfThree = some h₁ ∧
      h₁.step plainMachine (.raft (.propose (putCommand 7))) = some h₂ ∧
      h₂.run plainMachine (Leads [1]) acknowledged = some h₃ ∧ h₃.proc.node.role = .leader ∧
      .returned 0 1 1 (putCommand 7) ∈ h₃.events ∧
      (h₃.store.mem.get [1] 0 0).1 = .error .notFound) ∧
    (∃ h₁ h₂ h₃, leaderAlone = some h₁ ∧
      h₁.step plainMachine (.raft (.propose (putCommand 8))) = some h₂ ∧
      h₂.run plainMachine (Leads [1]) executedAgain = some h₃ ∧ h₃.proc.node.role = .leader ∧
      .applied 0 2 (putCommand 8) ∈ h₃.events ∧ (h₃.store.mem.get [1] 0 0).1 = .ok [7]) := by
  constructor
  · have hrun : (leaderOfThree.bind fun h₁ =>
        (h₁.step plainMachine (.raft (.propose (putCommand 7)))).bind fun h₂ =>
        (h₂.run plainMachine (Leads [1]) acknowledged).map fun h₃ =>
        (h₃.proc.node.role, decide (.returned 0 1 1 (putCommand 7) ∈ h₃.events),
          (h₃.store.mem.get [1] 0 0).1)) = some (.leader, true, .error .notFound) := by
      decide +kernel
    obtain ⟨h₁, e1, hrun⟩ := Option.bind_eq_some_iff.mp hrun
    obtain ⟨h₂, e2, hrun⟩ := Option.bind_eq_some_iff.mp hrun
    obtain ⟨h₃, e3, hshow⟩ := Option.map_eq_some_iff.mp hrun
    simp only [Prod.mk.injEq, decide_eq_true_eq] at hshow
    exact ⟨h₁, h₂, h₃, e1, e2, e3, hshow⟩
  · have hrun : (leaderAlone.bind fun h₁ =>
        (h₁.step plainMachine (.raft (.propose (putCommand 8)))).bind fun h₂ =>
        (h₂.run plainMachine (Leads [1]) executedAgain).map fun h₃ =>
        (h₃.proc.node.role, decide (.applied 0 2 (putCommand 8) ∈ h₃.events),
          (h₃.store.mem.get [1] 0 0).1)) = some (.leader, true, .ok [7]) := by
      decide +kernel
    obtain ⟨h₁, e1, hrun⟩ := Option.bind_eq_some_iff.mp hrun
    obtain ⟨h₂, e2, hrun⟩ := Option.bind_eq_some_iff.mp hrun
    obtain ⟨h₃, e3, hshow⟩ := Option.map_eq_some_iff.mp hrun
    simp only [Prod.mk.injEq, decide_eq_true_eq] at hshow
    exact ⟨h₁, h₂, h₃, e1, e2, e3, hshow⟩

end KvStore.Host
