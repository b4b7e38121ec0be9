import KvStore.Server.Serializability
import KvStore.Raft.LogMatching

/-!
# What a snapshot contains and what its label says

`snapshotBridge.Snapshot` (cmd/server/snapshot_bridge.go:22) reads the applied index, then the
term at that index, then the store, under three different locks. Meanwhile the apply loop
executes commands, and raises `lastApplied` after each of them.

* `Bridge.labelled_with_contents`: if, when the store is read, no command above the index that
  was read has been executed and no restore is outstanding, then the data is the store after
  exactly the commands up to the label, and the term is the one of the entry there.
* `Bridge.snapshot_ahead_of_label`: an increment executed between the reads is in the data and
  not in the label.
-/

namespace KvStore

open KvStore.Storage (Bytes Command DiskStore)
open KvStore.Raft (Process Input Node RaftState)

variable {Id : Type} {σ ε κ : Type}

/-- `raft.Snapshot` (pkg/raft/snapshot.go:8). -/
structure Snapshot where
  lastIncludedIndex : ℕ
  lastIncludedTerm : ℤ
  data : Bytes

/-- Where a call of `Snapshot` stands. -/
inductive BridgePhase where
  | idle
  /-- `idx := b.node.ApplyIndex()` -/
  | indexed (idx : ℕ)
  /-- `term := b.node.LogTerm(idx)` -/
  | labelled (idx : ℕ) (term : ℤ)
  deriving DecidableEq

/-- A host and a call of `Snapshot`; the snapshots it has returned, each with the host at that
    moment. -/
structure Bridge (Id σ ε : Type) where
  host : Host Id σ ε
  phase : BridgePhase
  returned : List (Snapshot × Host Id σ ε)

variable [DecidableEq Id]

namespace Bridge

inductive Act (Id ε κ : Type) where
  | host (a : Host.Act Id ε κ)
  | applyIndex
  | logTerm
  | serializeSnapshot

def opened (id : Id) (peers : List Id) (st : RaftState Id) (s : σ) : Bridge Id σ ε :=
  { host := Host.opened id peers st s, phase := .idle, returned := [] }

/-- One step. `none` means that it cannot happen in this state. -/
def step (M : StateMachine σ ε κ) (b : Bridge Id σ ε) : Act Id ε κ → Option (Bridge Id σ ε)
  | .host a => (b.host.step M a).map fun h => { b with host := h }
  | .applyIndex =>
    match b.phase with
    | .idle => some { b with phase := .indexed b.host.proc.node.lastApplied }
    | _ => none
  | .logTerm =>
    match b.phase with
    | .indexed idx => some { b with phase := .labelled idx (b.host.proc.node.logTermAt idx) }
    | _ => none
  | .serializeSnapshot =>
    match b.phase with
    | .labelled idx term =>
      some { b with
        phase := .idle
        returned := b.returned ++ [(⟨idx, term, M.serialize b.host.store⟩, b.host)] }
    | _ => none

/-- The state after a run all of whose steps meet `ok` in the state before them. -/
def run (M : StateMachine σ ε κ) (ok : Bridge Id σ ε → Act Id ε κ → Prop)
    [∀ b a, Decidable (ok b a)] (b : Bridge Id σ ε) (acts : List (Act Id ε κ)) :
    Option (Bridge Id σ ε) :=
  Transition.run (Bridge.step M) ok b acts

/-- `term` is the term of the entry at `idx`, which is in the log or at its base. -/
def TermAt (n : Node Id) (idx : ℕ) (term : ℤ) : Prop :=
  if idx = 0 then term = 0 else n.knownTerm idx = some term

/-- The data is the store after exactly the commands up to the label, built as in `Host.Serial`;
    the term is the one of the entry at the label. -/
def RightlyLabelled (M : StateMachine σ ε κ) (b₀ : ℕ) (s₀ : σ) (snap : Snapshot)
    (h : Host Id σ ε) : Prop :=
  (∃ I s calls, Host.Source M b₀ s₀ h I s ∧ h.LogCalls I snap.lastIncludedIndex calls ∧
    snap.data = M.serialize (M.run calls s)) ∧
  TermAt h.proc.node snap.lastIncludedIndex snap.lastIncludedTerm

/-- Commands are executed by the apply loop, and restores run in order. -/
def Undisturbed (M : StateMachine σ ε κ) (h : Host Id σ ε) (a : Host.Act Id ε κ) : Prop :=
  Host.plain a ∧ Host.Readable M h a ∧ Host.InOrder h a

/-- When the store is read, everything up to the index that was read has been executed, nothing
    above it has, and no restore is outstanding. -/
def ReadsAtLabel (b : Bridge Id σ ε) : Act Id ε κ → Prop
  | .serializeSnapshot => match b.phase with
    | .labelled idx _ => Host.executed b.host.proc = idx ∧ b.host.restores = []
    | _ => True
  | _ => True

instance (b : Bridge Id σ ε) (a : Act Id ε κ) : Decidable (ReadsAtLabel b a) := by
  unfold ReadsAtLabel
  split
  · split <;> infer_instance
  · infer_instance

/-- A step of an interleaving of `Snapshot` with the node. -/
def Interleaved (M : StateMachine σ ε κ) (b : Bridge Id σ ε) : Act Id ε κ → Prop
  | .host a => Undisturbed M b.host a
  | _ => True

instance (M : StateMachine σ ε κ) (b : Bridge Id σ ε) (a : Act Id ε κ) :
    Decidable (Interleaved M b a) := by
  unfold Interleaved Undisturbed
  split <;> infer_instance

/-! ## The term at the label -/

section Terms

variable {p : Process Id} {inp : Input Id} {e : Process.Effect Id}

omit [DecidableEq Id] in
/-- `LogTerm` of an index between the base and the end of the log. -/
theorem termAt_logTermAt (n : Node Id) {idx : ℕ} (hb : n.lastIncludedIndex ≤ idx)
    (hl : idx ≤ n.lastLogIndex) : TermAt n idx (n.logTermAt idx) := by
  unfold TermAt
  split_ifs with h0
  · subst h0
    rfl
  · have hne : (idx : ℤ) ≠ 0 := by omega
    by_cases hbase : idx = n.lastIncludedIndex
    · rw [Node.knownTerm, if_pos hbase, Node.logTermAt, if_neg hne, if_pos (by omega)]
    · obtain ⟨en, hen⟩ := n.exists_entryAt (k := idx) (by omega) hl
      rw [Node.knownTerm, if_neg hbase, Node.logTermAt, if_neg hne, if_neg (by omega), hen]
      rfl

/-- No section of `plain` moves the base without moving it beyond what was applied. -/
theorem baseTerm_of_step (hstep : p.step inp = some e) (hr : inp ≠ .restart)
    (hc : inp ≠ .compactLog) :
    (e.proc.node.lastIncludedIndex = p.node.lastIncludedIndex ∧
      e.proc.node.lastIncludedTerm = p.node.lastIncludedTerm) ∨
    p.node.lastApplied < e.proc.node.lastIncludedIndex := by
  have hmove := Process.logMove hstep
  generalize e.proc.node = n' at hmove
  cases hmove with
  | keep _ hl _ _ => exact .inl ⟨hl.base, hl.baseTerm⟩
  | elected _ _ _ _ _ _ => exact .inl ⟨rfl, rfl⟩
  | propose cmd _ =>
    refine .inl ⟨(p.node.appendEntry_frame cmd).2.2.2.2.1, ?_⟩
    unfold Node.appendEntry
    dsimp only
    split_ifs <;> rfl
  | accept req ht hcheck =>
    obtain ⟨-, hbase, hterm, -⟩ := Node.handleAppendEntries_accepted ht
      ((Node.follow_checkPrevLog p.node req.term req.leaderID _ _).trans hcheck)
    have hsame := (Node.follow_quiet p.node req.term req.leaderID).sameLog
    exact .inl ⟨hbase.trans hsame.base, hterm.trans hsame.baseTerm⟩
  | install req _ hi =>
    refine .inr ?_
    change _ < req.lastIncludedIndex.toNat
    omega
  | compact _ _ _ => exact absurd rfl hc
  | restart => exact absurd rfl hr

/-- The term at an applied index stays as long as the base is not beyond it. -/
theorem TermAt.step {idx : ℕ} {term : ℤ} (hindex : p.IndexInv) (hstep : p.step inp = some e)
    (hr : inp ≠ .restart) (hc : inp ≠ .compactLog)
    (hkeep : p.KeepsUpTo p.node.commitIndex inp) (hidx : idx ≤ p.node.lastApplied)
    (h : p.node.lastIncludedIndex ≤ idx → TermAt p.node idx term)
    (hb : e.proc.node.lastIncludedIndex ≤ idx) : TermAt e.proc.node idx term := by
  rcases baseTerm_of_step hstep hr hc with ⟨hbase, hterm⟩ | hlt
  · have ht := h (hbase ▸ hb)
    unfold TermAt at ht ⊢
    split_ifs at ht ⊢ with h0
    · exact ht
    · unfold Node.knownTerm at ht ⊢
      rw [hbase, hterm]
      split_ifs at ht ⊢ with hidx'
      · exact ht
      · rw [Process.entryAt_of_step hstep hr hindex.chain.base_le hkeep hindex.chain.commit_le
          (hidx.trans hindex.chain.applied_le) (by omega)]
        exact ht
  · omega

end Terms

/-! ## The invariant -/

/-- What the call has read so far. -/
def PhaseInv (n : Node Id) : BridgePhase → Prop
  | .idle => True
  | .indexed idx => idx ≤ n.lastApplied
  | .labelled idx term => idx ≤ n.lastApplied ∧ (n.lastIncludedIndex ≤ idx → TermAt n idx term)

structure Inv (M : StateMachine σ ε κ) (b₀ : ℕ) (s₀ : σ) (b : Bridge Id σ ε) : Prop where
  host : Host.SerialInv M b₀ s₀ b.host
  phase : PhaseInv b.host.proc.node b.phase
  returned : ∀ r ∈ b.returned, RightlyLabelled M b₀ s₀ r.1 r.2

section Steps

variable {M : StateMachine σ ε κ} {b₀ : ℕ} {s₀ : σ} {b b' : Bridge Id σ ε} {a : Act Id ε κ}

/-- A step of the host keeps what has been read as good as it was. -/
theorem PhaseInv.step {h h' : Host Id σ ε} {a : Host.Act Id ε κ} {ph : BridgePhase}
    (hph : PhaseInv h.proc.node ph) (hinv : Host.SerialInv M b₀ s₀ h) (hok : Undisturbed M h a)
    (hs : h.step M a = some h') : PhaseInv h'.proc.node ph := by
  obtain ⟨hplain, -, hord⟩ := hok
  rcases Host.proc_of_step hs with ⟨inp, e, hinp, hr, hstep, hproc, -⟩ | ⟨-, hproc, -⟩
  · have hkeep : h.proc.KeepsUpTo h.proc.node.commitIndex inp := by
      cases a <;> cases hinp <;> exact hord
    have hc : inp ≠ .compactLog := by
      rintro rfl
      cases a <;> cases hinp
      simp [Host.plain, Host.passive, Process.bystander] at hplain
    have hadv := (hinv.index.node hstep hr hkeep.keepsCommitted).2
    rw [hproc]
    cases ph with
    | idle => trivial
    | indexed idx => exact le_trans hph hadv.2
    | labelled idx term =>
      exact ⟨hph.1.trans hadv.2, TermAt.step hinv.index hstep hr hc hkeep hph.1 hph.2⟩
  · rw [hproc]
    exact hph

omit [DecidableEq Id] in
/-- The base is never beyond what has been executed. -/
theorem base_le_executed (hinv : Host.SerialInv M b₀ s₀ b.host) (hres : b.host.restores = []) :
    b.host.proc.node.lastIncludedIndex ≤ Host.executed b.host.proc := by
  have hbase := hinv.index.chain.base_le
  have hsteady := (hinv.serial hres).1
  unfold Host.Steady at hsteady
  unfold Host.executed
  split
  · next idx hfin =>
    rw [hfin] at hsteady
    omega
  · exact hbase

theorem Inv.step (inv : Inv M b₀ s₀ b) (hok : Interleaved M b a) (hlabel : ReadsAtLabel b a)
    (hs : b.step M a = some b') : Inv M b₀ s₀ b' := by
  cases a with
  | host a =>
    obtain ⟨h, hstep, rfl⟩ := Option.map_eq_some_iff.mp hs
    exact ⟨inv.host.step hok.1 hok.2.1 hok.2.2 hstep, inv.phase.step inv.host hok hstep, inv.returned⟩
  | applyIndex =>
    simp only [Bridge.step] at hs
    split at hs <;> cases hs
    exact ⟨inv.host, le_refl _, inv.returned⟩
  | logTerm =>
    simp only [Bridge.step] at hs
    split at hs <;> cases hs
    next idx hph =>
    have hphase := inv.phase
    rw [hph] at hphase
    have hla := inv.host.index.chain.applied_le.trans inv.host.index.chain.commit_le
    exact ⟨inv.host, ⟨hphase, fun hb => termAt_logTermAt _ hb (le_trans hphase hla)⟩, inv.returned⟩
  | serializeSnapshot =>
    simp only [Bridge.step] at hs
    split at hs <;> cases hs
    next idx term hph =>
    have hphase := inv.phase
    simp only [ReadsAtLabel, hph] at hlabel
    rw [hph] at hphase
    obtain ⟨hex, hres⟩ := hlabel
    obtain ⟨-, s, calls, hsource, hcalls, hstore⟩ := inv.host.serial hres
    have hb := base_le_executed inv.host hres
    rw [hex] at hcalls hb
    refine ⟨inv.host, trivial, ?_⟩
    intro r hr
    rcases List.mem_append.mp hr with hr | hr
    · exact inv.returned r hr
    · rw [List.mem_singleton.mp hr]
      exact ⟨⟨_, s, calls, hsource, hcalls, by rw [hstore]⟩, hphase.2 hb⟩

end Steps

/-! ## The result -/

/-- Every snapshot is labelled with the state it contains. -/
theorem labelled_with_contents (M : StateMachine σ ε κ) (id : Id) (peers : List Id)
    (st : RaftState Id) (s : σ) (acts : List (Act Id ε κ)) (b : Bridge Id σ ε)
    (hrun : (opened id peers st s).run M (fun b a => Interleaved M b a ∧ ReadsAtLabel b a) acts =
      some b) :
    ∀ r ∈ b.returned, RightlyLabelled M st.lastIncludedIndex s r.1 r.2 := by
  have h0 : Inv M st.lastIncludedIndex s (opened id peers st s : Bridge Id σ ε) :=
    ⟨.opened id peers st s, trivial, fun r hr => absurd hr List.not_mem_nil⟩
  have inv : Inv M st.lastIncludedIndex s b :=
    Transition.run_invariant h0 (fun inv hok hs => inv.step hok.1 hok.2 hs) hrun
  exact inv.returned

/-! ## A snapshot that is labelled rightly, and one that is not -/

open Host (oneKey)

def incrCommand : Command := { op := .incr, key := [1] }

/-- A follower with an empty store. -/
def follower : Bridge (Fin 3) DiskStore DiskEnv :=
  opened 1 [0, 2] RaftState.empty (DiskStore.new none)

/-- The apply loop picks, checks and executes the next command. -/
def applyNext : List (Act (Fin 3) DiskEnv Upkeep) :=
  [.host (.raft .applyPick), .host (.raft .applyCheck), .host (.apply (Storage.zeroNonce, 0, 0))]

/-- The first of two committed increments is applied; then the index and the term are read. -/
def readLabel : List (Act (Fin 3) DiskEnv Upkeep) :=
  [.host (.raft (.appendEntries ⟨1, 0, 0, 0, [⟨1, incrCommand⟩, ⟨1, incrCommand⟩], 2⟩))] ++
    applyNext ++ [.host (.raft .applyDone), .applyIndex, .logTerm]

theorem labelled_with_contents_follower :
    ∃ b r, follower.run oneKey (fun b a => Interleaved oneKey b a ∧ ReadsAtLabel b a)
        (readLabel ++ [.serializeSnapshot]) = some b ∧ r ∈ b.returned ∧
      r.1.lastIncludedIndex = 1 ∧ r.1.lastIncludedTerm = 1 ∧ r.1.data = [49] ∧
      RightlyLabelled oneKey 0 (DiskStore.new none) r.1 r.2 := by
  have hrun : (follower.run oneKey (fun b a => Interleaved oneKey b a ∧ ReadsAtLabel b a)
      (readLabel ++ [.serializeSnapshot])).map (fun b => b.returned.map fun r =>
        (r.1.lastIncludedIndex, r.1.lastIncludedTerm, r.1.data)) = some [(1, 1, [49])] := by
    decide +kernel
  obtain ⟨b, hb, hshow⟩ := Option.map_eq_some_iff.mp hrun
  obtain ⟨r, hr, hfields⟩ := List.map_eq_singleton_iff.mp hshow
  simp only [Prod.mk.injEq] at hfields
  have hmem : r ∈ b.returned := by
    rw [hr]
    exact List.mem_singleton_self r
  exact ⟨b, r, hb, hmem, hfields.1, hfields.2.1, hfields.2.2,
    labelled_with_contents oneKey 1 [0, 2] RaftState.empty (DiskStore.new none) _ b hb r hmem⟩

/-- The second increment is executed after the index 1 has been read, and before the store is.
    The data has both, the label says 1. -/
theorem snapshot_ahead_of_label :
    ∃ b r, follower.run oneKey (Interleaved oneKey)
        (readLabel ++ applyNext ++ [.serializeSnapshot]) = some b ∧ r ∈ b.returned ∧
      r.1.lastIncludedIndex = 1 ∧ r.1.data = [50] ∧
      ¬ RightlyLabelled oneKey 0 (DiskStore.new none) r.1 r.2 := by
  have hrun : (follower.run oneKey (Interleaved oneKey)
      (readLabel ++ applyNext ++ [.serializeSnapshot])).map (fun b => b.returned.map fun r =>
        (r.1.lastIncludedIndex, r.1.data, decide (r.2.installed = []),
          decide (r.2.callAt 1 = some (incrCommand, Storage.zeroNonce, 0, 0)))) =
      some [(1, [50], true, true)] := by
    decide +kernel
  obtain ⟨b, hb, hshow⟩ := Option.map_eq_some_iff.mp hrun
  obtain ⟨r, hr, hfields⟩ := List.map_eq_singleton_iff.mp hshow
  simp only [Prod.mk.injEq, decide_eq_true_eq] at hfields
  obtain ⟨hidx, hdata, hinst, hcall⟩ := hfields
  refine ⟨b, r, hb, by rw [hr]; exact List.mem_singleton_self r, hidx, hdata, ?_⟩
  rintro ⟨⟨I, s, calls, hsource, hcalls, hser⟩, -⟩
  rcases hsource with ⟨-, rfl, rfl⟩ | ⟨req, hreq, -⟩
  · have hlen := hcalls.length_eq
    obtain ⟨c, rfl⟩ : ∃ c, calls = [c] := List.length_eq_one_iff.mp (by omega)
    have hat := hcalls.call_at 0 Nat.zero_lt_one
    rw [show 0 + 1 + 0 = 1 from rfl, hcall] at hat
    cases hat
    rw [hdata] at hser
    revert hser
    decide +kernel
  · rw [hinst] at hreq
    cases hreq

end Bridge

end KvStore
