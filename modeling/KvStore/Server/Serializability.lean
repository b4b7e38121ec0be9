import KvStore.Server.Host

/-!
# Snapshot installation and entry application

`HandleInstallSnapshot` moves `lastApplied` in one section and replaces the store in a later
one. Between the two the apply loop may run, and other snapshots may be installed.

When no restore is outstanding and the apply loop is idle, the store should be the data of the
largest installed snapshot, followed by the commands of the log up to `lastApplied`
(`Host.Serial`).

* `Host.serializable`: this is so in every interleaving in which a restore, when it runs, finds
  `lastApplied` where its snapshot has put it, or a larger snapshot still to be restored.
* `Host.restored_over_newer`: an entry applied between the two sections is lost; of two
  restores in the reverse order the older one stays.
-/

namespace KvStore.Host

open KvStore.Storage (Bytes Command DiskStore)
open KvStore.Raft (Process Input InstallSnapshotRequest Node RaftState ApplyPhase Entry)

variable {Id : Type} {σ ε κ : Type}

/-! ## What the store should contain -/

/-- The command of the log at an index, with what it was executed with. -/
def callAt (h : Host Id σ ε) (i : ℕ) : Option (Command × ε) :=
  (h.proc.node.entryAt i).bind fun en => (h.readings i).map fun env => (en.cmd, env)

/-- The commands of the log at the indices `I + 1, …, k`. -/
structure LogCalls (h : Host Id σ ε) (I k : ℕ) (calls : List (Command × ε)) : Prop where
  length_eq : I + calls.length = k
  call_at : ∀ j < calls.length, h.callAt (I + 1 + j) = calls[j]?

/-- `s` is the data of the snapshot with the largest installed index, which is `I`. If none has
    been installed, it is the store `s₀` that the run has started with at the base `b₀`. -/
def Source (M : StateMachine σ ε κ) (b₀ : ℕ) (s₀ : σ) (h : Host Id σ ε) (I : ℕ) (s : σ) : Prop :=
  (h.installed = [] ∧ I = b₀ ∧ s = s₀) ∨
    ∃ req ∈ h.installed, (∀ r ∈ h.installed, r.lastIncludedIndex ≤ req.lastIncludedIndex) ∧
      req.lastIncludedIndex = I ∧ ∃ t, M.restore req.data t = some s

/-- The store is what the largest installed snapshot, at `I`, and the log up to `k` make of it. -/
def BuiltFrom (M : StateMachine σ ε κ) (b₀ : ℕ) (s₀ : σ) (h : Host Id σ ε) (I k : ℕ) : Prop :=
  ∃ s calls, Source M b₀ s₀ h I s ∧ h.LogCalls I k calls ∧ h.store = M.run calls s

/-- What `applyMu` is there to guarantee (pkg/raft/apply.go:141). -/
def Serial (h : Host Id σ ε) (M : StateMachine σ ε κ) (b₀ : ℕ) (s₀ : σ) : Prop :=
  ∃ I, BuiltFrom M b₀ s₀ h I h.proc.node.lastApplied

/-- Neither an apply nor a restore is in progress or pending. -/
def AtRest (h : Host Id σ ε) : Prop := h.proc.apply = .idle ∧ h.restores = []

instance (h : Host Id σ ε) : Decidable h.AtRest := by
  unfold AtRest
  infer_instance

/-! ## The interleavings -/

/-- The sections of `HandleInstallSnapshot`, `HandleAppendEntries` and `applyLoop`. -/
def ofReplica : Act Id ε κ → Bool
  | .raft (.appendEntries _) => true
  | .raft (.persistAppend _ _ _) => true
  | .raft .applyPick => true
  | .raft .applyCheck => true
  | .raft .applyDone => true
  | .apply _ => true
  | .install _ => true
  | .restore _ => true
  | .persist _ _ _ => true
  | _ => false

/-- The data of a snapshot can be read. -/
def Readable (M : StateMachine σ ε κ) (h : Host Id σ ε) : Act Id ε κ → Prop
  | .restore req => (M.restore req.data h.store).isSome
  | _ => True

instance (M : StateMachine σ ε κ) (h : Host Id σ ε) (a : Act Id ε κ) : Decidable (Readable M h a) := by
  unfold Readable
  split <;> infer_instance

/-- A restore finds `lastApplied` where its snapshot has put it, or a larger snapshot still to
    be restored; no accepted request takes back a committed entry. -/
def InOrder (h : Host Id σ ε) : Act Id ε κ → Prop
  | .raft inp => h.proc.KeepsUpTo h.proc.node.commitIndex inp
  | .restore req => req.lastIncludedIndex = h.proc.node.lastApplied ∨
      ∃ r ∈ h.restores, req.lastIncludedIndex < r.lastIncludedIndex
  | _ => True

variable [DecidableEq Id]

instance (h : Host Id σ ε) (a : Act Id ε κ) : Decidable (InOrder h a) := by
  unfold InOrder
  split <;> infer_instance

/-- A step of an interleaving within the order. -/
def Ordered (M : StateMachine σ ε κ) (h : Host Id σ ε) (a : Act Id ε κ) : Prop :=
  ofReplica a = true ∧ Readable M h a ∧ InOrder h a

instance (M : StateMachine σ ε κ) (h : Host Id σ ε) (a : Act Id ε κ) : Decidable (Ordered M h a) := by
  unfold Ordered
  infer_instance

/-! ## The invariant -/

/-- The index up to which commands have been executed. -/
def executed (p : Process Id) : ℕ :=
  match p.apply with
  | .finished idx => idx
  | _ => p.node.lastApplied

/-- While the apply loop holds `applyMu`, nothing else has raised `lastApplied`. -/
def Steady (p : Process Id) : Prop :=
  match p.apply with
  | .running idx _ => idx = p.node.lastApplied + 1
  | .finished idx => idx = p.node.lastApplied + 1
  | _ => True

/-- The base is the largest installed index. -/
def BaseInstalled (b₀ : ℕ) (h : Host Id σ ε) : Prop :=
  (h.installed = [] ∧ h.proc.node.lastIncludedIndex = b₀) ∨
    ∃ req ∈ h.installed, (∀ r ∈ h.installed, r.lastIncludedIndex ≤ req.lastIncludedIndex) ∧
      req.lastIncludedIndex = h.proc.node.lastIncludedIndex

structure SerialInv (M : StateMachine σ ε κ) (b₀ : ℕ) (s₀ : σ) (h : Host Id σ ε) : Prop where
  index : h.proc.IndexInv
  hand : Process.InHand h.proc.node h.proc.apply
  base : BaseInstalled b₀ h
  restores_sub : h.restores ⊆ h.installed
  serial : h.restores = [] → Steady h.proc ∧
    BuiltFrom M b₀ s₀ h h.proc.node.lastIncludedIndex (executed h.proc)

section Steps

variable {M : StateMachine σ ε κ} {b₀ : ℕ} {s₀ : σ} {h h' : Host Id σ ε} {a : Act Id ε κ}

omit [DecidableEq Id] in
theorem LogCalls.congr {I k : ℕ} {calls : List (Command × ε)} (hl : h.LogCalls I k calls)
    (heq : ∀ i, I < i → i ≤ k → h'.callAt i = h.callAt i) : h'.LogCalls I k calls where
  length_eq := hl.length_eq
  call_at := by
    intro j hj
    have hlen := hl.length_eq
    rw [heq _ (by omega) (by omega)]
    exact hl.call_at j hj

omit [DecidableEq Id] in
theorem LogCalls.concat {I k : ℕ} {calls : List (Command × ε)} {c : Command × ε}
    (hl : h.LogCalls I k calls) (hc : h.callAt (k + 1) = some c) :
    h.LogCalls I (k + 1) (calls ++ [c]) where
  length_eq := by
    have hlen := hl.length_eq
    rw [List.length_append, List.length_singleton]
    omega
  call_at := by
    intro j hj
    have hlen := hl.length_eq
    rw [List.length_append, List.length_singleton] at hj
    by_cases hlt : j < calls.length
    · rw [List.getElem?_append_left hlt]
      exact hl.call_at j hlt
    · have hj' : j = calls.length := by omega
      subst hj'
      rw [List.getElem?_concat_length, show I + 1 + calls.length = k + 1 by omega]
      exact hc

omit [DecidableEq Id] in
theorem executed_le_commit (hi : h.proc.IndexInv) : executed h.proc ≤ h.proc.node.commitIndex := by
  have hle := hi.apply_le
  unfold executed
  split
  · next idx hfin =>
    rw [hfin] at hle
    exact hle
  · exact hi.chain.applied_le

omit [DecidableEq Id] in
/-- Every installed index is at most the base. -/
theorem BaseInstalled.le (hb : BaseInstalled b₀ h) {r : InstallSnapshotRequest Id}
    (hr : r ∈ h.installed) : r.lastIncludedIndex ≤ h.proc.node.lastIncludedIndex := by
  rcases hb with ⟨hnil, -⟩ | ⟨req, -, hmax, hreq⟩
  · rw [hnil] at hr
    cases hr
  · rw [← hreq]
    exact hmax r hr

omit [DecidableEq Id] in
theorem Steady.congr {p q : Process Id} (hs : Steady p) (ha : q.apply = p.apply)
    (hla : q.node.lastApplied = p.node.lastApplied) : Steady q ∧ executed q = executed p := by
  unfold Steady at hs ⊢
  unfold executed
  rw [ha, hla]
  exact ⟨hs, rfl⟩

/-- The sections that execute nothing and install nothing. -/
def passive (inp : Input Id) : Prop :=
  Process.bystander inp = true ∨ inp = .applyPick ∨ inp = .applyCheck ∨ inp = .applyDone

instance (inp : Input Id) : Decidable (passive inp) := by
  unfold passive
  infer_instance

/-- Commands are executed by the apply loop only, and the log is not compacted. -/
def plain : Act Id ε κ → Prop
  | .raft inp => passive inp
  | .inline _ _ _ => False
  | .tend _ => False
  | _ => True

instance (a : Act Id ε κ) : Decidable (plain a) := by
  unfold plain
  split <;> infer_instance

omit [DecidableEq Id] in
theorem plain_of_ofReplica (ha : ofReplica a = true) : plain a := by
  cases a with
  | raft inp =>
    cases inp with
    | appendEntries req => exact .inl rfl
    | persistAppend req resp saved => exact .inl rfl
    | applyPick => exact .inr (.inl rfl)
    | applyCheck => exact .inr (.inr (.inl rfl))
    | applyDone => exact .inr (.inr (.inr rfl))
    | _ => cases ha
  | inline index cmd env => cases ha
  | tend u => cases ha
  | _ => trivial

theorem Steady.step {p : Process Id} {e : Process.Effect Id} {inp : Input Id} (hs : Steady p)
    (hhand : Process.InHand p.node p.apply) (hstep : p.step inp = some e) (hp : passive inp) :
    Steady e.proc ∧ executed e.proc = executed p := by
  rcases hp with hb | rfl | rfl | rfl
  · have hprog := Process.progress_of_step hstep hb
    simp only [Process.progress, Prod.mk.injEq] at hprog
    exact hs.congr hprog.2.2.1 hprog.1
  · obtain ⟨⟨hidle, -⟩, hstep⟩ := Option.ite_none_right_eq_some.mp hstep
    cases hstep
    refine ⟨trivial, ?_⟩
    simp only [executed, hidle]
  · simp only [Process.step] at hstep
    split at hstep
    · next idx entry hpick =>
      rw [hpick] at hhand
      obtain ⟨hidx, en, rfl, -⟩ := hhand
      split_ifs at hstep with hge <;> cases hstep
      · refine ⟨trivial, ?_⟩
        simp only [executed, hpick]
      · refine ⟨?_, ?_⟩
        · change idx = p.node.lastApplied + 1
          omega
        · simp only [executed, hpick]
    · cases hstep
  · simp only [Process.step] at hstep
    split at hstep <;> cases hstep
    next idx hfin =>
    unfold Steady at hs
    rw [hfin] at hs
    refine ⟨trivial, ?_⟩
    simp only [executed, hfin, Node.markApplied]
    omega

/-- A section that keeps the committed entries and the base keeps what the store is built from. -/
theorem BuiltFrom.next {e : Process.Effect Id} {inp : Input Id} {I k : ℕ}
    (hb : BuiltFrom M b₀ s₀ h I k) (hi : h.proc.IndexInv) (hstep : h.proc.step inp = some e)
    (hr : inp ≠ .restart) (hkeep : h.proc.KeepsUpTo h.proc.node.commitIndex inp)
    (hk : k ≤ h.proc.node.commitIndex) (hbase : e.proc.node.lastIncludedIndex ≤ I)
    (hproc : h'.proc = e.proc) (hstore : h'.store = h.store) (hinst : h'.installed = h.installed)
    (hread : h'.readings = h.readings) : BuiltFrom M b₀ s₀ h' I k := by
  obtain ⟨s, calls, hsource, hcalls, hrun⟩ := hb
  refine ⟨s, calls, ?_, hcalls.congr ?_, hstore.trans hrun⟩
  · unfold Source
    rw [hinst]
    exact hsource
  · intro i hI hik
    unfold callAt
    rw [hproc, hread, Process.entryAt_of_step hstep hr hi.chain.base_le hkeep hi.chain.commit_le
      (hik.trans hk) (by omega)]

/-- One section that neither executes nor installs. -/
theorem SerialInv.frame {e : Process.Effect Id} {inp : Input Id} (inv : SerialInv M b₀ s₀ h)
    (hstep : h.proc.step inp = some e) (hr : inp ≠ .restart)
    (hkeep : h.proc.KeepsUpTo h.proc.node.commitIndex inp)
    (hbase : e.proc.node.lastIncludedIndex = h.proc.node.lastIncludedIndex)
    (hsteady : Steady h.proc → Steady e.proc ∧ executed e.proc = executed h.proc)
    (hproc : h'.proc = e.proc) (hstore : h'.store = h.store) (hinst : h'.installed = h.installed)
    (hread : h'.readings = h.readings) (hres : h'.restores = h.restores) :
    SerialInv M b₀ s₀ h' := by
  refine ⟨?_, ?_, ?_, ?_, ?_⟩
  · rw [hproc]
    exact inv.index.step hstep hkeep.keepsCommitted
  · rw [hproc]
    exact inv.hand.step inv.index hstep hr hkeep
  · unfold BaseInstalled
    rw [hinst, hproc, hbase]
    exact inv.base
  · rw [hres, hinst]
    exact inv.restores_sub
  · intro hnil
    rw [hres] at hnil
    obtain ⟨hst, hbuilt⟩ := inv.serial hnil
    obtain ⟨hst', hex⟩ := hsteady hst
    rw [hproc, hex, hbase]
    exact ⟨hst', hbuilt.next inv.index hstep hr hkeep (executed_le_commit inv.index) hbase.le
      hproc hstore hinst hread⟩

theorem base_of_passive {p : Process Id} {e : Process.Effect Id} {inp : Input Id}
    (hstep : p.step inp = some e) (hp : passive inp) (hr : inp ≠ .restart) :
    e.proc.node.lastIncludedIndex = p.node.lastIncludedIndex := by
  refine Process.base_eq_of_step hstep hr ?_ ?_
  · rintro rfl
    simp [passive, Process.bystander] at hp
  · rintro req rfl
    simp [passive, Process.bystander] at hp

omit [DecidableEq Id] in
/-- The apply loop executes the next command of the log. -/
theorem SerialInv.apply {env : ε} {idx : ℕ} {cmd : Command} (inv : SerialInv M b₀ s₀ h)
    (hrun : h.proc.apply = .running idx cmd) (hproc : h'.proc = { h.proc with apply := .finished idx })
    (hstore : h'.store = (M.exec cmd env h.store).2) (hinst : h'.installed = h.installed)
    (hread : h'.readings = Function.update h.readings idx (some env))
    (hres : h'.restores = h.restores) : SerialInv M b₀ s₀ h' := by
  have hhand := inv.hand
  have hidx := inv.index.apply_le
  rw [hrun] at hhand hidx
  refine ⟨?_, ?_, ?_, ?_, ?_⟩
  · rw [hproc]
    exact ⟨inv.index.chain, hidx, inv.index.compactor_le⟩
  · rw [hproc]
    exact hhand.1
  · unfold BaseInstalled
    rw [hinst, hproc]
    exact inv.base
  · rw [hres, hinst]
    exact inv.restores_sub
  · intro hnil
    rw [hres] at hnil
    obtain ⟨hsteady, s, calls, hsource, hcalls, hst⟩ := inv.serial hnil
    unfold Steady at hsteady
    rw [hrun] at hsteady
    have hex : executed h.proc = h.proc.node.lastApplied := by simp only [executed, hrun]
    have hlast : h.proc.node.commitIndex ≤ h.proc.node.lastLogIndex := inv.index.chain.commit_le
    have hbase := inv.index.chain.base_le
    obtain ⟨en, hen⟩ := h.proc.node.exists_entryAt (k := idx) (by omega) (hidx.trans hlast)
    rw [hproc]
    refine ⟨hsteady, s, calls ++ [(cmd, env)], ?_, ?_, ?_⟩
    · unfold Source
      rw [hinst]
      exact hsource
    · change h'.LogCalls _ idx _
      rw [hex] at hcalls
      have hcalls' : h'.LogCalls _ h.proc.node.lastApplied calls := hcalls.congr fun i _ hik => by
        unfold callAt
        rw [hproc, hread, Function.update_of_ne (by omega)]
      rw [hsteady]
      refine hcalls'.concat ?_
      unfold callAt
      rw [hproc, hread, ← hsteady, Function.update_self, hen]
      simp [hhand.2 en hen]
    · rw [hstore, StateMachine.run_concat, hst]

/-- The first section of `HandleInstallSnapshot`. -/
theorem SerialInv.install {req : InstallSnapshotRequest Id} (inv : SerialInv M b₀ s₀ h)
    (hs : h.step M (.install req) = some h') : SerialInv M b₀ s₀ h' := by
  obtain ⟨h₁, hn, rfl⟩ := Option.map_eq_some_iff.mp hs
  obtain ⟨e, hstep, rfl⟩ := next_eq_some hn
  have hkeep : h.proc.KeepsUpTo h.proc.node.commitIndex (.installSnapshot req) := trivial
  split_ifs with hi
  · obtain ⟨hbase, -, -⟩ := installs_of_step hstep hi
    refine ⟨inv.index.step hstep hkeep.keepsCommitted, inv.hand.step inv.index hstep (by simp) hkeep,
      ?_, ?_, ?_⟩
    · -- every earlier snapshot lies at or below the old base
      refine .inr ⟨req, by simp, fun r hr => ?_, hbase.symm⟩
      rcases List.mem_append.mp hr with hr | hr
      · have hle := inv.base.le hr
        have hbl := inv.index.chain.base_le
        have hlt := hi.2
        omega
      · rw [List.mem_singleton.mp hr]
    · intro r hr
      rcases List.mem_append.mp hr with hr | hr
      · exact List.mem_append_left _ (inv.restores_sub hr)
      · exact List.mem_append_right _ hr
    · intro hnil
      simp at hnil
  · obtain ⟨hquiet, happly⟩ := quiet_of_not_installs hstep hi
    exact inv.frame hstep (by simp) hkeep hquiet.sameLog.base
      (fun hst => hst.congr happly hquiet.fields.2.2.2.2) rfl rfl rfl rfl rfl

/-- A restore in order: once nothing else is outstanding, it was the largest snapshot, and
    nothing has been applied since. -/
theorem SerialInv.restore {req : InstallSnapshotRequest Id} (inv : SerialInv M b₀ s₀ h)
    (hread : Readable M h (.restore req : Act Id ε κ)) (hord : InOrder h (.restore req : Act Id ε κ))
    (hs : h.step M (.restore req) = some h') : SerialInv M b₀ s₀ h' := by
  obtain ⟨⟨hmem, happ⟩, hs⟩ := Option.ite_none_right_eq_some.mp hs
  cases hs
  refine ⟨inv.index, inv.hand, inv.base, fun r hr => inv.restores_sub (List.mem_of_mem_erase hr), ?_⟩
  intro hnil
  have hlast : req.lastIncludedIndex = h.proc.node.lastApplied := by
    rcases hord with heq | ⟨r, hr, hlt⟩
    · exact heq
    · have hne : r ≠ req := by
        rintro rfl
        exact lt_irrefl _ hlt
      have hr' := (List.mem_erase_of_ne hne).mpr hr
      change h.restores.erase req = [] at hnil
      rw [hnil] at hr'
      cases hr'
  have hle := inv.base.le (inv.restores_sub hmem)
  have hbl := inv.index.chain.base_le
  have hbase : req.lastIncludedIndex = h.proc.node.lastIncludedIndex := by omega
  obtain ⟨s, hsome⟩ := Option.isSome_iff_exists.mp hread
  have hex : executed h.proc = h.proc.node.lastApplied ∧ Steady h.proc := by
    unfold applying at happ
    unfold executed Steady
    cases hp : h.proc.apply <;> simp_all
  refine ⟨hex.2, s, [], ?_, ⟨?_, by simp⟩, ?_⟩
  · refine .inr ⟨req, inv.restores_sub hmem, fun r hr => ?_, hbase, h.store, hsome⟩
    rw [hbase]
    exact inv.base.le hr
  · change h.proc.node.lastIncludedIndex + 0 = executed h.proc
    rw [hex.1]
    omega
  · change (M.restore req.data h.store).getD h.store = s
    rw [hsome]
    rfl

theorem SerialInv.step (inv : SerialInv M b₀ s₀ h) (hp : plain a) (hread : Readable M h a)
    (hord : InOrder h a) (hs : h.step M a = some h') : SerialInv M b₀ s₀ h' := by
  cases a with
  | raft inp =>
    obtain ⟨hst, hn⟩ := Option.ite_none_right_eq_some.mp hs
    obtain ⟨e, hstep, rfl⟩ := next_eq_some hn
    have hr : inp ≠ .restart := by
      rintro rfl
      cases hst
    exact inv.frame hstep hr hord (base_of_passive hstep hp hr)
      (fun hst => hst.step inv.hand hstep hp) rfl rfl rfl rfl rfl
  | apply env =>
    simp only [Host.step] at hs
    split at hs
    · next idx cmd hrun =>
      obtain ⟨h₁, hn, rfl⟩ := Option.map_eq_some_iff.mp hs
      obtain ⟨e, hstep, rfl⟩ := next_eq_some hn
      simp only [Process.step, hrun] at hstep
      cases hstep
      exact inv.apply hrun rfl rfl rfl rfl rfl
    · cases hs
  | inline index cmd env => cases hp
  | install req => exact inv.install hs
  | restore req => exact inv.restore hread hord hs
  | persist req resp saved =>
    obtain ⟨-, hn⟩ := Option.ite_none_right_eq_some.mp hs
    obtain ⟨e, hstep, rfl⟩ := next_eq_some hn
    have hp : passive (.persistSnapshot req resp saved : Input Id) := .inl rfl
    exact inv.frame hstep (by simp) trivial (base_of_passive hstep hp (by simp))
      (fun hst => hst.step inv.hand hstep hp) rfl rfl rfl rfl rfl
  | tend u => cases hp

omit [DecidableEq Id] in
theorem SerialInv.opened (id : Id) (peers : List Id) (st : RaftState Id) (s : σ) :
    SerialInv M st.lastIncludedIndex s (opened id peers st s : Host Id σ ε) where
  index := .restart (Process.opened (Node.new id peers) st)
  hand := trivial
  base := .inl ⟨rfl, rfl⟩
  restores_sub := List.nil_subset _
  serial := fun _ =>
    ⟨trivial, s, [], .inl ⟨rfl, rfl, rfl⟩,
      ⟨(Process.restart_indices (Process.opened (Node.new id peers) st)).1.symm, by simp⟩, rfl⟩

end Steps

/-! ## The result -/

/-- At rest the store is the data of the largest installed snapshot, followed by the log. -/
theorem serializable (M : StateMachine σ ε κ) (id : Id) (peers : List Id) (st : RaftState Id) (s : σ)
    (acts : List (Act Id ε κ)) (h : Host Id σ ε)
    (hrun : (opened id peers st s).run M (Ordered M) acts = some h) (hrest : h.AtRest) :
    h.Serial M st.lastIncludedIndex s := by
  have inv : SerialInv M st.lastIncludedIndex s h :=
    Transition.run_invariant (SerialInv.opened id peers st s)
      (fun inv hok hs => inv.step (plain_of_ofReplica hok.1) hok.2.1 hok.2.2 hs) hrun
  obtain ⟨hidle, hnil⟩ := hrest
  obtain ⟨-, hbuilt⟩ := inv.serial hnil
  refine ⟨h.proc.node.lastIncludedIndex, ?_⟩
  have hex : executed h.proc = h.proc.node.lastApplied := by simp only [executed, hidle]
  rw [← hex]
  exact hbuilt

/-! ## A run in order, and two that are not -/

open Raft.Cluster (putCommand)

/-- Snapshots of a store with one key, in the examples: the text is the value of the key. -/
def oneKey : StateMachine DiskStore DiskEnv Upkeep :=
  diskMachine (fun doc => doc.flatMap fun p => p.2.value) fun data => some [([1], { value := data })]

/-- A snapshot of term 1 at an index, with the value of the key. -/
def snapshotAt (index : ℤ) (v : UInt8) : InstallSnapshotRequest (Fin 3) := ⟨1, 0, index, 1, [v]⟩

theorem oneKey_restore {data : Bytes} {d d' : DiskStore} (h : oneKey.restore data d = some d') :
    d'.mem.cell [1] = some { value := data } := by
  cases h
  rw [Storage.DiskStore.restoreSnapshot_cell]
  simp [Storage.decodeSnapshot, Storage.MemStore.cell]

theorem oneKey_put (v : UInt8) (env : Storage.Nonce × Int64 × Int64) (d : DiskStore) :
    (oneKey.exec (putCommand v) env d).2.mem.cell [1] = some { value := [v] } := by
  change (d.applyCmd (putCommand v) env.1 env.2.1 env.2.2).mem.cell [1] = _
  rw [Storage.DiskStore.applyCmd_mem d _ _ _ rfl, Storage.MemStore.apply_cell]
  rfl

/-- A follower with an empty store. -/
def follower : Host (Fin 3) DiskStore DiskEnv :=
  opened 1 [0, 2] RaftState.empty (DiskStore.new none)

/-- The leader sends one more write, which is committed, and the apply loop executes it. -/
def writeSecond : List (Act (Fin 3) DiskEnv Upkeep) :=
  [.raft (.appendEntries ⟨1, 0, 1, 1, [⟨1, putCommand 8⟩], 2⟩), .raft .applyPick, .raft .applyCheck,
   .apply (Storage.zeroNonce, 0, 0), .raft .applyDone]

theorem serializable_follower :
    ∃ h, follower.run oneKey (Ordered oneKey)
        ([.install (snapshotAt 1 7), .restore (snapshotAt 1 7)] ++ writeSecond) = some h ∧
      h.AtRest ∧ h.proc.node.lastApplied = 2 ∧ h.store.mem.cell [1] = some { value := [8] } ∧
      h.Serial oneKey 0 (DiskStore.new none) := by
  have hrun : (follower.run oneKey (Ordered oneKey)
      ([.install (snapshotAt 1 7), .restore (snapshotAt 1 7)] ++ writeSecond)).map
        (fun h => (decide h.AtRest, h.proc.node.lastApplied, h.store.mem.cell [1])) =
      some (true, 2, some { value := [8] }) := by
    decide +kernel
  obtain ⟨h, hh, hshow⟩ := Option.map_eq_some_iff.mp hrun
  simp only [Prod.mk.injEq, decide_eq_true_eq] at hshow
  obtain ⟨hrest, hla, hcell⟩ := hshow
  exact ⟨h, hh, hrest, hla, hcell,
    serializable oneKey 1 [0, 2] RaftState.empty (DiskStore.new none) _ h hh hrest⟩

/-- What the interleavings of the three functions are otherwise free to do. -/
def Interleaved (M : StateMachine σ ε κ) (h : Host Id σ ε) (a : Act Id ε κ) : Prop :=
  ofReplica a = true ∧ Readable M h a

instance (M : StateMachine σ ε κ) (h : Host Id σ ε) (a : Act Id ε κ) :
    Decidable (Interleaved M h a) := by
  unfold Interleaved
  infer_instance

/-- A write after the snapshot is executed before the snapshot is restored, and is lost. Of two
    snapshots the larger one is restored first, and the smaller one stays. -/
theorem restored_over_newer :
    (∃ h, follower.run oneKey (Interleaved oneKey)
        ([.install (snapshotAt 1 7)] ++ writeSecond ++ [.restore (snapshotAt 1 7)]) = some h ∧
      h.AtRest ∧ h.proc.node.lastApplied = 2 ∧ h.store.mem.cell [1] = some { value := [7] } ∧
      ¬ h.Serial oneKey 0 (DiskStore.new none)) ∧
    (∃ h, follower.run oneKey (Interleaved oneKey)
        [.install (snapshotAt 1 7), .install (snapshotAt 2 8), .restore (snapshotAt 2 8),
          .restore (snapshotAt 1 7)] = some h ∧
      h.AtRest ∧ h.proc.node.lastApplied = 2 ∧ h.store.mem.cell [1] = some { value := [7] } ∧
      ¬ h.Serial oneKey 0 (DiskStore.new none)) := by
  constructor
  · have hrun : (follower.run oneKey (Interleaved oneKey)
        ([.install (snapshotAt 1 7)] ++ writeSecond ++ [.restore (snapshotAt 1 7)])).map
          (fun h => (decide (h.AtRest ∧ h.installed = [snapshotAt 1 7]), h.proc.node.lastApplied,
            h.store.mem.cell [1], (h.callAt 2).map Prod.fst)) =
        some (true, 2, some { value := [7] }, some (putCommand 8)) := by
      decide +kernel
    obtain ⟨h, hh, hshow⟩ := Option.map_eq_some_iff.mp hrun
    simp only [Prod.mk.injEq, decide_eq_true_eq] at hshow
    obtain ⟨⟨hrest, hinst⟩, hla, hcell, hcall⟩ := hshow
    obtain ⟨⟨cmd, env⟩, hcall, hcmd⟩ := Option.map_eq_some_iff.mp hcall
    refine ⟨h, hh, hrest, hla, hcell, ?_⟩
    rintro ⟨I, s, calls, hsource, hcalls, hstore⟩
    rcases hsource with ⟨hnil, -⟩ | ⟨req, hreq, -, hI, t, -⟩
    · rw [hinst] at hnil
      cases hnil
    · rw [hinst, List.mem_singleton] at hreq
      subst hreq
      have hlen := hcalls.length_eq
      change (1 : ℤ) = I at hI
      obtain ⟨c, hc⟩ : ∃ c, calls = [c] := List.length_eq_one_iff.mp (by omega)
      have hat := hcalls.call_at 0 (by rw [hc]; exact Nat.zero_lt_one)
      rw [show I + 1 + 0 = 2 by omega, hcall, hc] at hat
      cases hat
      rw [hc] at hstore
      rw [hstore] at hcell
      change (oneKey.exec cmd env s).2.mem.cell [1] = _ at hcell
      change cmd = putCommand 8 at hcmd
      rw [hcmd, oneKey_put] at hcell
      revert hcell
      decide
  · have hrun : (follower.run oneKey (Interleaved oneKey)
        [.install (snapshotAt 1 7), .install (snapshotAt 2 8), .restore (snapshotAt 2 8),
          .restore (snapshotAt 1 7)]).map
          (fun h => (decide h.AtRest, h.proc.node.lastApplied, h.store.mem.cell [1], h.installed)) =
        some (true, 2, some { value := [7] }, [snapshotAt 1 7, snapshotAt 2 8]) := by
      decide +kernel
    obtain ⟨h, hh, hshow⟩ := Option.map_eq_some_iff.mp hrun
    simp only [Prod.mk.injEq, decide_eq_true_eq] at hshow
    obtain ⟨hrest, hla, hcell, hinst⟩ := hshow
    refine ⟨h, hh, hrest, hla, hcell, ?_⟩
    rintro ⟨I, s, calls, hsource, hcalls, hstore⟩
    rcases hsource with ⟨hnil, -⟩ | ⟨req, hreq, hmax, hI, t, ht⟩
    · rw [hinst] at hnil
      cases hnil
    · rw [hinst] at hreq hmax
      -- the largest installed snapshot is the second one
      obtain rfl : req = snapshotAt 2 8 := by
        rcases List.mem_pair.mp hreq with rfl | rfl
        · exact absurd (hmax (snapshotAt 2 8) (by simp)) (by decide)
        · rfl
      have hlen := hcalls.length_eq
      change (2 : ℤ) = I at hI
      obtain rfl : calls = [] := List.length_eq_zero_iff.mp (by omega)
      rw [hstore] at hcell
      change s.mem.cell [1] = _ at hcell
      rw [oneKey_restore ht] at hcell
      revert hcell
      decide

end KvStore.Host
