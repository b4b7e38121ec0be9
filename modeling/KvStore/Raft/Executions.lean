import KvStore.Transition.Guarded
import KvStore.Raft.CommittedLog

/-!
# What the apply loop executes

A node runs without a restart. The commands it has executed, inline or by its apply loop, are
the commands of its log at increasing indices, each executed once; an index that has been
applied without being executed is in the compacted part of the log (`Effect.FollowsLog`).

* `Process.executes_committed_log`: this holds in every run in which nothing is proposed on a
  node without peers, and no accepted `AppendEntries` takes back a committed entry.
* `Process.executed_twice_or_skipped`: a node without peers executes its command inline and
  again by the apply loop; a delayed empty request makes the apply loop pass over an index.
-/

namespace KvStore.Raft

open KvStore.Storage (Command)

variable {Id : Type}

/-- The index and the command of an execution. -/
def Event.execution : Event Id → Option (ℕ × Command)
  | .applied _ index cmd => some (index, cmd)
  | _ => none

/-- The command that the section proposes, if it does. -/
def Input.proposal? : Input Id → Option Command
  | .propose cmd => some cmd
  | _ => none

variable [DecidableEq Id]

namespace Process

/-- What has been executed, in order. -/
def Effect.executed (e : Effect Id) : List (ℕ × Command) := e.events.filterMap Event.execution

/-- A sequence of sections that all meet `ok` in the state before them. -/
def execWhile (ok : Process Id → Input Id → Prop) [∀ p inp, Decidable (ok p inp)] (p : Process Id)
    (inputs : List (Input Id)) : Option (Effect Id) :=
  Transition.run Effect.next (fun e inp => ok e.proc inp) { proc := p } inputs

section Runs

variable {ok : Process Id → Input Id → Prop} [∀ p inp, Decidable (ok p inp)] {p : Process Id}
  {inputs : List (Input Id)} {inp : Input Id} {e : Effect Id}

theorem execWhile_concat : p.execWhile ok (inputs ++ [inp]) = some e ↔
    ∃ e₀, p.execWhile ok inputs = some e₀ ∧ ok e₀.proc inp ∧ e₀.next inp = some e :=
  Transition.run_concat

theorem exec_of_execWhile (h : p.execWhile ok inputs = some e) : p.exec inputs = some e := by
  induction inputs using List.reverseRecOn generalizing e with
  | nil => exact h
  | append_singleton inputs inp ih =>
    obtain ⟨e₀, he₀, -, hnext⟩ := execWhile_concat.mp h
    exact exec_concat.mpr ⟨e₀, ih he₀, hnext⟩

end Runs

/-- At some moment of the run the log had the command at the index. -/
def Seen (p : Process Id) (inputs : List (Input Id)) (call : ℕ × Command) : Prop :=
  ∃ pre e, pre <+: inputs ∧ p.exec pre = some e ∧
    (e.proc.node.entryAt call.1).map Entry.cmd = some call.2

/-- What has been executed follows the log: increasing indices, each index once; every index
    that has been applied since the start was executed or is compacted; what was executed was in
    the log, and the log has nothing else there. -/
structure Effect.FollowsLog (p : Process Id) (inputs : List (Input Id)) (e : Effect Id) : Prop where
  in_order : (e.executed.map Prod.fst).Pairwise (· < ·)
  none_skipped : ∀ k, p.node.lastApplied < k → k ≤ e.proc.node.lastApplied →
    k ∈ e.executed.map Prod.fst ∨ k ≤ e.proc.node.lastIncludedIndex
  from_log : ∀ call ∈ e.executed, Seen p inputs call ∧
    ∀ en, e.proc.node.entryAt call.1 = some en → en.cmd = call.2

/-- Nothing is proposed on a node without peers, and no accepted request takes back a committed
    entry. -/
def KeepsLog (p : Process Id) : Input Id → Prop
  | .propose _ => p.node.peers ≠ []
  | inp => p.KeepsUpTo p.node.commitIndex inp

omit [DecidableEq Id] in
theorem keepsLog_iff (p : Process Id) (inp : Input Id) :
    ((∀ cmd ∈ inp.proposal?, p.node.peers ≠ []) ∧ p.KeepsUpTo p.node.commitIndex inp) ↔
      p.KeepsLog inp := by
  cases inp <;> simp [Input.proposal?, KeepsLog, KeepsUpTo]

instance (p : Process Id) (inp : Input Id) : Decidable (p.KeepsLog inp) :=
  decidable_of_iff _ (p.keepsLog_iff inp)

omit [DecidableEq Id] in
theorem KeepsLog.keepsUpTo {p : Process Id} {inp : Input Id} (h : p.KeepsLog inp) :
    p.KeepsUpTo p.node.commitIndex inp := by
  cases inp with
  | propose cmd => trivial
  | _ => exact h

/-! ## What a section leaves to the apply loop -/

section Sections

variable {p : Process Id} {inp : Input Id}

/-- What a section must leave for the invariant to go on. -/
structure Carried (n n' : Node Id) : Prop where
  base_le : n.lastIncludedIndex ≤ n'.lastIncludedIndex
  adv : n.Advances n'
  entry : ∀ (j : ℕ) en, j ≤ n.commitIndex → n'.entryAt j = some en → n.entryAt j = some en

/-- No section but a restart lowers the base. -/
theorem base_le_of_step {e : Effect Id} (hb : p.node.lastIncludedIndex ≤ p.node.lastApplied)
    (hstep : p.step inp = some e) (hr : inp ≠ .restart) :
    p.node.lastIncludedIndex ≤ e.proc.node.lastIncludedIndex := by
  have hmove := logMove hstep
  generalize e.proc.node = n' at hmove
  cases hmove with
  | keep _ hl _ _ => exact hl.base.ge
  | elected _ _ _ _ _ _ => exact le_refl _
  | propose cmd _ => exact (p.node.appendEntry_frame cmd).2.2.2.2.1.ge
  | accept req _ _ => exact (p.node.handleAppendEntries_progress req).2.ge
  | install req _ hi =>
    change _ ≤ req.lastIncludedIndex.toNat
    omega
  | compact idx label _ =>
    rw [(p.node.compactLog_progress idx label).1]
    exact le_max_left _ _
  | restart => exact absurd rfl hr

/-- Only a snapshot, a compaction and a restart move the base. -/
theorem base_eq_of_step {e : Effect Id} (hstep : p.step inp = some e) (hr : inp ≠ .restart)
    (hc : inp ≠ .compactLog) (hi : ∀ req, inp ≠ .installSnapshot req) :
    e.proc.node.lastIncludedIndex = p.node.lastIncludedIndex := by
  have hmove := logMove hstep
  generalize e.proc.node = n' at hmove
  cases hmove with
  | keep _ hl _ _ => exact hl.base
  | elected _ _ _ _ _ _ => rfl
  | propose cmd _ => exact (p.node.appendEntry_frame cmd).2.2.2.2.1
  | accept req _ _ => exact (p.node.handleAppendEntries_progress req).2
  | install req _ _ => exact absurd rfl (hi req)
  | compact _ _ _ => exact absurd rfl hc
  | restart => exact absurd rfl hr

theorem carried_of_step {e : Effect Id} (h : p.IndexInv) (hstep : p.step inp = some e)
    (hr : inp ≠ .restart) (hk : p.KeepsUpTo p.node.commitIndex inp) :
    Carried p.node e.proc.node where
  base_le := base_le_of_step h.chain.base_le hstep hr
  adv := (h.node hstep hr hk.keepsCommitted).2
  entry := by
    intro j en hj hen
    have hb : e.proc.node.lastIncludedIndex < j := by
      by_contra hle
      rw [Node.Holds.entryAt_base _ (not_lt.mp hle)] at hen
      cases hen
    rw [← entryAt_of_step hstep hr h.chain.base_le hk h.chain.commit_le hj hb]
    exact hen

/-- The sections of the apply loop. -/
def ofApplyLoop : Input Id → Bool
  | .applyPick => true
  | .applyCheck => true
  | .applyRun => true
  | .applyDone => true
  | _ => false

/-- Every other section leaves the apply loop where it is. -/
theorem apply_eq_of_step {e : Effect Id} (hstep : p.step inp = some e) (hr : inp ≠ .restart)
    (ha : ofApplyLoop inp = false) : e.proc.apply = p.apply := by
  by_cases hb : bystander inp = true
  · have hprog := progress_of_step hstep hb
    simp only [progress, Prod.mk.injEq] at hprog
    exact hprog.2.2.1
  cases inp with
  | compactIndex =>
    obtain ⟨-, hstep⟩ := Option.ite_none_right_eq_some.mp hstep
    cases hstep
    rfl
  | compactTerm =>
    simp only [step] at hstep
    split at hstep <;> cases hstep
    rfl
  | compactLog =>
    simp only [step] at hstep
    split at hstep <;> cases hstep
    rfl
  | installSnapshot req =>
    simp only [step] at hstep
    split at hstep <;> cases hstep <;> rfl
  | _ => first | exact absurd rfl hb | exact absurd rfl hr | cases ha

/-- Every other section does not raise `lastApplied` beyond what it compacts. -/
theorem lastApplied_of_step {e : Effect Id} (h : p.IndexInv) (hstep : p.step inp = some e)
    (hr : inp ≠ .restart) (ha : ofApplyLoop inp = false) :
    e.proc.node.lastApplied ≤ p.node.lastApplied ∨
      (∃ req, inp = .installSnapshot req) ∧
        e.proc.node.lastApplied ≤ e.proc.node.lastIncludedIndex := by
  by_cases hb : bystander inp = true
  · have hprog := progress_of_step hstep hb
    simp only [progress, Prod.mk.injEq] at hprog
    exact .inl hprog.1.le
  cases inp with
  | compactIndex =>
    obtain ⟨-, hstep⟩ := Option.ite_none_right_eq_some.mp hstep
    cases hstep
    exact .inl (le_refl _)
  | compactTerm =>
    simp only [step] at hstep
    split at hstep <;> cases hstep
    exact .inl (le_refl _)
  | compactLog =>
    have hcomp := h.compactor_le
    simp only [step] at hstep
    split at hstep <;> cases hstep
    next idx label hp =>
    rw [hp] at hcomp
    refine .inl ?_
    rw [(p.node.compactLog_progress idx label).2 h.chain.base_le]
    exact max_le (le_refl _) hcomp
  | installSnapshot req =>
    have happ := (Node.follow_quiet p.node req.term req.leaderID).fields.2.2.2.2
    simp only [step] at hstep
    split at hstep <;> cases hstep
    · exact .inl (le_refl _)
    · next ht =>
      simp only [Node.handleInstallSnapshot, ht, ite_false]
      split_ifs with hi
      · refine .inr ⟨⟨req, rfl⟩, ?_⟩
        simp only [Node.adoptSnapshot]
        split_ifs <;> omega
      · exact .inl happ.le
  | _ => first | exact absurd rfl hb | exact absurd rfl hr | cases ha

/-- The apply loop is at most one index ahead, and the entry it has in hand is the one of the
    log, if the log still has one there. -/
def InHand (n : Node Id) : ApplyPhase → Prop
  | .idle => True
  | .picked idx entry => idx ≤ n.lastApplied + 1 ∧
      ∃ en, entry = some en ∧ ∀ en', n.entryAt idx = some en' → en' = en
  | .running idx cmd => idx ≤ n.lastApplied + 1 ∧ ∀ en', n.entryAt idx = some en' → en'.cmd = cmd
  | .finished idx => idx ≤ n.lastApplied + 1

omit [DecidableEq Id] in
theorem InHand.carried {n n' : Node Id} {a : ApplyPhase} (h : InHand n a) (hc : Carried n n')
    (ha : a.index ≤ n.commitIndex) : InHand n' a := by
  have hla := hc.adv.2
  cases a with
  | idle => trivial
  | picked idx entry =>
    obtain ⟨hidx, en, rfl, hen⟩ := h
    exact ⟨by omega, en, rfl, fun en' h' => hen en' (hc.entry idx en' ha h')⟩
  | running idx cmd =>
    obtain ⟨hidx, hen⟩ := h
    exact ⟨by omega, fun en' h' => hen en' (hc.entry idx en' ha h')⟩
  | finished idx => exact h.trans (Nat.succ_le_succ hla)

omit [DecidableEq Id] in
/-- The index the loop picks is in the log. -/
theorem IndexInv.entryAt_pick (h : p.IndexInv) (hlt : p.node.lastApplied < p.node.commitIndex) :
    ∃ en, p.node.entryAt (p.node.lastApplied + 1 : ℕ) = some en := by
  have hbase := h.chain.base_le
  have hlast := h.chain.commit_le
  exact p.node.exists_entryAt (by omega) (by omega)

theorem InHand.step {e : Effect Id} (h : InHand p.node p.apply) (hindex : p.IndexInv)
    (hstep : p.step inp = some e) (hr : inp ≠ .restart) (hk : p.KeepsUpTo p.node.commitIndex inp) :
    InHand e.proc.node e.proc.apply := by
  by_cases ha : ofApplyLoop inp = false
  · rw [apply_eq_of_step hstep hr ha]
    exact h.carried (carried_of_step hindex hstep hr hk) hindex.apply_le
  cases inp with
  | applyPick =>
    obtain ⟨⟨-, hlt⟩, hstep⟩ := Option.ite_none_right_eq_some.mp hstep
    obtain ⟨en, hen⟩ := hindex.entryAt_pick hlt
    cases hstep
    refine ⟨le_rfl, en, hen, fun en' h' => ?_⟩
    rw [hen] at h'
    exact (Option.some.inj h').symm
  | applyCheck =>
    simp only [step] at hstep
    split at hstep
    · next idx entry hpick =>
      rw [hpick] at h
      obtain ⟨hidx, en, rfl, hen⟩ := h
      split_ifs at hstep with hge
      · cases hstep
        trivial
      · cases hstep
        exact ⟨hidx, fun en' h' => by rw [hen en' h']⟩
    · cases hstep
  | applyRun =>
    simp only [step] at hstep
    split at hstep <;> cases hstep
    next idx cmd hrun =>
    rw [hrun] at h
    exact h.1
  | applyDone =>
    simp only [step] at hstep
    split at hstep <;> cases hstep
    trivial
  | _ => exact absurd rfl ha

end Sections

/-! ## The invariant -/

section Loop

variable {p : Process Id} {inputs : List (Input Id)} {inp : Input Id} {e e' : Effect Id}

theorem Seen.concat {call : ℕ × Command} (h : Seen p inputs call) (inp : Input Id) :
    Seen p (inputs ++ [inp]) call := by
  obtain ⟨pre, e, hpre, hseen⟩ := h
  exact ⟨pre, e, hpre.trans (List.prefix_append _ _), hseen⟩

theorem Seen.now {call : ℕ × Command} (h : p.exec inputs = some e)
    (hcmd : (e.proc.node.entryAt call.1).map Entry.cmd = some call.2) : Seen p inputs call :=
  ⟨inputs, e, List.prefix_rfl, h, hcmd⟩

/-- Where the apply loop stands: everything executed lies below the index it has in hand, whose
    entry it has read from the log. -/
def LoopPhase (p : Process Id) (inputs : List (Input Id)) (n : Node Id) (calls : List (ℕ × Command)) :
    ApplyPhase → Prop
  | .idle => ∀ call ∈ calls, call.1 ≤ n.lastApplied
  | .picked idx entry => (∀ call ∈ calls, call.1 < idx) ∧
      ∀ en, entry = some en → Seen p inputs (idx, en.cmd)
  | .running idx cmd => (∀ call ∈ calls, call.1 < idx) ∧ Seen p inputs (idx, cmd)
  | .finished idx => (∀ call ∈ calls, call.1 ≤ idx) ∧ idx ∈ calls.map Prod.fst

/-- The invariant of a run. -/
structure LoopInv (p : Process Id) (inputs : List (Input Id)) (e : Effect Id) : Prop where
  index : e.proc.IndexInv
  inline : ∀ idx cmd, .inline idx cmd ∉ e.proc.tasks
  hand : InHand e.proc.node e.proc.apply
  follows : e.FollowsLog p inputs
  phase : LoopPhase p inputs e.proc.node e.executed e.proc.apply

theorem LoopPhase.mono {n n' : Node Id} {calls : List (ℕ × Command)} {a : ApplyPhase}
    (h : LoopPhase p inputs n calls a) (hla : n.lastApplied ≤ n'.lastApplied) (inp : Input Id) :
    LoopPhase p (inputs ++ [inp]) n' calls a := by
  cases a with
  | idle => exact fun call hcall => (h call hcall).trans hla
  | picked idx entry => exact ⟨h.1, fun en hen => (h.2 en hen).concat inp⟩
  | running idx cmd => exact ⟨h.1, h.2.concat inp⟩
  | finished idx => exact h

/-- Only committed entries have been executed. -/
theorem LoopInv.le_commit (h : LoopInv p inputs e) (call : ℕ × Command) (hcall : call ∈ e.executed) :
    call.1 ≤ e.proc.node.commitIndex := by
  have hphase := h.phase
  have hindex := h.index.apply_le
  cases hp : e.proc.apply with
  | idle =>
    rw [hp] at hphase
    exact (hphase call hcall).trans h.index.chain.applied_le
  | picked idx entry =>
    rw [hp] at hphase hindex
    exact (hphase.1 call hcall).le.trans hindex
  | running idx cmd =>
    rw [hp] at hphase hindex
    exact (hphase.1 call hcall).le.trans hindex
  | finished idx =>
    rw [hp] at hphase hindex
    exact (hphase.1 call hcall).trans hindex

/-- Nothing is executed and `lastApplied` is not raised beyond what is compacted. -/
theorem LoopInv.follows_carried (h : LoopInv p inputs e) (hc : Carried e.proc.node e'.proc.node)
    (hex : e'.executed = e.executed)
    (hla : e'.proc.node.lastApplied ≤ e.proc.node.lastApplied ∨
      e'.proc.node.lastApplied ≤ e'.proc.node.lastIncludedIndex) (inp : Input Id) :
    e'.FollowsLog p (inputs ++ [inp]) := by
  have hbase := hc.base_le
  refine ⟨?_, ?_, ?_⟩
  · rw [hex]
    exact h.follows.in_order
  · intro k hk hk'
    rw [hex]
    rcases hla with hla | hla
    · exact (h.follows.none_skipped k hk (hk'.trans hla)).imp_right fun hb => hb.trans hbase
    · exact .inr (hk'.trans hla)
  · intro call hcall
    rw [hex] at hcall
    obtain ⟨hseen, hen⟩ := h.follows.from_log call hcall
    exact ⟨hseen.concat inp, fun en h' => hen en (hc.entry call.1 en (h.le_commit call hcall) h')⟩

/-- Nothing but the apply loop executes a command if there is nothing to execute inline. -/
theorem executions_of_step {e : Effect Id} (hin : ∀ idx cmd, .inline idx cmd ∉ p.tasks)
    (hstep : p.step inp = some e) (hrun : inp ≠ .applyRun) :
    e.events.filterMap Event.execution = [] := by
  refine List.filterMap_eq_nil_iff.mpr fun ev hev => ?_
  cases show_of_step hstep hev with
  | applied idx cmd _ => exact absurd rfl hrun
  | appliedInline idx cmd ht => exact absurd ht (hin idx cmd)
  | _ => rfl

theorem inline_of_step {e : Effect Id} (hin : ∀ idx cmd, .inline idx cmd ∉ p.tasks)
    (hstep : p.step inp = some e) (hk : p.KeepsLog inp) (idx : ℕ) (cmd : Command) :
    .inline idx cmd ∉ e.proc.tasks := by
  intro hmem
  rcases task_of_step hstep hmem with ⟨hold, -⟩ | hspawn
  · exact hin idx cmd hold
  · cases hspawn with
    | inline _ _ hp => exact hk hp

/-- The executed command is the next one of the log. -/
theorem LoopInv.run {idx : ℕ} {cmd : Command} (h : LoopInv p inputs e)
    (hrun : e.proc.apply = .running idx cmd) (hnode : e'.proc.node = e.proc.node)
    (hex : e'.executed = e.executed ++ [(idx, cmd)]) : e'.FollowsLog p inputs := by
  have hphase := h.phase
  have hhand := h.hand
  rw [hrun] at hphase hhand
  obtain ⟨hlt, hseen⟩ := hphase
  refine ⟨?_, ?_, ?_⟩
  · rw [hex, List.map_append, List.pairwise_append]
    refine ⟨h.follows.in_order, List.pairwise_singleton _ _, ?_⟩
    intro i hi j hj
    obtain ⟨call, hcall, rfl⟩ := List.mem_map.mp hi
    rw [List.mem_singleton.mp hj]
    exact hlt call hcall
  · intro k hk hk'
    rw [hnode] at hk' ⊢
    rw [hex, List.map_append, List.mem_append]
    exact (h.follows.none_skipped k hk hk').imp_left .inl
  · intro call hcall
    rw [hex, List.mem_append, List.mem_singleton] at hcall
    rw [hnode]
    rcases hcall with hcall | rfl
    · exact h.follows.from_log call hcall
    · exact ⟨hseen, hhand.2⟩

/-- Once the loop has marked the index it executed, no applied index is left out. -/
theorem LoopInv.mark {idx : ℕ} (h : LoopInv p inputs e) (hfin : e.proc.apply = .finished idx)
    (hnode : e'.proc.node = e.proc.node.markApplied idx) (hex : e'.executed = e.executed) :
    e'.FollowsLog p inputs := by
  have hphase := h.phase
  have hidx : idx ≤ e.proc.node.lastApplied + 1 := by
    have hhand := h.hand
    rw [hfin] at hhand
    exact hhand
  rw [hfin] at hphase
  obtain ⟨-, hmem⟩ := hphase
  refine ⟨by rw [hex]; exact h.follows.in_order, ?_, ?_⟩
  · intro k hk hk'
    rw [hnode] at hk' ⊢
    rw [hex]
    change k ≤ max e.proc.node.lastApplied idx at hk'
    by_cases hle : k ≤ e.proc.node.lastApplied
    · exact h.follows.none_skipped k hk hle
    · have hidx' : k = idx := by omega
      exact .inl (hidx' ▸ hmem)
  · rw [hex, hnode]
    exact h.follows.from_log

theorem Effect.FollowsLog.concat (h : e.FollowsLog p inputs) (inp : Input Id) :
    e.FollowsLog p (inputs ++ [inp]) where
  in_order := h.in_order
  none_skipped := h.none_skipped
  from_log := fun call hcall => ⟨(h.from_log call hcall).1.concat inp, (h.from_log call hcall).2⟩

theorem Effect.FollowsLog.congr (h : e.FollowsLog p inputs) (hnode : e'.proc.node = e.proc.node)
    (hex : e'.executed = e.executed) : e'.FollowsLog p inputs where
  in_order := by rw [hex]; exact h.in_order
  none_skipped := by rw [hex, hnode]; exact h.none_skipped
  from_log := by rw [hex, hnode]; exact h.from_log

/-- What has been executed and where the loop stands after one of its own sections. -/
theorem LoopInv.loop_step {e₁ : Effect Id} (h : LoopInv p inputs e) (hexec : p.exec inputs = some e)
    (hstep : e.proc.step inp = some e₁) (ha : ofApplyLoop inp = true) (hproc : e'.proc = e₁.proc)
    (hex : e'.executed = e.executed ++ e₁.executed) :
    e'.FollowsLog p inputs ∧ LoopPhase p inputs e'.proc.node e'.executed e'.proc.apply := by
  have hphase := h.phase
  cases inp with
  | applyPick =>
    obtain ⟨⟨hidle, hlt⟩, hstep⟩ := Option.ite_none_right_eq_some.mp hstep
    cases hstep
    have hex' : e'.executed = e.executed := hex.trans (List.append_nil _)
    refine ⟨h.follows.congr (by rw [hproc]) hex', ?_⟩
    rw [hproc, hex']
    rw [hidle] at hphase
    exact ⟨fun call hcall => Nat.lt_succ_of_le (hphase call hcall),
      fun en hen => .now hexec (congrArg (Option.map Entry.cmd) hen)⟩
  | applyCheck =>
    simp only [step] at hstep
    split at hstep
    · next idx entry hpick =>
      have hhand := h.hand
      rw [hpick] at hphase hhand
      obtain ⟨-, en, rfl, -⟩ := hhand
      split_ifs at hstep with hge
      · cases hstep
        have hex' : e'.executed = e.executed := hex.trans (List.append_nil _)
        refine ⟨h.follows.congr (by rw [hproc]) hex', ?_⟩
        rw [hproc, hex']
        exact fun call hcall => (hphase.1 call hcall).le.trans hge
      · cases hstep
        have hex' : e'.executed = e.executed := hex.trans (List.append_nil _)
        refine ⟨h.follows.congr (by rw [hproc]) hex', ?_⟩
        rw [hproc, hex']
        exact ⟨hphase.1, hphase.2 en rfl⟩
    · cases hstep
  | applyRun =>
    simp only [step] at hstep
    split at hstep <;> cases hstep
    next idx cmd hrun =>
    rw [hrun] at hphase
    refine ⟨h.run hrun (by rw [hproc]) hex, ?_⟩
    rw [hproc, hex]
    refine ⟨?_, by simp [Effect.executed, Event.execution]⟩
    intro call hcall
    rcases List.mem_append.mp hcall with hcall | hcall
    · exact (hphase.1 call hcall).le
    · rw [List.mem_singleton.mp hcall]
  | applyDone =>
    simp only [step] at hstep
    split at hstep <;> cases hstep
    next idx hfin =>
    rw [hfin] at hphase
    have hex' : e'.executed = e.executed := hex.trans (List.append_nil _)
    refine ⟨h.mark hfin (by rw [hproc]) hex', ?_⟩
    rw [hproc, hex']
    exact fun call hcall => (hphase.1 call hcall).trans (le_max_right _ _)
  | _ => cases ha

theorem Effect.next_executed (hnext : e.next inp = some e') :
    ∃ e₁, e.proc.step inp = some e₁ ∧ e'.proc = e₁.proc ∧
      e'.executed = e.executed ++ e₁.executed := by
  obtain ⟨e₁, hstep, rfl⟩ := Option.map_eq_some_iff.mp hnext
  exact ⟨e₁, hstep, rfl, List.filterMap_append⟩

/-- One section more. -/
theorem LoopInv.next (h : LoopInv p inputs e) (hexec : p.exec inputs = some e)
    (hnext : e.next inp = some e') (hr : inp ≠ .restart) (hk : e.proc.KeepsLog inp) :
    LoopInv p (inputs ++ [inp]) e' := by
  obtain ⟨e₁, hstep, hproc, hex⟩ := Effect.next_executed hnext
  have hindex := h.index.step hstep hk.keepsUpTo.keepsCommitted
  have hinline := inline_of_step h.inline hstep hk
  have hhand := h.hand.step h.index hstep hr hk.keepsUpTo
  have hc := carried_of_step h.index hstep hr hk.keepsUpTo
  rw [← hproc] at hindex hinline hhand hc
  by_cases ha : ofApplyLoop inp = false
  · have hrun : inp ≠ .applyRun := by
      rintro rfl
      cases ha
    have hnone : e₁.executed = [] := executions_of_step h.inline hstep hrun
    rw [hnone, List.append_nil] at hex
    have happly := apply_eq_of_step hstep hr ha
    have hla := lastApplied_of_step h.index hstep hr ha
    rw [← hproc] at happly hla
    refine ⟨hindex, hinline, hhand, h.follows_carried hc hex (hla.imp_right And.right) inp, ?_⟩
    rw [happly, hex]
    exact h.phase.mono hc.adv.2 inp
  · obtain ⟨hfollows, hphase⟩ := h.loop_step hexec hstep (Bool.eq_true_of_not_eq_false ha) hproc hex
    exact ⟨hindex, hinline, hhand, hfollows.concat inp, hphase.mono le_rfl inp⟩

/-- The invariant holds when the node starts from its store. -/
theorem LoopInv.opened (id : Id) (peers : List Id) (st : RaftState Id) :
    LoopInv (opened (Node.new id peers) st) [] { proc := opened (Node.new id peers) st } where
  index := .restart (Process.opened (Node.new id peers) st)
  inline := fun _ _ => List.not_mem_nil
  hand := trivial
  follows :=
    { in_order := List.Pairwise.nil
      none_skipped := fun _ hk hk' => absurd hk' (not_le.mpr hk)
      from_log := fun _ hcall => absurd hcall List.not_mem_nil }
  phase := fun _ hcall => absurd hcall List.not_mem_nil

end Loop

/-! ## The result -/

/-- What a run without restart is asked for. -/
def Undisturbed (p : Process Id) (inp : Input Id) : Prop := inp ≠ .restart ∧ p.KeepsLog inp

instance (p : Process Id) (inp : Input Id) : Decidable (p.Undisturbed inp) := by
  unfold Undisturbed
  infer_instance

/-- A node that starts from its store and runs without a restart executes its committed log. -/
theorem executes_committed_log (id : Id) (peers : List Id) (st : RaftState Id)
    (inputs : List (Input Id)) (e : Effect Id)
    (hrun : (opened (Node.new id peers) st).execWhile Undisturbed inputs = some e) :
    e.FollowsLog (opened (Node.new id peers) st) inputs := by
  suffices h : LoopInv (opened (Node.new id peers) st) inputs e from h.follows
  induction inputs using List.reverseRecOn generalizing e with
  | nil =>
    cases hrun
    exact .opened id peers st
  | append_singleton inputs inp ih =>
    obtain ⟨e₀, hrun₀, ⟨hr, hk⟩, hnext⟩ := execWhile_concat.mp hrun
    exact (ih e₀ hrun₀).next (exec_of_execWhile hrun₀) hnext hr hk

/-! ## A run that follows the log, and two that do not -/

open Cluster (putCommand)

/-- A follower receives two entries, hears that both are committed, and executes them. -/
def followerApplies : List (Input (Fin 3)) :=
  [.appendEntries ⟨1, 0, 0, 0, [⟨1, putCommand 7⟩, ⟨1, putCommand 8⟩], 0⟩,
   .appendEntries ⟨1, 0, 2, 1, [], 2⟩, .applyPick, .applyCheck, .applyRun, .applyDone,
   .applyPick, .applyCheck, .applyRun, .applyDone]

theorem executes_committed_log_follower :
    ∃ e, (opened (Node.new 1 [0, 2]) RaftState.empty).execWhile Undisturbed followerApplies = some e ∧
      e.executed = [(1, putCommand 7), (2, putCommand 8)] ∧
      e.FollowsLog (opened (Node.new 1 [0, 2]) RaftState.empty) followerApplies := by
  have hrun : ((opened (Node.new 1 [0, 2]) RaftState.empty).execWhile Undisturbed followerApplies).map
      Effect.executed = some [(1, putCommand 7), (2, putCommand 8)] := by
    decide +kernel
  obtain ⟨e, he, hex⟩ := Option.map_eq_some_iff.mp hrun
  exact ⟨e, he, hex, executes_committed_log 1 [0, 2] RaftState.empty followerApplies e he⟩

/-- A node without peers leads from the start. A command is executed by the caller of `Put`, and
    again by the apply loop. -/
def proposesAlone : List (Input (Fin 3)) :=
  [.propose (putCommand 7), .applyInline 1 (putCommand 7), .applyPick, .applyCheck, .applyRun]

/-- A follower has committed one entry when an empty request of the same leader, sent before the
    entry, arrives. -/
def delayedHeartbeat : List (Input (Fin 3)) :=
  [.appendEntries ⟨1, 0, 0, 0, [⟨1, putCommand 7⟩], 1⟩, .appendEntries ⟨1, 0, 0, 0, [], 0⟩,
   .applyPick, .applyCheck]

/-- A command of a node without peers is executed twice; a follower passes over an index that
    is not compacted. -/
theorem executed_twice_or_skipped :
    (∃ e, (opened (Node.new 0 []) RaftState.empty).exec proposesAlone = some e ∧
      e.executed = [(1, putCommand 7), (1, putCommand 7)] ∧
      ¬ e.FollowsLog (opened (Node.new 0 []) RaftState.empty) proposesAlone) ∧
    (∃ e, (opened (Node.new 1 [0, 2]) RaftState.empty).exec delayedHeartbeat = some e ∧
      e.executed = [] ∧ e.proc.node.lastApplied = 1 ∧ e.proc.node.lastIncludedIndex = 0 ∧
      ¬ e.FollowsLog (opened (Node.new 1 [0, 2]) RaftState.empty) delayedHeartbeat) := by
  constructor
  · have hrun : ((opened (Node.new 0 []) RaftState.empty).exec proposesAlone).map Effect.executed =
        some [(1, putCommand 7), (1, putCommand 7)] := by
      decide +kernel
    obtain ⟨e, he, hex⟩ := Option.map_eq_some_iff.mp hrun
    refine ⟨e, he, hex, fun h => ?_⟩
    have horder := h.in_order
    rw [hex] at horder
    simp at horder
  · have hrun : ((opened (Node.new 1 [0, 2]) RaftState.empty).exec delayedHeartbeat).map
        (fun e => (e.executed, e.proc.node.lastApplied, e.proc.node.lastIncludedIndex)) =
        some ([], 1, 0) := by
      decide +kernel
    obtain ⟨e, he, hshow⟩ := Option.map_eq_some_iff.mp hrun
    simp only [Prod.mk.injEq] at hshow
    obtain ⟨hex, happ, hbase⟩ := hshow
    refine ⟨e, he, hex, happ, hbase, fun h => ?_⟩
    have hskip := h.none_skipped 1 Nat.zero_lt_one happ.ge
    rw [hex, hbase] at hskip
    simp at hskip

end Process

end KvStore.Raft
