import KvStore.Server.Host

/-!
# What a waiting client is told

`Incr`, `CAS` and `Expire` wait until the index of their entry has been applied, and return what
the `ApplyTracker` has recorded for that index (`proposeWait`, pkg/raft/leader.go:177). The
tracker is keyed by the index alone, and the apply loop reports to it in three places
(pkg/raft/apply.go:148).

* `Tracker.answered_own_outcome`: in every run in which no accepted `AppendEntries` takes back a
  committed entry or one a client waits for, and no installed snapshot covers an index that a
  client waits for and the apply loop has in hand, every answer is the outcome of the caller's
  own entry, and has the type the caller asserts.
* `Tracker.answered_with_other_outcome`: the entry of a deposed leader's `Incr` is replaced by
  another leader's `Put`, whose empty result the caller of `Incr` gets.
-/

namespace KvStore

open KvStore.Storage (Bytes Command DiskStore Err Value)
open KvStore.Raft (Process Input InstallSnapshotRequest Node RaftState ApplyPhase Entry)

variable {Id : Type} {σ ε κ : Type}

/-- A call of `proposeWait`: the entry it has appended, and whether its channel is closed. -/
structure Waiter where
  index : ℕ
  term : ℤ
  cmd : Command
  closed : Bool
  deriving DecidableEq

/-- The entry the call has appended. -/
def Waiter.entry (w : Waiter) : Entry := ⟨w.term, w.cmd⟩

/-- The apply loop has executed an entry. -/
structure Execution where
  index : ℕ
  entry : Entry
  result : Except Err Value

/-- A host with its `ApplyTracker` (pkg/raft/apply.go:20) and the callers that wait. `hand` and
    `result` are the variables `entry` and `res, err` of the apply loop; `note` is the call of
    `tr.applied` it has still to make. On the side: what has been executed, and what callers
    have been told. -/
structure Tracker (Id σ ε : Type) where
  host : Host Id σ ε
  hand : Option Entry
  result : Option (Except Err Value)
  note : Option (ℕ × Except Err Value)
  results : ℕ → Option (Except Err Value)
  waiters : List Waiter
  executions : List Execution
  answers : List (Waiter × Option (Except Err Value))

variable [DecidableEq Id]

namespace Tracker

inductive Act (Id ε κ : Type) where
  | host (a : Host.Act Id ε κ)
  /-- The locked section of `proposeWait` on a node with peers. -/
  | proposeWait (cmd : Command)
  /-- `tr.applied` (pkg/raft/apply.go:61). -/
  | applied
  /-- The channel is closed: `Result` (pkg/raft/apply.go:51) and the return of `proposeWait`. -/
  | answer (w : Waiter)

def opened (id : Id) (peers : List Id) (st : RaftState Id) (s : σ) : Tracker Id σ ε :=
  { host := Host.opened id peers st s, hand := none, result := none, note := none
    results := fun _ => none, waiters := [], executions := [], answers := [] }

/-- The empty `applyResult{}`. -/
def emptyResult : Except Err Value := .ok .none

/-- What an action of the host does to the variables of the apply loop. -/
def observe (M : StateMachine σ ε κ) (t : Tracker Id σ ε) : Host.Act Id ε κ → Tracker Id σ ε
  | .raft .applyCheck =>
    match t.host.proc.apply with
    | .picked idx entry =>
      -- covered by a snapshot, not in the log, or to be executed
      if t.host.proc.node.lastApplied ≥ idx then { t with note := some (idx, emptyResult) }
      else match entry with
        | none => { t with note := some (idx, emptyResult) }
        | some e => { t with hand := some e }
    | _ => t
  | .apply env =>
    match t.host.proc.apply with
    | .running idx cmd =>
      let r := (M.exec cmd env t.host.store).1
      { t with
        result := some r
        executions := t.executions ++ t.hand.toList.map fun e => ⟨idx, e, r⟩ }
    | _ => t
  | .raft .applyDone =>
    match t.host.proc.apply with
    | .finished idx => { t with note := t.result.map fun r => (idx, r) }
    | _ => t
  | _ => t

/-- The apply loop has reported before it picks the next index. -/
def mayPick (t : Tracker Id σ ε) : Host.Act Id ε κ → Bool
  | .raft .applyPick => t.note.isNone
  | _ => true

/-- `close(ch)` for the channels of an index. -/
def close (index : ℕ) (w : Waiter) : Waiter :=
  if w.index = index then { w with closed := true } else w

/-- One step. `none` means that it cannot happen in this state. -/
def step (M : StateMachine σ ε κ) (t : Tracker Id σ ε) : Act Id ε κ → Option (Tracker Id σ ε)
  | .host a =>
    if t.mayPick a then (t.host.step M a).map fun h => { t.observe M a with host := h } else none
  | .proposeWait cmd =>
    if cmd.op.conditional = true ∧ t.host.proc.node.peers ≠ [] then
      (t.host.step M (.raft (.propose cmd))).map fun h =>
        { t with
          host := h
          waiters := t.waiters ++ [⟨h.proc.node.lastLogIndex, h.proc.node.term, cmd, false⟩] }
    else none
  | .applied =>
    t.note.map fun n =>
      { t with
        results := Function.update t.results n.1 (some n.2)
        waiters := t.waiters.map (close n.1)
        note := none }
  | .answer w =>
    if w ∈ t.waiters ∧ w.closed = true then
      (t.host.step M (.raft (.returnPropose w.index w.term w.cmd))).map fun h =>
        { t with
          host := h
          waiters := t.waiters.erase w
          answers := t.answers ++ [(w, t.results w.index)] }
    else none

/-- The state after a run all of whose steps meet `ok` in the state before them. -/
def run (M : StateMachine σ ε κ) (ok : Tracker Id σ ε → Act Id ε κ → Prop)
    [∀ t a, Decidable (ok t a)] (t : Tracker Id σ ε) (acts : List (Act Id ε κ)) :
    Option (Tracker Id σ ε) :=
  Transition.run (Tracker.step M) ok t acts

/-- The type assertions of `Incr` and `CAS` (pkg/raft/leader.go:81). -/
def Asserts (cmd : Command) (v : Value) : Prop :=
  (cmd.op = .incr → ∃ n, v = .int n) ∧ (cmd.op = .cas → ∃ b, v = .bool b)

/-- An answer without error is the outcome of the caller's own entry, the only one that has been
    executed at the index, and its type assertion succeeds. -/
def OwnOutcome (t : Tracker Id σ ε) (w : Waiter) (v : Value) : Prop :=
  ⟨w.index, w.entry, .ok v⟩ ∈ t.executions ∧
    (∀ x ∈ t.executions, x.index = w.index → x.entry = w.entry) ∧ Asserts w.cmd v

/-- No accepted request takes back a committed entry, or one a client still waits for; no
    installed snapshot covers the index the apply loop has picked, if a client waits for it. -/
def KeepsWaited (t : Tracker Id σ ε) : Act Id ε κ → Prop
  | .host (.raft inp) => t.host.proc.KeepsUpTo t.host.proc.node.commitIndex inp ∧
      ∀ w ∈ t.waiters, w.closed = false → t.host.proc.node.lastApplied < w.index →
        t.host.proc.KeepsUpTo w.index inp
  | .host (.install req) => match t.host.proc.apply with
    | .picked idx _ => Host.installs t.host.proc.node req →
        (∃ w ∈ t.waiters, w.closed = false ∧ w.index = idx) → req.lastIncludedIndex < idx
    | _ => True
  | _ => True

instance (t : Tracker Id σ ε) (a : Act Id ε κ) : Decidable (KeepsWaited t a) := by
  unfold KeepsWaited
  split
  · infer_instance
  · split <;> infer_instance
  · infer_instance

/-! ## The invariant -/

/-- A caller whose channel is open. -/
structure Open (t : Tracker Id σ ε) (w : Waiter) : Prop where
  ahead : t.host.proc.node.lastApplied < w.index → t.host.proc.node.entryAt w.index = some w.entry
  picked : ∀ en, t.host.proc.apply = .picked w.index en →
    t.host.proc.node.lastApplied < w.index ∧ en = some w.entry
  running : ∀ cmd, t.host.proc.apply = .running w.index cmd → t.hand = some w.entry
  finished : t.host.proc.apply = .finished w.index → t.hand = some w.entry
  noted : ∀ r, t.note = some (w.index, r) → ⟨w.index, w.entry, r⟩ ∈ t.executions
  own : ∀ x ∈ t.executions, x.index = w.index → x.entry = w.entry

/-- A caller whose index has been reported with the result `r`. -/
structure Done (t : Tracker Id σ ε) (w : Waiter) (r : Except Err Value) : Prop where
  applied : w.index ≤ t.host.proc.node.lastApplied
  past : t.host.proc.apply = .idle ∨ w.index < t.host.proc.apply.index
  unnoted : ∀ r', t.note ≠ some (w.index, r')
  executed : ⟨w.index, w.entry, r⟩ ∈ t.executions
  own : ∀ x ∈ t.executions, x.index = w.index → x.entry = w.entry

/-- The variables of the apply loop. -/
def Variables (t : Tracker Id σ ε) : Prop :=
  match t.host.proc.apply with
  | .running _ cmd => ∃ en, t.hand = some en ∧ en.cmd = cmd
  | .finished idx => ∃ en r, t.hand = some en ∧ t.result = some r ∧ ⟨idx, en, r⟩ ∈ t.executions
  | _ => True

structure LoopInv (t : Tracker Id σ ε) : Prop where
  index : t.host.proc.IndexInv
  inHand : Process.InHand t.host.proc.node t.host.proc.apply
  vars : Variables t
  noted : ∀ i r, t.note = some (i, r) → t.host.proc.apply = .idle ∧ i ≤ t.host.proc.node.lastApplied
  exec_le : ∀ x ∈ t.executions, x.index ≤ t.host.proc.node.commitIndex
  typed : ∀ x ∈ t.executions, ∀ v, x.result = .ok v → Asserts x.entry.cmd v

structure Inv (t : Tracker Id σ ε) : Prop where
  loop : LoopInv t
  waiting : ∀ w ∈ t.waiters, w.closed = false → Open t w
  closed : ∀ w ∈ t.waiters, w.closed = true → ∃ r, t.results w.index = some r ∧ Done t w r
  answered : ∀ x ∈ t.answers, ∃ r, x.2 = some r ∧ Done t x.1 r

section Steps

variable {M : StateMachine σ ε κ} {t t' : Tracker Id σ ε} {w : Waiter} {r : Except Err Value}

/-! ### Sections outside the apply loop -/

/-- The apply loop and its variables stay, and nothing applied is taken back. -/
structure Aside (t t' : Tracker Id σ ε) : Prop where
  index : t'.host.proc.IndexInv
  inHand : Process.InHand t'.host.proc.node t'.host.proc.apply
  apply : t'.host.proc.apply = t.host.proc.apply
  adv : t.host.proc.node.Advances t'.host.proc.node
  hand : t'.hand = t.hand
  result : t'.result = t.result
  note : t'.note = t.note
  executions : t'.executions = t.executions

omit [DecidableEq Id] in
theorem LoopInv.aside (h : LoopInv t) (ha : Aside t t') : LoopInv t' where
  index := ha.index
  inHand := ha.inHand
  vars := by
    have hvars := h.vars
    unfold Variables at hvars ⊢
    rw [ha.apply, ha.hand, ha.result, ha.executions]
    exact hvars
  noted := by
    intro i r hn
    rw [ha.note] at hn
    rw [ha.apply]
    exact ⟨(h.noted i r hn).1, (h.noted i r hn).2.trans ha.adv.2⟩
  exec_le := by
    intro x hx
    rw [ha.executions] at hx
    exact (h.exec_le x hx).trans ha.adv.1
  typed := by
    rw [ha.executions]
    exact h.typed

omit [DecidableEq Id] in
theorem Open.aside (h : Open t w) (ha : Aside t t')
    (hentry : t'.host.proc.node.lastApplied < w.index →
      t.host.proc.node.entryAt w.index = some w.entry →
      t'.host.proc.node.entryAt w.index = some w.entry)
    (hpick : ∀ en, t.host.proc.apply = .picked w.index en →
      t'.host.proc.node.lastApplied < w.index) : Open t' w where
  ahead := fun hlt => hentry hlt (h.ahead (lt_of_le_of_lt ha.adv.2 hlt))
  picked := by
    intro en hen
    rw [ha.apply] at hen
    exact ⟨hpick en hen, (h.picked en hen).2⟩
  running := by
    intro cmd hcmd
    rw [ha.apply] at hcmd
    rw [ha.hand]
    exact h.running cmd hcmd
  finished := by
    intro hfin
    rw [ha.apply] at hfin
    rw [ha.hand]
    exact h.finished hfin
  noted := by
    rw [ha.note, ha.executions]
    exact h.noted
  own := by
    rw [ha.executions]
    exact h.own

omit [DecidableEq Id] in
theorem Done.aside (h : Done t w r) (ha : Aside t t') : Done t' w r where
  applied := h.applied.trans ha.adv.2
  past := by
    rw [ha.apply]
    exact h.past
  unnoted := by
    rw [ha.note]
    exact h.unnoted
  executed := by
    rw [ha.executions]
    exact h.executed
  own := by
    rw [ha.executions]
    exact h.own

/-- The actions that leave the apply loop alone and keep the committed entries. -/
def OutsideLoop (h : Host Id σ ε) (a : Host.Act Id ε κ) : Prop :=
  ∀ inp, a.input = some inp →
    Process.ofApplyLoop inp = false ∧ h.proc.KeepsUpTo h.proc.node.commitIndex inp

theorem aside_of_step {a : Host.Act Id ε κ} {h : Host Id σ ε} (hinv : LoopInv t)
    (hout : OutsideLoop t.host a) (hs : t.host.step M a = some h) (hhost : t'.host = h)
    (hhand : t'.hand = t.hand) (hresult : t'.result = t.result) (hnote : t'.note = t.note)
    (hex : t'.executions = t.executions) : Aside t t' := by
  subst hhost
  rcases Host.proc_of_step hs with ⟨inp, e, hinp, hr, hstep, hproc, -⟩ | ⟨-, hproc, -⟩
  · obtain ⟨ha, hkeep⟩ := hout inp hinp
    have hadv := (hinv.index.node hstep hr hkeep.keepsCommitted).2
    have hindex := hinv.index.step hstep hkeep.keepsCommitted
    have hhold := hinv.inHand.step hinv.index hstep hr hkeep
    have happly := Process.apply_eq_of_step hstep hr ha
    rw [← hproc] at hadv hindex hhold happly
    exact ⟨hindex, hhold, happly, hadv, hhand, hresult, hnote, hex⟩
  · refine ⟨?_, ?_, ?_, ?_, hhand, hresult, hnote, hex⟩
    all_goals rw [hproc]
    · exact hinv.index
    · exact hinv.inHand
    · exact .refl _

/-- A waited entry stays in the log. -/
theorem entry_of_step {a : Host.Act Id ε κ} {h h' : Host Id σ ε} {k : ℕ} {en : Entry}
    (hindex : h.proc.IndexInv) (hindex' : h'.proc.IndexInv) (hs : h.step M a = some h')
    (hkeep : ∀ inp, a.input = some inp → h.proc.KeepsUpTo k inp)
    (hen : h.proc.node.entryAt k = some en) (hlt : h'.proc.node.lastApplied < k) :
    h'.proc.node.entryAt k = some en := by
  have hb := hindex'.chain.base_le
  rcases Host.proc_of_step hs with ⟨inp, e, hinp, hr, hstep, hproc, -⟩ | ⟨-, hproc, -⟩
  · rw [hproc] at hb hlt ⊢
    rw [Process.entryAt_of_step hstep hr hindex.chain.base_le (hkeep inp hinp)
      (Node.le_lastLogIndex_of_entryAt hen) le_rfl (by omega)]
    exact hen
  · rw [hproc]
    exact hen

/-- Only an installed snapshot can overtake the index the apply loop has picked. -/
theorem lastApplied_lt_of_step {a : Host.Act Id ε κ} {h h' : Host Id σ ε} {k : ℕ}
    (hindex : h.proc.IndexInv) (hs : h.step M a = some h')
    (hloop : ∀ inp, a.input = some inp → Process.ofApplyLoop inp = false)
    (hinst : ∀ req, a = .install req → Host.installs h.proc.node req → req.lastIncludedIndex < k)
    (hlt : h.proc.node.lastApplied < k) : h'.proc.node.lastApplied < k := by
  rcases Host.proc_of_step hs with ⟨inp, e, hinp, hr, hstep, hproc, -⟩ | ⟨-, hproc, -⟩
  · rw [hproc]
    rcases Host.raised_of_step hindex hstep hr (hloop inp hinp) with hle | ⟨req, rfl, hi, heq⟩
    · exact lt_of_le_of_lt hle hlt
    · cases a with
      | install req' =>
        cases hinp
        have := hinst req rfl hi
        omega
      | raft inp' =>
        obtain ⟨hst, -⟩ := Option.ite_none_right_eq_some.mp hs
        cases hinp
        cases hst
      | _ => cases hinp
  · rw [hproc]
    exact hlt

omit [DecidableEq Id] in
/-- Outside the apply loop callers may come and be answered. -/
theorem Inv.aside (inv : Inv t) (ha : Aside t t') (hres : t'.results = t.results)
    (hopen : ∀ w ∈ t.waiters, w.closed = false → Open t' w)
    (hws : ∀ w ∈ t'.waiters, w ∈ t.waiters ∨ w.closed = false ∧ Open t' w)
    (hans : ∀ x ∈ t'.answers, x ∈ t.answers ∨
      ∃ w ∈ t.waiters, w.closed = true ∧ x = (w, t.results w.index)) : Inv t' where
  loop := inv.loop.aside ha
  waiting := by
    intro w hw hc
    rcases hws w hw with hold | ⟨-, hnew⟩
    · exact hopen w hold hc
    · exact hnew
  closed := by
    intro w hw hc
    rcases hws w hw with hold | ⟨hnew, -⟩
    · obtain ⟨r, hr, hdone⟩ := inv.closed w hold hc
      rw [hres]
      exact ⟨r, hr, hdone.aside ha⟩
    · rw [hc] at hnew
      cases hnew
  answered := by
    intro x hx
    rcases hans x hx with hold | ⟨w, hw, hc, rfl⟩
    · obtain ⟨r, hr, hdone⟩ := inv.answered x hold
      exact ⟨r, hr, hdone.aside ha⟩
    · obtain ⟨r, hr, hdone⟩ := inv.closed w hw hc
      exact ⟨r, hr, hdone.aside ha⟩

/-- A section outside the loop that keeps the waited entries keeps the open callers. -/
theorem Open.step {a : Host.Act Id ε κ} (ho : Open t w) (hinv : LoopInv t) (ha : Aside t t')
    (hs : t.host.step M a = some t'.host)
    (hloop : ∀ inp, a.input = some inp → Process.ofApplyLoop inp = false)
    (hkeep : t.host.proc.node.lastApplied < w.index →
      ∀ inp, a.input = some inp → t.host.proc.KeepsUpTo w.index inp)
    (hinst : ∀ req, a = .install req → ∀ en, t.host.proc.apply = .picked w.index en →
      Host.installs t.host.proc.node req → req.lastIncludedIndex < w.index) : Open t' w := by
  refine ho.aside ha ?_ ?_
  · intro hlt hen
    exact entry_of_step hinv.index ha.index hs (hkeep (lt_of_le_of_lt ha.adv.2 hlt)) hen hlt
  · intro en hen
    exact lastApplied_lt_of_step hinv.index hs hloop (fun req hreq => hinst req hreq en hen)
      (ho.picked en hen).1

/-- An action of the host outside the apply loop. -/
theorem Inv.host {a : Host.Act Id ε κ} {h : Host Id σ ε} (inv : Inv t)
    (hout : OutsideLoop t.host a) (hk : KeepsWaited t (.host a))
    (hs : t.host.step M a = some h) : Inv { t with host := h } := by
  have ha : Aside t { t with host := h } := aside_of_step inv.loop hout hs rfl rfl rfl rfl rfl
  refine inv.aside ha rfl ?_ (fun w hw => .inl hw) (fun x hx => .inl hx)
  intro w hw hc
  refine (inv.waiting w hw hc).step inv.loop ha hs (fun inp hinp => (hout inp hinp).1) ?_ ?_
  · intro hlt inp hinp
    cases a with
    | raft inp' =>
      cases hinp
      exact hk.2 w hw hc hlt
    | _ => cases hinp <;> trivial
  · rintro req rfl en hen hi
    simp only [KeepsWaited, hen] at hk
    exact hk hi ⟨w, hw, hc, rfl⟩

/-! ### Callers -/

omit [DecidableEq Id] in
/-- The entry a leader has just appended. -/
theorem entryAt_appendEntry (n : Node Id) (cmd : Command) :
    (n.appendEntry cmd).entryAt (n.appendEntry cmd).lastLogIndex = some ⟨n.term, cmd⟩ := by
  have hbase := (n.appendEntry_frame cmd).2.2.2.2.1
  have hlog := n.appendEntry_log cmd
  rw [Node.entryAt_eq_getElem? _ (by rw [Node.lastLogIndex, hlog]; simp), Node.lastLogIndex,
    hlog, hbase]
  simp

/-- `proposeWait` registers its waiter above everything that is committed. -/
theorem Inv.proposeWait {cmd : Command} {h : Host Id σ ε} (inv : Inv t)
    (hs : t.host.step M (.raft (.propose cmd)) = some h) :
    Inv { t with
      host := h
      waiters := t.waiters ++ [⟨h.proc.node.lastLogIndex, h.proc.node.term, cmd, false⟩] } := by
  have hout : OutsideLoop t.host (.raft (.propose cmd) : Host.Act Id ε κ) := by
    rintro inp ⟨⟩
    exact ⟨rfl, trivial⟩
  have ha : Aside t { t with
      host := h
      waiters := t.waiters ++ [⟨h.proc.node.lastLogIndex, h.proc.node.term, cmd, false⟩] } :=
    aside_of_step inv.loop hout hs rfl rfl rfl rfl rfl
  refine inv.aside ha rfl ?_ ?_ (fun x hx => .inl hx)
  · intro w hw hc
    refine (inv.waiting w hw hc).step inv.loop ha hs (fun inp hinp => (hout inp hinp).1) ?_ (by simp)
    rintro - inp ⟨⟩
    trivial
  · intro w hw
    rcases List.mem_append.mp hw with hw | hw
    · exact .inl hw
    -- the index is above the log before, so above what is committed, executed and reported
    obtain ⟨e, hstep, rfl⟩ := Host.raft_eq_some hs
    obtain ⟨-, hstep⟩ := Option.ite_none_right_eq_some.mp hstep
    cases hstep
    rw [List.mem_singleton.mp hw]
    have hlast : (t.host.proc.node.appendEntry cmd).lastLogIndex = t.host.proc.node.lastLogIndex + 1 := by
      rw [Node.lastLogIndex, Node.lastLogIndex, t.host.proc.node.appendEntry_log cmd,
        (t.host.proc.node.appendEntry_frame cmd).2.2.2.2.1, List.length_append,
        List.length_singleton]
      omega
    have hcommit := inv.loop.index.chain.commit_le
    have happly := inv.loop.index.apply_le
    have hla := inv.loop.index.chain.applied_le
    refine .inr ⟨rfl, ?_, ?_, ?_, ?_, ?_, ?_⟩
    · intro _
      have hterm := (t.host.proc.node.appendEntry_frame cmd).1
      change _ = some (⟨(t.host.proc.node.appendEntry cmd).term, cmd⟩ : Entry)
      rw [hterm]
      exact entryAt_appendEntry t.host.proc.node cmd
    · intro en hen
      change t.host.proc.apply = _ at hen
      rw [hen] at happly
      change (t.host.proc.node.appendEntry cmd).lastLogIndex ≤ _ at happly
      omega
    · intro cmd' hcmd
      change t.host.proc.apply = _ at hcmd
      rw [hcmd] at happly
      change (t.host.proc.node.appendEntry cmd).lastLogIndex ≤ _ at happly
      omega
    · intro hfin
      change t.host.proc.apply = _ at hfin
      rw [hfin] at happly
      change (t.host.proc.node.appendEntry cmd).lastLogIndex ≤ _ at happly
      omega
    · intro r hr
      have hle := (inv.loop.noted _ r hr).2
      change (t.host.proc.node.appendEntry cmd).lastLogIndex ≤ _ at hle
      omega
    · intro x hx heq
      have hle := inv.loop.exec_le x hx
      change x.index = (t.host.proc.node.appendEntry cmd).lastLogIndex at heq
      omega

/-- A caller whose channel is closed is answered. -/
theorem Inv.answer {h : Host Id σ ε} (inv : Inv t) (hw : w ∈ t.waiters) (hc : w.closed = true)
    (hs : t.host.step M (.raft (.returnPropose w.index w.term w.cmd)) = some h) :
    Inv { t with
      host := h
      waiters := t.waiters.erase w
      answers := t.answers ++ [(w, t.results w.index)] } := by
  have hout : OutsideLoop t.host
      (.raft (.returnPropose w.index w.term w.cmd) : Host.Act Id ε κ) := by
    rintro inp ⟨⟩
    exact ⟨rfl, trivial⟩
  have ha : Aside t { t with
      host := h
      waiters := t.waiters.erase w
      answers := t.answers ++ [(w, t.results w.index)] } :=
    aside_of_step inv.loop hout hs rfl rfl rfl rfl rfl
  refine inv.aside ha rfl ?_ (fun w' hw' => .inl (List.mem_of_mem_erase hw')) ?_
  · intro w' hw' hc'
    refine (inv.waiting w' hw' hc').step inv.loop ha hs (fun inp hinp => (hout inp hinp).1) ?_ (by simp)
    rintro - inp ⟨⟩
    trivial
  · intro x hx
    rcases List.mem_append.mp hx with hx | hx
    · exact .inl hx
    · exact .inr ⟨w, hw, hc, List.mem_singleton.mp hx⟩

omit [DecidableEq Id] in
/-- `tr.applied` records the result and closes the channels of the index. -/
theorem Inv.applied {n : ℕ × Except Err Value} (inv : Inv t) (hn : t.note = some n) :
    Inv { t with
      results := Function.update t.results n.1 (some n.2)
      waiters := t.waiters.map (close n.1)
      note := none } := by
  obtain ⟨hidle, hle⟩ := inv.loop.noted n.1 n.2 hn
  have hdone : ∀ {w r}, Done t w r → Done { t with
      results := Function.update t.results n.1 (some n.2)
      waiters := t.waiters.map (close n.1)
      note := none } w r := fun h => ⟨h.applied, h.past, (by simp), h.executed, h.own⟩
  refine ⟨⟨inv.loop.index, inv.loop.inHand, inv.loop.vars, (by simp), inv.loop.exec_le,
    inv.loop.typed⟩, ?_, ?_, ?_⟩
  · intro w' hw' hc
    obtain ⟨w, hw, rfl⟩ := List.mem_map.mp hw'
    unfold close at hc ⊢
    split_ifs at hc ⊢ with hi
    have ho := inv.waiting w hw hc
    exact ⟨ho.ahead, ho.picked, ho.running, ho.finished, (by simp), ho.own⟩
  · intro w' hw' hc
    obtain ⟨w, hw, rfl⟩ := List.mem_map.mp hw'
    unfold close at hc ⊢
    split_ifs at hc ⊢ with hi
    · refine ⟨n.2, ?_, ?_⟩
      · change Function.update t.results n.1 (some n.2) w.index = _
        rw [hi, Function.update_self]
      · have hnote : t.note = some (w.index, n.2) := by rw [hn, hi]
        cases hwc : w.closed with
        | true =>
          obtain ⟨r, -, hd⟩ := inv.closed w hw hwc
          exact absurd hnote (hd.unnoted n.2)
        | false =>
          have ho := inv.waiting w hw hwc
          exact ⟨hi ▸ hle, .inl hidle, (by simp), ho.noted n.2 hnote, ho.own⟩
    · obtain ⟨r, hr, hd⟩ := inv.closed w hw hc
      refine ⟨r, ?_, hdone hd⟩
      change Function.update t.results n.1 (some n.2) w.index = _
      rw [Function.update_of_ne hi]
      exact hr
  · intro x hx
    obtain ⟨r, hr, hd⟩ := inv.answered x hx
    exact ⟨r, hr, hdone hd⟩

/-! ### The apply loop -/

omit [DecidableEq Id] in
/-- A step that leaves the callers and the tracker alone. -/
theorem Inv.ofLoop (inv : Inv t) (hloop : LoopInv t') (hres : t'.results = t.results)
    (hws : t'.waiters = t.waiters) (hans : t'.answers = t.answers)
    (hopen : ∀ w, Open t w → Open t' w) (hdone : ∀ w r, Done t w r → Done t' w r) : Inv t' where
  loop := hloop
  waiting := by
    rw [hws]
    exact fun w hw hc => hopen w (inv.waiting w hw hc)
  closed := by
    rw [hws, hres]
    intro w hw hc
    obtain ⟨r, hr, hd⟩ := inv.closed w hw hc
    exact ⟨r, hr, hdone w r hd⟩
  answered := by
    rw [hans]
    intro x hx
    obtain ⟨r, hr, hd⟩ := inv.answered x hx
    exact ⟨r, hr, hdone _ r hd⟩

/-- The loop picks the entry of whoever waits for the next index. -/
theorem Inv.pick {h : Host Id σ ε} (inv : Inv t) (hnote : t.note = none)
    (hs : t.host.step M (.raft .applyPick) = some h) : Inv { t with host := h } := by
  obtain ⟨e, hstep, rfl⟩ := Host.raft_eq_some hs
  have hindex := inv.loop.index.step hstep trivial
  have hhand := inv.loop.inHand.step inv.loop.index hstep (by simp) trivial
  obtain ⟨-, hstep⟩ := Option.ite_none_right_eq_some.mp hstep
  cases hstep
  refine inv.ofLoop ⟨hindex, hhand, trivial, ?_, inv.loop.exec_le, inv.loop.typed⟩ rfl rfl rfl ?_ ?_
  · intro i r hn
    change t.note = _ at hn
    rw [hnote] at hn
    cases hn
  · intro w ho
    refine ⟨ho.ahead, ?_, (by simp), (by simp), ho.noted, ho.own⟩
    intro en hen
    simp only [ApplyPhase.picked.injEq] at hen
    obtain ⟨hidx, rfl⟩ := hen
    have hlt : t.host.proc.node.lastApplied < w.index := by omega
    rw [hidx]
    exact ⟨hlt, ho.ahead hlt⟩
  · intro w r hd
    exact ⟨hd.applied, .inr (Nat.lt_succ_of_le hd.applied), hd.unnoted, hd.executed, hd.own⟩

/-- The check passes over an index only if a snapshot covers it, and then nobody waits for it. -/
theorem Inv.check {h : Host Id σ ε} (inv : Inv t)
    (hs : t.host.step M (.raft .applyCheck) = some h) :
    Inv { t.observe M (.raft .applyCheck) with host := h } := by
  obtain ⟨e, hstep, rfl⟩ := Host.raft_eq_some hs
  have hindex := inv.loop.index.step hstep trivial
  have hhand := inv.loop.inHand.step inv.loop.index hstep (by simp) trivial
  have hold := inv.loop.inHand
  simp only [Process.step] at hstep
  split at hstep
  · next idx entry hpick =>
    rw [hpick] at hold
    obtain ⟨-, en, rfl, -⟩ := hold
    have hpast : ∀ {w r}, Done t w r → w.index < idx := by
      intro w r hd
      have hp := hd.past
      rw [hpick] at hp
      exact hp.resolve_left (by simp)
    split_ifs at hstep with hge
    · cases hstep
      simp only [observe, hpick, if_pos hge]
      refine inv.ofLoop ⟨hindex, hhand, trivial, ?_, inv.loop.exec_le, inv.loop.typed⟩ rfl rfl rfl
        ?_ ?_
      · intro i r hn
        cases hn
        exact ⟨rfl, hge⟩
      · intro w ho
        refine ⟨ho.ahead, (by simp), (by simp), (by simp), ?_, ho.own⟩
        intro r hn
        simp only [Option.some.injEq, Prod.mk.injEq] at hn
        obtain ⟨rfl, -⟩ := hn
        exact absurd (ho.picked _ hpick).1 (not_lt.mpr hge)
      · intro w r hd
        refine ⟨hd.applied, .inl rfl, ?_, hd.executed, hd.own⟩
        intro r' hn
        simp only [Option.some.injEq, Prod.mk.injEq] at hn
        have hlt := hpast hd
        omega
    · cases hstep
      simp only [observe, hpick, if_neg hge]
      refine inv.ofLoop ⟨hindex, hhand, ⟨en, rfl, rfl⟩, ?_, inv.loop.exec_le, inv.loop.typed⟩ rfl rfl
        rfl ?_ ?_
      · intro i r hn
        have hidle := (inv.loop.noted i r hn).1
        rw [hpick] at hidle
        cases hidle
      · intro w ho
        refine ⟨ho.ahead, (by simp), ?_, (by simp), ho.noted, ho.own⟩
        intro cmd hcmd
        simp only [ApplyPhase.running.injEq] at hcmd
        obtain ⟨rfl, -⟩ := hcmd
        exact (ho.picked _ hpick).2
      · intro w r hd
        exact ⟨hd.applied, .inr (hpast hd), hd.unnoted, hd.executed, hd.own⟩
  · cases hstep

/-- The loop executes the entry of whoever waits for the index. -/
theorem Inv.apply {env : ε} {h : Host Id σ ε} (inv : Inv t)
    (hs : t.host.step M (.apply env) = some h) :
    Inv { t.observe M (.apply env) with host := h } := by
  simp only [Host.step] at hs
  split at hs
  · next idx cmd hrun =>
    obtain ⟨h₁, hn, rfl⟩ := Option.map_eq_some_iff.mp hs
    obtain ⟨e, hstep, rfl⟩ := Host.next_eq_some hn
    have hindex := inv.loop.index.step hstep trivial
    have hhand := inv.loop.inHand.step inv.loop.index hstep (by simp) trivial
    simp only [Process.step, hrun] at hstep
    cases hstep
    have hvars := inv.loop.vars
    unfold Variables at hvars
    rw [hrun] at hvars
    obtain ⟨en, hen, hcmd⟩ := hvars
    have happly := inv.loop.index.apply_le
    rw [hrun] at happly
    have hpast : ∀ {w r}, Done t w r → w.index < idx := by
      intro w r hd
      have hp := hd.past
      rw [hrun] at hp
      exact hp.resolve_left (by simp)
    simp only [observe, hrun, hen, Option.toList_some, List.map_cons, List.map_nil]
    refine inv.ofLoop ⟨hindex, hhand, ⟨en, _, rfl, rfl, by simp⟩, ?_, ?_, ?_⟩ rfl rfl rfl ?_ ?_
    · intro i r hn
      have hidle := (inv.loop.noted i r hn).1
      rw [hrun] at hidle
      cases hidle
    · intro x hx
      rcases List.mem_append.mp hx with hx | hx
      · exact inv.loop.exec_le x hx
      · rw [List.mem_singleton.mp hx]
        exact happly
    · intro x hx v hv
      rcases List.mem_append.mp hx with hx | hx
      · exact inv.loop.typed x hx v hv
      · rw [List.mem_singleton.mp hx] at hv ⊢
        change Asserts en.cmd v
        rw [hcmd]
        exact ⟨fun hop => M.incr_int hop hv, fun hop => M.cas_bool hop hv⟩
    · intro w ho
      refine ⟨ho.ahead, (by simp), (by simp), ?_, fun r hr => List.mem_append_left _ (ho.noted r hr), ?_⟩
      · intro hfin
        simp only [ApplyPhase.finished.injEq] at hfin
        subst hfin
        rw [← hen]
        exact ho.running cmd hrun
      · intro x hx hxi
        rcases List.mem_append.mp hx with hx | hx
        · exact ho.own x hx hxi
        · rw [List.mem_singleton.mp hx] at hxi ⊢
          change idx = w.index at hxi
          subst hxi
          have hown := ho.running cmd hrun
          rw [hen] at hown
          exact Option.some.inj hown
    · intro w r hd
      refine ⟨hd.applied, .inr (hpast hd), hd.unnoted, List.mem_append_left _ hd.executed, ?_⟩
      intro x hx hxi
      rcases List.mem_append.mp hx with hx | hx
      · exact hd.own x hx hxi
      · rw [List.mem_singleton.mp hx] at hxi
        change idx = w.index at hxi
        have hlt := hpast hd
        omega
  · cases hs

/-- The loop raises `lastApplied` and is to report what it has executed. -/
theorem Inv.done {h : Host Id σ ε} (inv : Inv t)
    (hs : t.host.step M (.raft .applyDone) = some h) :
    Inv { t.observe M (.raft .applyDone) with host := h } := by
  obtain ⟨e, hstep, rfl⟩ := Host.raft_eq_some hs
  have hindex := inv.loop.index.step hstep trivial
  have hhand := inv.loop.inHand.step inv.loop.index hstep (by simp) trivial
  simp only [Process.step] at hstep
  split at hstep <;> cases hstep
  next idx hfin =>
  have hvars := inv.loop.vars
  unfold Variables at hvars
  rw [hfin] at hvars
  obtain ⟨en, r, hen, hr, hmem⟩ := hvars
  simp only [observe, hfin, hr, Option.map_some]
  refine inv.ofLoop ⟨hindex, hhand, trivial, ?_, inv.loop.exec_le, inv.loop.typed⟩ rfl rfl rfl ?_ ?_
  · intro i r' hn
    simp only [Option.some.injEq, Prod.mk.injEq] at hn
    rw [← hn.1]
    exact ⟨rfl, le_max_right _ _⟩
  · intro w ho
    refine ⟨fun hlt => ho.ahead (lt_of_le_of_lt (le_max_left _ _) hlt), (by simp), (by simp), (by simp), ?_, ho.own⟩
    intro r' hn
    simp only [Option.some.injEq, Prod.mk.injEq] at hn
    obtain ⟨rfl, rfl⟩ := hn
    have hown := ho.finished hfin
    rw [hen] at hown
    rw [← Option.some.inj hown]
    exact hmem
  · intro w r' hd
    refine ⟨hd.applied.trans (le_max_left _ _), .inl rfl, ?_, hd.executed, hd.own⟩
    intro r'' hn
    have hp := hd.past
    rw [hfin] at hp
    have hlt : w.index < idx := hp.resolve_left (by simp)
    simp only [Option.some.injEq, Prod.mk.injEq] at hn
    omega

omit [DecidableEq Id] in
theorem OutsideLoop.of_input {h : Host Id σ ε} {a : Host.Act Id ε κ} {inp : Input Id}
    (ha : a.input = some inp) (hloop : Process.ofApplyLoop inp = false)
    (hkeep : h.proc.KeepsUpTo h.proc.node.commitIndex inp) : OutsideLoop h a := by
  intro inp' ha'
  rw [ha] at ha'
  cases ha'
  exact ⟨hloop, hkeep⟩

omit [DecidableEq Id] in
theorem OutsideLoop.of_none {h : Host Id σ ε} {a : Host.Act Id ε κ} (ha : a.input = none) :
    OutsideLoop h a := by
  intro inp ha'
  rw [ha] at ha'
  cases ha'

/-- An action of the host. -/
theorem Inv.host_step {a : Host.Act Id ε κ} {h : Host Id σ ε} (inv : Inv t)
    (hk : KeepsWaited t (.host a)) (hmay : t.mayPick a = true) (hs : t.host.step M a = some h) :
    Inv { t.observe M a with host := h } := by
  cases a with
  | raft inp =>
    cases inp with
    | applyPick => exact inv.pick (Option.isNone_iff_eq_none.mp hmay) hs
    | applyCheck => exact inv.check hs
    | applyDone => exact inv.done hs
    | applyRun => cases hs
    | _ => exact inv.host (.of_input rfl rfl hk.1) hk hs
  | apply env => exact inv.apply hs
  | inline index cmd env => exact inv.host (.of_input rfl rfl (by trivial)) hk hs
  | install req => exact inv.host (.of_input rfl rfl (by trivial)) hk hs
  | restore req => exact inv.host (.of_none rfl) hk hs
  | persist req resp saved => exact inv.host (.of_input rfl rfl (by trivial)) hk hs
  | tend u => exact inv.host (.of_none rfl) hk hs

theorem Inv.step {a : Act Id ε κ} (inv : Inv t) (hk : KeepsWaited t a)
    (hs : t.step M a = some t') : Inv t' := by
  cases a with
  | host a =>
    obtain ⟨hmay, hmap⟩ := Option.ite_none_right_eq_some.mp hs
    obtain ⟨h, hstep, rfl⟩ := Option.map_eq_some_iff.mp hmap
    exact inv.host_step hk hmay hstep
  | proposeWait cmd =>
    obtain ⟨-, hmap⟩ := Option.ite_none_right_eq_some.mp hs
    obtain ⟨h, hstep, rfl⟩ := Option.map_eq_some_iff.mp hmap
    exact inv.proposeWait hstep
  | applied =>
    obtain ⟨n, hn, rfl⟩ := Option.map_eq_some_iff.mp hs
    exact inv.applied hn
  | answer w =>
    obtain ⟨⟨hw, hc⟩, hmap⟩ := Option.ite_none_right_eq_some.mp hs
    obtain ⟨h, hstep, rfl⟩ := Option.map_eq_some_iff.mp hmap
    exact inv.answer hw hc hstep

omit [DecidableEq Id] in
theorem Inv.opened (id : Id) (peers : List Id) (st : RaftState Id) (s : σ) :
    Inv (opened id peers st s : Tracker Id σ ε) where
  loop :=
    { index := .restart (Process.opened (Node.new id peers) st)
      inHand := trivial
      vars := trivial
      noted := by simp [Tracker.opened]
      exec_le := fun _ hx => absurd hx List.not_mem_nil
      typed := fun _ hx => absurd hx List.not_mem_nil }
  waiting := fun _ hw => absurd hw List.not_mem_nil
  closed := fun _ hw => absurd hw List.not_mem_nil
  answered := fun _ hx => absurd hx List.not_mem_nil

end Steps

/-! ## The result -/

open Raft.Cluster (putCommand)

def incrWaited : Command := { op := .incr, key := [1] }

/-- Node 0 is elected in term 1; its first, empty request times out. A client calls `Incr`, and
    waits. -/
def callIncr : List (Act (Fin 3) DiskEnv Upkeep) :=
  [.host (.raft .startElection), .host (.raft (.persistElection true)),
   .host (.raft (.voteResponse 1 ⟨1, 0, 0, 0⟩ ⟨1, true⟩)), .host (.raft .endElection),
   .host (.raft (.replicate 1)), .host (.raft (.appendError 1 ⟨1, 0, 0, 0, [], 0⟩)),
   .proposeWait incrWaited, .host (.raft (.persistPropose 1 1 incrWaited true))]

/-- Node 1 has the entry as well, which is committed. -/
def commitIncr : List (Act (Fin 3) DiskEnv Upkeep) :=
  [.host (.raft (.replicate 1)),
   .host (.raft (.appendResponse 1 ⟨1, 0, 0, 0, [⟨1, incrWaited⟩], 0⟩ ⟨1, true⟩))]

/-- The caller of `Incr` at index 1, once its channel is closed. -/
def incrCaller : Waiter := ⟨1, 1, incrWaited, true⟩

/-- The apply loop executes what it has picked and reports, and the client is answered. -/
def executeAndAnswer : List (Act (Fin 3) DiskEnv Upkeep) :=
  [.host (.raft .applyCheck), .host (.apply (Storage.zeroNonce, 0, 0)), .host (.raft .applyDone),
   .applied, .answer incrCaller]

/-- A node of three with an empty store. -/
def node0 : Tracker (Fin 3) DiskStore DiskEnv := opened 0 [1, 2] RaftState.empty (DiskStore.new none)

def incrMachine : StateMachine DiskStore DiskEnv Upkeep := diskMachine (fun _ => []) fun _ => some []

/-- A `Put` of the leader of term 2 replaces the entry at index 1 before it is committed. -/
def overwrite : List (Act (Fin 3) DiskEnv Upkeep) :=
  [.host (.raft (.appendEntries ⟨2, 1, 0, 0, [⟨2, putCommand 8⟩], 1⟩)), .host (.raft .applyPick)]

/-- The apply loop has picked index 1 when a snapshot of the leader of term 2 covers it. -/
def coverPicked : List (Act (Fin 3) DiskEnv Upkeep) :=
  [.host (.raft .applyPick), .host (.install ⟨2, 1, 1, 1, []⟩), .host (.raft .applyCheck), .applied,
   .answer incrCaller]

end Tracker

end KvStore
