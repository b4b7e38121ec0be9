import KvStore.Storage.MemStore

/-!
# Replicas with different clocks

Every replica executes the same log of commands, each at a reading of its own
clock (`applyCmd`, pkg/raft/leader.go:340). `Incr`, `CAS` and `Expire` ask the local
clock whether the key still exists, so the comment on `Command`
(pkg/storage/engine.go:69), which calls them deterministic, holds only as far as the
replicas agree on that.

* `Command.onCell_agree_iff`: on one cell, two readings give the same result exactly
  when the command does not look at a deadline that lies between them, the one
  exception being an `Incr` of a zero.
* `replicas_agree_iff`: two replicas return the same results and show the same live
  keys exactly when no command of the log meets such a deadline.
* `replicas_disagree`: a log of three commands on which they do not.
-/

namespace KvStore.Storage

open KvStore.Expiring (live)

/-- A command of the log, with the clock readings at which two replicas execute it. -/
structure Call where
  cmd : Command
  first : Int64
  second : Int64

namespace MemStore

/-- The results of a sequence of `applyCmd` calls, and the store they leave behind. -/
def execute (m : MemStore) : List (Command × Int64) → List (Except Err Value) × MemStore
  | [] => ([], m)
  | (cmd, now) :: rest =>
    let r := m.apply cmd now
    let s := r.2.execute rest
    (r.1 :: s.1, s.2)

end MemStore

namespace Call

/-- The calls as the first replica executes them. -/
def onFirst (c : Call) : Command × Int64 := (c.cmd, c.first)

/-- The calls as the second replica executes them. -/
def onSecond (c : Call) : Command × Int64 := (c.cmd, c.second)

/-- The command does not depend on a deadline that has passed for one replica only:
    it is unconditional, or both readings find the key expired, or neither does, or
    it increments a zero, which is what an absent key counts as. -/
def SameExpiry (c : Call) (m : MemStore) : Prop :=
  c.cmd.op.conditional = true → ∀ e, m.cell c.cmd.key = some e →
    entryExpired e c.first = entryExpired e c.second ∨
      c.cmd.op = .incr ∧ parseInt e.value = some 0

end Call

/-- An entry that only the reading `s` finds expired: the results differ, unless the
    command increments a zero. -/
theorem Command.onCell_of_expired {cmd : Command} (h : cmd.op.conditional = true) {e : Entry}
    {s t : Int64} (hs : entryExpired e s = true) (ht : entryExpired e t = false) :
    (cmd.onCell s (some e)).1 = (cmd.onCell t (some e)).1 ↔
      cmd.op = .incr ∧ parseInt e.value = some 0 := by
  have hs' : live s (some e) = none := Expiring.live_some_of_dead hs
  have ht' : live t (some e) = some e := Expiring.live_some_of_not_dead ht
  unfold onCell
  cases hop : cmd.op with
  | incr =>
    simp only [hs', ht', true_and]
    cases hp : parseInt e.value with
    | none => simp
    | some v =>
      by_cases hv : v = maxInt64
      · simp [hv, zero_ne_maxInt64.symm]
      · simp [hv]
  | cas =>
    simp only [hs', ht']
    by_cases hv : e.value = cmd.old <;> simp [hv]
  | expire => simp [hs', ht']
  | _ => simp [hop, Op.conditional] at h

/-- Two readings of the clock give the same result on one cell exactly when the
    command does not look at a deadline between them. -/
theorem Command.onCell_agree_iff {cmd : Command} (h : cmd.op.conditional = true) (e : Entry)
    (s t : Int64) :
    (cmd.onCell s (some e)).1 = (cmd.onCell t (some e)).1 ↔
      entryExpired e s = entryExpired e t ∨ cmd.op = .incr ∧ parseInt e.value = some 0 := by
  by_cases hst : entryExpired e s = entryExpired e t
  · have hview : live s (some e) = live t (some e) := by simp only [live, dead_eq, Option.filter_some, hst]
    rw [onCell_congr h hview]
    exact ⟨fun _ => .inl hst, fun _ => rfl⟩
  · rw [or_iff_right hst]
    cases hs : entryExpired e s with
    | true => exact onCell_of_expired h hs (by rw [hs] at hst; simpa using hst)
    | false => rw [eq_comm]; exact onCell_of_expired h (by rw [hs] at hst; simpa using hst) hs

/-- Incrementing a zero and incrementing an expired entry leave the same cell. -/
theorem Command.onCell_incr_zero {cmd : Command} (hop : cmd.op = .incr) {e : Entry}
    (hp : parseInt e.value = some 0) (t : Int64) :
    (cmd.onCell t (some e)).2 = some { value := [49] } := by
  unfold onCell
  cases hl : live t (some e) with
  | none => simp [hop]
  | some e' =>
    obtain ⟨he, -⟩ := Expiring.live_eq_some_iff.mp hl
    cases he
    simp [hop, hp, zero_ne_maxInt64, formatInt_one]

namespace Call

variable {c : Call} {m m' : MemStore}

/-- The two replicas leave the same content in the cell of the command's key. -/
theorem SameExpiry.cell_eq (h : c.SameExpiry m) :
    (c.cmd.onCell c.first (m.cell c.cmd.key)).2 = (c.cmd.onCell c.second (m.cell c.cmd.key)).2 := by
  cases hc : c.cmd.op.conditional with
  | false => rw [Command.onCell_blind hc]
  | true =>
    cases he : m.cell c.cmd.key with
    | none => rw [Command.onCell_none hc]
    | some e =>
      rcases h hc e he with heq | ⟨hop, hp⟩
      · have hview : live c.first (some e) = live c.second (some e) := by
          simp only [live, dead_eq, Option.filter_some, heq]
        rw [Command.onCell_congr hc hview]
      · rw [Command.onCell_incr_zero hop hp, Command.onCell_incr_zero hop hp]

/-- One command: the replicas return the same result exactly under the condition. -/
theorem result_eq_iff (hm : m.data = m'.data) :
    (m.apply c.cmd c.first).1 = (m'.apply c.cmd c.second).1 ↔ c.SameExpiry m := by
  rw [MemStore.apply_result, MemStore.apply_result, ← MemStore.cell_congr hm]
  unfold SameExpiry
  cases hc : c.cmd.op.conditional with
  | false => simp [Command.onCell_blind hc _ c.first c.second]
  | true =>
    cases he : m.cell c.cmd.key with
    | none => simp [Command.onCell_none hc c.first c.second]
    | some e =>
      rw [Command.onCell_agree_iff hc]
      exact ⟨fun h _ e' he' => by cases he'; exact h, fun h => h rfl e rfl⟩

/-- One command under the condition leaves equal stores equal. -/
theorem SameExpiry.data_eq (h : c.SameExpiry m) (hm : m.data = m'.data) :
    (m.apply c.cmd c.first).2.data = (m'.apply c.cmd c.second).2.data := by
  refine MemStore.ext_cell fun k => ?_
  rw [MemStore.apply_cell, MemStore.apply_cell, ← MemStore.cell_congr hm]
  by_cases ht : c.cmd.Touches k
  · rw [if_pos ht, if_pos ht]
    rcases ht with hclear | hk
    · have hblind : c.cmd.op.conditional = false := by rw [hclear]; rfl
      rw [Command.onCell_blind hblind]
    · rw [← hk]
      exact h.cell_eq
  · rw [if_neg ht, if_neg ht]

/-- Every command of the log meets the condition in the store the first replica has
    before it. -/
def AllSameExpiry (m : MemStore) (calls : List Call) : Prop :=
  ∀ before c after, calls = before ++ c :: after →
    c.SameExpiry (m.execute (before.map onFirst)).2

theorem allSameExpiry_cons {c : Call} {calls : List Call} :
    AllSameExpiry m (c :: calls) ↔
      c.SameExpiry m ∧ AllSameExpiry (m.apply c.cmd c.first).2 calls := by
  constructor
  · intro h
    refine ⟨h [] c calls rfl, fun before d after hd => ?_⟩
    exact h (c :: before) d after (by rw [hd]; rfl)
  · rintro ⟨hc, hrest⟩ before d after hd
    rcases before with - | ⟨b, before⟩
    · obtain ⟨rfl, -⟩ := List.cons.inj hd
      exact hc
    · obtain ⟨rfl, hd'⟩ := List.cons.inj hd
      exact hrest before d after hd'

end Call

namespace MemStore

/-- The results agree along the whole log exactly under the condition. -/
theorem execute_results_eq_iff {m m' : MemStore} (hm : m.data = m'.data) (calls : List Call) :
    (m.execute (calls.map Call.onFirst)).1 = (m'.execute (calls.map Call.onSecond)).1 ↔
      Call.AllSameExpiry m calls := by
  induction calls generalizing m m' with
  | nil =>
    refine ⟨fun _ before c after h => ?_, fun _ => rfl⟩
    simp at h
  | cons c calls ih =>
    rw [Call.allSameExpiry_cons]
    simp only [List.map_cons, Call.onFirst, Call.onSecond, execute, List.cons.injEq]
    rw [Call.result_eq_iff hm]
    exact and_congr_right fun hc => ih (hc.data_eq hm)

/-- Under the condition equal stores stay equal. -/
theorem execute_data_eq {m m' : MemStore} (hm : m.data = m'.data) (calls : List Call)
    (h : Call.AllSameExpiry m calls) :
    (m.execute (calls.map Call.onFirst)).2.data = (m'.execute (calls.map Call.onSecond)).2.data := by
  induction calls generalizing m m' with
  | nil => exact hm
  | cons c calls ih =>
    obtain ⟨hc, hrest⟩ := Call.allSameExpiry_cons.mp h
    exact ih (hc.data_eq hm) hrest

end MemStore

/-- Two replicas that start from the store `m` and execute the same commands return
    the same results and, at any time after both have finished, show the same live
    keys with the same values and deadlines. -/
def ReplicasAgree (m : MemStore) (calls : List Call) : Prop :=
  let first := m.execute (calls.map Call.onFirst)
  let second := m.execute (calls.map Call.onSecond)
  first.1 = second.1 ∧
    ∀ t, (∀ c ∈ calls, c.first ≤ t ∧ c.second ≤ t) →
      ∀ k, live t (first.2.cell k) = live t (second.2.cell k)

/-- Replicas agree exactly when no conditional command of the log meets, in the state
    before it, a deadline that has passed for one of them only. -/
theorem replicas_agree_iff (m : MemStore) (calls : List Call) :
    ReplicasAgree m calls ↔ Call.AllSameExpiry m calls := by
  constructor
  · rintro ⟨hres, -⟩
    exact (MemStore.execute_results_eq_iff rfl calls).mp hres
  · intro h
    refine ⟨(MemStore.execute_results_eq_iff rfl calls).mpr h, fun t _ k => ?_⟩
    rw [MemStore.cell_congr (MemStore.execute_data_eq rfl calls h)]

/-- `k = 5`, to expire at time 10, then an increment that the first replica executes
    before and the second after the deadline. -/
def lateIncrement : List Call :=
  [⟨{ op := .put, key := [107], value := [53] }, 1, 1⟩,
   ⟨{ op := .expire, key := [107], expiresAt := 10 }, 2, 2⟩,
   ⟨{ op := .incr, key := [107] }, 5, 15⟩]

/-- The first replica counts to 6, the second starts again at 1. -/
theorem replicas_disagree : ¬ ReplicasAgree MemStore.new lateIncrement := by
  intro h
  have hres := h.1
  revert hres
  decide

end KvStore.Storage
