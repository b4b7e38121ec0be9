import KvStore.Storage.Recovery

/-!
# Operations one by one, at a fixed clock

The reference for the write path of `DiskStore`: the same operations executed one after
the other on a `MemStore`, all at one reading of the clock.

* `executed`, `results`: the store and the answers after a list of commands.
* `Command.logged`: the record that a command leaves in the log, if any; `journal` collects
  them for a list of requests.
* `writeSingle_eq`: a state-dependent write answers and changes the memory as the
  operation of `MemStore` does (`Get` and `Put` instead of `CAS`, `Get` before `Expire`).
* `sameAt_replayed_journal`: executing the records instead of the requests shows the same.
-/

namespace KvStore.Storage

open KvStore.Expiring (live)

/-- A `batchRequest` (pkg/storage/batcher.go:17) with the nonce its record is sealed
    with, if the log is encrypted. `DiskStore` submits six kinds of requests. -/
structure Request where
  cmd : Command
  nonce : Nonce
  known : ∀ code, cmd.op ≠ .other code

theorem put_known : ∀ code, Op.put ≠ .other code := by simp

theorem incr_known : ∀ code, Op.incr ≠ .other code := by simp

theorem cas_known : ∀ code, Op.cas ≠ .other code := by simp

namespace MemStore

/-- The store after some commands, all at the clock reading `t`. -/
def executed (t : Int64) (m : MemStore) (cmds : List Command) : MemStore :=
  cmds.foldl (fun m cmd => (m.apply cmd t).2) m

/-- The answers of the commands. -/
def results (t : Int64) : MemStore → List Command → List (Except Err Value)
  | _, [] => []
  | m, cmd :: cmds => (m.apply cmd t).1 :: results t (m.apply cmd t).2 cmds

variable (t : Int64) (m : MemStore) (cmds cmds' : List Command)

theorem executed_append : m.executed t (cmds ++ cmds') = (m.executed t cmds).executed t cmds' :=
  List.foldl_append

theorem results_append :
    m.results t (cmds ++ cmds') = m.results t cmds ++ (m.executed t cmds).results t cmds' := by
  induction cmds generalizing m with
  | nil => rfl
  | cons cmd cmds ih =>
    rw [List.cons_append, results, results, ih]
    rfl

@[simp] theorem length_results : (m.results t cmds).length = cmds.length := by
  induction cmds generalizing m with
  | nil => rfl
  | cons cmd cmds ih => simp [results, ih]

end MemStore

/-! ## What is logged -/

/-- The record that the write path appends for a command that finds `c` in the cell of
    its key: always for the unconditional ones and for `Incr`, for `CAS` if it matches,
    for `Expire` if the key is there. -/
def Command.logged (t : Int64) (cmd : Command) (c : Option Entry) : Option Record :=
  match cmd.op with
  | .put => some (.put cmd.key cmd.value)
  | .delete => some (.delete cmd.key)
  | .clear => some .clear
  | .incr => some (.incr cmd.key)
  | .cas =>
    match live t c with
    | none => none
    | some e => if e.value = cmd.old then some (.cas cmd.key cmd.old cmd.value) else none
  | .expire =>
    match live t c with
    | none => none
    | some _ => some (.expire cmd.key cmd.expiresAt)
  | .other _ => none

/-- The records of a list of requests, with their nonces. -/
def journal (t : Int64) : MemStore → List Request → List (Record × Nonce)
  | _, [] => []
  | m, req :: reqs =>
    ((req.cmd.logged t (m.cell req.cmd.key)).map fun r => (r, req.nonce)).toList ++
      journal t (m.apply req.cmd t).2 reqs

theorem journal_append (t : Int64) (m : MemStore) (reqs reqs' : List Request) :
    journal t m (reqs ++ reqs') =
      journal t m reqs ++ journal t (m.executed t (reqs.map Request.cmd)) reqs' := by
  induction reqs generalizing m with
  | nil => rfl
  | cons req reqs ih =>
    rw [List.cons_append, journal, journal, ih, List.append_assoc]
    rfl

/-- The record stands for the command. -/
theorem Command.apply_logged {t : Int64} {cmd : Command} {c : Option Entry} {r : Record}
    (h : cmd.logged t c = some r) (m : MemStore) (τ : Int64) :
    m.apply r.command τ = m.apply cmd τ := by
  unfold logged at h
  cases hop : cmd.op <;> rw [hop] at h <;> dsimp only at h
  case cas =>
    split at h
    · cases h
    · split_ifs at h
      cases h
      simp [MemStore.apply, Record.command, hop]
  case expire =>
    split at h
    · cases h
    · cases h
      simp [MemStore.apply, Record.command, hop]
  case other => cases h
  all_goals
    cases h
    simp [MemStore.apply, Record.command, hop]

/-- A record is not longer than the strings of the command it was logged for. -/
theorem Command.Small.logged {t : Int64} {cmd : Command} {c : Option Entry} {r : Record}
    (hs : cmd.Small) (h : cmd.logged t c = some r) : r.Small := by
  unfold Small at hs
  unfold Command.logged at h
  unfold Record.Small
  cases hop : cmd.op <;> rw [hop] at h <;> dsimp only at h
  case cas =>
    split at h
    · cases h
    · split_ifs at h
      cases h
      simp [Record.encode, length_field]
      omega
  case expire =>
    split at h
    · cases h
    · cases h
      simp [Record.encode, length_field]
      omega
  case clear =>
    cases h
    simp [Record.encode]
  case other => cases h
  all_goals
    cases h
    simp [Record.encode, length_field]
    omega

/-- A command that is not logged changes nothing that shows. -/
theorem Command.sameAt_of_not_logged {t : Int64} {cmd : Command} {m : MemStore}
    (h : cmd.logged t (m.cell cmd.key) = none) : MemStore.SameAt t (m.apply cmd t).2 m := by
  intro k
  rw [MemStore.apply_cell]
  split_ifs with htouch
  · unfold logged at h
    unfold onCell
    unfold Touches at htouch
    cases hop : cmd.op <;> rw [hop] at h htouch <;> dsimp only at h ⊢
    case cas =>
      obtain rfl : cmd.key = k := by simpa using htouch
      cases hl : live t (m.cell cmd.key) with
      | none => rfl
      | some e =>
        rw [hl] at h
        have hv : e.value ≠ cmd.old := by
          intro hv
          simp [hv] at h
        simp only [hv, ne_eq, not_false_eq_true, ↓reduceIte]
        exact Expiring.live_some_of_not_dead (Expiring.live_eq_some_iff.mp hl).2
    case expire =>
      obtain rfl : cmd.key = k := by simpa using htouch
      cases hl : live t (m.cell cmd.key) with
      | none => rfl
      | some e => simp [hl] at h
    all_goals cases h
  · rfl

/-- Nothing expires between two equal readings. -/
theorem Command.harmless_self (cmd : Command) (t : Int64) (c : Option Entry) :
    cmd.Harmless t t c := by
  intro e he hd
  have hlive := (Expiring.live_eq_some_iff.mp he).2
  rw [dead_eq, hd] at hlive
  cases hlive

/-- Executing the records instead of the requests shows the same. -/
theorem sameAt_replayed_journal (t : Int64) (reqs : List Request) {m m' : MemStore}
    (h : MemStore.SameAt t m' m) :
    MemStore.SameAt t (m'.replayed t ((journal t m reqs).map Prod.fst))
      (m.executed t (reqs.map Request.cmd)) := by
  induction reqs generalizing m m' with
  | nil => exact h
  | cons req reqs ih =>
    rw [journal, List.map_append, List.map_cons]
    cases hlog : req.cmd.logged t (m.cell req.cmd.key) with
    | none =>
      have hsame := Command.sameAt_of_not_logged hlog
      exact ih (h.trans hsame.symm)
    | some r =>
      have happly : MemStore.SameAt t (m'.apply r.command t).2 (m.apply req.cmd t).2 := by
        rw [Command.apply_logged hlog]
        exact (MemStore.apply_sameAt_iff (Int64.le_refl t) h).mpr (req.cmd.harmless_self t _)
      exact ih happly

/-! ## The two write paths -/

namespace DiskStore

/-- A state-dependent write at a fixed clock. -/
theorem writeSingle_eq (d : DiskStore) (req : Request) (h : req.cmd.op.conditional = true)
    (t : Int64) :
    d.writeSingle req.cmd req.nonce t t =
      ((d.mem.apply req.cmd t).1,
        { d with
          mem := (d.mem.apply req.cmd t).2
          wal := d.wal ++ (journal t d.mem [req]).flatMap (walFrame d.cipher) }) := by
  obtain ⟨⟨op, key, old, value, expiresAt⟩, nonce, known⟩ := req
  cases op with
  | incr => simp [writeSingle, MemStore.apply, journal, Command.logged, append]
  | cas =>
    cases hc : d.mem.cell key with
    | none => simp [writeSingle, MemStore.apply, MemStore.get, MemStore.cas, MemStore.lookup,
        journal, Command.logged, hc, Except.map]
    | some e =>
      cases he : entryExpired e t with
      | true =>
        have hl : live t (some e) = none := Expiring.live_some_of_dead he
        simp [writeSingle, MemStore.apply, MemStore.get, MemStore.cas, MemStore.lookup, journal,
          Command.logged, hc, he, hl, Except.map]
      | false =>
        have hl : live t (some e) = some e := Expiring.live_some_of_not_dead he
        by_cases hv : e.value = old <;>
          simp [writeSingle, MemStore.apply, MemStore.get, MemStore.cas, MemStore.lookup, journal,
            Command.logged, hc, he, hl, hv, append, Except.map]
  | expire =>
    cases hc : d.mem.cell key with
    | none => simp [writeSingle, MemStore.apply, MemStore.get, MemStore.expire, MemStore.lookup,
        journal, Command.logged, hc, Except.map]
    | some e =>
      cases he : entryExpired e t with
      | true =>
        have hl : live t (some e) = none := Expiring.live_some_of_dead he
        simp [writeSingle, MemStore.apply, MemStore.get, MemStore.expire, MemStore.lookup, journal,
          Command.logged, hc, he, hl, Except.map]
      | false =>
        have hl : live t (some e) = some e := Expiring.live_some_of_not_dead he
        simp [writeSingle, MemStore.apply, MemStore.get, MemStore.expire, MemStore.lookup, journal,
          Command.logged, hc, he, hl, append, Except.map]
  | _ => simp [Op.conditional] at h

/-- An unconditional request is logged as `writeBatch` does. -/
theorem logged_blind {cmd : Command} (h : cmd.op.conditional = false) (t : Int64)
    (c : Option Entry) : cmd.logged t c = batchRecord cmd := by
  unfold Command.logged batchRecord
  cases hop : cmd.op <;> simp_all [Op.conditional]

/-- A batch of unconditional requests: it leaves the log and the memory as the requests one
    by one do. -/
theorem writeBatch_eq_executed (d : DiskStore) {reqs : List Request}
    (h : ∀ req ∈ reqs, req.cmd.op.conditional = false) (t : Int64) :
    d.writeBatch (reqs.map fun req => (req.cmd, req.nonce)) =
      { d with
        mem := d.mem.executed t (reqs.map Request.cmd)
        wal := d.wal ++ (journal t d.mem reqs).flatMap (walFrame d.cipher) } := by
  have hrecords : ∀ m, batchRecords (reqs.map fun req => (req.cmd, req.nonce)) =
      journal t m reqs := by
    clear d
    induction reqs with
    | nil => intro m; rfl
    | cons req reqs ih =>
      intro m
      obtain ⟨hreq, hreqs⟩ := List.forall_mem_cons.mp h
      rw [journal, ← ih hreqs, logged_blind hreq]
      cases hr : batchRecord req.cmd <;> simp [batchRecords, hr]
  have hmem : ∀ m : MemStore, m.replayed t ((journal t m reqs).map Prod.fst) =
      m.executed t (reqs.map Request.cmd) := by
    clear d hrecords
    induction reqs with
    | nil => intro m; rfl
    | cons req reqs ih =>
      intro m
      obtain ⟨hreq, hreqs⟩ := List.forall_mem_cons.mp h
      obtain ⟨r, hr⟩ : ∃ r, req.cmd.logged t (m.cell req.cmd.key) = some r := by
        rw [logged_blind hreq, batchRecord]
        cases hop : req.cmd.op with
        | other code => exact absurd hop (req.known code)
        | _ => simp_all [Op.conditional]
      rw [journal, hr]
      have hcons : m.replayed t ((r :: (journal t (m.apply req.cmd t).2 reqs).map Prod.fst)) =
          (m.apply req.cmd t).2.replayed t ((journal t (m.apply req.cmd t).2 reqs).map Prod.fst) := by
        rw [MemStore.replayed, List.foldl_cons, Command.apply_logged hr]
        rfl
      exact hcons.trans (ih hreqs _)
  rw [d.writeBatch_eq _ t, hrecords d.mem, hmem]

/-- All requests of a batch are answered with no value and no error. -/
theorem results_blind (t : Int64) {reqs : List Request}
    (h : ∀ req ∈ reqs, req.cmd.op.conditional = false) (m : MemStore) :
    m.results t (reqs.map Request.cmd) = reqs.map fun _ => .ok .none := by
  induction reqs generalizing m with
  | nil => rfl
  | cons req reqs ih =>
    obtain ⟨hreq, hreqs⟩ := List.forall_mem_cons.mp h
    rw [List.map_cons, MemStore.results, ih hreqs, List.map_cons]
    congr 1
    unfold MemStore.apply
    cases hop : req.cmd.op with
    | other code => exact absurd hop (req.known code)
    | _ => simp_all [Op.conditional]

end DiskStore

end KvStore.Storage
