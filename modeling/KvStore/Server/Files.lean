import KvStore.Server.Server

/-!
# The files of a server's store

A restart of the server executes the records of `wal.log` over `snapshot.dat`, all at the
reading of the restart. The records have been executed before, each at a reading of its own:
by the apply loop, or by the last restart. `Server.trail` has these readings.

* `DiskStore.applyCmd_files`: what the execution of a command appends to the log.
* `Filed`: the files hold the trail, and the memory shows what the trail has led to.
* `Filed.step`: every step keeps this if its records can be read, the snapshots it takes are
  text, and no record has met an entry that dies before the restart that replays it.
* `Filed.opens`: such a restart comes back with what the memory shows.
-/

namespace KvStore.Storage

open KvStore.Expiring (live)

/-! ## One command on a `DiskStore` -/

theorem Command.reading_le (cmd : Command) {now later : Int64} (h : now ≤ later) :
    now ≤ cmd.reading now later ∧ cmd.reading now later ≤ later := by
  unfold reading
  split_ifs
  · exact ⟨h, Int64.le_refl _⟩
  · exact ⟨Int64.le_refl _, h⟩

/-- A conditional command that finds nothing changes nothing that shows, except for `Incr`. -/
theorem MemStore.sameAt_apply_gone {m : MemStore} {cmd : Command}
    (hop : cmd.op = .cas ∨ cmd.op = .expire) {τ t : Int64} (hτ : τ ≤ t)
    (h : live τ (m.cell cmd.key) = none) :
    MemStore.SameAt t (m.apply cmd τ).2 m := by
  intro k
  rw [apply_cell]
  split_ifs with htouch
  · obtain rfl : cmd.key = k := htouch.resolve_left (by rcases hop with hop | hop <;> simp [hop])
    rw [Expiring.live_eq_none_of_le hτ h]
    rcases hop with hop | hop <;> simp [Command.onCell, hop, h]
  · rfl

/-- `applyCmd` leaves what the command leaves on a `MemStore` at its reading. -/
theorem DiskStore.applyCmd_sameAt (d : DiskStore) (cmd : Command) (nonce : Nonce)
    {now later t : Int64} (hnow : now ≤ later) (hlater : later ≤ t) :
    MemStore.SameAt t (d.applyCmd cmd nonce now later).mem
      (d.mem.apply cmd (cmd.reading now later)).2 := by
  have hgone : ∀ τ, τ ≤ t → live τ (d.mem.cell cmd.key) = none →
      cmd.op = .cas ∨ cmd.op = .expire →
      MemStore.SameAt t (d.mem.get cmd.key now later).2 (d.mem.apply cmd τ).2 := fun τ hτ hl hop =>
    (d.mem.sameAt_get cmd.key hlater).trans (MemStore.sameAt_apply_gone hop hτ hl).symm
  unfold applyCmd Command.reading
  cases hop : cmd.op with
  | put | delete | clear =>
    exact fun k => by
      simp [writeBatch, appendBatched, batchRecord, applyBatched, append, hop, MemStore.apply]
  | incr => exact fun k => by simp [writeSingle, append, hop, MemStore.apply]
  | cas =>
    simp only [reduceCtorEq, ↓reduceIte]
    cases hl : live now (d.mem.cell cmd.key) with
    | none =>
      simp only [writeSingle, hop]
      rw [get_of_gone hl later]
      exact hgone now (Int64.le_trans hnow hlater) hl (.inl hop)
    | some e =>
      obtain ⟨hcell, hd⟩ := Expiring.live_eq_some_iff.mp hl
      rw [dead_eq] at hd
      simp only [writeSingle, hop, get_of_live hl later]
      by_cases hv : e.value = cmd.old <;> exact fun k => by
        simp [hv, MemStore.apply, MemStore.cas, MemStore.lookup, hcell, hd, hop, append]
  | expire =>
    simp only [↓reduceIte]
    cases hl : live now (d.mem.cell cmd.key) with
    | none =>
      simp only [writeSingle, hop]
      rw [get_of_gone hl later]
      exact hgone later hlater (Expiring.live_eq_none_of_le hnow hl) (.inr hop)
    | some e =>
      simp only [writeSingle, hop, get_of_live hl later, MemStore.apply]
      exact .refl _
  | other code => exact fun k => by simp [MemStore.apply, hop]

/-- The execution of a command appends the record that is logged for it, if any. -/
theorem DiskStore.applyCmd_files (d : DiskStore) (cmd : Command) (nonce : Nonce)
    (now later : Int64) :
    ∃ m, d.applyCmd cmd nonce now later =
      { d with
        wal := d.wal ++ ((cmd.logged now (d.mem.cell cmd.key)).map
          fun r => (r, nonce)).toList.flatMap (walFrame d.cipher)
        mem := m } := by
  unfold applyCmd Command.logged
  cases hop : cmd.op with
  | put | delete | clear =>
    exact ⟨_, by simp [writeBatch, appendBatched, batchRecord, append, hop]; rfl⟩
  | incr => exact ⟨_, by simp [writeSingle, append, hop]; rfl⟩
  | cas =>
    cases hl : live now (d.mem.cell cmd.key) with
    | none =>
      simp only [writeSingle, hop]
      rw [get_of_gone hl later]
      exact ⟨(d.mem.get cmd.key now later).2, by simp⟩
    | some e =>
      simp only [writeSingle, hop, get_of_live hl later]
      by_cases hv : e.value = cmd.old
      · exact ⟨_, by simp [hv, append]; rfl⟩
      · exact ⟨d.mem, by simp [hv]⟩
  | expire =>
    cases hl : live now (d.mem.cell cmd.key) with
    | none =>
      simp only [writeSingle, hop]
      rw [get_of_gone hl later]
      exact ⟨(d.mem.get cmd.key now later).2, by simp⟩
    | some e =>
      simp only [writeSingle, hop, get_of_live hl later]
      exact ⟨_, by simp [append]; rfl⟩
  | other code => exact ⟨d.mem, by simp⟩

/-- A command that is not logged at `now` changes nothing that shows later. -/
theorem Command.sameAt_reading_of_not_logged {cmd : Command} {m : MemStore} {now later : Int64}
    (hle : now ≤ later) (h : cmd.logged now (m.cell cmd.key) = none) :
    MemStore.SameAt later (m.apply cmd (cmd.reading now later)).2 m := by
  unfold reading
  split_ifs with hop
  · -- the key is not there, and will not be later on
    refine MemStore.sameAt_apply_gone (.inr hop) (Int64.le_refl later) ?_
    refine Expiring.live_eq_none_of_le hle ?_
    unfold logged at h
    rw [hop] at h
    cases hl : live now (m.cell cmd.key) with
    | none => rfl
    | some e => simp [hl] at h
  · exact (Command.sameAt_of_not_logged h).mono hle

end KvStore.Storage

namespace KvStore

open KvStore.Storage (Bytes Command Record DiskStore MemStore Nonce Journalled storeMachine
  loadSnapshot decodeSnapshot openDiskStore)
open KvStore.Raft (Process Input)

variable {Id : Type}

namespace Server

/-- The record that is logged for a command at `now` can be replayed. -/
def LogsReadable (s : Server Id) (cmd : Command) (now : Int64) : Prop :=
  ∀ r, cmd.logged now (s.store.mem.cell cmd.key) = some r → r.Readable s.store.cipher

/-- No record of the log has met, when it was executed last, an entry that is dead at `now`, or
    what it did to it does not show. -/
def TrailHarmless (s : Server Id) (now : Int64) : Prop :=
  ∀ image, loadSnapshot s.store.cipher s.store.snapshot = .ok image →
    storeMachine.HarmlessEach now s.trail image

/-- What a step must meet in the state before it so that the files go on holding the contents. -/
def keepsFiles (decode : Bytes → Option (List (Bytes × Storage.Entry))) (s : Server Id) :
    Act Id → Prop
  | .apply _ now _ => ∀ idx cmd, s.proc.apply = .running idx cmd → s.LogsReadable cmd now
  | .inline _ cmd _ now _ => s.LogsReadable cmd now
  | .restore req _ => ∀ data, decode req.data = some data → (decodeSnapshot data).TextAt s.clock
  | .compact => s.store.mem.TextAt s.clock
  | .restart now => s.TrailHarmless now
  | _ => True

/-- The files hold the trail, and the memory shows what the trail has led to. -/
structure Filed (s : Server Id) : Prop where
  journalled : ∃ image, Journalled s.store ⟨image, s.trail.map Prod.fst, s.store.mem⟩ ∧
    s.store.mem.SameAt s.clock (storeMachine.execEach s.trail image)
  readings : ∀ p ∈ s.trail, p.2 ≤ s.clock

variable {decode : Bytes → Option (List (Bytes × Storage.Entry))} {s s' : Server Id}

theorem Filed.init (id : Id) (peers : List Id) (cipher : Option Storage.AtRestCipher)
    (now : Int64) : Filed (Server.init id peers cipher now) :=
  ⟨⟨_, Storage.journalled_new cipher, .refl _⟩, fun _ hp => absurd hp List.not_mem_nil⟩

theorem Filed.congr (h : s.Filed) (hstore : s'.store = s.store) (hclock : s'.clock = s.clock)
    (htrail : s'.trail = s.trail) : s'.Filed := by
  obtain ⟨hj, hr⟩ := h
  constructor
  · rw [hstore, hclock, htrail]
    exact hj
  · rw [hclock, htrail]
    exact hr

/-- Work on the memory that does not show at a later reading. -/
theorem Filed.tend (h : s.Filed) {m : MemStore} {t : Int64} (ht : s.clock ≤ t)
    (hm : m.SameAt t s.store.mem) :
    Filed { s with store := { s.store with mem := m }, clock := t } := by
  obtain ⟨⟨image, hj, hsame⟩, hr⟩ := h
  exact ⟨⟨image, hj.tend m, hm.trans (hsame.mono ht)⟩, fun p hp => Int64.le_trans (hr p hp) ht⟩

/-- A snapshot of a memory that is text. -/
theorem Filed.compact {d : DiskStore} (htext : d.mem.TextAt s.clock) :
    Filed { s with store := d.compact, trail := [] } :=
  ⟨⟨_, Storage.journalled_compact d, (Storage.sameAt_decode_iff.mpr htext).symm⟩,
    fun _ hp => absurd hp List.not_mem_nil⟩

/-- A command is executed, and its record, if any, appended. -/
theorem Filed.execute (h : s.Filed) {cmd : Command} {nonce : Nonce} {now later : Int64}
    (hnow : s.clock ≤ now) (hlater : now ≤ later) (hread : s.LogsReadable cmd now) :
    Filed { s with
      store := s.store.applyCmd cmd nonce now later, clock := later
      trail := s.logged cmd now later } := by
  obtain ⟨⟨image, hj, hsame⟩, hr⟩ := h
  obtain ⟨hτ, hτ'⟩ := cmd.reading_le hlater
  have hclock := Int64.le_trans hnow hτ
  have hmem := s.store.applyCmd_sameAt cmd nonce hlater (Int64.le_refl later)
  obtain ⟨m, hfiles⟩ := s.store.applyCmd_files cmd nonce now later
  rw [hfiles] at hmem ⊢
  have hold : ∀ p ∈ s.trail, p.2 ≤ later := fun p hp =>
    Int64.le_trans (hr p hp) (Int64.le_trans hclock hτ')
  unfold logged
  cases hlog : cmd.logged now (s.store.mem.cell cmd.key) with
  | none =>
    simp only [Option.map_none, Option.toList_none, List.append_nil, List.flatMap_nil]
    refine ⟨⟨image, hj.tend m, ?_⟩, hold⟩
    have hgone := Command.sameAt_reading_of_not_logged hlater hlog
    exact (hmem.trans hgone).trans (hsame.mono (Int64.le_trans hclock hτ'))
  | some r =>
    have hps : ∀ p ∈ [(r, nonce)], p.1.Readable s.store.cipher := by
      simpa using hread r hlog
    refine ⟨⟨image, ?_, ?_⟩, ?_⟩
    · have hj' := (hj.append hps (cmd.reading now later)).tend m
      simpa using hj'
    · -- the record does to the replayed trail what the command has done to the memory
      have hτsame := (MemStore.apply_sameAt_iff (Int64.le_refl (cmd.reading now later))
        (hsame.mono hclock)).mpr (cmd.harmless_self _ _)
      simp only [Option.map_some, Option.toList_some, Journal.Machine.execEach_concat]
      show MemStore.SameAt later m
        ((storeMachine.execEach s.trail image).apply r.command (cmd.reading now later)).2
      rw [Command.apply_logged hlog]
      exact hmem.trans (hτsame.mono hτ')
    · intro p hp
      rcases List.mem_append.mp hp with hp | hp
      · exact hold p hp
      · obtain rfl : p = (r, cmd.reading now later) := by simpa using hp
        exact hτ'

/-- A restart replays the trail, and comes back with what the memory shows. -/
theorem Filed.opens (h : s.Filed) {now : Int64} (hclock : s.clock ≤ now)
    (hharm : s.TrailHarmless now) :
    ∃ d, openDiskStore s.store.cipher s.store.snapshot s.store.wal now = .ok d ∧
      d.mem.SameAt now s.store.mem ∧
      ∀ t : Server Id, t.store = d → t.clock = now →
        t.trail = s.trail.map (fun p => (p.1, now)) → t.Filed := by
  obtain ⟨⟨image, hj, hsame⟩, hr⟩ := h
  have hle : ∀ p ∈ s.trail, p.2 ≤ now := fun p hp => Int64.le_trans (hr p hp) hclock
  have hreplay : MemStore.SameAt now (storeMachine.execAll now (s.trail.map Prod.fst) image)
      (storeMachine.execEach s.trail image) :=
    storeMachine.execEach_same hle (.refl image) (hharm image hj.image)
  refine ⟨_, hj.opens now, hreplay.trans (hsame.mono hclock).symm, fun t ht hc htr => ?_⟩
  have hops : t.trail.map Prod.fst = s.trail.map Prod.fst := by
    rw [htr, List.map_map]
    rfl
  refine ⟨⟨image, ?_, ?_⟩, ?_⟩
  · rw [ht, hops]
    exact hj.tend _
  · have hconst : t.trail = (s.trail.map Prod.fst).map fun r => (r, now) := by
      rw [htr, List.map_map]
      rfl
    rw [ht, hconst, storeMachine.execEach_map_const]
    exact .refl _
  · intro p hp
    rw [htr] at hp
    obtain ⟨q, -, rfl⟩ := List.mem_map.mp hp
    rw [hc]
    exact Int64.le_refl now

variable [DecidableEq Id]

/-- Every step. -/
theorem Filed.step (h : s.Filed) {a : Act Id} (ha : s.keepsFiles decode a)
    (hs : s.step decode a = some s') : s'.Filed := by
  have hexec : ∀ {inp : Input Id} {cmd : Command} {nonce : Nonce} {now later : Int64},
      s.LogsReadable cmd now → s.execute inp cmd nonce now later = some s' → s'.Filed := by
    intro inp cmd nonce now later hread hs
    unfold Server.execute at hs
    split_ifs at hs with hclock
    obtain ⟨e, -, rfl⟩ := Option.map_eq_some_iff.mp hs
    exact (h.execute hclock.1 hclock.2 hread).congr rfl rfl rfl
  cases a with
  | raft inp =>
    obtain ⟨-, hs⟩ := Option.ite_none_right_eq_some.mp hs
    obtain ⟨e, -, rfl⟩ := Option.map_eq_some_iff.mp hs
    exact h.congr rfl rfl rfl
  | apply nonce now later =>
    simp only [Server.step] at hs
    split at hs <;> try contradiction
    next idx cmd hrun => exact hexec (ha idx cmd hrun) hs
  | inline idx cmd nonce now later => exact hexec ha hs
  | install req =>
    obtain ⟨e, -, rfl⟩ := Option.map_eq_some_iff.mp hs
    exact h.congr rfl rfl rfl
  | restore req calls =>
    obtain ⟨-, hs⟩ := Option.ite_none_right_eq_some.mp hs
    obtain rfl := Option.some.inj hs
    cases hdata : decode req.data with
    | none => exact h.congr rfl rfl rfl
    | some data =>
      have htext : (decodeSnapshot data).TextAt s.clock := ha data hdata
      exact (Filed.compact (d := { s.store with
        mem := { s.store.mem with data := (decodeSnapshot data).data } }) htext).congr rfl rfl rfl
  | persist req resp saved =>
    obtain ⟨-, hs⟩ := Option.ite_none_right_eq_some.mp hs
    obtain ⟨e, -, rfl⟩ := Option.map_eq_some_iff.mp hs
    exact h.congr rfl rfl rfl
  | get key now later =>
    obtain ⟨hclock, hs⟩ := Option.ite_none_right_eq_some.mp hs
    obtain rfl := Option.some.inj hs
    exact h.tend (Int64.le_trans hclock.1 hclock.2) (s.store.mem.sameAt_get key (Int64.le_refl _))
  | sweep now =>
    obtain ⟨hclock, hs⟩ := Option.ite_none_right_eq_some.mp hs
    obtain rfl := Option.some.inj hs
    exact h.tend hclock (s.store.mem.sameAt_sweepExpired (Int64.le_refl _))
  | compact =>
    obtain rfl := Option.some.inj hs
    exact (Filed.compact ha).congr rfl rfl rfl
  | restart now =>
    obtain ⟨hclock, hs⟩ := Option.ite_none_right_eq_some.mp hs
    obtain ⟨d, hopen, -, hfiled⟩ := h.opens hclock ha
    rw [hopen] at hs
    obtain rfl := Option.some.inj hs
    exact hfiled _ rfl rfl rfl

end Server

end KvStore
