import KvStore.Storage.CompactionCrash

/-!
# Restoring a snapshot that is interrupted

`RestoreSnapshot` (pkg/storage/snapshot.go:111) replaces the memory, then `snapshot.dat`,
and then empties `wal.log`. It may return with an error, or the process may crash, at any
point in between.

* `walRecords`: the records of a log file; replay executes them (`walReplay_eq`).
* `tryRestore`: the call with the point at which it is interrupted.
* `restore_all_or_nothing_iff`: for every store, every snapshot and every point, the
  interrupted call is undone or complete exactly under `RestoreHarmless`.
* `restore_all_or_nothing`: the cases in which that is so, on the store before the call.
* `restore_half_done`: a restore whose `saveSnapshot` fails has changed the memory, and a crash
  before the log is emptied leaves a mixture of both states.
-/

namespace KvStore.Storage

open KvStore.Framing
open KvStore.Expiring (live)

/-! ## The log as a list of records -/

/-- Keep the record instead of applying it. -/
def collect (r : Record) (rs : List Record) : Option WalError × List Record := (none, rs ++ [r])

/-- Keep the records of a sealed blob. -/
def collectSealed (c : AtRestCipher) (sealed : Bytes) (rs : List Record) :
    Option WalError × List Record :=
  match c.decrypt sealed with
  | none => (some .decrypt, rs)
  | some plain => feed walRead collect plain rs

/-- The records that `Replay` reads from a file, and the error it stops with. -/
def walRecords (cipher : Option AtRestCipher) (file : Bytes) : Option WalError × List Record :=
  match cipher, file with
  | none, _ => feed walRead collect file []
  | some _, [] => (none, [])
  | some c, magic :: r =>
    if magic ≠ walEncryptedMagic then (some .missingMagic, [])
    else feed readFrame (collectSealed c) r []

theorem replayed_append (m : MemStore) (t : Int64) (rs rs' : List Record) :
    m.replayed t (rs ++ rs') = (m.replayed t rs).replayed t rs' := List.foldl_append

theorem replay_collect (t : Int64) (m₀ : MemStore) (r : Record) (m : MemStore) (rs : List Record)
    (h : m = m₀.replayed t rs) :
    (r.replay t m).1 = (collect r rs).1 ∧ (r.replay t m).2 = m₀.replayed t (collect r rs).2 := by
  rw [r.replay_eq, h, collect, replayed_append]
  exact ⟨rfl, rfl⟩

theorem applySealed_collect (c : AtRestCipher) (t : Int64) (m₀ : MemStore) (sealed : Bytes)
    (m : MemStore) (rs : List Record) (h : m = m₀.replayed t rs) :
    (applySealed c t sealed m).1 = (collectSealed c sealed rs).1 ∧
      (applySealed c t sealed m).2 = m₀.replayed t (collectSealed c sealed rs).2 := by
  unfold applySealed collectSealed
  cases c.decrypt sealed with
  | none => exact ⟨rfl, h⟩
  | some plain => exact feed_rel walRead (replay_collect t m₀) plain h

/-- Replay executes the records of the file, whatever the store and the clock. -/
theorem walReplay_eq (cipher : Option AtRestCipher) (t : Int64) (file : Bytes) (m : MemStore) :
    walReplay cipher t file m =
      ((walRecords cipher file).1, m.replayed t (walRecords cipher file).2) := by
  have hnil : m = m.replayed t [] := rfl
  cases cipher with
  | none =>
    obtain ⟨herr, hmem⟩ := feed_rel walRead (replay_collect t m) file hnil
    exact Prod.ext herr hmem
  | some c =>
    rcases file with - | ⟨magic, r⟩
    · rfl
    · simp only [walReplay, replayEncrypted, walRecords]
      split_ifs with hmagic
      · rfl
      · obtain ⟨herr, hmem⟩ := feed_rel readFrame (applySealed_collect c t m) r hnil
        exact Prod.ext herr hmem

/-! ## What a restart finds -/

namespace DiskStore

/-- The records of the log, if the file can be opened and read to its end. -/
def log (d : DiskStore) : Option (List Record) :=
  match openWal d.cipher d.wal with
  | .error _ => none
  | .ok wal =>
    match walRecords d.cipher wal with
    | (none, rs) => some rs
    | (some _, _) => none

/-- What a restart at `t` comes back with; `none` if the directory does not open. -/
def reopened (t : Int64) (d : DiskStore) : Option MemStore :=
  (openDiskStore d.cipher d.snapshot d.wal t).toOption.map mem

theorem reopened_eq (t : Int64) (d : DiskStore) :
    d.reopened t = d.log.bind fun rs =>
      (loadSnapshot d.cipher d.snapshot).toOption.map fun m => m.replayed t rs := by
  unfold reopened log openDiskStore
  cases openWal d.cipher d.wal with
  | error e => rfl
  | ok wal =>
    dsimp only
    cases loadSnapshot d.cipher d.snapshot with
    | error e =>
      rcases walRecords d.cipher wal with ⟨- | e', rs⟩ <;> rfl
    | ok m =>
      dsimp only
      rw [walReplay_eq]
      rcases walRecords d.cipher wal with ⟨- | e, rs⟩ <;> rfl

end DiskStore

/-- Two restarts at `t` come back with the same state, or both with none. -/
def SameState (t : Int64) : Option MemStore → Option MemStore → Prop := Option.Rel (MemStore.SameAt t)

theorem SameState.refl (t : Int64) (o : Option MemStore) : SameState t o o := by
  cases o with
  | none => exact .none
  | some m => exact .some (.refl m)

theorem sameState_some_iff {t : Int64} {o : Option MemStore} {m : MemStore} :
    SameState t o (some m) ↔ ∃ m', o = some m' ∧ m'.SameAt t m := by
  constructor
  · intro h
    cases h with
    | some h => exact ⟨_, rfl, h⟩
  · rintro ⟨m', rfl, h⟩
    exact .some h

/-! ## The call -/

/-- The bytes that `RestoreSnapshot` is given, as `json.Unmarshal` reads them: an envelope of
    version 2, a map of version 1, or neither. The strings are those of the document, before
    their ill-formed bytes are replaced. -/
inductive Document where
  | envelope (data : List (Bytes × Entry))
  | plain (data : List (Bytes × Bytes))
  | malformed

/-- `decodeSnapshot` (pkg/storage/snapshot.go:183) into a fresh map; `none` is its error. -/
def Document.decode : Document → Option MemStore
  | .envelope data => some (decodeSnapshot (data.map fun p => (Utf8.repair p.1, p.2.repaired)))
  | .plain data =>
    some (decodeSnapshot (data.map fun p => (Utf8.repair p.1, { value := Utf8.repair p.2 })))
  | .malformed => none

/-- The points at which a compaction, or a restore once the snapshot is decoded, may be
    interrupted. -/
inductive RestorePoint where
  /-- `saveSnapshot`, before the rename that replaces `snapshot.dat` -/
  | save
  /-- `saveSnapshot`, after the rename: the directory is not synced -/
  | syncDir
  /-- `os.Truncate` of the log -/
  | truncate
  /-- the write of the magic byte into the empty log, if it is encrypted -/
  | stamp
  /-- the `Sync` behind it -/
  | syncStamp
  deriving DecidableEq

/-- The errors of `RestoreSnapshot`. -/
inductive RestoreError where
  /-- `unmarshal snapshot: ...` -/
  | unmarshal
  /-- an error of the file system -/
  | file (point : RestorePoint)

namespace DiskStore

/-- The memory has been replaced; the counter of expired keys has not. -/
def swapped (d : DiskStore) (fresh : MemStore) : DiskStore :=
  { d with mem := { d.mem with data := fresh.data } }

/-- The memory has been written to `snapshot.dat`. -/
def saved (d : DiskStore) : DiskStore := { d with snapshot := some (saveSnapshot d.cipher d.mem) }

/-- `compactLocked` (pkg/storage/snapshot.go:142) that fails at the given point, if it gets there:
    where it has failed and what it leaves. -/
def tryCompact (d : DiskStore) (fault : Option RestorePoint) : Option RestorePoint × DiskStore :=
  if fault = some .save then (some .save, d)
  else if fault = some .syncDir then (some .syncDir, d.saved)
  else if fault = some .truncate then (some .truncate, d.saved)
  else
    match d.cipher with
    | none => (none, { d.saved with wal := [] })
    | some _ =>
      if fault = some .stamp then (some .stamp, { d.saved with wal := [] })
      else if fault = some .syncStamp then
        (some .syncStamp, { d.saved with wal := [walEncryptedMagic] })
      else (none, { d.saved with wal := [walEncryptedMagic] })

/-- `RestoreSnapshot` (pkg/storage/snapshot.go:111), which goes on as `compactLocked` does. -/
def tryRestore (d : DiskStore) (doc : Document) (fault : Option RestorePoint) :
    Option RestoreError × DiskStore :=
  match doc.decode with
  | none => (some .unmarshal, d)
  | some fresh =>
    let r := (d.swapped fresh).tryCompact fault
    (r.1.map .file, r.2)

/-- Without failures this is the `compact` of before. -/
theorem tryCompact_none (d : DiskStore) : d.tryCompact none = (none, d.compact) := by
  unfold tryCompact compact saved walEmpty
  cases d.cipher <;> rfl

/-- Without failures this is the `restoreSnapshot` of before. -/
theorem tryRestore_none (d : DiskStore) (data : List (Bytes × Entry)) :
    d.tryRestore (.envelope data) none =
      (none, d.restoreSnapshot (data.map fun p => (Utf8.repair p.1, p.2.repaired))) := by
  rw [restoreSnapshot, tryRestore]
  dsimp only [Document.decode]
  rw [tryCompact_none]
  rfl

end DiskStore

/-! ## What the interrupted call leaves -/

theorem isText_decodeSnapshot {data : List (Bytes × Entry)}
    (h : ∀ p ∈ data, Utf8.Valid p.1 ∧ Utf8.Valid p.2.value) : (decodeSnapshot data).IsText := by
  induction data using List.reverseRecOn with
  | nil =>
    intro k e hk
    simp [decodeSnapshot, MemStore.cell] at hk
  | append_singleton l p ih =>
    intro k e hk
    rw [cell_decode_append] at hk
    split_ifs at hk with hp
    · cases hk
      rw [← hp]
      exact h p (by simp)
    · exact ih (fun q hq => h q (by simp [hq])) k e hk

/-- What is decoded is text. -/
theorem Document.isText_decode {doc : Document} {fresh : MemStore} (h : doc.decode = some fresh) :
    fresh.IsText := by
  cases doc with
  | envelope data =>
    cases h
    refine isText_decodeSnapshot fun p hp => ?_
    obtain ⟨q, -, rfl⟩ := List.mem_map.mp hp
    exact ⟨Utf8.valid_repair q.1, q.2.valid_repaired⟩
  | plain data =>
    cases h
    refine isText_decodeSnapshot fun p hp => ?_
    obtain ⟨q, -, rfl⟩ := List.mem_map.mp hp
    exact ⟨Utf8.valid_repair q.1, Utf8.valid_repair q.2⟩
  | malformed => cases h

section Restart

variable {t : Int64} {d : DiskStore} {fresh : MemStore}

/-- The new snapshot is read back as it was decoded. -/
theorem loadSnapshot_saved (hf : fresh.IsText) :
    ∃ m, loadSnapshot d.cipher (d.swapped fresh).saved.snapshot = .ok m ∧ ∀ k, m.cell k = fresh.cell k := by
  refine ⟨_, loadSnapshot_saveSnapshot d.cipher _, ?_⟩
  exact MemStore.cell_congr ((decode_marshal_data_iff (d.swapped fresh).mem).mpr hf)

/-- A restart after the rename replays the old log over the new snapshot. -/
theorem reopened_saved (hf : fresh.IsText) :
    ∃ m : MemStore, (∀ k, m.cell k = fresh.cell k) ∧
      (d.swapped fresh).saved.reopened t = d.log.map fun rs => m.replayed t rs := by
  obtain ⟨m, hload, hcell⟩ := loadSnapshot_saved (d := d) hf
  refine ⟨m, hcell, ?_⟩
  have hlog : (d.swapped fresh).saved.log = d.log := rfl
  have hload' : loadSnapshot (d.swapped fresh).saved.cipher (d.swapped fresh).saved.snapshot = .ok m := hload
  rw [DiskStore.reopened_eq, hlog, hload']
  cases d.log <;> rfl

/-- An empty log, stamped or not, has no records. -/
theorem log_emptied {wal : Bytes} (h : wal = [] ∨ wal = walEmpty d.cipher) :
    DiskStore.log { (d.swapped fresh).saved with wal := wal } = some [] := by
  have hcipher : (d.swapped fresh).saved.cipher = d.cipher := rfl
  unfold DiskStore.log
  dsimp only
  rw [hcipher]
  generalize d.cipher = cipher at h
  cases cipher with
  | none =>
    have hnil : wal = [] := by simpa [walEmpty] using h
    rw [hnil]
    rfl
  | some c => rcases h with rfl | rfl <;> rfl

/-- A restart after the log has been emptied finds the snapshot. -/
theorem reopened_emptied (hf : fresh.IsText) (wal : Bytes) (h : wal = [] ∨ wal = walEmpty d.cipher) :
    SameState t (DiskStore.reopened t { (d.swapped fresh).saved with wal := wal }) (some fresh) := by
  obtain ⟨m, hload, hcell⟩ := loadSnapshot_saved (d := d) hf
  have hload' : loadSnapshot (d.swapped fresh).saved.cipher (d.swapped fresh).saved.snapshot = .ok m := hload
  rw [DiskStore.reopened_eq, log_emptied h]
  dsimp only
  rw [hload']
  refine .some fun k => ?_
  exact congrArg (live t) (hcell k)

/-- Replayed over the snapshot, the log leads to the state that it leads to from the old
    snapshot. It is enough that the keys agree which the log does not overwrite. -/
def LogReturns (t : Int64) (d : DiskStore) (fresh : MemStore) : Prop :=
  ∀ rs, d.log = some rs → ∃ m, loadSnapshot d.cipher d.snapshot = .ok m ∧
    ∀ k, ¬ Rewritten rs k →
      live t (cellAfter t k rs (fresh.cell k)) = live t (cellAfter t k rs (m.cell k))

/-- Replayed over the snapshot, the log changes nothing that shows. -/
def LogIdles (t : Int64) (d : DiskStore) (fresh : MemStore) : Prop :=
  ∃ rs, d.log = some rs ∧
    ∀ k, live t (cellAfter t k rs (fresh.cell k)) = live t (fresh.cell k)

/-- The old directory already leads to the state of the snapshot. -/
def AlreadyThere (t : Int64) (d : DiskStore) (fresh : MemStore) : Prop :=
  ∃ rs m, d.log = some rs ∧ loadSnapshot d.cipher d.snapshot = .ok m ∧
    ∀ k, live t (cellAfter t k rs (m.cell k)) = live t (fresh.cell k)

theorem sameState_saved_iff (hf : fresh.IsText) :
    SameState t ((d.swapped fresh).saved.reopened t) (d.reopened t) ↔ LogReturns t d fresh := by
  obtain ⟨m', hcell, hnew⟩ := reopened_saved (t := t) (d := d) hf
  rw [hnew, DiskStore.reopened_eq, LogReturns]
  cases hlog : d.log with
  | none => exact iff_of_true .none (by simp)
  | some rs =>
    cases hload : loadSnapshot d.cipher d.snapshot with
    | error e =>
      refine iff_of_false (fun h => ?_) fun h => ?_
      · cases h
      · obtain ⟨m, hm, -⟩ := h rs rfl
        cases hm
    | ok m =>
      constructor
      · intro h rs' hrs'
        cases hrs'
        cases h with
        | some hsame =>
          refine ⟨m, rfl, fun k _ => ?_⟩
          rw [← hcell, ← cell_replayed, ← cell_replayed]
          exact hsame k
      · intro h
        obtain ⟨m₁, hm₁, hcells⟩ := h rs rfl
        cases hm₁
        refine .some fun k => ?_
        rw [cell_replayed, cell_replayed, hcell]
        by_cases hk : Rewritten rs k
        · rw [cellAfter_rewritten hk]
        · exact hcells k hk

theorem sameState_saved_fresh_iff (hf : fresh.IsText) :
    SameState t ((d.swapped fresh).saved.reopened t) (some fresh) ↔ LogIdles t d fresh := by
  obtain ⟨m', hcell, hnew⟩ := reopened_saved (t := t) (d := d) hf
  rw [hnew, sameState_some_iff, LogIdles]
  constructor
  · rintro ⟨m, hm, hsame⟩
    obtain ⟨rs, hrs, rfl⟩ := Option.map_eq_some_iff.mp hm
    refine ⟨rs, hrs, fun k => ?_⟩
    rw [← hcell, ← cell_replayed, hsame k, hcell]
  · rintro ⟨rs, hrs, hcells⟩
    refine ⟨_, Option.map_eq_some_iff.mpr ⟨rs, hrs, rfl⟩, fun k => ?_⟩
    rw [cell_replayed, hcell]
    exact hcells k

theorem sameState_reopened_iff :
    SameState t (d.reopened t) (some fresh) ↔ AlreadyThere t d fresh := by
  rw [sameState_some_iff, DiskStore.reopened_eq, AlreadyThere]
  constructor
  · rintro ⟨m', hm', hsame⟩
    obtain ⟨rs, hrs, hload⟩ := Option.bind_eq_some_iff.mp hm'
    obtain ⟨m, hm, rfl⟩ := Option.map_eq_some_iff.mp hload
    refine ⟨rs, m, hrs, ?_, fun k => ?_⟩
    · cases h : loadSnapshot d.cipher d.snapshot with
      | error e => rw [h] at hm; cases hm
      | ok m₀ => rw [h] at hm; cases hm; rfl
    · rw [← cell_replayed]
      exact hsame k
  · rintro ⟨rs, m, hrs, hload, hcells⟩
    refine ⟨m.replayed t rs, ?_, fun k => ?_⟩
    · rw [hrs, hload]
      rfl
    · rw [cell_replayed]
      exact hcells k

end Restart

/-! ## All or nothing -/

/-- How the call ends at the point where it is interrupted. -/
inductive Interruption where
  | error
  | crash

/-- A call that returns an error has changed neither the memory nor what a restart finds; after
    a crash a restart finds what it would have found before the call, or exactly the snapshot. -/
def AllOrNothing (t : Int64) (d : DiskStore) (doc : Document) (point : Option RestorePoint) :
    Interruption → Prop
  | .error => (d.tryRestore doc point).1.isSome →
      (d.tryRestore doc point).2.mem.SameAt t d.mem ∧
        SameState t ((d.tryRestore doc point).2.reopened t) (d.reopened t)
  | .crash =>
      SameState t ((d.tryRestore doc point).2.reopened t) (d.reopened t) ∨
        ∃ fresh, doc.decode = some fresh ∧
          SameState t ((d.tryRestore doc point).2.reopened t) (some fresh)

/-- Which files a restart finds. -/
inductive OnDisk where
  /-- the old snapshot and the old log -/
  | before
  /-- the new snapshot and the old log -/
  | mixed
  /-- the new snapshot and an empty log -/
  | after

/-- The files when the call is interrupted. -/
def onDisk : Option RestorePoint → OnDisk
  | some .save => .before
  | some .syncDir => .mixed
  | some .truncate => .mixed
  | some .stamp => .after
  | some .syncStamp => .after
  | none => .after

/-- The call returns an error; a log that is not encrypted is not stamped. -/
def fails (cipher : Option AtRestCipher) : Option RestorePoint → Bool
  | none => false
  | some .stamp => cipher.isSome
  | some .syncStamp => cipher.isSome
  | some _ => true

/-- When the interruption does no harm. The snapshot is malformed, or: if an error is returned, the
    memory already showed the snapshot, and what is left on disk leads where it led before; if the
    process crashes between the rename and the truncation, the old log leads from the new snapshot
    to the old state or does not change it. -/
def RestoreHarmless (t : Int64) (d : DiskStore) (doc : Document) (point : Option RestorePoint)
    (how : Interruption) : Prop :=
  ∀ fresh, doc.decode = some fresh →
    match how, onDisk point with
    | .error, .before => fails d.cipher point → fresh.SameAt t d.mem
    | .error, .mixed => fails d.cipher point → fresh.SameAt t d.mem ∧ LogReturns t d fresh
    | .error, .after => fails d.cipher point → fresh.SameAt t d.mem ∧ AlreadyThere t d fresh
    | .crash, .mixed => LogReturns t d fresh ∨ LogIdles t d fresh
    | .crash, _ => True

theorem SameState.symm {t : Int64} {o o' : Option MemStore} (h : SameState t o o') :
    SameState t o' o := by
  cases h with
  | none => exact .none
  | some h => exact .some h.symm

theorem SameState.live_cell {t : Int64} {o o' : Option MemStore} (h : SameState t o o') (k : Bytes) :
    (o.map fun m => live t (m.cell k)) = o'.map fun m => live t (m.cell k) := by
  cases h with
  | none => rfl
  | some h => exact congrArg some (h k)

theorem SameState.trans {t : Int64} {o o' o'' : Option MemStore} (h : SameState t o o')
    (h' : SameState t o' o'') : SameState t o o'' := by
  cases h with
  | none => exact h'
  | some h =>
    cases h' with
    | some h' => exact .some (h.trans h')

/-- What a restart comes back with, by the files it finds. -/
def Found (t : Int64) (d : DiskStore) (fresh : MemStore) (o : Option MemStore) : OnDisk → Prop
  | .before => o = d.reopened t
  | .mixed => o = (d.swapped fresh).saved.reopened t
  | .after => SameState t o (some fresh)

section Found

variable {t : Int64} {d : DiskStore} {fresh : MemStore} {o : Option MemStore} {disk : OnDisk}

/-- When the files lead to the state of before the call. -/
theorem Found.before_iff (hf : fresh.IsText) :
    Found t d fresh o disk → (SameState t o (d.reopened t) ↔
      match disk with
      | .before => True
      | .mixed => LogReturns t d fresh
      | .after => AlreadyThere t d fresh) := by
  intro h
  cases disk with
  | before =>
    rw [show o = d.reopened t from h]
    exact iff_of_true (.refl t _) trivial
  | mixed =>
    rw [show o = (d.swapped fresh).saved.reopened t from h]
    exact sameState_saved_iff hf
  | after =>
    have hnew : SameState t o (some fresh) := h
    rw [← sameState_reopened_iff]
    exact ⟨fun hold => hold.symm.trans hnew, fun hold => hnew.trans hold.symm⟩

/-- After a crash: when the files lead to the state of before the call or to the snapshot. -/
theorem Found.crash_iff (hf : fresh.IsText) :
    Found t d fresh o disk → (SameState t o (d.reopened t) ∨ SameState t o (some fresh) ↔
      match disk with
      | .mixed => LogReturns t d fresh ∨ LogIdles t d fresh
      | _ => True) := by
  intro h
  cases disk with
  | before => exact iff_of_true (.inl ((Found.before_iff hf h).mpr trivial)) trivial
  | mixed =>
    rw [Found.before_iff hf h, show o = (d.swapped fresh).saved.reopened t from h,
      sameState_saved_fresh_iff hf]
  | after => exact iff_of_true (.inr h) trivial

end Found

/-- The call when the snapshot is well formed: what it returns, what is in memory and what a
    restart finds. -/
theorem tryRestore_spec {t : Int64} {d : DiskStore} {doc : Document} {fresh : MemStore}
    (hdec : doc.decode = some fresh) (point : Option RestorePoint) :
    (d.tryRestore doc point).1.isSome = fails d.cipher point ∧
      (∀ k, (d.tryRestore doc point).2.mem.cell k = fresh.cell k) ∧
      Found t d fresh ((d.tryRestore doc point).2.reopened t) (onDisk point) := by
  have hf := Document.isText_decode hdec
  have hempty := reopened_emptied (t := t) (d := d) hf [] (.inl rfl)
  have hstamped := fun c (hc : d.cipher = some c) =>
    reopened_emptied (t := t) (d := d) hf [walEncryptedMagic] (.inr (by rw [hc]; rfl))
  unfold DiskStore.tryRestore DiskStore.tryCompact
  rw [hdec]
  have hcipher : (d.swapped fresh).cipher = d.cipher := rfl
  dsimp only
  rw [hcipher]
  cases hc : d.cipher with
  | none =>
    rcases point with - | (_ | _ | _ | _ | _)
    · exact ⟨rfl, fun k => rfl, hempty⟩
    · exact ⟨rfl, fun k => rfl, rfl⟩
    · exact ⟨rfl, fun k => rfl, rfl⟩
    · exact ⟨rfl, fun k => rfl, rfl⟩
    · exact ⟨rfl, fun k => rfl, hempty⟩
    · exact ⟨rfl, fun k => rfl, hempty⟩
  | some c =>
    rcases point with - | (_ | _ | _ | _ | _)
    · exact ⟨rfl, fun k => rfl, hstamped c hc⟩
    · exact ⟨rfl, fun k => rfl, rfl⟩
    · exact ⟨rfl, fun k => rfl, rfl⟩
    · exact ⟨rfl, fun k => rfl, rfl⟩
    · exact ⟨rfl, fun k => rfl, hempty⟩
    · exact ⟨rfl, fun k => rfl, hstamped c hc⟩

/-- An interrupted restore is undone or complete exactly when the interruption does no harm: for
    every store, every snapshot and every point, and for an error as for a crash. -/
theorem restore_all_or_nothing_iff (t : Int64) (d : DiskStore) (doc : Document)
    (point : Option RestorePoint) (how : Interruption) :
    AllOrNothing t d doc point how ↔ RestoreHarmless t d doc point how := by
  cases hdec : doc.decode with
  | none =>
    -- nothing has been touched
    have hsame : (d.tryRestore doc point).2 = d := by
      rw [DiskStore.tryRestore, hdec]
    refine iff_of_true ?_ (by intro fresh hfresh; rw [hdec] at hfresh; cases hfresh)
    cases how with
    | error => exact fun _ => ⟨by rw [hsame]; exact .refl _, by rw [hsame]; exact .refl t _⟩
    | crash => exact .inl (by rw [hsame]; exact .refl t _)
  | some fresh =>
    have hf := Document.isText_decode hdec
    obtain ⟨herr, hmem, hfound⟩ := tryRestore_spec (t := t) (d := d) hdec point
    have hmem' : (d.tryRestore doc point).2.mem.SameAt t d.mem ↔ fresh.SameAt t d.mem := by
      refine forall_congr' fun k => ?_
      rw [hmem k]
    have hharm : ∀ {Q : MemStore → Prop}, (∀ f, doc.decode = some f → Q f) ↔ Q fresh := by
      intro Q
      constructor
      · intro h
        exact h fresh hdec
      · intro h f hf'
        rw [hdec] at hf'
        cases hf'
        exact h
    rw [RestoreHarmless, hharm]
    cases how with
    | error =>
      rw [AllOrNothing, herr, hmem', Found.before_iff hf hfound]
      cases onDisk point with
      | before => exact forall_congr' fun _ => and_iff_left trivial
      | mixed => exact Iff.rfl
      | after => exact Iff.rfl
    | crash =>
      have hex : (∃ f, doc.decode = some f ∧
          SameState t ((d.tryRestore doc point).2.reopened t) (some f)) ↔
            SameState t ((d.tryRestore doc point).2.reopened t) (some fresh) := by
        rw [hdec]
        simp
      rw [AllOrNothing, hex, Found.crash_iff hf hfound]
      cases onDisk point <;> exact Iff.rfl

/-- The old snapshot loads and shows what the new one shows, on every key that the log does not
    overwrite. -/
def SnapshotsAgree (t : Int64) (d : DiskStore) (fresh : MemStore) : Prop :=
  ∃ m, loadSnapshot d.cipher d.snapshot = .ok m ∧
    ∀ rs, d.log = some rs → ∀ k, ¬ Rewritten rs k → live t (fresh.cell k) = live t (m.cell k)

/-- The log can be read, and none of its records, if there are any, changes what the new snapshot
    shows. -/
def LogIdle (t : Int64) (d : DiskStore) (fresh : MemStore) : Prop :=
  ∃ rs, d.log = some rs ∧ ∀ r ∈ rs, ∀ k, r.command.Touches k → r.command.Idle t (fresh.cell k)

/-- The cases in which an interrupted restore does no harm, on the store before the call. -/
inductive RestoreSpared (t : Int64) (d : DiskStore) (doc : Document) :
    Option RestorePoint → Interruption → Prop
  | malformed (hdec : doc.decode = none) (point : Option RestorePoint) (how : Interruption) :
    RestoreSpared t d doc point how
  /-- no error is returned -/
  | returns {point : Option RestorePoint} (hok : fails d.cipher point = false) :
    RestoreSpared t d doc point .error
  /-- an error before the rename, and the memory already shows the snapshot -/
  | unsaved {fresh : MemStore} (hdec : doc.decode = some fresh) (hmem : fresh.SameAt t d.mem)
    {point : Option RestorePoint} (hdisk : onDisk point = .before) :
    RestoreSpared t d doc point .error
  /-- an error before the truncation: the files must agree as well -/
  | renamed {fresh : MemStore} (hdec : doc.decode = some fresh) (hmem : fresh.SameAt t d.mem)
    (hagree : SnapshotsAgree t d fresh) {point : Option RestorePoint}
    (hdisk : onDisk point = .mixed) : RestoreSpared t d doc point .error
  /-- an error after it: the log that is gone must have added nothing -/
  | emptied {fresh : MemStore} (hdec : doc.decode = some fresh) (hmem : fresh.SameAt t d.mem)
    (hagree : SnapshotsAgree t d fresh) (hidle : LogIdle t d fresh)
    {point : Option RestorePoint} (hdisk : onDisk point = .after) :
    RestoreSpared t d doc point .error
  /-- a crash before the rename or after the truncation -/
  | outside {point : Option RestorePoint} (hdisk : onDisk point ≠ .mixed) :
    RestoreSpared t d doc point .crash
  /-- a crash between the two that leaves the old state -/
  | agree {fresh : MemStore} (hdec : doc.decode = some fresh) (hagree : SnapshotsAgree t d fresh)
    (point : Option RestorePoint) : RestoreSpared t d doc point .crash
  /-- a crash between the two that leaves the snapshot -/
  | idle {fresh : MemStore} (hdec : doc.decode = some fresh) (hidle : LogIdle t d fresh)
    (point : Option RestorePoint) : RestoreSpared t d doc point .crash

section Spared

variable {t : Int64} {d : DiskStore} {doc : Document} {fresh : MemStore}

theorem SnapshotsAgree.logReturns (h : SnapshotsAgree t d fresh) : LogReturns t d fresh := by
  obtain ⟨m, hload, hcells⟩ := h
  intro rs hrs
  exact ⟨m, hload, fun k hk => cellAfter_congr rs (hcells rs hrs k hk)⟩

theorem LogIdle.logIdles (h : LogIdle t d fresh) : LogIdles t d fresh := by
  obtain ⟨rs, hrs, hidle⟩ := h
  exact ⟨rs, hrs, fun k => cellAfter_idle rfl fun r hr => hidle r hr k⟩

/-- The old directory led from the old snapshot to the new one. -/
theorem SnapshotsAgree.alreadyThere (h : SnapshotsAgree t d fresh) (hidle : LogIdle t d fresh) :
    AlreadyThere t d fresh := by
  obtain ⟨rs, hrs, hidles⟩ := hidle.logIdles
  obtain ⟨m, hload, hcells⟩ := h
  refine ⟨rs, m, hrs, hload, fun k => ?_⟩
  rw [← hidles k]
  by_cases hk : Rewritten rs k
  · rw [cellAfter_rewritten hk]
  · exact (cellAfter_congr rs (hcells rs hrs k hk)).symm

theorem RestoreSpared.harmless {point : Option RestorePoint} {how : Interruption}
    (h : RestoreSpared t d doc point how) : RestoreHarmless t d doc point how := by
  intro fresh hfresh
  cases h with
  | malformed hdec => cases hdec.symm.trans hfresh
  | returns hok =>
    cases onDisk point <;> exact fun hfail => absurd (hok.symm.trans hfail) Bool.false_ne_true
  | unsaved hdec hmem hdisk =>
    cases hdec.symm.trans hfresh
    rw [hdisk]
    exact fun _ => hmem
  | renamed hdec hmem hagree hdisk =>
    cases hdec.symm.trans hfresh
    rw [hdisk]
    exact fun _ => ⟨hmem, hagree.logReturns⟩
  | emptied hdec hmem hagree hidle hdisk =>
    cases hdec.symm.trans hfresh
    rw [hdisk]
    exact fun _ => ⟨hmem, hagree.alreadyThere hidle⟩
  | outside hdisk =>
    cases hp : onDisk point with
    | mixed => exact absurd hp hdisk
    | before => trivial
    | after => trivial
  | agree hdec hagree =>
    cases hdec.symm.trans hfresh
    cases onDisk point with
    | mixed => exact .inl hagree.logReturns
    | before => trivial
    | after => trivial
  | idle hdec hidle =>
    cases hdec.symm.trans hfresh
    cases onDisk point with
    | mixed => exact .inr hidle.logIdles
    | before => trivial
    | after => trivial

end Spared

/-- **An interrupted restore is undone or complete in each of the cases above**, for every store,
    every snapshot and every point, and for an error as for a crash. -/
theorem restore_all_or_nothing (t : Int64) (d : DiskStore) (doc : Document)
    (point : Option RestorePoint) (how : Interruption) (h : RestoreSpared t d doc point how) :
    AllOrNothing t d doc point how :=
  (restore_all_or_nothing_iff t d doc point how).mpr h.harmless

/-- The store holds `k = 1`, in memory and in its log. -/
def storeOfK : DiskStore :=
  (DiskStore.new none).writeBatch [({ op := .put, key := [107], value := [49] }, zeroNonce)]

/-- The snapshot that the leader has sent holds `l = 2` and nothing else. -/
def snapshotOfL : Document := .envelope [([108], ⟨[50], 0⟩)]

/-- The snapshot holds another value of `k`, which the log of the store overwrites. -/
def snapshotOfK : Document := .envelope [([107], ⟨[55], 0⟩)]

/-- A crash before the log is emptied: the log leads back to `k = 1`, and over a snapshot that
    holds `k = 1` and `l = 2` it changes nothing. -/
theorem restore_all_or_nothing_truncate :
    AllOrNothing 0 storeOfK snapshotOfK (some .truncate) .crash ∧
      AllOrNothing 0 storeOfK (.envelope [([107], ⟨[49], 0⟩), ([108], ⟨[50], 0⟩)])
        (some .truncate) .crash := by
  have hlog : storeOfK.log = some [.put [107] [49]] := by decide
  constructor
  · refine restore_all_or_nothing _ _ _ _ _ (.agree rfl ⟨.new, rfl, fun rs hrs k hk => ?_⟩ _)
    cases hlog.symm.trans hrs
    have hne : ([107] : Bytes) ≠ k := fun h => hk ⟨.put [107] [49], by simp, rfl, .inr h⟩
    have hcell : (decodeSnapshot [([107], ⟨[55], 0⟩)]).cell k = none := by
      rw [← List.nil_append [_], cell_decode_append, if_neg hne]
      exact MemStore.cell_new k
    exact congrArg (live 0) (hcell.trans (MemStore.cell_new k).symm)
  · refine restore_all_or_nothing _ _ _ _ _ (.idle rfl ⟨_, hlog, fun r hr k htouch => ?_⟩ _)
    obtain rfl := List.mem_singleton.mp hr
    obtain rfl : [107] = k := htouch.resolve_left (by decide)
    show live 0 _ = _
    decide

/-- If `saveSnapshot` fails the memory has lost `k` all the same; and after a crash before the log
    is emptied a restart finds both keys. -/
theorem restore_half_done :
    ¬ AllOrNothing 0 storeOfK snapshotOfL (some .save) .error ∧
      ¬ AllOrNothing 0 storeOfK snapshotOfL (some .truncate) .crash := by
  constructor
  · intro h
    have hkey := (h rfl).1 [107]
    revert hkey
    decide
  · rintro (h | ⟨fresh, hdec, h⟩)
    · -- the old state has no `l`
      have hkey := h.live_cell [108]
      revert hkey
      decide
    · -- the snapshot has no `k`
      have hkey := h.live_cell [107]
      cases hdec
      revert hkey
      decide

end KvStore.Storage
