import KvStore.Framing.Utf8
import KvStore.Storage.Wal

/-!
# The durable store

Model of `DiskStore` (`pkg/storage/wal.go`), of its batcher (`pkg/storage/batcher.go`)
and of its snapshots (`pkg/storage/snapshot.go`), for runs in which no I/O fails. The
data directory is the content of its two files.

* `snapshot.dat` is the JSON object that `json.Marshal` writes: the pairs of the map in
  key order, each string with its ill-formed bytes replaced (`Utf8.repair`). Reading it
  back inserts the pairs in that order. A sealed file records the key it was sealed
  under; the text of the JSON document is not modelled.
* `Put`, `Delete` and `Clear` are written in batches, `Incr`, `CAS` and `Expire` one by
  one. A write that looks at the clock takes at most two readings, `now` and `later`.
* The lazy `Get`, the expiry sweep and compaction run between the writes.
-/

namespace KvStore.Storage

open KvStore.Expiring (live)

/-! ## Snapshots -/

/-- `snapshot.dat`. -/
structure SnapshotFile where
  sealedUnder : Option Bytes
  data : List (Bytes × Entry)
  deriving DecidableEq

/-- `json.Marshal` of the map (pkg/storage/snapshot.go:74). -/
def marshalSnapshot (m : MemStore) : List (Bytes × Entry) :=
  m.data.toList.map fun p => (Utf8.repair p.1, { p.2 with value := Utf8.repair p.2.value })

/-- `decodeSnapshot` (pkg/storage/snapshot.go:183) of a document with `v > 0`. -/
def decodeSnapshot (data : List (Bytes × Entry)) : MemStore :=
  { data := data.foldl (fun d p => d.insert p.1 p.2) ∅, expired := 0 }

/-- `saveSnapshot` (pkg/storage/snapshot.go:72). -/
def saveSnapshot (cipher : Option AtRestCipher) (m : MemStore) : SnapshotFile :=
  { sealedUnder := cipher.map (·.key), data := marshalSnapshot m }

/-- The errors of `OpenDiskStore`. -/
inductive OpenError where
  /-- `existing wal is not encrypted; ...` -/
  | walNotEncrypted
  /-- `snapshot is encrypted at rest; ...` -/
  | snapshotEncrypted
  /-- `existing snapshot is not encrypted; ...` -/
  | snapshotNotEncrypted
  /-- `decrypt snapshot: ...` -/
  | decryptSnapshot
  /-- an error of `Replay` -/
  | wal (e : WalError)
  deriving DecidableEq

/-- `loadSnapshot` (pkg/storage/snapshot.go:151). -/
def loadSnapshot (cipher : Option AtRestCipher) : Option SnapshotFile → Except OpenError MemStore
  | none => .ok .new
  | some file =>
    match file.sealedUnder, cipher with
    | some _, none => .error .snapshotEncrypted
    | some key, some c =>
      if key = c.key then .ok (decodeSnapshot file.data) else .error .decryptSnapshot
    | none, some _ => .error .snapshotNotEncrypted
    | none, none => .ok (decodeSnapshot file.data)

/-- A snapshot is read back under the key it was written with. -/
theorem loadSnapshot_saveSnapshot (cipher : Option AtRestCipher) (m : MemStore) :
    loadSnapshot cipher (some (saveSnapshot cipher m)) =
      .ok (decodeSnapshot (marshalSnapshot m)) := by
  cases cipher <;> simp [loadSnapshot, saveSnapshot]

/-! ## The store -/

/-- `DiskStore` (pkg/storage/wal.go:419): its memory and its files. -/
structure DiskStore where
  mem : MemStore
  snapshot : Option SnapshotFile
  wal : Bytes
  cipher : Option AtRestCipher

/-- `OpenWAL` and `OpenWALEncrypted` (pkg/storage/wal.go:51): the file once it is open. -/
def openWal (cipher : Option AtRestCipher) (file : Bytes) : Except OpenError Bytes :=
  match cipher, file with
  | none, _ => .ok file
  | some _, [] => .ok [walEncryptedMagic]
  | some _, first :: _ => if first ≠ walEncryptedMagic then .error .walNotEncrypted else .ok file

/-- `openDiskStore` (pkg/storage/wal.go:458) at the clock reading `now`. -/
def openDiskStore (cipher : Option AtRestCipher) (snapshot : Option SnapshotFile) (file : Bytes)
    (now : Int64) : Except OpenError DiskStore :=
  match openWal cipher file with
  | .error e => .error e
  | .ok wal =>
    match loadSnapshot cipher snapshot with
    | .error e => .error e
    | .ok m =>
      match walReplay cipher now wal m with
      | (some e, _) => .error (.wal e)
      | (none, m) => .ok { mem := m, snapshot := snapshot, wal := wal, cipher := cipher }

theorem openWal_walEmpty (cipher : Option AtRestCipher) (r : Bytes) :
    openWal cipher (walEmpty cipher ++ r) = .ok (walEmpty cipher ++ r) := by
  cases cipher <;> simp [openWal, walEmpty]

/-- Opening a directory whose log is in place succeeds exactly when replay does. -/
theorem openDiskStore_eq_ok_iff {cipher : Option AtRestCipher} {snapshot : Option SnapshotFile}
    {m : MemStore} (hm : loadSnapshot cipher snapshot = .ok m) (r : Bytes) (now : Int64)
    (d : DiskStore) :
    openDiskStore cipher snapshot (walEmpty cipher ++ r) now = .ok d ↔
      walReplay cipher now (walEmpty cipher ++ r) m = (none, d.mem) ∧
        d = { mem := d.mem, snapshot := snapshot, wal := walEmpty cipher ++ r, cipher := cipher } := by
  rw [openDiskStore, openWal_walEmpty, hm]
  dsimp only
  rcases walReplay cipher now (walEmpty cipher ++ r) m with ⟨- | e, m'⟩
  · constructor
    · intro h
      cases h
      exact ⟨rfl, rfl⟩
    · rintro ⟨h, hd⟩
      rw [hd]
      simp only [Prod.mk.injEq, true_and] at h
      rw [h]
  · simp

namespace DiskStore

/-- A store opened on an empty directory. -/
def new (cipher : Option AtRestCipher) : DiskStore :=
  { mem := .new, snapshot := none, wal := walEmpty cipher, cipher := cipher }

/-- `append` (pkg/storage/wal.go:152) and `Sync`. -/
def append (d : DiskStore) (r : Record) (nonce : Nonce) : DiskStore :=
  { d with wal := d.wal ++ walFrame d.cipher (r, nonce) }

/-- `compactLocked` (pkg/storage/snapshot.go:142). -/
def compact (d : DiskStore) : DiskStore :=
  { d with snapshot := some (saveSnapshot d.cipher d.mem), wal := walEmpty d.cipher }

/-- `SerializeSnapshot` (pkg/storage/snapshot.go:95): the JSON document, never sealed. -/
def serializeSnapshot (d : DiskStore) : List (Bytes × Entry) := marshalSnapshot d.mem

/-- `RestoreSnapshot` (pkg/storage/snapshot.go:111): the map is replaced, the counter of
    expired keys is not; then the new map is written to `snapshot.dat` and the log emptied. -/
def restoreSnapshot (d : DiskStore) (data : List (Bytes × Entry)) : DiskStore :=
  compact { d with mem := { d.mem with data := (decodeSnapshot data).data } }

/-- The record that `writeBatch` appends for a request (pkg/storage/batcher.go:163). -/
def batchRecord (req : Command) : Option Record :=
  match req.op with
  | .put => some (.put req.key req.value)
  | .delete => some (.delete req.key)
  | .clear => some .clear
  | _ => none

/-- What `writeBatch` does to the memory for a request (pkg/storage/batcher.go:183). -/
def applyBatched (m : MemStore) (req : Command) : MemStore :=
  match req.op with
  | .put => m.put req.key req.value
  | .delete => m.delete req.key
  | .clear => m.clear
  | _ => m

/-- One turn of the append loop of `writeBatch` (pkg/storage/batcher.go:160). -/
def appendBatched (d : DiskStore) (p : Command × Nonce) : DiskStore :=
  match batchRecord p.1 with
  | some r => d.append r p.2
  | none => d

/-- `writeBatch` (pkg/storage/batcher.go:152): all appends, one `Sync`, then the memory. -/
def writeBatch (d : DiskStore) (batch : List (Command × Nonce)) : DiskStore :=
  let d' := batch.foldl appendBatched d
  { d' with mem := batch.foldl (fun m p => applyBatched m p.1) d'.mem }

/-- `writeSingle` (pkg/storage/batcher.go:81). -/
def writeSingle (d : DiskStore) (req : Command) (nonce : Nonce) (now later : Int64) :
    Except Err Value × DiskStore :=
  match req.op with
  | .incr =>
    let d := d.append (.incr req.key) nonce
    let r := d.mem.incr req.key now
    (r.1.map .int, { d with mem := r.2 })
  | .cas =>
    match d.mem.get req.key now later with
    | (.error e, m) => (.error e, { d with mem := m })
    | (.ok cur, m) =>
      if cur ≠ req.old then (.ok (.bool false), { d with mem := m })
      else
        let d := d.append (.cas req.key req.old req.value) nonce
        (.ok (.bool true), { d with mem := m.put req.key req.value })
  | .expire =>
    match d.mem.get req.key now later with
    | (.error e, m) => (.error e, { d with mem := m })
    | (.ok _, m) =>
      let d := d.append (.expire req.key req.expiresAt) nonce
      let r := m.expire req.key req.expiresAt later
      (r.1.map fun _ => .none, { d with mem := r.2 })
  -- `storage: unexpected single op`; `batchLoop` sends no other operation here
  | _ => (.error .unknownOp, d)

end DiskStore

/-- What happens to an open store between two reopenings. -/
inductive Action where
  | batch (reqs : List (Command × Nonce))
  | single (req : Command) (nonce : Nonce) (now later : Int64)
  | get (key : Bytes) (now later : Int64)
  | sweep (now : Int64)
  | compact

/-- The clock readings an action takes. -/
def Action.readings : Action → List Int64
  | .batch _ => []
  | .single _ _ now later => [now, later]
  | .get _ now later => [now, later]
  | .sweep now => [now]
  | .compact => []

/-- One action. -/
def DiskStore.step (d : DiskStore) : Action → DiskStore
  | .batch reqs => d.writeBatch reqs
  | .single req nonce now later => (d.writeSingle req nonce now later).2
  | .get key now later => { d with mem := (d.mem.get key now later).2 }
  | .sweep now => { d with mem := (d.mem.sweepExpired now).2 }
  | .compact => d.compact

/-- A sequence of actions. -/
def DiskStore.run (d : DiskStore) (acts : List Action) : DiskStore := acts.foldl step d

end KvStore.Storage
