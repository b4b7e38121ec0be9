import KvStore.Framing.Stream
import KvStore.Storage.MemStore

/-!
# The write-ahead log

Model of the `WAL` half of `pkg/storage/wal.go` and of `pkg/storage/crypto.go`. The
file is its bytes. An append adds the encoding of one record, sealed when the log has
a cipher; replay parses the file again and applies what it reads to a `MemStore`.

* The source threads the number of unread bytes through `readString` as `remaining`;
  here it is the length of what is left of the file.
* `uint32(len(key))` drops the high bits of a length, as `bigEndian 4` does.
* AES-256-GCM is a parameter: `AtRestCipher` says that it opens exactly what it
  sealed and adds a tag of 16 bytes.

Results: `walRead_encode` (a record whose fields are within the bound is read back),
`walRead_oversized`, `walRead_torn` (a piece of a record is an error), `readFrame_frame` and
`readFrame_torn` for the encrypted log, and `replayPlain_flatMap`,
`replayEncrypted_flatMap` for whole files.
-/

namespace KvStore.Storage

open KvStore.Framing

/-- `maxRecordField` (pkg/storage/wal.go:34). -/
def maxRecordField : ℕ := 2 ^ 20

/-! ## Records -/

/-- A record of the log, one constructor per `opCode` (pkg/storage/wal.go:19). -/
inductive Record where
  | put (key value : Bytes)
  | delete (key : Bytes)
  | clear
  | incr (key : Bytes)
  | cas (key old new : Bytes)
  | expire (key : Bytes) (expiresAt : Int64)
  deriving DecidableEq, Repr

/-- A length-prefixed string. -/
def field (s : Bytes) : Bytes := bigEndian 4 s.length ++ s

namespace Record

/-- `AppendPut`, `AppendDelete`, `AppendClear`, `AppendIncr`, `AppendCAS` and
    `AppendExpire` (pkg/storage/wal.go:95). -/
def encode : Record → Bytes
  | .put key value => 1 :: (field key ++ field value)
  | .delete key => 2 :: field key
  | .clear => [3]
  | .incr key => 4 :: field key
  | .cas key old new => 5 :: (field key ++ (field old ++ field new))
  | .expire key expiresAt => 6 :: (field key ++ bigEndian 8 expiresAt.toUInt64.toNat)

/-- The strings of a record, in the order in which they are written. -/
def fields : Record → List Bytes
  | .put key value => [key, value]
  | .delete key => [key]
  | .clear => []
  | .incr key => [key]
  | .cas key old new => [key, old, new]
  | .expire key _ => [key]

/-- The command that a replayed record executes. -/
def command : Record → Command
  | .put key value => { op := .put, key := key, value := value }
  | .delete key => { op := .delete, key := key }
  | .clear => { op := .clear, key := [] }
  | .incr key => { op := .incr, key := key }
  | .cas key old new => { op := .cas, key := key, old := old, value := new }
  | .expire key expiresAt => { op := .expire, key := key, expiresAt := expiresAt }

/-- Every string of the record is within the bound that replay checks. -/
def Bounded (r : Record) : Prop := ∀ s ∈ r.fields, s.length ≤ maxRecordField

/-- No length of the record is cut by `uint32`. -/
def Addressable (r : Record) : Prop := ∀ s ∈ r.fields, s.length < 2 ^ 32

instance (r : Record) : Decidable r.Bounded :=
  inferInstanceAs (Decidable (∀ s ∈ r.fields, s.length ≤ maxRecordField))

theorem Bounded.addressable {r : Record} (h : r.Bounded) : r.Addressable := fun s hs =>
  lt_of_le_of_lt (h s hs) (by decide)

end Record

/-! ## Reading -/

/-- The errors of `io.ReadFull` and of the bound check. -/
inductive ReadError where
  | eof
  | unexpectedEOF
  | fieldTooLong
  deriving DecidableEq, Repr

/-- The errors of `Replay`, with the words of their messages. -/
inductive WalError where
  /-- `read wal <what>: ...` -/
  | read (what : String) (cause : ReadError)
  /-- `corrupted wal: unknown op code <code>` -/
  | unknownOp (code : UInt8)
  /-- `replay wal <what>: ...` -/
  | replay (cause : Err)
  /-- `encrypted wal missing header magic` -/
  | missingMagic
  /-- `encrypted wal record exceeds bound: <size>` -/
  | exceedsBound (size : ℕ)
  /-- `read encrypted wal record: ...` -/
  | readSealed (cause : ReadError)
  /-- `decrypt wal record: ...` -/
  | decrypt
  deriving DecidableEq, Repr

/-- `io.ReadFull` of `n` bytes: what was read and what is left. -/
def readFull (r : Bytes) (n : ℕ) : Except ReadError (Bytes × Bytes) :=
  if n ≤ r.length then .ok (r.take n, r.drop n)
  else if r = [] then .error .eof
  else .error .unexpectedEOF

/-- `readString` (pkg/storage/wal.go:393). -/
def readString (r : Bytes) : Except ReadError (Bytes × Bytes) :=
  match readFull r 4 with
  | .error e => .error e
  | .ok (lenBuf, r) =>
    let length := ofBigEndian lenBuf
    if length > maxRecordField then .error .fieldTooLong
    else if length > r.length then .error .unexpectedEOF
    else readFull r length

/-- A field of a record, with the error context of `applyRecord`. -/
def readField (what : String) (r : Bytes) : Except WalError (Bytes × Bytes) :=
  (readString r).mapError (.read what)

/-- The deadline of an `opExpire` record (pkg/storage/wal.go:367). -/
def readDeadline (r : Bytes) : Except WalError (Int64 × Bytes) :=
  if r.length < 8 then .error (.read "expire ts" .unexpectedEOF)
  else match readFull r 8 with
    | .error e => .error (.read "expire ts" e)
    | .ok (tsBuf, r) => .ok ((UInt64.ofNat (ofBigEndian tsBuf)).toInt64, r)

/-- The parsing half of `applyRecord` (pkg/storage/wal.go:311): the record whose op
    byte was `op`, and the unread bytes. -/
def readRecord (op : UInt8) (r : Bytes) : Except WalError (Record × Bytes) :=
  match op with
  | 1 => do
    let (key, r) ← readField "put key" r
    let (value, r) ← readField "put value" r
    return (.put key value, r)
  | 2 => do
    let (key, r) ← readField "delete key" r
    return (.delete key, r)
  | 3 => return (.clear, r)
  | 4 => do
    let (key, r) ← readField "incr key" r
    return (.incr key, r)
  | 5 => do
    let (key, r) ← readField "cas key" r
    let (old, r) ← readField "cas old" r
    let (new, r) ← readField "cas new" r
    return (.cas key old new, r)
  | 6 => do
    let (key, r) ← readField "expire key" r
    let (expiresAt, r) ← readDeadline r
    return (.expire key expiresAt, r)
  | _ => throw (.unknownOp op)

/-- One turn of the loop of `replayPlain` before the record is applied. -/
def walRead : Bytes → Read UInt8 Record WalError
  | [] => .stop
  | op :: r =>
    match readRecord op r with
    | .error e => .fail e
    | .ok (record, rest) => .item record rest

/-! ### The encoding is self-delimiting -/

/-- Two strings written at the same place are the same string, if `uint32` cuts
    neither length. -/
theorem field_inj {s s' x x' : Bytes} (hs : s.length < 2 ^ 32) (hs' : s'.length < 2 ^ 32)
    (h : field s ++ x = field s' ++ x') : s = s' ∧ x = x' := by
  simp only [field, List.append_assoc] at h
  obtain ⟨hlen, hrest⟩ := List.append_inj h (by simp)
  have hlen' : s.length = s'.length := by
    have := congrArg ofBigEndian hlen
    rwa [ofBigEndian_bigEndian_of_lt (by simpa using hs),
      ofBigEndian_bigEndian_of_lt (by simpa using hs')] at this
  exact List.append_inj hrest hlen'

theorem readString_eq_ok_iff {p s rest : Bytes} :
    readString p = .ok (s, rest) ↔ s.length ≤ maxRecordField ∧ p = field s ++ rest := by
  constructor
  · intro h
    unfold readString readFull at h
    split_ifs at h with h4 hempty
    dsimp only at h
    split_ifs at h with hmax hshort hle
    cases h
    have hlen : (p.take 4).length = 4 := by simpa using h4
    have hs : ((p.drop 4).take (ofBigEndian (p.take 4))).length = ofBigEndian (p.take 4) := by
      simpa using hle
    refine ⟨by rw [hs]; omega, ?_⟩
    have hback := bigEndian_ofBigEndian (p.take 4)
    rw [hlen] at hback
    rw [field, hs, hback, List.append_assoc, List.take_append_drop, List.take_append_drop]
  · rintro ⟨hmax, rfl⟩
    have hlt : s.length < 256 ^ 4 := lt_of_le_of_lt hmax (by decide)
    have htake : (field s ++ rest).take 4 = bigEndian 4 s.length := by
      rw [field, List.append_assoc, List.take_left' (by simp)]
    have hdrop : (field s ++ rest).drop 4 = s ++ rest := by
      rw [field, List.append_assoc, List.drop_left' (by simp)]
    have h4 : 4 ≤ (field s ++ rest).length := by simp [field]
    unfold readString readFull
    rw [if_pos h4]
    dsimp only
    rw [htake, hdrop, ofBigEndian_bigEndian_of_lt hlt, if_neg (by omega), if_neg (by simp),
      if_pos (by simp), List.take_left, List.drop_left]

theorem readField_eq_ok_iff {what : String} {p s rest : Bytes} :
    readField what p = .ok (s, rest) ↔ s.length ≤ maxRecordField ∧ p = field s ++ rest := by
  rw [← readString_eq_ok_iff, readField]
  cases readString p <;> simp [Except.mapError]

namespace Record

theorem encode_ne_nil (r : Record) : r.encode ≠ [] := by cases r <;> simp [encode]

/-- Records are self-delimiting: two records at the head of one stream are equal. -/
theorem encode_inj {r r' : Record} (hr : r.Addressable) (hr' : r'.Addressable) {x x' : Bytes}
    (h : r.encode ++ x = r'.encode ++ x') : r = r' ∧ x = x' := by
  cases r <;> cases r' <;> simp [encode] at h <;> simp [Addressable, fields] at hr hr'
  case put.put =>
    obtain ⟨rfl, h'⟩ := field_inj hr.1 hr'.1 h
    obtain ⟨rfl, rfl⟩ := field_inj hr.2 hr'.2 h'
    exact ⟨rfl, rfl⟩
  case delete.delete =>
    obtain ⟨rfl, rfl⟩ := field_inj hr hr' h
    exact ⟨rfl, rfl⟩
  case clear.clear => exact ⟨rfl, h⟩
  case incr.incr =>
    obtain ⟨rfl, rfl⟩ := field_inj hr hr' h
    exact ⟨rfl, rfl⟩
  case cas.cas =>
    obtain ⟨rfl, h'⟩ := field_inj hr.1 hr'.1 h
    obtain ⟨rfl, h''⟩ := field_inj hr.2.1 hr'.2.1 h'
    obtain ⟨rfl, rfl⟩ := field_inj hr.2.2 hr'.2.2 h''
    exact ⟨rfl, rfl⟩
  case expire.expire =>
    obtain ⟨rfl, h'⟩ := field_inj hr hr' h
    obtain ⟨hts, rfl⟩ := List.append_inj h' (by simp)
    have hnat := congrArg ofBigEndian hts
    rw [ofBigEndian_bigEndian_of_lt (UInt64.toNat_lt _),
      ofBigEndian_bigEndian_of_lt (UInt64.toNat_lt _)] at hnat
    have hint := congrArg (fun n => (UInt64.ofNat n).toInt64) hnat
    simp only [UInt64.ofNat_toNat, Int64.toInt64_toUInt64] at hint
    exact ⟨by rw [hint], rfl⟩

end Record

theorem bind_eq_ok_iff {ε α β : Type} {x : Except ε α} {f : α → Except ε β} {b : β} :
    (x >>= f) = .ok b ↔ ∃ a, x = .ok a ∧ f a = .ok b := by
  cases x <;> simp [bind, Except.bind]

theorem readDeadline_eq_ok_iff {p rest : Bytes} {expiresAt : Int64} :
    readDeadline p = .ok (expiresAt, rest) ↔
      p = bigEndian 8 expiresAt.toUInt64.toNat ++ rest := by
  unfold readDeadline readFull
  constructor
  · intro h
    split_ifs at h with h8 hle
    · cases h
      have hlen : (p.take 8).length = 8 := by simpa using hle
      have hback := bigEndian_ofBigEndian (p.take 8)
      have hlt : ofBigEndian (p.take 8) < 2 ^ 64 := by
        have := ofBigEndian_lt (p.take 8)
        rwa [hlen] at this
      rw [hlen] at hback
      rw [UInt64.toUInt64_toInt64, UInt64.toNat_ofNat_of_lt' hlt, hback, List.take_append_drop]
  · rintro rfl
    simp [ofBigEndian_bigEndian_of_lt (w := 8) (UInt64.toNat_lt _)]

/-- What `applyRecord` reads is an encoded record within the bound. -/
theorem encode_of_readRecord {op : UInt8} {r rest : Bytes} {record : Record}
    (h : readRecord op r = .ok (record, rest)) :
    record.Bounded ∧ op :: r = record.encode ++ rest := by
  unfold readRecord at h
  split at h
  · simp only [bind_eq_ok_iff, Prod.exists, readField_eq_ok_iff] at h
    obtain ⟨key, _, ⟨hkey, rfl⟩, value, _, ⟨hvalue, rfl⟩, heq⟩ := h
    cases heq
    simp [Record.Bounded, Record.fields, Record.encode, hkey, hvalue]
  · simp only [bind_eq_ok_iff, Prod.exists, readField_eq_ok_iff] at h
    obtain ⟨key, _, ⟨hkey, rfl⟩, heq⟩ := h
    cases heq
    simp [Record.Bounded, Record.fields, Record.encode, hkey]
  · cases h
    simp [Record.Bounded, Record.fields, Record.encode]
  · simp only [bind_eq_ok_iff, Prod.exists, readField_eq_ok_iff] at h
    obtain ⟨key, _, ⟨hkey, rfl⟩, heq⟩ := h
    cases heq
    simp [Record.Bounded, Record.fields, Record.encode, hkey]
  · simp only [bind_eq_ok_iff, Prod.exists, readField_eq_ok_iff] at h
    obtain ⟨key, _, ⟨hkey, rfl⟩, old, _, ⟨hold, rfl⟩, new, _, ⟨hnew, rfl⟩, heq⟩ := h
    cases heq
    simp [Record.Bounded, Record.fields, Record.encode, hkey, hold, hnew]
  · simp only [bind_eq_ok_iff, Prod.exists, readField_eq_ok_iff, readDeadline_eq_ok_iff] at h
    obtain ⟨key, _, ⟨hkey, rfl⟩, expiresAt, _, rfl, heq⟩ := h
    cases heq
    simp [Record.Bounded, Record.fields, Record.encode, hkey]
  · cases h

theorem readField_field (what : String) {s : Bytes} (h : s.length ≤ maxRecordField) (x : Bytes) :
    readField what (field s ++ x) = .ok (s, x) := readField_eq_ok_iff.mpr ⟨h, rfl⟩

/-- The reader finds exactly the records within the bound. -/
theorem walRead_eq_item_iff {bytes rest : Bytes} {record : Record} :
    walRead bytes = .item record rest ↔ record.Bounded ∧ bytes = record.encode ++ rest := by
  constructor
  · intro h
    rcases bytes with - | ⟨op, r⟩
    · cases h
    · simp only [walRead] at h
      cases hread : readRecord op r with
      | error e => rw [hread] at h; cases h
      | ok p =>
        rw [hread] at h
        cases h
        exact encode_of_readRecord hread
  · rintro ⟨hb, rfl⟩
    cases record with
    | put key value =>
      simp only [Record.Bounded, Record.fields, List.forall_mem_cons] at hb
      simp [walRead, Record.encode, readRecord, readField_field _ hb.1, readField_field _ hb.2.1,
        bind, Except.bind, pure, Except.pure]
    | delete key =>
      simp only [Record.Bounded, Record.fields, List.forall_mem_cons] at hb
      simp [walRead, Record.encode, readRecord, readField_field _ hb.1,
        bind, Except.bind, pure, Except.pure]
    | clear => rfl
    | incr key =>
      simp only [Record.Bounded, Record.fields, List.forall_mem_cons] at hb
      simp [walRead, Record.encode, readRecord, readField_field _ hb.1,
        bind, Except.bind, pure, Except.pure]
    | cas key old new =>
      simp only [Record.Bounded, Record.fields, List.forall_mem_cons] at hb
      simp [walRead, Record.encode, readRecord, readField_field _ hb.1, readField_field _ hb.2.1,
        readField_field _ hb.2.2.1, bind, Except.bind, pure, Except.pure]
    | expire key expiresAt =>
      simp only [Record.Bounded, Record.fields, List.forall_mem_cons] at hb
      simp [walRead, Record.encode, readRecord, readField_field _ hb.1,
        readDeadline_eq_ok_iff.mpr rfl, bind, Except.bind, pure, Except.pure]

theorem walRead_reader : Reader walRead where
  nil := rfl
  progress := by
    intro bytes r rest h
    obtain ⟨-, rfl⟩ := walRead_eq_item_iff.mp h
    have := List.length_pos_of_ne_nil r.encode_ne_nil
    simp only [List.length_append]
    omega

theorem walRead_eq_stop {bytes : Bytes} (h : walRead bytes = .stop) : bytes = [] := by
  rcases bytes with - | ⟨op, r⟩
  · rfl
  · simp only [walRead] at h
    split at h <;> cases h

/-- On a stream that does not start with a record within the bound the reader fails. -/
theorem walRead_fails {bytes : Bytes} (hne : bytes ≠ [])
    (h : ∀ (record : Record) rest, record.Bounded → bytes ≠ record.encode ++ rest) :
    ∃ e, walRead bytes = .fail e := by
  cases hread : walRead bytes with
  | stop => exact absurd (walRead_eq_stop hread) hne
  | item record rest =>
    obtain ⟨hb, heq⟩ := walRead_eq_item_iff.mp hread
    exact absurd heq (h record rest hb)
  | fail e => exact ⟨e, rfl⟩

/-- A record beyond the bound is an error, whatever follows. -/
theorem walRead_oversized {r : Record} (ha : r.Addressable) (hb : ¬ r.Bounded) (rest : Bytes) :
    ∃ e, walRead (r.encode ++ rest) = .fail e := by
  refine walRead_fails (by simp [r.encode_ne_nil]) fun record rest' hb' heq => ?_
  obtain ⟨rfl, -⟩ := Record.encode_inj ha hb'.addressable heq
  exact hb hb'

/-- A proper piece of a record is an error. -/
theorem walRead_torn {r : Record} (ha : r.Addressable) {j : ℕ} (hj : 0 < j)
    (hlt : j < r.encode.length) : ∃ e, walRead (r.encode.take j) = .fail e := by
  refine walRead_fails ?_ fun record rest hb heq => ?_
  · intro h
    have := congrArg List.length h
    simp only [List.length_take, List.length_nil] at this
    omega
  · -- the piece would contain a whole record, and so would the whole encoding
    have hfull : r.encode ++ [] = record.encode ++ (rest ++ r.encode.drop j) := by
      rw [← List.append_assoc, ← heq, List.take_append_drop, List.append_nil]
    have hnil := congrArg List.length (Record.encode_inj ha hb.addressable hfull).2
    simp only [List.length_nil, List.length_append, List.length_drop] at hnil
    omega

/-! ## Replay -/

namespace Record

/-- The errors of the store that `applyRecord` takes for the outcome the operation had
    when it was logged; what `Put`, `Delete` and `Clear` return is dropped. -/
def tolerates : Record → Err → Bool
  | .incr _, e => e = .notNumeric || e = .overflow
  | .cas .., e => e = .notFound
  | .expire .., e => e = .notFound
  | _, _ => true

/-- The second half of `applyRecord` (pkg/storage/wal.go:311), at the clock reading `now`. -/
def replay (now : Int64) (r : Record) (m : MemStore) : Option WalError × MemStore :=
  let res := m.apply r.command now
  match res.1 with
  | .ok _ => (none, res.2)
  | .error e => if r.tolerates e then (none, res.2) else (some (.replay e), res.2)

/-- Replaying a record executes its command and never fails. -/
theorem replay_eq (now : Int64) (r : Record) (m : MemStore) :
    r.replay now m = (none, (m.apply r.command now).2) := by
  have hres := MemStore.apply_result m now r.command
  unfold replay
  cases h : (m.apply r.command now).1 with
  | ok v => simp [h]
  | error e =>
    suffices ht : r.tolerates e = true by simp [h, ht]
    rw [h] at hres
    cases r with
    | incr key =>
      simp only [command, Command.onCell] at hres
      split at hres
      · cases hres
      · split at hres
        · cases hres; rfl
        · split_ifs at hres; cases hres; rfl
    | cas key old new =>
      simp only [command, Command.onCell] at hres
      split at hres
      · cases hres; rfl
      · rename_i v _
        by_cases hv : v.value = old <;> simp [hv] at hres
    | expire key expiresAt =>
      simp only [command, Command.onCell] at hres
      split at hres
      · cases hres; rfl
      · cases hres
    | _ => rfl

end Record

/-- The store after the commands of some records, all at the reading `now`. -/
def MemStore.replayed (m : MemStore) (now : Int64) (rs : List Record) : MemStore :=
  rs.foldl (fun m r => (m.apply r.command now).2) m

/-- `replayPlain` (pkg/storage/wal.go:206): the error it returns, if any, and the
    store it leaves behind. -/
def replayPlain (now : Int64) (file : Bytes) (m : MemStore) : Option WalError × MemStore :=
  feed walRead (Record.replay now) file m

theorem replayPlain_flatMap {rs : List Record} (h : ∀ r ∈ rs, r.Bounded) (now : Int64)
    (tail : Bytes) (m : MemStore) :
    replayPlain now (rs.flatMap Record.encode ++ tail) m =
      replayPlain now tail (m.replayed now rs) := by
  unfold replayPlain MemStore.replayed
  exact feed_flatMap walRead_reader (g := id)
    (fun r hr rest => walRead_eq_item_iff.mpr ⟨h r hr, rfl⟩) (fun r _ m => r.replay_eq now m) tail m

/-- The records that `replayPlain` applies: the longest list of encoded records within
    the bound that the file starts with. -/
abbrev DecodablePart : List Record → Bytes → Prop := Longest Record.encode Record.Bounded

/-- `replayPlain` accepts exactly the concatenations of encoded records within the bound,
    and of any other file it applies the decodable part. -/
theorem replayPlain_applies_longest (now : Int64) (m : MemStore) :
    (∀ file, ∃ rs, DecodablePart rs file ∧ (∀ rs', DecodablePart rs' file → rs' = rs) ∧
      (replayPlain now file m).2 = m.replayed now rs ∧
      ((replayPlain now file m).1 = none ↔ rs.flatMap Record.encode = file)) ∧
    ∀ rs : List Record, (∀ r ∈ rs, r.Bounded) →
      replayPlain now (rs.flatMap Record.encode) m = (none, m.replayed now rs) := by
  constructor
  · intro file
    obtain ⟨rs, hstarts, hmax, hstore, herr⟩ :=
      feed_longest walRead_reader walRead_eq_item_iff walRead_eq_stop
        (fun r m _ => r.replay_eq now m) file m
    have hlongest : DecodablePart rs file := ⟨hstarts, fun rs' h' => (hmax rs' h').length_le⟩
    exact ⟨rs, hlongest, fun rs' h' => h'.eq hstarts hmax, hstore, herr⟩
  · intro rs hbounded
    have h := replayPlain_flatMap hbounded now [] m
    rw [List.append_nil] at h
    rw [h]
    exact feed_nil _

/-! ## Encryption at rest -/

/-- `atRestCipher` (pkg/storage/crypto.go:51): AES-256-GCM under one key, as the
    functions `Seal` and `Open` of the standard library. It opens exactly what it
    sealed. -/
structure AtRestCipher where
  key : Bytes
  sealWith : Bytes → Bytes → Bytes
  openWith : Bytes → Bytes → Option Bytes
  length_sealWith : ∀ nonce plain, (sealWith nonce plain).length = plain.length + 16
  openWith_eq_some_iff : ∀ {nonce c plain},
    openWith nonce c = some plain ↔ c = sealWith nonce plain

/-- `atRestNonceSize` (pkg/storage/crypto.go:16). -/
def atRestNonceSize : ℕ := 12

/-- `walEncryptedMagic` (pkg/storage/crypto.go:21). -/
def walEncryptedMagic : UInt8 := 0xF0

/-- What `rand.Read` fills a nonce with. -/
abbrev Nonce := { nonce : Bytes // nonce.length = atRestNonceSize }

/-- Some nonce. -/
def zeroNonce : Nonce := ⟨List.replicate 12 0, rfl⟩

namespace AtRestCipher

variable (c : AtRestCipher)

/-- `Encrypt` (pkg/storage/crypto.go:72) with the nonce it has drawn. -/
def encrypt (nonce : Nonce) (plain : Bytes) : Bytes := nonce.1 ++ c.sealWith nonce.1 plain

/-- `Decrypt` (pkg/storage/crypto.go:81); `none` is `ErrDecrypt`. -/
def decrypt (sealed : Bytes) : Option Bytes :=
  if sealed.length < atRestNonceSize then none
  else c.openWith (sealed.take atRestNonceSize) (sealed.drop atRestNonceSize)

@[simp] theorem length_encrypt (nonce : Nonce) (plain : Bytes) :
    (c.encrypt nonce plain).length = plain.length + 28 := by
  rw [encrypt, List.length_append, c.length_sealWith, nonce.2, atRestNonceSize]
  omega

@[simp] theorem decrypt_encrypt (nonce : Nonce) (plain : Bytes) :
    c.decrypt (c.encrypt nonce plain) = some plain := by
  have hlen : ¬ (c.encrypt nonce plain).length < atRestNonceSize := by
    rw [length_encrypt, atRestNonceSize]
    omega
  rw [decrypt, if_neg hlen, encrypt, List.take_left' nonce.2, List.drop_left' nonce.2,
    c.openWith_eq_some_iff]

end AtRestCipher

/-- A cipher that only adds a tag of equal bytes: the laws of `AtRestCipher` can be met. -/
def AtRestCipher.withTag (key : Bytes) (tag : UInt8) : AtRestCipher where
  key := key
  sealWith _ plain := plain ++ List.replicate 16 tag
  openWith _ c :=
    if c = c.take (c.length - 16) ++ List.replicate 16 tag then some (c.take (c.length - 16))
    else none
  length_sealWith := by simp
  openWith_eq_some_iff := by
    intro nonce c plain
    constructor
    · intro h
      split_ifs at h with hc
      rw [← Option.some.inj h]
      exact hc
    · rintro rfl
      simp

/-- The one with the empty key and a tag of zeros. -/
def AtRestCipher.tagged : AtRestCipher := withTag [] 0

/-- The bound on a sealed record (pkg/storage/wal.go:272). -/
def maxSealed : ℕ := maxRecordField * 2 + 64

/-- One turn of the loop of `replayEncrypted` (pkg/storage/wal.go:262) up to
    `Decrypt`: a missing or incomplete length, and a body of which no byte is there,
    end the log without an error. -/
def readFrame (r : Bytes) : Read UInt8 Bytes WalError :=
  match readFull r 4 with
  | .error _ => .stop
  | .ok (lenBuf, r) =>
    let sealedLen := ofBigEndian lenBuf
    if sealedLen > maxSealed then .fail (.exceedsBound sealedLen)
    else match readFull r sealedLen with
      | .error .eof => .stop
      | .error e => .fail (.readSealed e)
      | .ok (sealed, r) => .item sealed r

/-- The rest of the turn: the sealed blob is opened and parsed like a plaintext log. -/
def applySealed (c : AtRestCipher) (now : Int64) (sealed : Bytes) (m : MemStore) :
    Option WalError × MemStore :=
  match c.decrypt sealed with
  | none => (some .decrypt, m)
  | some plain => replayPlain now plain m

/-- `replayEncrypted` (pkg/storage/wal.go:242). -/
def replayEncrypted (c : AtRestCipher) (now : Int64) (file : Bytes) (m : MemStore) :
    Option WalError × MemStore :=
  match file with
  | [] => (none, m)
  | magic :: r =>
    if magic ≠ walEncryptedMagic then (some .missingMagic, m)
    else feed readFrame (applySealed c now) r m

/-- `Replay` (pkg/storage/wal.go:199). -/
def walReplay (cipher : Option AtRestCipher) (now : Int64) (file : Bytes) (m : MemStore) :
    Option WalError × MemStore :=
  match cipher with
  | none => replayPlain now file m
  | some c => replayEncrypted c now file m

/-- What `append` (pkg/storage/wal.go:150) writes for one record; the nonce is drawn
    only when the log is encrypted. -/
def walFrame (cipher : Option AtRestCipher) (p : Record × Nonce) : Bytes :=
  match cipher with
  | none => p.1.encode
  | some c => field (c.encrypt p.2 p.1.encode)

/-- The file after `Truncate` (pkg/storage/wal.go:181), which is also what a new log
    starts with (pkg/storage/wal.go:62). -/
def walEmpty (cipher : Option AtRestCipher) : Bytes :=
  match cipher with
  | none => []
  | some _ => [walEncryptedMagic]

/-! ### Sealed frames -/

theorem length_field (s : Bytes) : (field s).length = s.length + 4 := by
  rw [field, List.length_append, length_bigEndian, Nat.add_comm]

theorem readFrame_short {r : Bytes} (h : r.length < 4) : readFrame r = .stop := by
  have hread : ∃ e, readFull r 4 = .error e := by
    unfold readFull
    rw [if_neg (by omega)]
    split_ifs <;> exact ⟨_, rfl⟩
  obtain ⟨e, he⟩ := hread
  rw [readFrame, he]

theorem readFrame_header {n : ℕ} (hn : n < 2 ^ 32) (r : Bytes) :
    readFrame (bigEndian 4 n ++ r) =
      if n > maxSealed then .fail (.exceedsBound n)
      else match readFull r n with
        | .error .eof => .stop
        | .error e => .fail (.readSealed e)
        | .ok (sealed, r) => .item sealed r := by
  have hread : readFull (bigEndian 4 n ++ r) 4 = .ok (bigEndian 4 n, r) := by
    rw [readFull, if_pos (by simp), List.take_left' (by simp), List.drop_left' (by simp)]
  rw [readFrame, hread]
  dsimp only
  rw [ofBigEndian_bigEndian_of_lt (by simpa using hn)]

theorem readFrame_field {blob : Bytes} (h : blob.length ≤ maxSealed) (rest : Bytes) :
    readFrame (field blob ++ rest) = .item blob rest := by
  have hlt : blob.length < 2 ^ 32 := lt_of_le_of_lt h (by decide)
  rw [field, List.append_assoc, readFrame_header hlt, if_neg (by omega), readFull,
    if_pos (by simp), List.take_left, List.drop_left]

theorem readFrame_oversized {blob : Bytes} (hlt : blob.length < 2 ^ 32)
    (h : maxSealed < blob.length) (rest : Bytes) :
    readFrame (field blob ++ rest) = .fail (.exceedsBound blob.length) := by
  rw [field, List.append_assoc, readFrame_header hlt, if_pos h]

theorem readFrame_reader : Reader readFrame where
  nil := readFrame_short (by simp)
  progress := by
    intro bytes r rest h
    unfold readFrame readFull at h
    split_ifs at h with h4 hempty
    dsimp only at h
    split_ifs at h with hmax hle
    cases h
    simp only [List.length_drop]
    omega

/-- A length of which no byte follows ends the log, if it is within the bound. -/
theorem readFrame_bare_header {n : ℕ} (hpos : 0 < n) (hn : n ≤ maxSealed) :
    readFrame (bigEndian 4 n) = .stop := by
  have hlt : n < 2 ^ 32 := lt_of_le_of_lt hn (by decide)
  have h := readFrame_header hlt []
  rw [List.append_nil, if_neg (by omega), readFull, if_neg (by simp; omega), if_pos rfl] at h
  exact h

/-- A sealed body of which some bytes are missing is an error. -/
theorem readFrame_torn_body {blob : Bytes} (hlt : blob.length < 2 ^ 32) {j : ℕ} (hj : 4 < j)
    (hjlt : j < (field blob).length) : ∃ e, readFrame ((field blob).take j) = .fail e := by
  rw [length_field] at hjlt
  have htake : (field blob).take j = bigEndian 4 blob.length ++ blob.take (j - 4) := by
    rw [field, List.take_append, List.take_of_length_le (by simp; omega), length_bigEndian]
  rw [htake, readFrame_header hlt]
  split_ifs with hmax
  · exact ⟨_, rfl⟩
  · have hne : blob.take (j - 4) ≠ [] := by
      intro h
      have := congrArg List.length h
      simp only [List.length_take, List.length_nil] at this
      omega
    rw [readFull, if_neg (by simp; omega), if_neg hne]
    exact ⟨_, rfl⟩

/-! ## Whole files, in either mode -/

/-- Replay accepts the record: its strings are within the bound and, in an encrypted
    log, so is its sealed form. -/
def Record.Readable (cipher : Option AtRestCipher) (r : Record) : Prop :=
  r.Bounded ∧ (cipher.isSome → r.encode.length + 28 ≤ maxSealed)

instance (cipher : Option AtRestCipher) (r : Record) : Decidable (r.Readable cipher) :=
  inferInstanceAs (Decidable (_ ∧ _))

/-- The record, sealed or not, takes less than 4 GiB, so that `uint32` cuts none of
    its lengths. -/
def Record.Small (r : Record) : Prop := r.encode.length + 28 < 2 ^ 32

theorem Record.Small.addressable {r : Record} (h : r.Small) : r.Addressable := by
  unfold Small at h
  intro s hs
  cases r <;> simp only [fields, List.mem_cons, List.not_mem_nil, or_false] at hs <;>
    simp only [encode, List.length_cons, List.length_append, length_field, length_bigEndian] at h
  case put => rcases hs with rfl | rfl <;> omega
  case delete => subst hs; omega
  case incr => subst hs; omega
  case cas => rcases hs with rfl | rfl | rfl <;> omega
  case expire => subst hs; omega

/-- Opening the sealed form of a readable record replays the record. -/
theorem applySealed_encrypt (c : AtRestCipher) (now : Int64) {r : Record} (h : r.Bounded)
    (nonce : Nonce) (m : MemStore) :
    applySealed c now (c.encrypt nonce r.encode) m = (none, (m.apply r.command now).2) := by
  rw [applySealed, c.decrypt_encrypt]
  have hbounded : ∀ r' ∈ [r], r'.Bounded := by simpa using h
  have hone := replayPlain_flatMap hbounded now [] m
  simpa [replayPlain, feed_nil, MemStore.replayed] using hone

theorem replayEncrypted_cons (c : AtRestCipher) (now : Int64) (r : Bytes) (m : MemStore) :
    replayEncrypted c now (walEncryptedMagic :: r) m = feed readFrame (applySealed c now) r m := by
  simp [replayEncrypted]

/-- Replay executes the records a file starts with, in order, and goes on with the rest. -/
theorem walReplay_flatMap (cipher : Option AtRestCipher) {ps : List (Record × Nonce)}
    (h : ∀ p ∈ ps, p.1.Readable cipher) (now : Int64) (tail : Bytes) (m : MemStore) :
    walReplay cipher now (walEmpty cipher ++ (ps.flatMap (walFrame cipher) ++ tail)) m =
      walReplay cipher now (walEmpty cipher ++ tail) (m.replayed now (ps.map Prod.fst)) := by
  unfold MemStore.replayed
  rw [List.foldl_map]
  cases cipher with
  | none =>
    exact feed_flatMap walRead_reader (g := Prod.fst)
      (fun p hp rest => walRead_eq_item_iff.mpr ⟨(h p hp).1, rfl⟩)
      (fun p _ m => p.1.replay_eq now m) tail m
  | some c =>
    have hread : ∀ p ∈ ps, ∀ rest, readFrame (walFrame (some c) p ++ rest) =
        .item (c.encrypt p.2 p.1.encode) rest := by
      intro p hp rest
      have hlen := (h p hp).2 rfl
      rw [← c.length_encrypt p.2] at hlen
      exact readFrame_field hlen rest
    have happly : ∀ p ∈ ps, ∀ m, applySealed c now (c.encrypt p.2 p.1.encode) m =
        (none, (m.apply p.1.command now).2) :=
      fun p hp m => applySealed_encrypt c now (h p hp).1 p.2 m
    simp only [walReplay, walEmpty, List.singleton_append, replayEncrypted_cons]
    exact feed_flatMap readFrame_reader hread happly tail m

/-- Replay fails at a record it does not accept. -/
theorem walReplay_unreadable (cipher : Option AtRestCipher) {p : Record × Nonce} (hs : p.1.Small)
    (h : ¬ p.1.Readable cipher) (now : Int64) (rest : Bytes) (m : MemStore) :
    ∃ e, (walReplay cipher now (walEmpty cipher ++ (walFrame cipher p ++ rest)) m).1 = some e := by
  cases cipher with
  | none =>
    have hb : ¬ p.1.Bounded := fun hb => h ⟨hb, by simp⟩
    obtain ⟨e, he⟩ := walRead_oversized hs.addressable hb rest
    exact ⟨e, congrArg Prod.fst (feed_fail walRead_reader he m)⟩
  | some c =>
    simp only [walReplay, walEmpty, List.singleton_append, replayEncrypted_cons, walFrame]
    by_cases hlen : p.1.encode.length + 28 ≤ maxSealed
    · -- the frame is read, but the record inside is beyond the bound
      have hb : ¬ p.1.Bounded := fun hb => h ⟨hb, fun _ => hlen⟩
      obtain ⟨e, he⟩ := walRead_oversized hs.addressable hb []
      rw [List.append_nil] at he
      have happly : applySealed c now (c.encrypt p.2 p.1.encode) m = (some e, m) := by
        rw [applySealed, c.decrypt_encrypt]
        exact feed_fail walRead_reader he m
      refine ⟨e, ?_⟩
      rw [feed_item readFrame_reader (readFrame_field (by rwa [c.length_encrypt]) rest), happly]
    · have hlt : (c.encrypt p.2 p.1.encode).length < 2 ^ 32 := by
        rw [c.length_encrypt]; exact hs
      have hmax : maxSealed < (c.encrypt p.2 p.1.encode).length := by
        rw [c.length_encrypt]; omega
      have hfail := readFrame_oversized hlt hmax rest
      exact ⟨_, congrArg Prod.fst (feed_fail readFrame_reader hfail m)⟩

/-- Replay fails at the first record it does not accept. -/
theorem walReplay_flatMap_unreadable (cipher : Option AtRestCipher) {ps : List (Record × Nonce)}
    (hsmall : ∀ p ∈ ps, p.1.Small) (hps : ¬ ∀ p ∈ ps, p.1.Readable cipher) (now : Int64)
    (rest : Bytes) (m : MemStore) :
    ∃ e, (walReplay cipher now
      (walEmpty cipher ++ (ps.flatMap (walFrame cipher) ++ rest)) m).1 = some e := by
  induction ps generalizing m with
  | nil => exact absurd (by simp) hps
  | cons p ps ih =>
    rw [List.flatMap_cons, List.append_assoc]
    by_cases hp : p.1.Readable cipher
    · have hrest : ¬ ∀ q ∈ ps, q.1.Readable cipher := by
        intro hall
        refine hps fun q hq => ?_
        rcases List.mem_cons.mp hq with rfl | hq
        · exact hp
        · exact hall q hq
      have hread : ∀ q ∈ [p], q.1.Readable cipher := by simpa using hp
      have hone := walReplay_flatMap cipher hread now
        (ps.flatMap (walFrame cipher) ++ rest) m
      simp only [List.flatMap_cons, List.flatMap_nil, List.append_nil, List.map_cons,
        List.map_nil] at hone
      rw [hone]
      exact ih (fun q hq => hsmall q (List.mem_cons_of_mem _ hq)) hrest _
    · exact walReplay_unreadable cipher (hsmall p List.mem_cons_self) hp now _ m

/-- An empty log replays to nothing. -/
theorem walReplay_walEmpty (cipher : Option AtRestCipher) (now : Int64) (m : MemStore) :
    walReplay cipher now (walEmpty cipher) m = (none, m) := by
  cases cipher with
  | none => rfl
  | some c => simp [walReplay, walEmpty, replayEncrypted, feed_nil]

end KvStore.Storage
