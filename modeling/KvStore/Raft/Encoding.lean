import KvStore.Framing.Json
import KvStore.Raft.Types
import KvStore.Storage.Wal

/-!
# The JSON of messages and of the raft state

`HTTPTransport.do` sends a request as JSON (pkg/raft/transport_http.go:49), and a
`RaftStore` writes the state as JSON (pkg/raft/persistence.go:47), sealed if the node
has a key. The strings of a command are Go strings with arbitrary bytes, so both pass
through `Utf8.repair`.

* `transmit_eq`, `load_save_eq`: what the other side decodes, for every request and
  every state.
* `entry_survives_iff`: an entry is decoded as it was sent, and loaded as it was saved,
  exactly when its key, old value and value are UTF-8.
-/

namespace KvStore.Storage

/-- The number of an operation (pkg/storage/engine.go:60). -/
def Op.code : Op → UInt8
  | .put => 1
  | .delete => 2
  | .clear => 3
  | .incr => 4
  | .cas => 5
  | .expire => 6
  | .other code => code

/-- The operation of a number. -/
def Op.ofCode : UInt8 → Op
  | 1 => .put
  | 2 => .delete
  | 3 => .clear
  | 4 => .incr
  | 5 => .cas
  | 6 => .expire
  | code => .other code

theorem Op.ofCode_code {op : Op} (h : ∀ code, op ≠ .other code) : Op.ofCode op.code = op := by
  cases op with
  | other code => exact absurd rfl (h code)
  | _ => rfl

/-- The strings of a command are UTF-8. -/
def Command.IsText (cmd : Command) : Prop :=
  Utf8.Valid cmd.key ∧ Utf8.Valid cmd.old ∧ Utf8.Valid cmd.value

end KvStore.Storage

namespace KvStore.Raft

open KvStore.Storage (Bytes Command Op AtRestCipher)
open KvStore.Json (Value ofInt ofBytes ofList ofOption toInt toBytes toList toOption field)

/-! ## Documents -/

/-- A `uint8`. -/
def toUInt8 : Value → Option UInt8
  | .number n => if 0 ≤ n ∧ n < 256 then some n.toNat.toUInt8 else none
  | _ => none

/-- An `int64`. -/
def toInt64 : Value → Option Int64
  | .number n => if -(2 ^ 63) ≤ n ∧ n < 2 ^ 63 then some (Int64.ofInt n) else none
  | _ => none

/-- `json.Marshal` of a `Command`. -/
def encodeCommand (cmd : Command) : Value :=
  .object [("Op", ofInt cmd.op.code.toNat), ("Key", ofBytes cmd.key), ("Old", ofBytes cmd.old),
    ("Value", ofBytes cmd.value), ("ExpiresAt", ofInt cmd.expiresAt.toInt)]

def decodeCommand (v : Value) : Option Command := do
  let code ← field 0 toUInt8 "Op" v
  let key ← field [] toBytes "Key" v
  let old ← field [] toBytes "Old" v
  let value ← field [] toBytes "Value" v
  let expiresAt ← field 0 toInt64 "ExpiresAt" v
  return { op := .ofCode code, key := key, old := old, value := value, expiresAt := expiresAt }

/-- `json.Marshal` of an `Entry`. -/
def encodeEntry (e : Entry) : Value :=
  .object [("Term", ofInt e.term), ("Cmd", encodeCommand e.cmd)]

def decodeEntry (v : Value) : Option Entry := do
  let term ← field 0 toInt "Term" v
  let cmd ← field { op := .ofCode 0, key := [] } decodeCommand "Cmd" v
  return { term := term, cmd := cmd }

/-- `json.Marshal` of an `AppendEntriesRequest`; a node identifier is an address string. -/
def encodeAppendEntries (req : AppendEntriesRequest Bytes) : Value :=
  .object [("Term", ofInt req.term), ("LeaderID", ofBytes req.leaderID),
    ("PrevLogIndex", ofInt req.prevLogIndex), ("PrevLogTerm", ofInt req.prevLogTerm),
    ("Entries", ofList encodeEntry req.entries), ("LeaderCommit", ofInt req.leaderCommit)]

def decodeAppendEntries (v : Value) : Option (AppendEntriesRequest Bytes) := do
  let term ← field 0 toInt "Term" v
  let leaderID ← field [] toBytes "LeaderID" v
  let prevLogIndex ← field 0 toInt "PrevLogIndex" v
  let prevLogTerm ← field 0 toInt "PrevLogTerm" v
  let entries ← field [] (toList decodeEntry) "Entries" v
  let leaderCommit ← field 0 toInt "LeaderCommit" v
  return { term := term, leaderID := leaderID, prevLogIndex := prevLogIndex
           prevLogTerm := prevLogTerm, entries := entries, leaderCommit := leaderCommit }

/-- `json.Marshal` of a `RaftState`. -/
def encodeRaftState (st : RaftState Bytes) : Value :=
  .object [("Term", ofInt st.term), ("VotedFor", ofOption ofBytes st.votedFor),
    ("Log", ofList encodeEntry st.log), ("LastIncludedIndex", ofInt st.lastIncludedIndex),
    ("LastIncludedTerm", ofInt st.lastIncludedTerm)]

def decodeRaftState (v : Value) : Option (RaftState Bytes) := do
  let term ← field 0 toInt "Term" v
  let votedFor ← field none (toOption toBytes) "VotedFor" v
  let log ← field [] (toList decodeEntry) "Log" v
  let lastIncludedIndex ← field 0 toInt "LastIncludedIndex" v
  let lastIncludedTerm ← field 0 toInt "LastIncludedTerm" v
  return { term := term, votedFor := votedFor, log := log
           lastIncludedIndex := lastIncludedIndex.toNat, lastIncludedTerm := lastIncludedTerm }

/-! ## The wire and the disk -/

/-- `HTTPTransport.do` and `ServeRaftHTTP` (pkg/raft/transport_http.go:49): the request
    that the handler of the other node is called with. -/
def transmit (req : AppendEntriesRequest Bytes) : Option (AppendEntriesRequest Bytes) :=
  decodeAppendEntries (encodeAppendEntries req)

/-- The raft state file: the document, and the key it is sealed under, if any. -/
structure RaftFile where
  sealedUnder : Option Bytes
  document : Value

/-- `Save` of the two stores (pkg/raft/persistence.go:47, :117). -/
def saveFile (cipher : Option AtRestCipher) (st : RaftState Bytes) : RaftFile :=
  { sealedUnder := cipher.map (·.key), document := encodeRaftState st }

/-- `Load` of the two stores (pkg/raft/persistence.go:80, :158); `none` is an error. -/
def loadFile (cipher : Option AtRestCipher) : Option RaftFile → Option (RaftState Bytes)
  | none => some .empty
  | some file =>
    if file.sealedUnder = cipher.map (·.key) then decodeRaftState file.document else none

/-- The command as JSON brings it back. -/
def decodedCommand (cmd : Command) : Command :=
  { op := .ofCode cmd.op.code, key := Utf8.repair cmd.key, old := Utf8.repair cmd.old
    value := Utf8.repair cmd.value, expiresAt := cmd.expiresAt }

/-- The entry as JSON brings it back. -/
def decodedEntry (e : Entry) : Entry := { e with cmd := decodedCommand e.cmd }

@[simp] theorem toUInt8_ofInt (c : UInt8) : toUInt8 (ofInt c.toNat) = some c := by
  have hlt := c.toNat_lt
  simp only [ofInt, toUInt8]
  rw [if_pos (by omega)]
  simp

@[simp] theorem toInt64_ofInt (x : Int64) : toInt64 (ofInt x.toInt) = some x := by
  have hlo := x.le_toInt
  have hhi := x.toInt_lt
  simp only [ofInt, toInt64]
  rw [if_pos (by omega), Int64.ofInt_toInt]

theorem decodeCommand_encodeCommand (cmd : Command) :
    decodeCommand (encodeCommand cmd) = some (decodedCommand cmd) := by
  have hop : field 0 toUInt8 "Op" (encodeCommand cmd) = toUInt8 (ofInt cmd.op.code.toNat) := rfl
  have hexp : field 0 toInt64 "ExpiresAt" (encodeCommand cmd) =
      toInt64 (ofInt cmd.expiresAt.toInt) := rfl
  rw [decodeCommand, hop, hexp, toUInt8_ofInt, toInt64_ofInt]
  rfl

theorem decodeEntry_encodeEntry (e : Entry) :
    decodeEntry (encodeEntry e) = some (decodedEntry e) := by
  have hcmd : ∀ zero, field zero decodeCommand "Cmd" (encodeEntry e) =
      decodeCommand (encodeCommand e.cmd) := fun zero => rfl
  rw [decodeEntry, hcmd, decodeCommand_encodeCommand]
  rfl

theorem toList_entries (l : List Entry) :
    toList decodeEntry (ofList encodeEntry l) = some (l.map decodedEntry) :=
  Json.toList_ofList decodeEntry_encodeEntry l

/-- What the other node's handler is called with. -/
theorem transmit_eq (req : AppendEntriesRequest Bytes) :
    transmit req = some { req with
      leaderID := Utf8.repair req.leaderID
      entries := req.entries.map decodedEntry } := by
  have hentries : field [] (toList decodeEntry) "Entries" (encodeAppendEntries req) =
      toList decodeEntry (ofList encodeEntry req.entries) := rfl
  rw [transmit, decodeAppendEntries, hentries, toList_entries]
  rfl

theorem decodeRaftState_encodeRaftState (st : RaftState Bytes) :
    decodeRaftState (encodeRaftState st) = some { st with
      votedFor := st.votedFor.map Utf8.repair
      log := st.log.map decodedEntry } := by
  have hlog : field [] (toList decodeEntry) "Log" (encodeRaftState st) =
      toList decodeEntry (ofList encodeEntry st.log) := rfl
  have hvote : field none (toOption toBytes) "VotedFor" (encodeRaftState st) =
      some (st.votedFor.map Utf8.repair) := by
    cases hv : st.votedFor with
    | none => simp [field, encodeRaftState, hv, Value.member, ofOption, List.lookup]
    | some id => simp [field, encodeRaftState, hv, Value.member, ofOption, List.lookup, toOption,
        ofBytes, toBytes]
  rw [decodeRaftState, hvote, hlog, toList_entries]
  rfl

/-- What a restart under the same key loads. -/
theorem load_save_eq (cipher : Option AtRestCipher) (st : RaftState Bytes) :
    loadFile cipher (some (saveFile cipher st)) = some { st with
      votedFor := st.votedFor.map Utf8.repair
      log := st.log.map decodedEntry } := by
  simp only [loadFile, saveFile, ↓reduceIte]
  exact decodeRaftState_encodeRaftState st

/-! ## Entries -/

/-- The entry reaches a follower in any request that carries it, and is loaded again from
    any state that holds it, byte for byte and at its place. -/
def Entry.Survives (e : Entry) : Prop :=
  (∀ (req : AppendEntriesRequest Bytes) (i : ℕ), req.entries[i]? = some e →
      ∃ req', transmit req = some req' ∧ req'.entries[i]? = some e) ∧
    ∀ (cipher : Option AtRestCipher) (st : RaftState Bytes) (i : ℕ), st.log[i]? = some e →
      ∃ st', loadFile cipher (some (saveFile cipher st)) = some st' ∧ st'.log[i]? = some e

theorem decodedEntry_eq_self_iff {e : Entry} (h : ∀ code, e.cmd.op ≠ .other code) :
    decodedEntry e = e ↔ e.cmd.IsText := by
  obtain ⟨term, op, key, old, value, expiresAt⟩ := e
  simp only [decodedEntry, decodedCommand, Op.ofCode_code h, Entry.mk.injEq, Command.mk.injEq,
    true_and, and_true, Command.IsText, Utf8.repair_eq_self_iff]

/-- An entry with one of the six operations survives the wire and the disk exactly when
    its strings are UTF-8. -/
theorem entry_survives_iff (e : Entry) (h : ∀ code, e.cmd.op ≠ .other code) :
    e.Survives ↔ e.cmd.IsText := by
  rw [← decodedEntry_eq_self_iff h]
  constructor
  · rintro ⟨hwire, -⟩
    let req : AppendEntriesRequest Bytes :=
      { term := e.term, leaderID := [], prevLogIndex := 0, prevLogTerm := 0, entries := [e]
        leaderCommit := 0 }
    obtain ⟨req', hreq', he⟩ := hwire req 0 rfl
    rw [transmit_eq] at hreq'
    cases hreq'
    exact Option.some.inj he
  · intro heq
    refine ⟨fun req i hi => ⟨_, transmit_eq req, ?_⟩, fun cipher st i hi =>
      ⟨_, load_save_eq cipher st, ?_⟩⟩
    · simp [hi, heq]
    · simp [hi, heq]

/-- `PUT k` with the body `é`, proposed in term 1. -/
theorem text_entry_survives :
    Entry.Survives { term := 1, cmd := { op := .put, key := [107], value := [0xc3, 0xa9] } } := by
  refine (entry_survives_iff _ (by simp)).mpr ⟨?_, ?_, ?_⟩ <;>
    exact Utf8.repair_eq_self_iff.mp (by decide)

/-- `PUT k` with the body `0xff`, proposed in term 1: the follower stores U+FFFD. -/
theorem binary_entry_changes :
    ¬ Entry.Survives { term := 1, cmd := { op := .put, key := [107], value := [0xff] } } := by
  rintro ⟨hwire, -⟩
  obtain ⟨req', hreq', he⟩ := hwire
    { term := 1, leaderID := [], prevLogIndex := 0, prevLogTerm := 0
      entries := [{ term := 1, cmd := { op := .put, key := [107], value := [0xff] } }]
      leaderCommit := 0 } 0 rfl
  rw [transmit_eq] at hreq'
  cases hreq'
  revert he
  decide

end KvStore.Raft
