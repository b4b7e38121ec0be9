import KvStore.Framing.JsonRecord
import KvStore.Storage.RestoreSnapshot

/-!
# The two versions of a snapshot

`decodeSnapshot` (`pkg/storage/snapshot.go:183`) tells the versions apart by trying: it decodes
the text as an envelope of version 2 and takes the result if there was no error and the envelope
is not its zero value; otherwise it decodes a plain map of version 1. A key of a version 1
snapshot may be spelled like a field of the envelope. Its value is then a string, which is an
error for both fields, so the text is read as a map.

* `decodeSnapshotDoc_plain`, `decodeSnapshotDoc_envelope`: the two forms, on documents; they are
  decoded as `Document.decode` says.
* `snapshot_versions_unambiguous`: every version 1 snapshot gives its map, without deadlines, and
  every snapshot that is written gives its entries.
-/

namespace KvStore.Storage

open KvStore.JsonRecord (Doc)

/-! ## Decoding -/

/-- The names of the fields, in lower case: `v`, `data`, `value` and `exp`. -/
def vName : Bytes := [0x76]

@[inherit_doc vName] def dataName : Bytes := [0x64, 0x61, 0x74, 0x61]

@[inherit_doc vName] def valueName : Bytes := [0x76, 0x61, 0x6C, 0x75, 0x65]

@[inherit_doc vName] def expName : Bytes := [0x65, 0x78, 0x70]

/-- The fields of `entry` (pkg/storage/memstore.go:14). -/
def entryField (name : Bytes) : Option (Entry → Doc → Option Entry) :=
  if name = valueName then
    some fun e doc => (JsonRecord.text e.value doc).map fun s => { e with value := s }
  else if name = expName then
    some fun e doc => (JsonRecord.int64 e.exp.toInt doc).map fun n => { e with exp := .ofInt n }
  else none

/-- `snapshotFile` (pkg/storage/snapshot.go:24). -/
structure Envelope where
  v : ℤ := 0
  data : Option (JsonRecord.Map Entry) := none

/-- An element of the map `data`. -/
def decodeEntry (doc : Doc) : Option Entry := JsonRecord.record entryField ⟨[], 0⟩ doc

/-- The fields of `snapshotFile`. -/
def envelopeField (name : Bytes) : Option (Envelope → Doc → Option Envelope) :=
  if name = vName then
    some fun sf doc => (JsonRecord.int64 sf.v doc).map fun n => { sf with v := n }
  else if name = dataName then
    some fun sf doc => (JsonRecord.map decodeEntry sf.data doc).map fun d => { sf with data := d }
  else none

/-- The second half of `decodeSnapshot` (pkg/storage/snapshot.go:192). -/
def migrate (doc : Doc) : Option (JsonRecord.Map Entry) :=
  (JsonRecord.map (JsonRecord.text []) none doc).map fun v1 =>
    (v1.getD ∅).map fun _ v => { value := v }

/-- `decodeSnapshot` (pkg/storage/snapshot.go:183) into an empty map; `none` is its error. -/
def decodeSnapshotDoc (doc : Doc) : Option (JsonRecord.Map Entry) :=
  match JsonRecord.record envelopeField {} doc with
  | none => migrate doc
  | some sf => if 0 < sf.v || sf.data.isSome then some (sf.data.getD ∅) else migrate doc

/-! ## Encoding -/

/-- `json.Marshal` of an entry (pkg/storage/memstore.go:14): a deadline of 0 is left out. -/
def entryDoc (e : Entry) : Doc :=
  .object ((valueName, .string e.value) ::
    if e.exp = 0 then [] else [(expName, .number (some e.exp.toInt))])

/-- `json.Marshal` of the envelope of a map (pkg/storage/snapshot.go:101). -/
def envelopeDoc (data : List (Bytes × Entry)) : Doc :=
  .object [(vName, .number (some 2)),
    (dataName, .object (data.map fun p => (p.1, entryDoc p.2)))]

/-- A snapshot of version 1. -/
def plainDoc (data : List (Bytes × Bytes)) : Doc :=
  .object (data.map fun p => (p.1, .string p.2))

/-! ## Version 1 -/

/-- No string is an envelope: its fields are a number and a map. -/
theorem envelopeField_string {name : Bytes} {set : Envelope → Doc → Option Envelope}
    (h : envelopeField name = some set) (sf : Envelope) (s : Bytes) : set sf (.string s) = none := by
  unfold envelopeField at h
  split_ifs at h
  · cases h
    rfl
  · cases h
    rfl

/-- A snapshot of version 1 is not taken for an envelope, whatever its keys are. -/
theorem decodeSnapshotDoc_eq_migrate (data : List (Bytes × Bytes)) :
    decodeSnapshotDoc (plainDoc data) = migrate (plainDoc data) := by
  have hrefused : ∀ m ∈ data.map (fun p : Bytes × Bytes => (p.1, Doc.string p.2)), ∀ set,
      envelopeField (JsonText.foldCase m.1) = some set → set {} m.2 = none := by
    intro m hm set hset
    obtain ⟨p, -, rfl⟩ := List.mem_map.mp hm
    exact envelopeField_string hset {} p.2
  unfold decodeSnapshotDoc
  rcases JsonRecord.foldlM_assign_refused ({} : Envelope) hrefused with h | h
  · rw [plainDoc, JsonRecord.record, h]
  · rw [plainDoc, JsonRecord.record, h]
    rfl

theorem decodeSnapshotDoc_plain (data : List (Bytes × Bytes)) :
    decodeSnapshotDoc (plainDoc data) =
      some ((data.foldl (fun (d : JsonRecord.Map Bytes) p => d.insert p.1 p.2) ∅).map
        fun _ v => { value := v }) := by
  have hput := JsonRecord.foldlM_put (JsonRecord.text [])
    (fun p : Bytes × Bytes => (p.1, Doc.string p.2)) Prod.snd (fun _ => rfl) data ∅
  rw [decodeSnapshotDoc_eq_migrate, migrate, plainDoc, JsonRecord.map, Option.getD_none, hput]
  rfl

/-! ## Version 2 -/

theorem assign_value (e : Entry) (s : Bytes) :
    JsonRecord.assign entryField e (valueName, .string s) = some { e with value := s } := rfl

theorem assign_exp (e : Entry) (t : Int64) :
    JsonRecord.assign entryField e (expName, .number (some t.toInt)) = some { e with exp := t } := by
  have hint : JsonRecord.int64 e.exp.toInt (.number (some t.toInt)) = some t.toInt :=
    if_pos ⟨Int64.le_toInt t, Int64.toInt_lt t⟩
  have hfield : JsonRecord.assign entryField e (expName, .number (some t.toInt)) =
      (JsonRecord.int64 e.exp.toInt (.number (some t.toInt))).map
        fun n => { e with exp := .ofInt n } := rfl
  rw [hfield, hint, Option.map_some, Int64.ofInt_toInt]

theorem decodeEntry_entryDoc (e : Entry) : decodeEntry (entryDoc e) = some e := by
  obtain ⟨value, exp⟩ := e
  by_cases hexp : exp = 0
  · subst hexp
    rfl
  · rw [decodeEntry, entryDoc, if_neg hexp, JsonRecord.record, List.foldlM_cons, assign_value,
      Option.bind_eq_bind, Option.bind_some, List.foldlM_cons, assign_exp]
    rfl

theorem assign_v (sf : Envelope) :
    JsonRecord.assign envelopeField sf (vName, .number (some 2)) = some { sf with v := 2 } := rfl

theorem assign_data (sf : Envelope) (doc : Doc) :
    JsonRecord.assign envelopeField sf (dataName, doc) =
      (JsonRecord.map decodeEntry sf.data doc).map fun d => { sf with data := d } := rfl

theorem decodeSnapshotDoc_envelope (data : List (Bytes × Entry)) :
    decodeSnapshotDoc (envelopeDoc data) = some (decodeSnapshot data).data := by
  have hput := JsonRecord.foldlM_put decodeEntry (fun p : Bytes × Entry => (p.1, entryDoc p.2))
    Prod.snd (fun p => decodeEntry_entryDoc p.2) data ∅
  have hmap : JsonRecord.map decodeEntry none
      (.object (data.map fun p => (p.1, entryDoc p.2))) = some (some (decodeSnapshot data).data) := by
    rw [JsonRecord.map, Option.getD_none, hput]
    rfl
  have hrecord : JsonRecord.record envelopeField {} (envelopeDoc data) =
      some { v := 2, data := some (decodeSnapshot data).data } := by
    rw [envelopeDoc, JsonRecord.record, List.foldlM_cons, assign_v, Option.bind_eq_bind,
      Option.bind_some, List.foldlM_cons, assign_data, hmap]
    rfl
  rw [decodeSnapshotDoc, hrecord]
  rfl

/-! ## Both versions -/

theorem lookup_map_snd {β γ : Type} (f : β → γ) (l : List (Bytes × β)) (k : Bytes) :
    (l.map fun p => (p.1, f p.2)).lookup k = (l.lookup k).map f := by
  induction l with
  | nil => rfl
  | cons p l ih =>
    rw [List.map_cons, List.lookup_cons, List.lookup_cons, ih]
    cases k == p.1 <;> rfl

/-- A document of either version, its strings made text, is decoded as `Document.decode` says. -/
theorem decodeSnapshotDoc_document (data : List (Bytes × Entry)) (v1 : List (Bytes × Bytes)) :
    decodeSnapshotDoc (envelopeDoc (data.map fun p => (Utf8.repair p.1, p.2.repaired))) =
        (Document.envelope data).decode.map (·.data) ∧
      decodeSnapshotDoc (plainDoc (v1.map fun p => (Utf8.repair p.1, Utf8.repair p.2))) =
        (Document.plain v1).decode.map (·.data) := by
  constructor
  · exact decodeSnapshotDoc_envelope _
  · rw [decodeSnapshotDoc_plain, Document.decode, Option.map_some, Option.some.injEq]
    apply Std.ExtTreeMap.ext_getElem?
    intro k
    rw [Std.ExtTreeMap.getElem?_map, decodeSnapshot, JsonRecord.getElem?_foldl_insert,
      JsonRecord.getElem?_foldl_insert, ← lookup_map_snd, ← List.map_reverse, ← List.map_reverse,
      List.map_map]
    rfl

/-- **Versions are told apart without error.** A version 1 snapshot, with any keys, gives its map
    without deadlines (the last of several members of one key counts), and a snapshot that
    `saveSnapshot` or `SerializeSnapshot` has written of a store of UTF-8 strings gives the
    entries of the store with their deadlines. -/
theorem snapshot_versions_unambiguous :
    (∀ data : List (Bytes × Bytes), ∃ dst, decodeSnapshotDoc (plainDoc data) = some dst ∧
      ∀ k, dst[k]? = (data.reverse.lookup k).map fun v => { value := v, exp := 0 }) ∧
    ∀ m : MemStore, m.IsText →
      decodeSnapshotDoc (envelopeDoc (marshalSnapshot m)) = some m.data := by
  constructor
  · intro data
    refine ⟨_, decodeSnapshotDoc_plain data, fun k => ?_⟩
    rw [Std.ExtTreeMap.getElem?_map, JsonRecord.getElem?_foldl_insert]
  · intro m hm
    rw [decodeSnapshotDoc_envelope, (decode_marshal_data_iff m).mpr hm]

/-- Keys that are spelled like the fields of the envelope, and a store with a deadline. -/
theorem snapshot_versions_fields :
    (∃ dst, decodeSnapshotDoc (plainDoc [([0x56], [49]), (dataName, [50])]) = some dst ∧
      ∀ k, dst[k]? = ([([0x56], [49]), (dataName, [50])].reverse.lookup k).map
        fun v => { value := v, exp := 0 }) ∧
    decodeSnapshotDoc (envelopeDoc (marshalSnapshot
      ⟨MemStore.new.data.insert [107] ⟨[49], 5⟩, 0⟩)) =
      some (MemStore.new.data.insert [107] ⟨[49], 5⟩) := by
  refine ⟨snapshot_versions_unambiguous.1 _, snapshot_versions_unambiguous.2 _ ?_⟩
  intro k e h
  rw [MemStore.cell_insert] at h
  split_ifs at h with hk
  · cases h
    subst hk
    exact ⟨Utf8.repair_eq_self_iff.mp (by decide), Utf8.repair_eq_self_iff.mp (by decide)⟩
  · have hnew : MemStore.new.cell k = some e := h
    rw [MemStore.cell_new] at hnew
    cases hnew

end KvStore.Storage
