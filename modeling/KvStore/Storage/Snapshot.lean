import KvStore.Storage.DiskStore

/-!
# What survives the JSON of a snapshot

A snapshot is the JSON text of the map (`saveSnapshot`, `SerializeSnapshot`,
pkg/storage/snapshot.go:74). JSON strings are text, so a byte of a key or of a value
that is not part of a UTF-8 character comes back as U+FFFD; two keys may even become
one, and then the entry of the greater key wins.

* `cell_decode_marshal`: the content of every cell after the round trip.
* `decode_marshal_data_iff`: the map is reproduced exactly when all its keys and values
  are UTF-8.
* `snapshots_faithful_iff`: the same of the two ways a snapshot travels, to a lagging
  follower and through a compaction to the next restart.
-/

namespace KvStore.Storage

open KvStore.Expiring (live)

/-- The entry as JSON brings it back. -/
def Entry.repaired (e : Entry) : Entry := { e with value := Utf8.repair e.value }

theorem Entry.repaired_eq_self_iff {e : Entry} : e.repaired = e ↔ Utf8.Valid e.value := by
  rw [← Utf8.repair_eq_self_iff]
  constructor
  · intro h
    exact congrArg Entry.value h
  · intro h
    rw [repaired, h]

theorem Entry.valid_repaired (e : Entry) : Utf8.Valid e.repaired.value := Utf8.valid_repair _

@[simp] theorem Entry.entryExpired_repaired (e : Entry) (t : Int64) :
    entryExpired e.repaired t = entryExpired e t := rfl

theorem cell_decode_append (l : List (Bytes × Entry)) (p : Bytes × Entry) (q : Bytes) :
    (decodeSnapshot (l ++ [p])).cell q =
      if p.1 = q then some p.2 else (decodeSnapshot l).cell q := by
  rw [decodeSnapshot, List.foldl_append, List.foldl_cons, List.foldl_nil, MemStore.cell_insert]
  rfl

/-- The document of a list of pairs in key order: the last key that reads as `q` wins. -/
theorem cell_decode_repaired {l : List (Bytes × Entry)}
    (hl : l.Pairwise fun a b => compare a.1 b.1 = .lt) {q : Bytes} {e : Entry} :
    (decodeSnapshot (l.map fun p => (Utf8.repair p.1, p.2.repaired))).cell q = some e ↔
      ∃ p ∈ l, Utf8.repair p.1 = q ∧ p.2.repaired = e ∧
        ∀ p' ∈ l, Utf8.repair p'.1 = q → p' = p ∨ compare p'.1 p.1 = .lt := by
  induction l using List.reverseRecOn with
  | nil => simp [decodeSnapshot, MemStore.cell]
  | append_singleton l p ih =>
    obtain ⟨hinit, -, hlast⟩ := List.pairwise_append.mp hl
    rw [List.map_append, List.map_singleton, cell_decode_append]
    dsimp only
    split_ifs with hp
    · constructor
      · intro h
        refine ⟨p, by simp, hp, Option.some.inj h, fun p' hp' _ => ?_⟩
        rcases List.mem_append.mp hp' with h' | h'
        · exact .inr (hlast p' h' p (by simp))
        · exact .inl (List.mem_singleton.mp h')
      · rintro ⟨p', hp', -, rfl, hmax⟩
        -- the last pair reads as `q`, so it is the greatest one that does
        rcases hmax p (by simp) hp with rfl | hlt
        · rfl
        · rcases List.mem_append.mp hp' with h' | h'
          · have hgt := Std.OrientedCmp.gt_iff_lt.mpr (hlast p' h' p (by simp))
            rw [hgt] at hlt
            cases hlt
          · rw [List.mem_singleton.mp h']
    · rw [ih hinit]
      constructor
      · rintro ⟨p', hp', hq, he, hmax⟩
        refine ⟨p', by simp [hp'], hq, he, fun p'' hp'' hq'' => ?_⟩
        rcases List.mem_append.mp hp'' with h | h
        · exact hmax p'' h hq''
        · rw [List.mem_singleton.mp h] at hq''
          exact absurd hq'' hp
      · rintro ⟨p', hp', hq, he, hmax⟩
        rcases List.mem_append.mp hp' with h | h
        · exact ⟨p', h, hq, he, fun p'' hp'' => hmax p'' (by simp [hp''])⟩
        · rw [List.mem_singleton.mp h] at hq
          exact absurd hq hp

theorem MemStore.mem_toList_iff (m : MemStore) {k : Bytes} {e : Entry} :
    (k, e) ∈ m.data.toList ↔ m.cell k = some e :=
  Std.ExtTreeMap.mem_toList_iff_getElem?_eq_some

/-- The content of a cell after the round trip: among the keys that read as `q`, the
    greatest one has left its entry there. -/
theorem cell_decode_marshal (m : MemStore) {q : Bytes} {e : Entry} :
    (decodeSnapshot (marshalSnapshot m)).cell q = some e ↔
      ∃ k e₀, m.cell k = some e₀ ∧ Utf8.repair k = q ∧ e₀.repaired = e ∧
        ∀ k' e', m.cell k' = some e' → Utf8.repair k' = q → k' = k ∨ compare k' k = .lt := by
  have hsorted : m.data.toList.Pairwise fun a b => compare a.1 b.1 = .lt := by
    exact Std.ExtTreeMap.ordered_keys_toList (t := m.data)
  have h := cell_decode_repaired hsorted (q := q) (e := e)
  rw [marshalSnapshot]
  refine h.trans ⟨?_, ?_⟩
  · rintro ⟨⟨k, e₀⟩, hmem, hk, he, hmax⟩
    refine ⟨k, e₀, m.mem_toList_iff.mp hmem, hk, he, fun k' e' hk' hq => ?_⟩
    rcases hmax (k', e') (m.mem_toList_iff.mpr hk') hq with heq | hlt
    · exact .inl (congrArg Prod.fst heq)
    · exact .inr hlt
  · rintro ⟨k, e₀, hcell, hk, he, hmax⟩
    refine ⟨(k, e₀), m.mem_toList_iff.mpr hcell, hk, he, ?_⟩
    rintro ⟨k', e'⟩ hmem hq
    rcases hmax k' e' (m.mem_toList_iff.mp hmem) hq with rfl | hlt
    · have := (m.mem_toList_iff.mp hmem).symm.trans hcell
      exact .inl (by rw [Option.some.inj this])
    · exact .inr hlt

/-- All keys and values of the store are UTF-8. -/
def MemStore.IsText (m : MemStore) : Prop :=
  ∀ k e, m.cell k = some e → Utf8.Valid k ∧ Utf8.Valid e.value

/-- What the round trip leaves in a cell is text, and its key is text. -/
theorem isText_decode_marshal (m : MemStore) : (decodeSnapshot (marshalSnapshot m)).IsText := by
  intro q e h
  obtain ⟨k, e₀, -, rfl, rfl, -⟩ := (cell_decode_marshal m).mp h
  exact ⟨Utf8.valid_repair k, e₀.valid_repaired⟩

/-- The map is reproduced exactly when all its keys and values are UTF-8. -/
theorem decode_marshal_data_iff (m : MemStore) :
    (decodeSnapshot (marshalSnapshot m)).data = m.data ↔ m.IsText := by
  constructor
  · intro h k e hk
    rw [← MemStore.cell_congr h] at hk
    exact isText_decode_marshal m k e hk
  · intro h
    refine MemStore.ext_cell fun q => Option.ext fun e => ?_
    rw [cell_decode_marshal]
    constructor
    · rintro ⟨k, e₀, hk, rfl, rfl, -⟩
      rw [(h k e₀ hk).1.repair_eq, Entry.repaired_eq_self_iff.mpr (h k e₀ hk).2]
      exact hk
    · intro hq
      obtain ⟨hkey, hval⟩ := h q e hq
      refine ⟨q, e, hq, hkey.repair_eq, Entry.repaired_eq_self_iff.mpr hval, fun k' e' hk' hr => ?_⟩
      rw [(h k' e' hk').1.repair_eq] at hr
      exact .inl hr

/-! ## Shipping and compaction -/

/-- The snapshots of `d` are faithful: shipped to any other store by `SerializeSnapshot`
    and `RestoreSnapshot`, and written by `compact` and read by the next restart, they
    reproduce the map of `d`. -/
def DiskStore.Faithful (d : DiskStore) : Prop :=
  (∀ d' : DiskStore, (d'.restoreSnapshot d.serializeSnapshot).mem.data = d.mem.data) ∧
    ∀ now, ∃ d', openDiskStore d.cipher d.compact.snapshot d.compact.wal now = .ok d' ∧
      d'.mem.data = d.mem.data

/-- A restart after a compaction finds what JSON has made of the map, in either mode. -/
theorem openDiskStore_compact (d : DiskStore) (now : Int64) :
    openDiskStore d.cipher d.compact.snapshot d.compact.wal now =
      .ok { d.compact with mem := decodeSnapshot (marshalSnapshot d.mem) } := by
  have hload : loadSnapshot d.cipher d.compact.snapshot =
      .ok (decodeSnapshot (marshalSnapshot d.mem)) := loadSnapshot_saveSnapshot d.cipher d.mem
  have hopen := openDiskStore_eq_ok_iff hload [] now
    { d.compact with mem := decodeSnapshot (marshalSnapshot d.mem) }
  rw [List.append_nil, walReplay_walEmpty] at hopen
  exact hopen.mpr ⟨rfl, rfl⟩

/-- Snapshots are faithful exactly when all keys and values are UTF-8. -/
theorem snapshots_faithful_iff (d : DiskStore) : d.Faithful ↔ d.mem.IsText := by
  rw [← decode_marshal_data_iff]
  constructor
  · rintro ⟨hship, -⟩
    exact hship d
  · intro h
    refine ⟨fun d' => h, fun now => ⟨_, openDiskStore_compact d now, h⟩⟩

/-- The value `0xff` comes back as U+FFFD. -/
theorem snapshot_changes_byte :
    ¬ DiskStore.Faithful { DiskStore.new none with mem := MemStore.new.put [107] [0xff] } := by
  rintro ⟨hship, -⟩
  have hcell := congrArg (·[([107] : Bytes)]?) (hship (.new none))
  revert hcell
  decide

end KvStore.Storage
