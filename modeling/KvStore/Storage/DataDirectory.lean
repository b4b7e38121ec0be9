import KvStore.FileSystem.Replace
import KvStore.Raft.Encoding
import KvStore.Storage.DiskStore

/-!
# The data directory

A node keeps its raft state in `raft-state.json` and its snapshot in `snapshot.dat`, in one
directory (`cmd/server/main.go`). Each is replaced as a whole, by `Save` of a raft store under
`Node.mu` and by `saveSnapshot` under `snapMu`; the two run at the same time. Every system call can
fail and the power can fail between any two of them.

* `fileRaftStoreSave`, `encryptedRaftStoreSave`, `atomicWriteFile`: the three functions.
* `program_checked`: they pass the test of `FileSystem.check`.
* `raft_state_survives`: `Load` always succeeds, with the state of the last `Save` that returned
  no error or of a later one.
* `snapshot_survives`: the same of `loadSnapshot`. From the return of a `saveSnapshot` without an
  error to the next call only what it has written is found, so that `compactLocked` may truncate
  the log.
-/

namespace KvStore.DataDirectory

open KvStore.FileSystem
open KvStore.Storage (Bytes AtRestCipher MemStore SnapshotFile)
open KvStore.Raft (RaftState RaftFile)

/-- The files that are replaced. -/
inductive Owner where
  | raftState
  | snapshot
  deriving DecidableEq

/-- What they hold. -/
inductive Data where
  | raftState (f : RaftFile)
  | snapshot (f : SnapshotFile)

/-- The part of `Save` that follows the encoding, the same in both stores. -/
def replace : List Stmt :=
  [.run (.create .tmp) [],
    .run .write [.close, .remove .tmp],
    .run .sync [.close, .remove .tmp],
    .run .close [],
    .run (.rename .tmp .path) [],
    .run .openDir [],
    .defer .closeDir,
    .run .syncDir []]

/-- `fileRaftStore.Save` (pkg/raft/persistence.go:47). -/
def fileRaftStoreSave : List Stmt := .run .prepare [] :: replace

/-- `encryptedRaftStore.Save` (pkg/raft/persistence.go:117), which also encrypts. -/
def encryptedRaftStoreSave : List Stmt := .run .prepare [] :: .run .prepare [] :: replace

/-- `atomicWriteFile` (pkg/storage/snapshot.go:204), which removes the temporary file whenever it
    returns. -/
def atomicWriteFile : List Stmt :=
  [.run (.create .tmp) [],
    .defer (.remove .tmp),
    .run .write [.close],
    .run .sync [.close],
    .run .close [],
    .run (.rename .tmp .path) [],
    .run .openDir [],
    .defer .closeDir,
    .run .syncDir []]

/-- `saveSnapshot` (pkg/storage/snapshot.go:72). -/
def saveSnapshot (encrypted : Bool) : List Stmt :=
  .run .prepare [] :: (if encrypted then [.run .prepare []] else []) ++ atomicWriteFile

/-- The function that replaces a file. -/
def program (cipher : Option AtRestCipher) : Owner → List Stmt
  | .raftState => if cipher.isSome then encryptedRaftStoreSave else fileRaftStoreSave
  | .snapshot => saveSnapshot cipher.isSome

/-- What is written into a file. -/
def accepts (cipher : Option AtRestCipher) : Owner → Data → Prop
  | .raftState, b => ∃ st, b = .raftState (Raft.saveFile cipher st)
  | .snapshot, b => ∃ m, b = .snapshot (Storage.saveSnapshot cipher m)

theorem program_checked (cipher : Option AtRestCipher) (w : Owner) :
    check .start (program cipher w) = true := by
  cases cipher <;> cases w <;> rfl

/-- `Load` (pkg/raft/persistence.go:81, :159); `none` is an error. -/
def load (cipher : Option AtRestCipher) : Option (Content Data) → Option (RaftState Bytes)
  | none => Raft.loadFile cipher none
  | some (.whole (.raftState f)) => Raft.loadFile cipher (some f)
  | some _ => none

/-- `loadSnapshot` (pkg/storage/snapshot.go:151); `none` is an error. -/
def loadSnapshot (cipher : Option AtRestCipher) : Option (Content Data) → Option MemStore
  | none => (Storage.loadSnapshot cipher none).toOption
  | some (.whole (.snapshot f)) => (Storage.loadSnapshot cipher (some f)).toOption
  | some _ => none

theorem loadSnapshot_save (cipher : Option AtRestCipher) (m : MemStore) :
    loadSnapshot cipher (some (.whole (.snapshot (Storage.saveSnapshot cipher m)))) =
      some (Storage.decodeSnapshot (Storage.marshalSnapshot m)) := by
  rw [loadSnapshot, Storage.loadSnapshot_saveSnapshot]
  rfl

/-- The states of the directory. -/
abbrev Running (cipher : Option AtRestCipher) : World Owner Data → Prop :=
  Runs (program cipher) (accepts cipher)

/-- All that is written is what is written there. -/
theorem Running.accepted {cipher : Option AtRestCipher} {x : World Owner Data} (h : Running cipher x)
    {w : Owner} {b : Data} (hb : .save w b ∈ x.history) : accepts cipher w b := by
  induction h with
  | refl => simp [World.init] at hb
  | tail _ hstep ih =>
    cases hstep with
    | call hp hok =>
      rcases List.mem_append.mp hb with hb | hb
      · exact ih hb
      · cases List.mem_singleton.mp hb
        exact hok
    | ret | crash => exact ih (by simpa using hb)
    | _ => exact ih hb

/-- What an owner can read, now or after one of the power failures, with the events before. -/
def Readable (x : World Owner Data) (w : Owner) (h : List (Event Owner Data))
    (r : Option (Content Data)) : Prop :=
  h = x.history ∧ r = x.fs.read w ∨
    ∃ found after, x.history = h ++ .crash found :: after ∧ r = found w

/-- Whatever is read is whole and not outdated. -/
theorem Readable.recent {cipher : Option AtRestCipher} {x : World Owner Data} (hx : Running cipher x)
    {w : Owner} {h : List (Event Owner Data)} {r : Option (Content Data)} (hr : Readable x w h r) :
    r ∈ recent w h ∧ (∃ t, x.history = h ++ t) ∧
      (r = none ∨ ∃ b, accepts cipher w b ∧ r = some (.whole b)) := by
  obtain ⟨hlegal, hread⟩ := replace_atomic (program_checked cipher) hx
  obtain ⟨hmem, t, ht⟩ : r ∈ FileSystem.recent w h ∧ ∃ t, x.history = h ++ t := by
    rcases hr with ⟨rfl, rfl⟩ | ⟨found, after, heq, rfl⟩
    · exact ⟨hread w, [], by simp⟩
    · exact ⟨hlegal.crash h found after heq w, _, heq⟩
  refine ⟨hmem, ⟨t, ht⟩, ?_⟩
  rw [ht] at hlegal
  rcases hlegal.of_append.recent_whole hmem with rfl | ⟨b, hb, rfl⟩
  · exact .inl rfl
  · exact .inr ⟨b, hx.accepted (by rw [ht]; exact List.mem_append_left _ hb), rfl⟩

/-- A file that has been replaced is there. -/
theorem Readable.present {cipher : Option AtRestCipher} {x : World Owner Data}
    (hx : Running cipher x) {w : Owner} {h : List (Event Owner Data)} {r : Option (Content Data)}
    (hr : Readable x w h r) (hsaved : .saved w true ∈ h) : r ≠ none := by
  obtain ⟨hlegal, -⟩ := replace_atomic (program_checked cipher) hx
  obtain ⟨hmem, ⟨t, ht⟩, -⟩ := hr.recent hx
  rw [ht] at hlegal
  rintro rfl
  exact hlegal.of_append.recent_present hsaved hmem

/-- The state as JSON brings it back. -/
def decodedState (st : RaftState Bytes) : RaftState Bytes :=
  { st with votedFor := st.votedFor.map Utf8.repair, log := st.log.map Raft.decodedEntry }

/-- **The raft state survives**: whatever fails and whenever the power fails, `Load` returns no
    error, and the state it returns is that of the last `Save` that returned no error or of a later
    `Save`, or the empty one if there is no such `Save`; none is read that was lost before. The file
    is there once a `Save` has returned no error. -/
theorem raft_state_survives {cipher : Option AtRestCipher} {x : World Owner Data}
    (hx : Running cipher x) {h : List (Event Owner Data)} {r : Option (Content Data)}
    (hr : Readable x .raftState h r) :
    (∃ st, load cipher r = some (decodedState st) ∧
      (none ∈ recent .raftState h ∧ st = .empty ∨
        some (.whole (.raftState (Raft.saveFile cipher st))) ∈ recent .raftState h)) ∧
      (.saved .raftState true ∈ h → r ≠ none) := by
  refine ⟨?_, hr.present hx⟩
  obtain ⟨hmem, -, rfl | ⟨b, ⟨st, rfl⟩, rfl⟩⟩ := hr.recent hx
  · exact ⟨.empty, rfl, .inl ⟨hmem, rfl⟩⟩
  · exact ⟨st, Raft.load_save_eq cipher st, .inr hmem⟩

/-- The term 3 with a vote. -/
def votedState : RaftState Bytes :=
  { term := 3, votedFor := some [110], log := [], lastIncludedIndex := 0, lastIncludedTerm := 0 }

/-- A `Save` without failures, and the power failure behind it. -/
theorem raft_state_survives_save : ∃ x, Running none x ∧ x.history.length = 3 ∧
    x.fs.read .raftState ≠ none ∧
    (load none (x.fs.read .raftState)).map (fun st => (st.term, st.votedFor)) =
      some (3, some [110]) := by
  have hdata : accepts none .raftState (.raftState (Raft.saveFile none votedState)) :=
    ⟨votedState, rfl⟩
  have h := Relation.ReflTransGen.refl.tail (r := Step (program none) (accepts none))
    (a := World.init) (Step.call (w := .raftState) rfl hdata)
  have h := h.tail (.ok (w := .raftState) rfl rfl rfl .prepare)
  have h := h.tail (.ok (w := .raftState) rfl rfl rfl (.createNew rfl))
  have h := h.tail (.ok (w := .raftState) rfl rfl rfl (.write rfl rfl))
  have h := h.tail (.ok (w := .raftState) rfl rfl rfl (.sync rfl))
  have h := h.tail (.ok (w := .raftState) rfl rfl rfl (.close true))
  have h := h.tail (.ok (w := .raftState) rfl rfl rfl (.rename rfl))
  have h := h.tail (.ok (w := .raftState) rfl rfl rfl .openDir)
  have h := h.tail (.defer (w := .raftState) rfl rfl rfl)
  have h := h.tail (.ok (w := .raftState) rfl rfl rfl .syncDir)
  have h := h.tail (.finish (w := .raftState) rfl rfl rfl)
  have h := h.tail (.clean (w := .raftState) rfl rfl .closeDir)
  have h := h.tail (.ret (w := .raftState) rfl rfl)
  have h := h.tail (.crash (Cached.now_mem _) fun _ => Cached.now_mem _)
  obtain ⟨⟨st, hload, hst⟩, hpresent⟩ := raft_state_survives h (.inl ⟨rfl, rfl⟩)
  refine ⟨_, h, rfl, hpresent (by simp), ?_⟩
  have hfile : some (Content.whole (Data.raftState (Raft.saveFile none st))) =
      some (.whole (.raftState (Raft.saveFile none votedState))) := by
    rcases hst with ⟨hnone, -⟩ | hst
    · cases List.mem_singleton.mp hnone
    · exact List.mem_singleton.mp hst
  have hst' : load none (some (.whole (.raftState (Raft.saveFile none st)))) = some (decodedState st) :=
    Raft.load_save_eq none st
  rw [hload, ← hst', hfile]
  exact congrArg (Option.map _) (Raft.load_save_eq none votedState)

/-- **The log may be truncated once `saveSnapshot` has returned**: from a return without error to
    the next call, whatever fails and whenever the power fails, `loadSnapshot` brings back the map
    that was saved. -/
theorem snapshot_settled {cipher : Option AtRestCipher} {x : World Owner Data} (hx : Running cipher x)
    {before after : List (Event Owner Data)}
    (hsaved : x.history = before ++ .saved .snapshot true :: after)
    (hnext : ∀ b, .save .snapshot b ∉ after) :
    ∃ m, (recent .snapshot before).getLast? =
        some (some (.whole (.snapshot (Storage.saveSnapshot cipher m)))) ∧
      ∀ h r, Readable x .snapshot h r → before ++ [.saved .snapshot true] <+: h →
        loadSnapshot cipher r = some (Storage.decodeSnapshot (Storage.marshalSnapshot m)) := by
  obtain ⟨hlegal, -⟩ := replace_atomic (program_checked cipher) hx
  obtain ⟨b, hb⟩ := hlegal.saved before .snapshot after hsaved
  have hbefore : Legal before := by
    rw [hsaved] at hlegal
    exact hlegal.of_append
  obtain ⟨m, rfl⟩ : accepts cipher .snapshot b := by
    rcases hbefore.recent_whole (List.mem_of_getLast? hb) with h | ⟨b', hb', h⟩
    · cases h
    · cases h
      exact hx.accepted (by rw [hsaved]; exact List.mem_append_left _ hb')
  refine ⟨m, hb, fun h r hr hpre => ?_⟩
  obtain ⟨t, rfl⟩ := hpre
  obtain ⟨hmem, ⟨t', ht'⟩, -⟩ := hr.recent hx
  -- what comes before the read is a part of what follows the return
  have hafter : after = t ++ t' := by
    rw [hsaved] at ht'
    simpa using ht'
  rw [ht'] at hlegal
  have hone : recent .snapshot (before ++ [.saved .snapshot true]) =
      [some (.whole (.snapshot (Storage.saveSnapshot cipher m)))] := by
    simp [recent_concat, recentAfter, hb]
  have hstays := hlegal.of_append.recent_stays hone fun b hb' =>
    hnext b (by rw [hafter]; exact List.mem_append_left _ hb')
  rw [hstays, List.mem_singleton] at hmem
  rw [hmem]
  exact loadSnapshot_save cipher m

/-- **The snapshot is replaced as a whole**: whatever fails and whenever the power fails, also
    inside `saveSnapshot`, `loadSnapshot` returns no error and finds the map of the last
    `saveSnapshot` that returned no error or of a later one, or no file if there is no such call.
    Between a return without error and the next call it is the map that was saved. -/
theorem snapshot_survives {cipher : Option AtRestCipher} {x : World Owner Data}
    (hx : Running cipher x) :
    (∀ h r, Readable x .snapshot h r →
      r ∈ recent .snapshot h ∧ (.saved .snapshot true ∈ h → r ≠ none) ∧
      (r = none ∧ loadSnapshot cipher r = some .new ∨
        ∃ m, r = some (.whole (.snapshot (Storage.saveSnapshot cipher m))) ∧
          loadSnapshot cipher r = some (Storage.decodeSnapshot (Storage.marshalSnapshot m)))) ∧
    ∀ before after, x.history = before ++ .saved .snapshot true :: after →
      (∀ b, .save .snapshot b ∉ after) →
      ∃ m, (recent .snapshot before).getLast? =
          some (some (.whole (.snapshot (Storage.saveSnapshot cipher m)))) ∧
        ∀ h r, Readable x .snapshot h r → before ++ [.saved .snapshot true] <+: h →
          loadSnapshot cipher r = some (Storage.decodeSnapshot (Storage.marshalSnapshot m)) := by
  refine ⟨fun h r hr => ?_, fun before after hsaved hnext => snapshot_settled hx hsaved hnext⟩
  obtain ⟨hmem, -, hwhole⟩ := hr.recent hx
  refine ⟨hmem, hr.present hx, ?_⟩
  rcases hwhole with rfl | ⟨b, ⟨m, rfl⟩, rfl⟩
  · exact .inl ⟨rfl, rfl⟩
  · exact .inr ⟨m, rfl, loadSnapshot_save cipher m⟩

/-- `k` is `v`. -/
def firstMap : MemStore := MemStore.new.put [107] [118]

/-- `k` is `w`. -/
def secondMap : MemStore := MemStore.new.put [107] [119]

/-- A `saveSnapshot` without failures, and a power failure inside the next one. -/
theorem snapshot_survives_crash : ∃ x m, Running none x ∧ x.history.length = 4 ∧
    loadSnapshot none (x.fs.read .snapshot) = some m ∧ (m.cell [107]).map (·.value) = some [118] := by
  have hfirst : accepts none .snapshot (.snapshot (Storage.saveSnapshot none firstMap)) :=
    ⟨firstMap, rfl⟩
  have hsecond : accepts none .snapshot (.snapshot (Storage.saveSnapshot none secondMap)) :=
    ⟨secondMap, rfl⟩
  have h := Relation.ReflTransGen.refl.tail (r := Step (program none) (accepts none))
    (a := World.init) (Step.call (w := .snapshot) rfl hfirst)
  have h := h.tail (.ok (w := .snapshot) rfl rfl rfl .prepare)
  have h := h.tail (.ok (w := .snapshot) rfl rfl rfl (.createNew rfl))
  have h := h.tail (.defer (w := .snapshot) rfl rfl rfl)
  have h := h.tail (.ok (w := .snapshot) rfl rfl rfl (.write rfl rfl))
  have h := h.tail (.ok (w := .snapshot) rfl rfl rfl (.sync rfl))
  have h := h.tail (.ok (w := .snapshot) rfl rfl rfl (.close true))
  have h := h.tail (.ok (w := .snapshot) rfl rfl rfl (.rename rfl))
  have h := h.tail (.ok (w := .snapshot) rfl rfl rfl .openDir)
  have h := h.tail (.defer (w := .snapshot) rfl rfl rfl)
  have h := h.tail (.ok (w := .snapshot) rfl rfl rfl .syncDir)
  have h := h.tail (.finish (w := .snapshot) rfl rfl rfl)
  have h := h.tail (.clean (w := .snapshot) rfl rfl .closeDir)
  have h := h.tail (.clean (w := .snapshot) rfl rfl (.remove .tmp))
  have h := h.tail (.ret (w := .snapshot) rfl rfl)
  have h := h.tail (.call (w := .snapshot) rfl hsecond)
  have h := h.tail (.ok (w := .snapshot) rfl rfl rfl .prepare)
  have h := h.tail (.ok (w := .snapshot) rfl rfl rfl (.createNew rfl))
  have h := h.tail (.defer (w := .snapshot) rfl rfl rfl)
  have h := h.tail (.ok (w := .snapshot) rfl rfl rfl (.write rfl rfl))
  have h := h.tail (.crash (Cached.now_mem _) fun _ => Cached.now_mem _)
  obtain ⟨-, hpresent, ⟨hnone, -⟩ | ⟨m, hm, hload⟩⟩ :=
    (snapshot_survives h).1 _ _ (.inr ⟨_, [], rfl, rfl⟩)
  · exact absurd hnone (hpresent (by simp))
  · refine ⟨_, _, h, rfl, hload, ?_⟩
    have hsame : Storage.marshalSnapshot firstMap = Storage.marshalSnapshot m := by
      injection hm with hm
      injection hm with hm
      injection hm with hm
      exact congrArg SnapshotFile.data hm
    rw [← hsame]
    decide

end KvStore.DataDirectory
