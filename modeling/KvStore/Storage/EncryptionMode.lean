import KvStore.Storage.EncryptedAppend
import KvStore.Storage.FailedWrites
import KvStore.Storage.RestoreSnapshot

/-!
# Opening a directory in another mode

A data directory is written without a key or under one key. Which it was is seen from the
first byte of `wal.log` (`OpenWALEncrypted`, pkg/storage/wal.go:63) and from the prefix of
`snapshot.dat` (`loadSnapshot`, pkg/storage/snapshot.go:151), and either file may be empty or
missing.

* `refused_open_iff`: a refused open leaves the directory usable in its own mode, unless a key is
  tried on a plaintext directory whose log is empty.
* `Site`: a directory over the life of its processes in one mode, with crashes at any point.
* `other_mode_refused`: once a write has been acknowledged, every other mode is refused.
-/

namespace KvStore.Storage

open KvStore.Framing

/-! ## A refused open -/

/-- The mark of an encrypted log is not the code of an operation. -/
theorem walReplay_stamped (t : Int64) (body : Bytes) (m : MemStore) :
    walReplay none t (walEncryptedMagic :: body) m =
      (some (.unknownOp walEncryptedMagic), m) := by
  have hread : walRead (walEncryptedMagic :: body) = .fail (.unknownOp walEncryptedMagic) := rfl
  rw [walReplay, replayPlain]
  exact feed_fail walRead_reader hread m

/-- The two files of a data directory; a log that does not exist is empty once it is opened. -/
structure Directory where
  snapshot : Option SnapshotFile
  wal : Bytes

namespace Directory

/-- `OpenDiskStore` and `OpenDiskStoreWithKey` (pkg/storage/wal.go:443). -/
def openStore (dir : Directory) (mode : Option AtRestCipher) (t : Int64) : Except OpenError DiskStore :=
  openDiskStore mode dir.snapshot dir.wal t

/-- The directory once it has been tried to open it, with or without success: an empty log is
    stamped before anything else is looked at. -/
def afterOpen (dir : Directory) (mode : Option AtRestCipher) : Directory :=
  match openWal mode dir.wal with
  | .ok wal => { dir with wal := wal }
  | .error _ => dir

/-- Opening changes nothing but an empty log, and that only with a key. -/
theorem afterOpen_eq (dir : Directory) (mode : Option AtRestCipher) :
    dir.afterOpen mode =
      if mode.isSome ∧ dir.wal = [] then { dir with wal := [walEncryptedMagic] } else dir := by
  obtain ⟨snapshot, wal⟩ := dir
  cases mode with
  | none => rfl
  | some c =>
    rcases wal with - | ⟨first, rest⟩
    · rfl
    · by_cases h : first = walEncryptedMagic <;> simp [afterOpen, openWal, h]

theorem open_stamped (snapshot : Option SnapshotFile) (t : Int64) :
    ∃ e, Directory.openStore ⟨snapshot, [walEncryptedMagic]⟩ none t = .error e := by
  unfold openStore openDiskStore
  cases loadSnapshot none snapshot with
  | error e => exact ⟨e, by simp [openWal]⟩
  | ok m => exact ⟨.wal (.unknownOp walEncryptedMagic), by simp [openWal, walReplay_stamped]⟩

/-- With a key, an empty log and one with nothing but the stamp are the same. -/
theorem open_empty (snapshot : Option SnapshotFile) (c : AtRestCipher) (t : Int64) :
    Directory.openStore ⟨snapshot, []⟩ (some c) t =
      Directory.openStore ⟨snapshot, [walEncryptedMagic]⟩ (some c) t := rfl

/-- After the open in the mode `tried` was refused, the open in the mode `own` gives the state that
    it gave before. -/
def Unharmed (dir : Directory) (own tried : Option AtRestCipher) (t : Int64) (s : MemStore) : Prop :=
  ∃ d, (dir.afterOpen tried).openStore own t = .ok d ∧ d.mem = s

/-- A refused open does no harm, unless a key was tried on a plaintext directory with an empty
    log. -/
theorem refused_open_iff (dir : Directory) (own tried : Option AtRestCipher) (t t' : Int64)
    (d : DiskStore) (hown : dir.openStore own t = .ok d) (e : OpenError)
    (htried : dir.openStore tried t' = .error e) :
    dir.Unharmed own tried t d.mem ↔ ¬ (own = none ∧ tried.isSome ∧ dir.wal = []) := by
  rw [Unharmed, afterOpen_eq]
  split_ifs with hstamp
  · -- the log has been stamped
    obtain ⟨snapshot, wal⟩ := dir
    obtain ⟨hsome, rfl⟩ : tried.isSome ∧ wal = [] := hstamp
    cases own with
    | none =>
      obtain ⟨e', he'⟩ := open_stamped snapshot t
      refine iff_of_false ?_ (by simp [hsome])
      rintro ⟨d', hd', -⟩
      rw [he'] at hd'
      cases hd'
    | some c =>
      rw [open_empty] at hown
      exact iff_of_true ⟨d, hown, rfl⟩ (by simp)
  · refine iff_of_true ⟨d, hown, rfl⟩ ?_
    rintro ⟨-, hsome, hnil⟩
    exact hstamp ⟨hsome, hnil⟩

/-- The directory of a store that holds `k = 1` in its log. -/
def withLog : Directory := ⟨none, (Record.put [107] [49]).encode⟩

/-- The same after a compaction. -/
def compacted : Directory := ⟨some (saveSnapshot none (MemStore.new.put [107] [49])), []⟩

theorem refused_open_with_log :
    ∃ d e, withLog.openStore none 0 = .ok d ∧ withLog.openStore (some .tagged) 0 = .error e ∧
      withLog.Unharmed none (some .tagged) 0 d.mem := by
  refine ⟨⟨_, _, _, _⟩, .walNotEncrypted, rfl, rfl, ?_⟩
  exact (refused_open_iff withLog none (some .tagged) 0 0 _ rfl .walNotEncrypted rfl).mpr
    (by decide)

/-- The key is refused because of the snapshot, but the log has been stamped by then, and the
    directory does not open without a key any more. -/
theorem refused_open_after_compaction :
    ∃ d e, compacted.openStore none 0 = .ok d ∧ compacted.openStore (some .tagged) 0 = .error e ∧
      ¬ compacted.Unharmed none (some .tagged) 0 d.mem := by
  refine ⟨⟨_, _, _, _⟩, .snapshotNotEncrypted, rfl, rfl, ?_⟩
  rintro ⟨d, hd, -⟩
  have herr : ((compacted.afterOpen (some .tagged)).openStore none 0).toOption.isSome = false := by
    decide
  rw [hd] at herr
  cases herr

end Directory

/-! ## What a write leaves in the log -/

theorem Record.encode_eq_cons (r : Record) :
    ∃ op rest, r.encode = op :: rest ∧ op ≠ walEncryptedMagic := by
  cases r <;> exact ⟨_, _, rfl, by decide⟩

/-- A write has appended `y`: without a key it starts with the code of an operation, and if the
    write was answered without an error it starts with a whole record. -/
structure Wrote (d d' : DiskStore) (answered : Bool) : Prop where
  snapshot : d'.snapshot = d.snapshot
  cipher : d'.cipher = d.cipher
  wal : ∃ y, d'.wal = d.wal ++ y ∧
    (d.cipher = none → ∀ op rest, y = op :: rest → op ≠ walEncryptedMagic) ∧
    (answered = true → y ≠ [] → ∃ p z, y = walFrame d.cipher p ++ z)

theorem Wrote.refl (d : DiskStore) (answered : Bool) : Wrote d d answered :=
  ⟨rfl, rfl, [], by simp, by simp, by simp⟩

theorem Wrote.withMem {d d' : DiskStore} {answered : Bool} (h : Wrote d d' answered) (m : MemStore) :
    Wrote d { d' with mem := m } answered := ⟨h.snapshot, h.cipher, h.wal⟩

theorem Wrote.ofMem {d d' : DiskStore} {m : MemStore} {answered : Bool}
    (h : Wrote { d with mem := m } d' answered) : Wrote d d' answered :=
  ⟨h.snapshot, h.cipher, h.wal⟩

theorem Wrote.mono {d d' : DiskStore} {answered : Bool} (h : Wrote d d' answered) :
    Wrote d d' false := by
  obtain ⟨y, hy, hcode, -⟩ := h.wal
  exact ⟨h.snapshot, h.cipher, y, hy, hcode, by simp⟩

theorem code_of_frame {p : Record × Nonce} {n : ℕ} {op : UInt8} {rest : Bytes}
    (h : (walFrame none p).take n = op :: rest) : op ≠ walEncryptedMagic := by
  obtain ⟨op', rest', henc, hop⟩ := p.1.encode_eq_cons
  have hframe : walFrame none p = op' :: rest' := henc
  rw [hframe] at h
  cases n with
  | zero => cases h
  | succ n =>
    obtain ⟨rfl, -⟩ := List.cons.inj h
    exact hop

theorem walFrame_ne_nil (cipher : Option AtRestCipher) (p : Record × Nonce) :
    walFrame cipher p ≠ [] := by
  cases cipher with
  | none => exact p.1.encode_ne_nil
  | some c =>
    intro h
    have hlen := congrArg List.length h
    rw [walFrame, length_field] at hlen
    simp at hlen

/-- Whatever is written behind a whole record. -/
theorem Wrote.trans {d d' d'' : DiskStore} {answered : Bool} (h : Wrote d d' true)
    (hne : d'.wal ≠ d.wal) (h' : Wrote d' d'' answered) : Wrote d d'' answered := by
  obtain ⟨y, hy, hcode, hframe⟩ := h.wal
  obtain ⟨z, hz, -, -⟩ := h'.wal
  have hnil : y ≠ [] := by
    intro hnil
    rw [hnil, List.append_nil] at hy
    exact hne hy
  refine ⟨h'.snapshot.trans h.snapshot, h'.cipher.trans h.cipher, y ++ z, ?_, ?_, fun _ _ => ?_⟩
  · rw [hz, hy, List.append_assoc]
  · intro hc op rest heq
    rcases y with - | ⟨b, y⟩
    · exact absurd rfl hnil
    · obtain ⟨rfl, -⟩ := List.cons.inj heq
      exact hcode hc b y rfl
  · obtain ⟨p, w, hw⟩ := hframe rfl hnil
    exact ⟨p, w ++ z, by rw [hw, List.append_assoc]⟩

namespace DiskStore

theorem wrote_tryAppend (d : DiskStore) (r : Record) (nonce : Nonce) (cut : Option ℕ) :
    Wrote d (d.tryAppend r nonce cut).2 (d.tryAppend r nonce cut).1 := by
  cases cut with
  | none =>
    refine ⟨rfl, rfl, walFrame d.cipher (r, nonce), rfl, fun hc op rest h => ?_, fun _ _ => ?_⟩
    · rw [hc, ← List.take_length (l := walFrame none (r, nonce))] at h
      exact code_of_frame h
    · exact ⟨(r, nonce), [], by rw [List.append_nil]⟩
  | some n =>
    refine ⟨rfl, rfl, (walFrame d.cipher (r, nonce)).take n, rfl, fun hc op rest h => ?_, ?_⟩
    · rw [hc] at h
      exact code_of_frame h
    · simp [tryAppend]

theorem wrote_tryAppends (d : DiskStore) (batch : List Attempt) :
    Wrote d (d.tryAppends batch).2 (d.tryAppends batch).1 := by
  induction batch generalizing d with
  | nil => exact .refl d true
  | cons a batch ih =>
    rw [tryAppends]
    cases batchRecord a.cmd with
    | none => exact ih d
    | some r =>
      have hone := wrote_tryAppend d r a.nonce a.cut
      cases hcut : a.cut with
      | none =>
        rw [hcut] at hone
        refine hone.trans (fun h => ?_) (ih _)
        exact walFrame_ne_nil d.cipher (r, a.nonce) (List.append_right_eq_self.mp h)
      | some n =>
        rw [hcut] at hone
        exact hone

theorem wrote_tryBatch (d : DiskStore) (batch : List Attempt) (synced : Bool) :
    Wrote d (d.tryBatch batch synced).2 (d.tryBatch batch synced).1.isOk := by
  have happ := wrote_tryAppends d batch
  unfold tryBatch
  by_cases hempty : batch.isEmpty
  · rw [if_pos hempty]
    exact .refl d true
  · rw [if_neg hempty]
    rcases hr : d.tryAppends batch with ⟨ok, d'⟩
    rw [hr] at happ
    cases ok with
    | false => exact happ
    | true =>
      cases synced with
      | true => exact happ.withMem _
      | false => exact happ.mono

/-- The rest of `writeSingle` once its record is appended: the sync, the answer, the memory. -/
theorem wrote_finish {d d' : DiskStore} {ok : Bool} (h : Wrote d d' ok) (synced : Bool)
    (f : DiskStore → Except WriteError Value × MemStore) :
    let r : Except WriteError Value × DiskStore :=
      match (ok, d') with
      | (false, d) => (.error .file, d)
      | (true, d) => if synced then ((f d).1, { d with mem := (f d).2 }) else (.error .file, d)
    Wrote d r.2 r.1.isOk := by
  cases ok with
  | false => exact h
  | true =>
    cases synced with
    | false => exact h.mono
    | true =>
      have hany : ∀ answered, Wrote d d' answered := by
        intro answered
        cases answered with
        | true => exact h
        | false => exact h.mono
      exact (hany _).withMem _

theorem wrote_trySingle (d : DiskStore) (a : Attempt) (synced : Bool) (now later : Int64) :
    Wrote d (d.trySingle a synced now later).2 (d.trySingle a synced now later).1.isOk := by
  have hmem : ∀ m answered, Wrote d { d with mem := m } answered :=
    fun m answered => (Wrote.refl d answered).withMem m
  unfold trySingle
  cases a.cmd.op with
  | incr =>
    exact wrote_finish (wrote_tryAppend d (.incr a.cmd.key) a.nonce a.cut) synced fun d =>
      (((d.mem.incr a.cmd.key now).1.map .int).mapError .store, (d.mem.incr a.cmd.key now).2)
  | cas =>
    dsimp only
    rcases d.mem.get a.cmd.key now later with ⟨e | cur, m⟩
    · exact hmem m _
    · dsimp only
      by_cases hcur : cur ≠ a.cmd.old
      · rw [if_pos hcur]
        exact hmem m _
      · rw [if_neg hcur]
        have happ := wrote_tryAppend { d with mem := m } (.cas a.cmd.key a.cmd.old a.cmd.value)
          a.nonce a.cut
        exact wrote_finish happ.ofMem synced fun d =>
          (.ok (.bool true), d.mem.put a.cmd.key a.cmd.value)
  | expire =>
    dsimp only
    rcases d.mem.get a.cmd.key now later with ⟨e | cur, m⟩
    · exact hmem m _
    · have happ := wrote_tryAppend { d with mem := m } (.expire a.cmd.key a.cmd.expiresAt)
        a.nonce a.cut
      exact wrote_finish happ.ofMem synced fun d =>
        (((d.mem.expire a.cmd.key a.cmd.expiresAt later).1.map fun _ => .none).mapError .store,
          (d.mem.expire a.cmd.key a.cmd.expiresAt later).2)
  | _ => exact .refl d false

end DiskStore

/-! ## The life of a directory in one mode -/

/-- A data directory and the process on it. While no process is up the memory of `store` means
    nothing. The first `synced` bytes of the log survive a crash. -/
structure Site where
  store : DiskStore
  up : Bool
  synced : ℕ
  acked : Bool

/-- What happens: a process opens the directory, writes, reads, sweeps, compacts and restores, and
    crashes. An operation that is cut by a crash is the operation failing at that point, and the
    crash behind it. -/
inductive SiteEvent where
  | start (t : Int64)
  | batch (batch : List Attempt) (synced : Bool)
  | single (a : Attempt) (synced : Bool) (now later : Int64)
  | get (key : Bytes) (now later : Int64)
  | sweep (now : Int64)
  | compact (fault : Option RestorePoint)
  | restore (doc : Document) (fault : Option RestorePoint)
  | crash (kept : ℕ)

namespace Site

/-- An empty directory. -/
def new (mode : Option AtRestCipher) : Site :=
  { store := { mem := .new, snapshot := none, wal := [], cipher := mode }, up := false, synced := 0,
    acked := false }

/-- The log has grown and the answer is no error: the write is acknowledged, after a sync. -/
def written (s : Site) (r : Except WriteError Value × DiskStore) : Site :=
  if r.1.isOk ∧ r.2.wal ≠ s.store.wal then
    { s with store := r.2, synced := r.2.wal.length, acked := true }
  else { s with store := r.2 }

/-- The directory is opened in the mode it has always been opened in. -/
def start (s : Site) (t : Int64) : Site :=
  match openDiskStore s.store.cipher s.store.snapshot s.store.wal t with
  | .ok d => { s with store := d, up := true }
  | .error _ =>
    let dir := Directory.afterOpen ⟨s.store.snapshot, s.store.wal⟩ s.store.cipher
    { s with store := { s.store with wal := dir.wal } }

/-- A compaction or a restore that has left the store `d`. -/
def replaced (s : Site) (d : DiskStore) : Site :=
  { s with store := d, synced := min s.synced d.wal.length }

/-- A crash that leaves the synced part of the log and perhaps more. -/
def crash (s : Site) (kept : ℕ) : Site :=
  { s with store := { s.store with wal := s.store.wal.take (max kept s.synced) }, up := false }

def step (s : Site) : SiteEvent → Site
  | .start t => if s.up then s else s.start t
  | .batch batch synced => if s.up then s.written (s.store.tryBatch batch synced) else s
  | .single a synced now later =>
    if s.up then s.written (s.store.trySingle a synced now later) else s
  | .get key now later =>
    if s.up then { s with store := { s.store with mem := (s.store.mem.get key now later).2 } } else s
  | .sweep now =>
    if s.up then { s with store := { s.store with mem := (s.store.mem.sweepExpired now).2 } } else s
  | .compact fault => if s.up then s.replaced (s.store.tryCompact fault).2 else s
  | .restore doc fault => if s.up then s.replaced (s.store.tryRestore doc fault).2 else s
  | .crash kept => s.crash kept

def run (s : Site) (events : List SiteEvent) : Site := events.foldl step s

/-! ### What every life keeps -/

/-- The bytes that the log of an acknowledged write has at least. -/
def leastLog : Option AtRestCipher → ℕ
  | none => 1
  | some _ => 6

/-- A snapshot is of the mode. As long as there is none, the first byte of the log is the mark of the
    mode, an open encrypted log has its mark, and an acknowledged write is in the log. -/
structure Inv (mode : Option AtRestCipher) (s : Site) : Prop where
  cipher : s.store.cipher = mode
  snapshot : ∀ file, s.store.snapshot = some file → file.sealedUnder = mode.map (·.key)
  marked : s.store.snapshot = none → ∀ first rest, s.store.wal = first :: rest →
    (first = walEncryptedMagic ↔ mode.isSome)
  stamped : s.store.snapshot = none → s.up → mode.isSome → s.store.wal ≠ []
  held : s.store.snapshot = none → s.acked → leastLog mode ≤ s.synced
  kept : s.synced ≤ s.store.wal.length

variable {mode : Option AtRestCipher} {s : Site}

theorem inv_new (mode : Option AtRestCipher) : (new mode).Inv mode where
  cipher := rfl
  snapshot := by simp [new]
  marked := by simp [new]
  stamped := by simp [new]
  held := by simp [new]
  kept := le_refl _

theorem Inv.crash (h : s.Inv mode) (kept : ℕ) : (s.crash kept).Inv mode where
  cipher := h.cipher
  snapshot := h.snapshot
  marked := by
    intro hnone first rest hwal
    have hcons := List.take_append_drop (max kept s.synced) s.store.wal
    have hwal' : s.store.wal.take (max kept s.synced) = first :: rest := hwal
    rw [hwal', List.cons_append] at hcons
    exact h.marked hnone first _ hcons.symm
  stamped := by simp [Site.crash]
  held := h.held
  kept := by
    have := h.kept
    simp only [Site.crash, List.length_take]
    omega

/-- Work on the memory. -/
theorem Inv.withMem (h : s.Inv mode) (m : MemStore) :
    Inv mode { s with store := { s.store with mem := m } } :=
  ⟨h.cipher, h.snapshot, h.marked, h.stamped, h.held, h.kept⟩

/-- The log after an open: what it was, or the mark if it was empty. -/
theorem Inv.opened (h : s.Inv mode) {wal : Bytes} {m : MemStore} {up : Bool}
    (hwal : wal = s.store.wal ∨ s.store.wal = [] ∧ mode.isSome ∧ wal = [walEncryptedMagic])
    (hup : up → mode.isSome → wal ≠ []) :
    Inv mode { s with store := { s.store with mem := m, wal := wal }, up := up } where
  cipher := h.cipher
  snapshot := h.snapshot
  marked := by
    intro hnone first rest heq
    rcases hwal with hsame | ⟨-, hsome, hmark⟩
    · exact h.marked hnone first rest (hsame ▸ heq)
    · have heq' : wal = first :: rest := heq
      rw [hmark] at heq'
      obtain ⟨rfl, -⟩ := List.cons.inj heq'
      exact iff_of_true rfl hsome
  stamped := fun _ hup' => hup hup'
  held := h.held
  kept := by
    have := h.kept
    rcases hwal with hsame | ⟨hnil, -, -⟩
    · rw [hsame]
      exact this
    · rw [hnil, List.length_nil] at this
      exact le_trans this (Nat.zero_le _)

theorem openWal_eq_ok {mode : Option AtRestCipher} {file wal : Bytes}
    (h : openWal mode file = .ok wal) :
    (wal = file ∨ file = [] ∧ mode.isSome ∧ wal = [walEncryptedMagic]) ∧ (mode.isSome → wal ≠ []) := by
  cases mode with
  | none =>
    cases h
    exact ⟨.inl rfl, by simp⟩
  | some c =>
    rcases file with - | ⟨first, rest⟩
    · cases h
      exact ⟨.inr ⟨rfl, rfl, rfl⟩, by simp⟩
    · simp only [openWal] at h
      split_ifs at h with hfirst
      cases h
      exact ⟨.inl rfl, by simp⟩

/-- A store that has been opened has the files it was opened on. -/
theorem files_of_openDiskStore {mode : Option AtRestCipher} {snapshot : Option SnapshotFile}
    {file : Bytes} {t : Int64} {d : DiskStore} (h : openDiskStore mode snapshot file t = .ok d) :
    ∃ m wal, openWal mode file = .ok wal ∧ d = ⟨m, snapshot, wal, mode⟩ := by
  unfold openDiskStore at h
  cases hw : openWal mode file with
  | error e => rw [hw] at h; cases h
  | ok wal =>
    rw [hw] at h
    dsimp only at h
    cases hl : loadSnapshot mode snapshot with
    | error e => rw [hl] at h; cases h
    | ok m =>
      rw [hl] at h
      dsimp only at h
      rcases hr : walReplay mode t wal m with ⟨- | e, m'⟩
      · rw [hr] at h
        cases h
        exact ⟨m', wal, rfl, rfl⟩
      · rw [hr] at h
        cases h

theorem Inv.start (h : s.Inv mode) (t : Int64) : (s.start t).Inv mode := by
  unfold Site.start
  have hc := h.cipher
  cases hopen : openDiskStore s.store.cipher s.store.snapshot s.store.wal t with
  | ok d =>
    obtain ⟨m, wal, hwal, rfl⟩ := files_of_openDiskStore hopen
    rw [hc] at hwal
    obtain ⟨hfile, hne⟩ := openWal_eq_ok hwal
    exact h.opened hfile fun _ => hne
  | error e =>
    unfold Directory.afterOpen
    dsimp only
    cases hwal : openWal s.store.cipher s.store.wal with
    | error e' =>
      exact h
    | ok wal =>
      rw [hc] at hwal
      obtain ⟨hfile, hne⟩ := openWal_eq_ok hwal
      exact h.opened hfile fun _ => hne

theorem Inv.written (h : s.Inv mode) (hup : s.up = true) {r : Except WriteError Value × DiskStore}
    (hw : Wrote s.store r.2 r.1.isOk) : (s.written r).Inv mode := by
  obtain ⟨y, hy, hcode, hframe⟩ := hw.wal
  have hlen : s.store.wal.length ≤ r.2.wal.length := by
    rw [hy, List.length_append]
    omega
  have hmarked : r.2.snapshot = none → ∀ first rest, r.2.wal = first :: rest →
      (first = walEncryptedMagic ↔ mode.isSome) := by
    intro hnone first rest heq
    rw [hw.snapshot] at hnone
    rw [hy] at heq
    rcases hold : s.store.wal with - | ⟨b, bs⟩
    · -- the first byte is written now; an encrypted log would have had its mark before
      rw [hold, List.nil_append] at heq
      cases hm : mode with
      | none =>
        have hc : s.store.cipher = none := h.cipher.trans hm
        exact iff_of_false (hcode hc first rest heq) (by simp)
      | some c => exact absurd hold (h.stamped hnone hup (by rw [hm]; rfl))
    · rw [hold, List.cons_append] at heq
      obtain ⟨rfl, -⟩ := List.cons.inj heq
      exact h.marked hnone b bs hold
  have hstamped : r.2.snapshot = none → s.up → mode.isSome → r.2.wal ≠ [] := by
    intro hnone hup' hsome hnil
    rw [hw.snapshot] at hnone
    rw [hnil, List.length_nil] at hlen
    exact h.stamped hnone hup' hsome (List.length_eq_zero_iff.mp (by omega))
  have hsnap : ∀ file, r.2.snapshot = some file → file.sealedUnder = mode.map (·.key) := by
    intro file hfile
    exact h.snapshot file (hw.snapshot ▸ hfile)
  unfold Site.written
  split_ifs with hack
  · refine ⟨hw.cipher.trans h.cipher, hsnap, hmarked, hstamped, fun hnone _ => ?_, le_refl _⟩
    have hne : y ≠ [] := by
      rintro rfl
      exact hack.2 (by rw [hy, List.append_nil])
    cases hm : mode with
    | none =>
      have hpos := List.length_pos_of_ne_nil hne
      simp only [leastLog, hy, List.length_append]
      omega
    | some c =>
      -- the mark, and a sealed record of 32 bytes at least
      obtain ⟨p, z, hp⟩ := hframe hack.1 hne
      have hold := List.length_pos_of_ne_nil
        (h.stamped (hw.snapshot ▸ hnone) hup (by rw [hm]; rfl))
      rw [h.cipher, hm] at hp
      simp only [leastLog, hy, hp, walFrame, List.length_append, length_field, c.length_encrypt]
      omega
  · refine ⟨hw.cipher.trans h.cipher, hsnap, hmarked, hstamped, fun hnone hack' => ?_, ?_⟩
    · exact h.held (hw.snapshot ▸ hnone) hack'
    · exact le_trans h.kept hlen

/-- The files after a compaction: those of before, or a new snapshot. -/
theorem tryCompact_files (d : DiskStore) (fault : Option RestorePoint) :
    (d.tryCompact fault).2.cipher = d.cipher ∧
      ((d.tryCompact fault).2.snapshot = d.snapshot ∧ (d.tryCompact fault).2.wal = d.wal ∨
        (d.tryCompact fault).2.snapshot = some (saveSnapshot d.cipher d.mem)) := by
  obtain ⟨mem, snapshot, wal, cipher⟩ := d
  cases cipher <;> rcases fault with - | (_ | _ | _ | _ | _) <;>
    first | exact ⟨rfl, .inl ⟨rfl, rfl⟩⟩ | exact ⟨rfl, .inr rfl⟩

theorem Inv.replaced (h : s.Inv mode) {d : DiskStore} (hc : d.cipher = s.store.cipher)
    (hd : d.snapshot = s.store.snapshot ∧ d.wal = s.store.wal ∨
      ∃ m, d.snapshot = some (saveSnapshot s.store.cipher m)) : (s.replaced d).Inv mode := by
  rcases hd with ⟨hsnap, hwal⟩ | ⟨m, hsnap⟩
  · have hkept : min s.synced d.wal.length = s.synced := by
      rw [hwal]
      exact Nat.min_eq_left h.kept
    refine ⟨hc.trans h.cipher, fun file hf => h.snapshot file (hsnap ▸ hf), fun hnone => ?_,
      fun hnone => ?_, fun hnone hack => ?_, Nat.min_le_right _ _⟩
    · have := h.marked (hsnap ▸ hnone)
      rwa [← hwal] at this
    · have := h.stamped (hsnap ▸ hnone)
      rwa [← hwal] at this
    · simp only [Site.replaced, hkept]
      exact h.held (hsnap ▸ hnone) hack
  · have hnever : ¬ d.snapshot = none := by
      rw [hsnap]
      simp
    refine ⟨hc.trans h.cipher, fun file hf => ?_, fun hnone => absurd hnone hnever,
      fun hnone => absurd hnone hnever, fun hnone => absurd hnone hnever, Nat.min_le_right _ _⟩
    have hf' : d.snapshot = some file := hf
    rw [hsnap] at hf'
    cases hf'
    rw [saveSnapshot, h.cipher]

/-- One event keeps the invariant. -/
theorem Inv.step (h : s.Inv mode) (e : SiteEvent) : (s.step e).Inv mode := by
  cases hup : s.up with
  | false =>
    cases e with
    | start t =>
      simp only [Site.step, hup, Bool.false_eq_true, ↓reduceIte]
      exact h.start t
    | crash kept => exact h.crash kept
    | _ => simpa only [Site.step, hup, Bool.false_eq_true, ↓reduceIte] using h
  | true =>
    cases e with
    | start t => simpa only [Site.step, hup, ↓reduceIte] using h
    | batch batch synced =>
      simp only [Site.step, hup, ↓reduceIte]
      exact h.written hup (s.store.wrote_tryBatch batch synced)
    | single a synced now later =>
      simp only [Site.step, hup, ↓reduceIte]
      exact h.written hup (s.store.wrote_trySingle a synced now later)
    | get key now later =>
      simp only [Site.step, hup, ↓reduceIte]
      have := h.withMem (s.store.mem.get key now later).2
      rwa [hup] at this
    | sweep now =>
      simp only [Site.step, hup, ↓reduceIte]
      have := h.withMem (s.store.mem.sweepExpired now).2
      rwa [hup] at this
    | compact fault =>
      simp only [Site.step, hup, ↓reduceIte]
      obtain ⟨hc, hfiles⟩ := tryCompact_files s.store fault
      exact h.replaced hc (hfiles.imp_right fun hnew => ⟨_, hnew⟩)
    | restore doc fault =>
      simp only [Site.step, hup, ↓reduceIte]
      unfold DiskStore.tryRestore
      cases doc.decode with
      | none => exact h.replaced rfl (.inl ⟨rfl, rfl⟩)
      | some fresh =>
        obtain ⟨hc, hfiles⟩ := tryCompact_files (s.store.swapped fresh) fault
        exact h.replaced hc (hfiles.imp_right fun hnew => ⟨_, hnew⟩)
    | crash kept => exact h.crash kept

theorem inv_run (mode : Option AtRestCipher) (events : List SiteEvent) :
    ((new mode).run events).Inv mode :=
  List.foldlRecOn events step (inv_new mode) fun _ h e _ => h.step e

end Site

/-! ## Another mode -/

/-- The encrypted log has `blob` as one of its frames. -/
def SealedIn (wal blob : Bytes) : Prop :=
  ∃ (before : List Bytes) (rest : Bytes), (∀ b ∈ before, b.length ≤ maxSealed) ∧
    blob.length ≤ maxSealed ∧ wal = walEncryptedMagic :: (before.flatMap field ++ (field blob ++ rest))

/-- `other` is another mode than `own`: a key instead of none, none instead of a key, or another
    key, under which no sealed blob of the log opens. -/
def OtherMode (wal : Bytes) : Option AtRestCipher → Option AtRestCipher → Prop
  | none, none => False
  | none, some _ => True
  | some _, none => True
  | some c, some c' => c'.key ≠ c.key ∧ ∀ blob, SealedIn wal blob → c'.decrypt blob = none

/-- A snapshot of one mode does not load in another. -/
theorem loadSnapshot_other {own other : Option AtRestCipher} {wal : Bytes}
    (ho : OtherMode wal own other) {file : SnapshotFile} (hf : file.sealedUnder = own.map (·.key)) :
    ∃ e, loadSnapshot other (some file) = .error e := by
  cases own with
  | none =>
    cases other with
    | none => exact ho.elim
    | some c' => exact ⟨.snapshotNotEncrypted, by simp [loadSnapshot, hf]⟩
  | some c =>
    cases other with
    | none => exact ⟨.snapshotEncrypted, by simp [loadSnapshot, hf]⟩
    | some c' => exact ⟨.decryptSnapshot, by simp [loadSnapshot, hf, ho.1.symm]⟩

theorem openDiskStore_of_loadSnapshot {mode : Option AtRestCipher} {snapshot : Option SnapshotFile}
    {e : OpenError} (h : loadSnapshot mode snapshot = .error e) (wal : Bytes) (t : Int64) :
    ∃ e, openDiskStore mode snapshot wal t = .error e := by
  unfold openDiskStore
  cases openWal mode wal with
  | error e' => exact ⟨e', rfl⟩
  | ok wal' => exact ⟨e, by simp [h]⟩

/-- A cipher that opens none of the blobs of a log of five bytes or more fails on it. -/
theorem replayEncrypted_foreign {c : AtRestCipher} {body : Bytes}
    (h : ∀ blob, SealedIn (walEncryptedMagic :: body) blob → c.decrypt blob = none)
    (hlen : 5 ≤ body.length) (t : Int64) (m : MemStore) :
    ∃ e, (replayEncrypted c t (walEncryptedMagic :: body) m).1 = some e := by
  rw [replayEncrypted_cons]
  cases hread : readFrame body with
  | stop =>
    rcases (readFrame_eq_stop_iff c).mp hread with hlt | ⟨heq, -, -⟩ <;> omega
  | fail e => exact ⟨e, congrArg Prod.fst (feed_fail readFrame_reader hread m)⟩
  | item blob rest =>
    obtain ⟨hmax, hbody⟩ := readFrame_eq_item_iff.mp hread
    have hfirst : SealedIn (walEncryptedMagic :: body) blob :=
      ⟨[], rest, by simp, hmax, by rw [hbody]; rfl⟩
    refine ⟨.decrypt, ?_⟩
    rw [feed_item readFrame_reader hread, applySealed, h blob hfirst]

/-- A directory that was written in one mode only, with crashes anywhere, and that has
    acknowledged a write, does not open in any other mode. -/
theorem other_mode_refused (own other : Option AtRestCipher) (events : List SiteEvent) (t : Int64)
    (hack : ((Site.new own).run events).acked = true)
    (ho : OtherMode ((Site.new own).run events).store.wal own other) :
    ∃ e, openDiskStore other ((Site.new own).run events).store.snapshot
      ((Site.new own).run events).store.wal t = .error e := by
  have h := Site.inv_run own events
  generalize (Site.new own).run events = s at *
  cases hsnap : s.store.snapshot with
  | some file =>
    obtain ⟨e, he⟩ := loadSnapshot_other ho (h.snapshot file hsnap)
    exact openDiskStore_of_loadSnapshot he s.store.wal t
  | none =>
    -- without a snapshot the acknowledged write is in the log
    have hheld := h.held hsnap hack
    have hkept := h.kept
    rcases hwal : s.store.wal with - | ⟨first, body⟩
    · rw [hwal, List.length_nil] at hkept
      cases own <;> simp only [Site.leastLog] at hheld <;> omega
    · have hmark := h.marked hsnap first body hwal
      cases own with
      | none =>
        cases other with
        | none => exact ho.elim
        | some c' =>
          have hne : first ≠ walEncryptedMagic := by simpa using hmark
          exact ⟨.walNotEncrypted, by simp [openDiskStore, openWal, hne]⟩
      | some c =>
        obtain rfl : first = walEncryptedMagic := by simpa using hmark
        cases other with
        | none =>
          refine ⟨.wal (.unknownOp walEncryptedMagic), ?_⟩
          simp [openDiskStore, openWal, loadSnapshot, walReplay_stamped]
        | some c' =>
          rw [hwal, List.length_cons] at hkept
          rw [hwal] at ho
          simp only [Site.leastLog] at hheld
          obtain ⟨e, he⟩ := replayEncrypted_foreign ho.2 (by omega) t .new
          refine ⟨.wal e, ?_⟩
          simp only [openDiskStore, openWal, ne_eq, not_true_eq_false, ↓reduceIte, loadSnapshot]
          have hreplay : walReplay (some c') t (walEncryptedMagic :: body) .new =
              (some e, (replayEncrypted c' t (walEncryptedMagic :: body) .new).2) := Prod.ext he rfl
          rw [hreplay]

/-- `Put k 1` on a new directory. -/
def firstPut : List SiteEvent :=
  [.start 0, .batch [⟨{ op := .put, key := [107], value := [49] }, zeroNonce, none⟩] true]

/-- A key under which the byte `0xAA` ends everything that is sealed. -/
def otherKey : AtRestCipher := .withTag [1] 0xAA

theorem not_decrypt_otherKey {blob : Bytes} (h : (0xAA : UInt8) ∉ blob) :
    otherKey.decrypt blob = none := by
  by_contra hsome
  obtain ⟨plain, hplain⟩ := Option.ne_none_iff_exists'.mp hsome
  unfold AtRestCipher.decrypt at hplain
  split_ifs at hplain with hshort
  have hseal : blob.drop atRestNonceSize = plain ++ List.replicate 16 0xAA :=
    otherKey.openWith_eq_some_iff.mp hplain
  have hmem : (0xAA : UInt8) ∈ blob.drop atRestNonceSize := by
    rw [hseal]
    simp
  exact h (List.mem_of_mem_drop hmem)

theorem mem_of_sealedIn {wal blob : Bytes} (h : SealedIn wal blob) {b : UInt8} (hb : b ∈ blob) :
    b ∈ wal := by
  obtain ⟨before, rest, -, -, rfl⟩ := h
  simp [field, hb]

/-- After `Put k 1` the plaintext directory does not open under a key, and the encrypted one
    neither without a key nor under another. -/
theorem other_modes_refused_after_put :
    (∃ e, openDiskStore (some .tagged) ((Site.new none).run firstPut).store.snapshot
      ((Site.new none).run firstPut).store.wal 0 = .error e) ∧
    (∃ e, openDiskStore none ((Site.new (some .tagged)).run firstPut).store.snapshot
      ((Site.new (some .tagged)).run firstPut).store.wal 0 = .error e) ∧
    ∃ e, openDiskStore (some otherKey) ((Site.new (some .tagged)).run firstPut).store.snapshot
      ((Site.new (some .tagged)).run firstPut).store.wal 0 = .error e := by
  refine ⟨other_mode_refused none (some .tagged) firstPut 0 (by decide) trivial,
    other_mode_refused (some .tagged) none firstPut 0 (by decide) trivial,
    other_mode_refused (some .tagged) (some otherKey) firstPut 0 (by decide) ⟨by decide, ?_⟩⟩
  intro blob hblob
  refine not_decrypt_otherKey fun hmem => ?_
  have hwal := mem_of_sealedIn hblob hmem
  revert hwal
  decide

end KvStore.Storage
