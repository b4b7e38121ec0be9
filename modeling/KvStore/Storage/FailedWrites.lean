import KvStore.Storage.GroupCommit
import KvStore.Storage.TornTail

/-!
# Writes that fail

`writeBatch` and `writeSingle` (pkg/storage/batcher.go:79) append to the log, sync it and only
then change the memory. An append may fail after part of the record has been written, and a
`Sync` may fail after all of it has; the request is answered with the error, and the bytes stay
in the file, in front of whatever is written next. The clock stands still.

* `tryBatch`, `trySingle`: the two write paths with the outcome of every append and of the sync.
* `restored_leave_iff`: when the bytes that a failed write has left behind do no harm.
* `failed_writes_agree_iff`: in a run all of whose failed writes have left behind no part of a
  record, and no record whose execution would show, a restart after any operation shows the
  memory. In a log that is not encrypted, only in such a run.
* `failed_write_diverges`: an append that fails after one byte, and a sync that fails.
-/

namespace KvStore.Storage

open KvStore.Framing
open KvStore.Expiring (live)

/-- A request, and how its append ends if it comes to that: `none` if the record is written,
    `some n` if the write fails after `n` bytes. -/
structure Attempt where
  cmd : Command
  nonce : Nonce
  cut : Option ℕ

/-- What a write is answered with: an error of the store or one of the file. -/
inductive WriteError where
  | store (e : Err)
  | file
  deriving DecidableEq

namespace DiskStore

/-! ## The write paths -/

/-- `append` (pkg/storage/wal.go:152); also says whether it returned `nil`. -/
def tryAppend (d : DiskStore) (r : Record) (nonce : Nonce) : Option ℕ → Bool × DiskStore
  | none => (true, d.append r nonce)
  | some n => (false, { d with wal := d.wal ++ (walFrame d.cipher (r, nonce)).take n })

/-- The append loop of `writeBatch` (pkg/storage/batcher.go:160): it stops at the first error. -/
def tryAppends (d : DiskStore) : List Attempt → Bool × DiskStore
  | [] => (true, d)
  | a :: batch =>
    match batchRecord a.cmd with
    | none => d.tryAppends batch
    | some r =>
      match d.tryAppend r a.nonce a.cut with
      | (true, d) => d.tryAppends batch
      | (false, d) => (false, d)

/-- `writeBatch` (pkg/storage/batcher.go:152): all requests of the batch get one answer. -/
def tryBatch (d : DiskStore) (batch : List Attempt) (synced : Bool) :
    Except WriteError Value × DiskStore :=
  if batch.isEmpty then (.ok .none, d)
  else
    match d.tryAppends batch with
    | (false, d) => (.error .file, d)
    | (true, d) =>
      if synced then
        (.ok .none, { d with mem := batch.foldl (fun m a => applyBatched m a.cmd) d.mem })
      else (.error .file, d)

/-- `writeSingle` (pkg/storage/batcher.go:81). -/
def trySingle (d : DiskStore) (a : Attempt) (synced : Bool) (now later : Int64) :
    Except WriteError Value × DiskStore :=
  match a.cmd.op with
  | .incr =>
    match d.tryAppend (.incr a.cmd.key) a.nonce a.cut with
    | (false, d) => (.error .file, d)
    | (true, d) =>
      if synced then
        let r := d.mem.incr a.cmd.key now
        ((r.1.map .int).mapError .store, { d with mem := r.2 })
      else (.error .file, d)
  | .cas =>
    match d.mem.get a.cmd.key now later with
    | (.error e, m) => (.error (.store e), { d with mem := m })
    | (.ok cur, m) =>
      if cur ≠ a.cmd.old then (.ok (.bool false), { d with mem := m })
      else
        match tryAppend { d with mem := m } (.cas a.cmd.key a.cmd.old a.cmd.value) a.nonce a.cut with
        | (false, d) => (.error .file, d)
        | (true, d) =>
          if synced then (.ok (.bool true), { d with mem := d.mem.put a.cmd.key a.cmd.value })
          else (.error .file, d)
  | .expire =>
    match d.mem.get a.cmd.key now later with
    | (.error e, m) => (.error (.store e), { d with mem := m })
    | (.ok _, m) =>
      match tryAppend { d with mem := m } (.expire a.cmd.key a.cmd.expiresAt) a.nonce a.cut with
      | (false, d) => (.error .file, d)
      | (true, d) =>
        if synced then
          let r := d.mem.expire a.cmd.key a.cmd.expiresAt later
          ((r.1.map fun _ => .none).mapError .store, { d with mem := r.2 })
        else (.error .file, d)
  | _ => (.error (.store .unknownOp), d)

/-- Without failures this is the `writeSingle` of before. -/
theorem trySingle_whole (d : DiskStore) (cmd : Command) (nonce : Nonce) (now later : Int64) :
    d.trySingle ⟨cmd, nonce, none⟩ true now later =
      ((d.writeSingle cmd nonce now later).1.mapError .store,
        (d.writeSingle cmd nonce now later).2) := by
  unfold trySingle writeSingle
  cases hop : cmd.op with
  | incr => rfl
  | cas =>
    dsimp only [tryAppend]
    rcases d.mem.get cmd.key now later with ⟨e | cur, m⟩
    · rfl
    · simp only [↓reduceIte]
      split_ifs <;> rfl
  | expire =>
    dsimp only [tryAppend]
    rcases d.mem.get cmd.key now later with ⟨e | cur, m⟩ <;> rfl
  | _ => rfl

/-! ## What a failed write leaves behind -/

/-- What is in the file of a record after a write that failed after `n` bytes: the whole record
    after all, or a piece of it. -/
def residue (cipher : Option AtRestCipher) (p : Record × Nonce) (n : ℕ) :
    List (Record × Nonce) × Bytes :=
  if (walFrame cipher p).length ≤ n then ([p], []) else ([], (walFrame cipher p).take n)

/-- The whole records and the piece of one that the appends of a batch leave in the file. -/
def batchResidue (cipher : Option AtRestCipher) : List Attempt → List (Record × Nonce) × Bytes
  | [] => ([], [])
  | a :: batch =>
    match batchRecord a.cmd with
    | none => batchResidue cipher batch
    | some r =>
      match a.cut with
      | none => ((r, a.nonce) :: (batchResidue cipher batch).1, (batchResidue cipher batch).2)
      | some n => residue cipher (r, a.nonce) n

/-- The same for the append of a single record. -/
def singleResidue (cipher : Option AtRestCipher) (p : Record × Nonce) :
    Option ℕ → List (Record × Nonce) × Bytes
  | none => ([p], [])
  | some n => residue cipher p n

/-- The store with these bytes behind its log. -/
def leave (d : DiskStore) (left : List (Record × Nonce) × Bytes) : DiskStore :=
  { d with wal := d.wal ++ (left.1.flatMap (walFrame d.cipher) ++ left.2) }

theorem leave_residue (d : DiskStore) (p : Record × Nonce) (n : ℕ) :
    d.leave (residue d.cipher p n) = { d with wal := d.wal ++ (walFrame d.cipher p).take n } := by
  unfold leave residue
  split_ifs with h
  · rw [List.take_of_length_le h]
    simp
  · simp

theorem leave_nil (d : DiskStore) : d.leave ([], []) = d := by
  simp [leave]

theorem tryAppend_eq (d : DiskStore) (r : Record) (nonce : Nonce) (cut : Option ℕ) :
    d.tryAppend r nonce cut = (cut.isNone, d.leave (singleResidue d.cipher (r, nonce) cut)) := by
  cases cut with
  | none => simp [tryAppend, append, leave, singleResidue]
  | some n => rw [singleResidue, leave_residue]; rfl

/-- All appends of the batch succeed. -/
def Complete (batch : List Attempt) : Prop :=
  ∀ a ∈ batch, (batchRecord a.cmd).isSome → a.cut = none

instance (batch : List Attempt) : Decidable (Complete batch) :=
  inferInstanceAs (Decidable (∀ a ∈ batch, _))

theorem complete_cons (a : Attempt) (batch : List Attempt) :
    Complete (a :: batch) ↔ ((batchRecord a.cmd).isSome → a.cut = none) ∧ Complete batch :=
  List.forall_mem_cons

theorem tryAppends_eq (d : DiskStore) (batch : List Attempt) :
    d.tryAppends batch = (decide (Complete batch), d.leave (batchResidue d.cipher batch)) := by
  induction batch generalizing d with
  | nil => rw [tryAppends, batchResidue, leave_nil]; rfl
  | cons a batch ih =>
    rw [tryAppends, batchResidue]
    cases hr : batchRecord a.cmd with
    | none =>
      dsimp only
      rw [ih]
      simp [complete_cons, hr]
    | some r =>
      dsimp only
      rw [tryAppend_eq]
      cases hcut : a.cut with
      | none =>
        dsimp only [Option.isNone_none]
        rw [ih]
        simp [complete_cons, hr, hcut, leave, singleResidue]
      | some n =>
        dsimp only [Option.isNone_some]
        simp [complete_cons, hr, hcut, singleResidue]

/-- The requests of a batch and their nonces. -/
def submitted (batch : List Attempt) : List (Command × Nonce) := batch.map fun a => (a.cmd, a.nonce)

theorem batchResidue_of_complete (cipher : Option AtRestCipher) {batch : List Attempt}
    (h : Complete batch) : batchResidue cipher batch = (batchRecords (submitted batch), []) := by
  induction batch with
  | nil => rfl
  | cons a batch ih =>
    obtain ⟨ha, hrest⟩ := (complete_cons a batch).mp h
    rw [batchResidue]
    cases hr : batchRecord a.cmd with
    | none =>
      dsimp only
      rw [ih hrest]
      simp [submitted, batchRecords, hr]
    | some r =>
      rw [ha (by rw [hr]; rfl)]
      dsimp only
      rw [ih hrest]
      simp [submitted, batchRecords, hr]

/-- A batch is written as before, or leaves something behind and changes nothing else. -/
theorem tryBatch_eq (d : DiskStore) (batch : List Attempt) (synced : Bool) :
    (d.tryBatch batch synced).2 =
      if Complete batch ∧ synced then d.writeBatch (submitted batch)
      else d.leave (batchResidue d.cipher batch) := by
  cases batch with
  | nil =>
    have hnil : d.writeBatch (submitted []) = d := rfl
    rw [hnil, batchResidue, leave_nil, ite_self]
    rfl
  | cons a batch =>
    generalize hb : a :: batch = reqs
    have hne : reqs.isEmpty = false := by rw [← hb]; rfl
    unfold tryBatch
    rw [hne, tryAppends_eq]
    by_cases hc : Complete reqs
    · cases synced with
      | true =>
        simp only [hc, decide_true, true_and, ↓reduceIte, Bool.false_eq_true]
        rw [d.writeBatch_eq _ 0, batchResidue_of_complete _ hc, ← foldl_applyBatched _ _ 0,
          submitted, List.foldl_map]
        simp [leave]
      | false => simp [hc]
    · simp [hc]

/-- The record that `writeSingle` appends at the clock reading `t`, if it appends one. -/
def singleRecord (t : Int64) (d : DiskStore) (cmd : Command) : Option Record :=
  if cmd.op.conditional then cmd.logged t (d.mem.cell cmd.key) else none

/-- A write that logs nothing at most drops a dead entry. -/
theorem trySingle_unlogged {d : DiskStore} {a : Attempt} {t : Int64}
    (h : d.singleRecord t a.cmd = none) (synced : Bool) :
    ∃ m, (d.trySingle a synced t t).2 = { d with mem := m } ∧ m.SameAt t d.mem := by
  obtain ⟨⟨op, key, old, value, expiresAt⟩, nonce, cut⟩ := a
  unfold singleRecord at h
  cases op with
  | incr => simp [Op.conditional, Command.logged] at h
  | cas =>
    cases hl : live t (d.mem.cell key) with
    | none =>
      refine ⟨(d.mem.get key t t).2, ?_, d.mem.sameAt_get key (Int64.le_refl t)⟩
      unfold trySingle
      dsimp only
      rw [get_of_gone hl t]
    | some e =>
      have hv : e.value ≠ old := by
        intro hv
        simp [Op.conditional, Command.logged, hl, hv] at h
      refine ⟨d.mem, ?_, .refl _⟩
      simp [trySingle, get_of_live hl t, hv]
  | expire =>
    cases hl : live t (d.mem.cell key) with
    | none =>
      refine ⟨(d.mem.get key t t).2, ?_, d.mem.sameAt_get key (Int64.le_refl t)⟩
      unfold trySingle
      dsimp only
      rw [get_of_gone hl t]
    | some e => simp [Op.conditional, Command.logged, hl] at h
  | _ => exact ⟨d.mem, rfl, .refl _⟩

/-- A write that logs a record executes it, or leaves something behind and changes nothing
    else. -/
theorem trySingle_logged {d : DiskStore} {a : Attempt} {t : Int64} {r : Record}
    (h : d.singleRecord t a.cmd = some r) (synced : Bool) :
    (d.trySingle a synced t t).2 =
      if a.cut = none ∧ synced then d.appendAll [(r, a.nonce)] t
      else d.leave (singleResidue d.cipher (r, a.nonce) a.cut) := by
  obtain ⟨⟨op, key, old, value, expiresAt⟩, nonce, cut⟩ := a
  unfold singleRecord at h
  rw [appendAll_singleton]
  cases op with
  | incr =>
    obtain rfl : Record.incr key = r := by simpa [Op.conditional, Command.logged] using h
    cases cut with
    | none =>
      cases synced <;> simp [trySingle, tryAppend_eq, singleResidue, leave, append,
        Record.command, MemStore.apply]
    | some n => simp [trySingle, tryAppend_eq]
  | cas =>
    cases hl : live t (d.mem.cell key) with
    | none => simp [Op.conditional, Command.logged, hl] at h
    | some e =>
      obtain ⟨hcell, hdead⟩ := Expiring.live_eq_some_iff.mp hl
      rw [dead_eq] at hdead
      obtain ⟨hv, rfl⟩ : e.value = old ∧ Record.cas key old value = r := by
        simpa [Op.conditional, Command.logged, hl] using h
      cases cut with
      | none =>
        cases synced <;> simp [trySingle, get_of_live hl t, hv, tryAppend_eq, singleResidue, leave,
          append, Record.command, MemStore.apply, MemStore.cas, MemStore.lookup, hcell, hdead]
      | some n => simp [trySingle, get_of_live hl t, hv, tryAppend_eq]
  | expire =>
    cases hl : live t (d.mem.cell key) with
    | none => simp [Op.conditional, Command.logged, hl] at h
    | some e =>
      obtain rfl : Record.expire key expiresAt = r := by
        simpa [Op.conditional, Command.logged, hl] using h
      cases cut with
      | none =>
        cases synced <;> simp [trySingle, get_of_live hl t, tryAppend_eq, singleResidue, leave,
          append, Record.command, MemStore.apply]
      | some n => simp [trySingle, get_of_live hl t, tryAppend_eq]
  | _ => simp [Op.conditional] at h

/-! ## When it shows -/

/-- What a failed write has left behind does not show: no part of a record, and whole records that
    replay reads and whose execution on the memory would change nothing that is alive. -/
structure Unseen (t : Int64) (d : DiskStore) (left : List (Record × Nonce) × Bytes) : Prop where
  piece : left.2 = []
  readable : ∀ p ∈ left.1, p.1.Readable d.cipher
  same : MemStore.SameAt t (d.mem.replayed t (left.1.map Prod.fst)) d.mem

/-- At a fixed clock nothing expires between execution and replay. -/
theorem harmlessAll_self (t : Int64) (rs : List Record) (m : MemStore) :
    storeMachine.HarmlessAll t t rs m := by
  induction rs generalizing m with
  | nil => trivial
  | cons r rs ih => exact ⟨r.command.harmless_self t _, ih _⟩

theorem sameAt_replayed {t : Int64} {m m' : MemStore} (h : m.SameAt t m') (rs : List Record) :
    (m.replayed t rs).SameAt t (m'.replayed t rs) := by
  rw [← storeMachine_execAll, ← storeMachine_execAll]
  exact storeMachine.execAll_same (Int64.le_refl t) h (harmlessAll_self t rs m')

variable {d : DiskStore} {t : Int64}

/-- Leftovers that do not show keep the directory intact and the guarantee. -/
theorem Unseen.leave {left : List (Record × Nonce) × Bytes} (h : Unseen t d left) (hd : d.Intact)
    (hr : d.Restored t) : (d.leave left).Intact ∧ (d.leave left).Restored t := by
  obtain ⟨hd', hr'⟩ := appendAll_safe hd hr (Int64.le_refl t) h.readable
    (harmlessAll_self t _ d.mem)
  have heq : d.leave left = { d.appendAll left.1 t with mem := d.mem } := by
    simp [DiskStore.leave, appendAll, h.piece]
  rw [heq]
  exact tend_safe hd' hr' h.same.symm

/-- The piece is empty or a proper part of a record. -/
def TornOff (cipher : Option AtRestCipher) (piece : Bytes) : Prop :=
  piece = [] ∨ ∃ p : Record × Nonce, p.1.Small ∧
    ∃ j, 0 < j ∧ j < (walFrame cipher p).length ∧ piece = (walFrame cipher p).take j

theorem endsLog_nil (cipher : Option AtRestCipher) : EndsLog cipher [] := by
  cases cipher with
  | none => rfl
  | some c => exact .inl (by decide)

/-- When a restart after a failed write shows the memory. -/
theorem restored_leave_iff (hd : d.Intact) (hr : d.Restored t)
    {left : List (Record × Nonce) × Bytes} (hsmall : ∀ p ∈ left.1, p.1.Small)
    (htorn : TornOff d.cipher left.2) :
    (d.leave left).Restored t ↔
      EndsLog d.cipher left.2 ∧ (∀ p ∈ left.1, p.1.Readable d.cipher) ∧
        MemStore.SameAt t (d.mem.replayed t (left.1.map Prod.fst)) d.mem := by
  obtain ⟨j, hj⟩ := hd
  obtain ⟨qs, hwal, hqs⟩ := hj.wal
  have hread : ∀ p ∈ qs, p.1.Readable d.cipher := by
    intro p hp
    exact hj.readable p.1 (hqs ▸ List.mem_map_of_mem hp)
  have hM : (j.image.replayed t (qs.map Prod.fst)).SameAt t d.mem := by
    have := (hj.restored_iff t).mp hr
    rw [Journal.Machine.Restores, Journal.Machine.recover, ← hqs, hj.mem] at this
    exact this
  -- replay reads the log and then what was left behind
  have hopen : ∀ d', openDiskStore (d.leave left).cipher (d.leave left).snapshot (d.leave left).wal t
      = .ok d' ↔ walReplay d.cipher t (walEmpty d.cipher ++ (left.1.flatMap (walFrame d.cipher)
        ++ left.2)) (j.image.replayed t (qs.map Prod.fst)) = (none, d'.mem) ∧
        d' = { d.leave left with mem := d'.mem } := by
    intro d'
    have hleave : (d.leave left).wal = walEmpty d.cipher ++
        (qs.flatMap (walFrame d.cipher) ++ (left.1.flatMap (walFrame d.cipher) ++ left.2)) := by
      rw [DiskStore.leave, hwal, List.append_assoc]
    have hiff := openDiskStore_eq_ok_iff hj.image
      (qs.flatMap (walFrame d.cipher) ++ (left.1.flatMap (walFrame d.cipher) ++ left.2)) t d'
    rw [walReplay_flatMap d.cipher hread, ← hleave] at hiff
    exact hiff
  constructor
  · rintro ⟨d', hd', hsame⟩
    have hreplay := ((hopen d').mp hd').1
    have hreadable : ∀ p ∈ left.1, p.1.Readable d.cipher := by
      by_contra hnot
      obtain ⟨e, he⟩ := walReplay_flatMap_unreadable d.cipher hsmall hnot t left.2
        (j.image.replayed t (qs.map Prod.fst))
      rw [hreplay] at he
      cases he
    rw [walReplay_flatMap d.cipher hreadable] at hreplay
    have hends : EndsLog d.cipher left.2 := by
      by_contra hnot
      rcases htorn with hnil | ⟨p, hp, k, hk, hlt, heq⟩
      · rw [hnil] at hnot
        exact hnot (endsLog_nil d.cipher)
      · rw [heq] at hnot hreplay
        obtain ⟨e, he⟩ := walReplay_piece_fails hp hk hlt hnot t
          ((j.image.replayed t (qs.map Prod.fst)).replayed t (left.1.map Prod.fst))
        rw [hreplay] at he
        cases he
    rw [hends.walReplay] at hreplay
    obtain ⟨-, hmem⟩ := Prod.mk.inj hreplay
    rw [← hmem] at hsame
    exact ⟨hends, hreadable, (sameAt_replayed hM _).symm.trans hsame⟩
  · rintro ⟨hends, hreadable, hsame⟩
    refine ⟨{ d.leave left with
        mem := (j.image.replayed t (qs.map Prod.fst)).replayed t (left.1.map Prod.fst) },
      (hopen _).mpr ⟨?_, rfl⟩, (sameAt_replayed hM _).trans hsame⟩
    rw [walReplay_flatMap d.cipher hreadable, hends.walReplay]

/-! ## What the appends can tear off -/

theorem residue_tornOff (cipher : Option AtRestCipher) {p : Record × Nonce} (hp : p.1.Small)
    (n : ℕ) : (∀ q ∈ (residue cipher p n).1, q.1.Small) ∧ TornOff cipher (residue cipher p n).2 := by
  unfold residue
  split_ifs with h
  · exact ⟨by simpa using hp, .inl rfl⟩
  · refine ⟨by simp, ?_⟩
    rcases Nat.eq_zero_or_pos n with rfl | hn
    · exact .inl rfl
    · exact .inr ⟨p, hp, n, hn, Nat.lt_of_not_le h, rfl⟩

theorem singleResidue_tornOff (cipher : Option AtRestCipher) {p : Record × Nonce}
    (hp : p.1.Small) (cut : Option ℕ) :
    (∀ q ∈ (singleResidue cipher p cut).1, q.1.Small) ∧
      TornOff cipher (singleResidue cipher p cut).2 := by
  cases cut with
  | none => exact ⟨by simpa [singleResidue] using hp, .inl rfl⟩
  | some n => exact residue_tornOff cipher hp n

theorem batchResidue_tornOff (cipher : Option AtRestCipher) {batch : List Attempt}
    (h : ∀ a ∈ batch, a.cmd.Small) :
    (∀ q ∈ (batchResidue cipher batch).1, q.1.Small) ∧
      TornOff cipher (batchResidue cipher batch).2 := by
  induction batch with
  | nil => exact ⟨by simp [batchResidue], .inl rfl⟩
  | cons a batch ih =>
    obtain ⟨ha, hrest⟩ := List.forall_mem_cons.mp h
    obtain ⟨ih₁, ih₂⟩ := ih hrest
    rw [batchResidue]
    cases hr : batchRecord a.cmd with
    | none => exact ⟨ih₁, ih₂⟩
    | some r =>
      have hsmall : r.Small := by
        have hone : ∀ p ∈ [(a.cmd, a.nonce)], p.1.Small := by simpa using ha
        have hmem : (r, a.nonce) ∈ batchRecords [(a.cmd, a.nonce)] := by simp [batchRecords, hr]
        exact Command.Small.batchRecords hone _ hmem
      cases a.cut with
      | none => exact ⟨List.forall_mem_cons.mpr ⟨hsmall, ih₁⟩, ih₂⟩
      | some n => exact residue_tornOff cipher (p := (r, a.nonce)) hsmall n

/-- In a log that is not encrypted, a failed write whose leftovers show is seen by the next
    restart. -/
theorem unseen_of_restored (hd : d.Intact) (hr : d.Restored t) (hplain : d.cipher = none)
    {left : List (Record × Nonce) × Bytes} (hsmall : ∀ p ∈ left.1, p.1.Small)
    (htorn : TornOff d.cipher left.2) (h : (d.leave left).Restored t) : Unseen t d left := by
  obtain ⟨hends, hread, hsame⟩ := (restored_leave_iff hd hr hsmall htorn).mp h
  refine ⟨?_, hread, hsame⟩
  rw [hplain] at hends
  exact hends

end DiskStore

/-! ## Runs -/

/-- An operation on an open store, with the outcome of its appends and of its sync. -/
inductive FallibleAction where
  | batch (reqs : List Attempt) (synced : Bool)
  | single (req : Attempt) (synced : Bool)
  | get (key : Bytes)
  | sweep
  | compact

namespace DiskStore

/-- The operation at the clock reading `t`, and what it is answered with; what a `Get` has read is
    left out. -/
def perform (t : Int64) (d : DiskStore) : FallibleAction → Except WriteError Value × DiskStore
  | .batch reqs synced => d.tryBatch reqs synced
  | .single req synced => d.trySingle req synced t t
  | .get key =>
    let r := d.mem.get key t t
    ((r.1.map fun _ => .none).mapError .store, { d with mem := r.2 })
  | .sweep => (.ok .none, { d with mem := (d.mem.sweepExpired t).2 })
  | .compact => (.ok .none, d.compact)

/-- The store after a sequence of operations. -/
def performAll (t : Int64) (d : DiskStore) (acts : List FallibleAction) : DiskStore :=
  acts.foldl (fun d a => (d.perform t a).2) d

end DiskStore

namespace FallibleAction

/-- What an operation must meet, in the state before it: what it writes can be read back; if it
    fails, what it has left behind does not show; and compaction finds text. -/
def Safe (t : Int64) (d : DiskStore) : FallibleAction → Prop
  | .batch reqs synced =>
    if DiskStore.Complete reqs ∧ synced then
      ∀ p ∈ DiskStore.batchRecords (DiskStore.submitted reqs), p.1.Readable d.cipher
    else DiskStore.Unseen t d (DiskStore.batchResidue d.cipher reqs)
  | .single req synced => ∀ r, d.singleRecord t req.cmd = some r →
    if req.cut = none ∧ synced then r.Readable d.cipher
    else DiskStore.Unseen t d (DiskStore.singleResidue d.cipher (r, req.nonce) req.cut)
  | .get _ => True
  | .sweep => True
  | .compact => d.mem.TextAt t

/-- The strings of the requests take less than 4 GiB. -/
def Small : FallibleAction → Prop
  | .batch reqs _ => ∀ a ∈ reqs, a.cmd.Small
  | .single req _ => req.cmd.Small
  | _ => True

end FallibleAction

namespace DiskStore

variable {d : DiskStore} {t : Int64}

/-- A safe operation keeps the directory intact and the guarantee. -/
theorem perform_safe (hd : d.Intact) (hr : d.Restored t) {a : FallibleAction} (ha : a.Safe t d) :
    (d.perform t a).2.Intact ∧ (d.perform t a).2.Restored t := by
  cases a with
  | batch reqs synced =>
    rw [perform, tryBatch_eq]
    simp only [FallibleAction.Safe] at ha
    split_ifs with hc
    · rw [if_pos hc] at ha
      exact step_safe hd hr (a := .batch (submitted reqs)) (by simp [Action.readings]) ha
    · rw [if_neg hc] at ha
      exact ha.leave hd hr
  | single req synced =>
    rw [perform]
    cases hlog : d.singleRecord t req.cmd with
    | none =>
      obtain ⟨m, hm, hsame⟩ := trySingle_unlogged hlog synced
      rw [hm]
      exact tend_safe hd hr hsame
    | some r =>
      have hr' := ha r hlog
      rw [trySingle_logged hlog]
      split_ifs with hc
      · rw [if_pos hc] at hr'
        exact appendAll_safe hd hr (Int64.le_refl t) (by simpa using hr')
          (harmlessAll_self t _ d.mem)
      · rw [if_neg hc] at hr'
        exact hr'.leave hd hr
  | get key => exact tend_safe hd hr (d.mem.sameAt_get key (Int64.le_refl t))
  | sweep => exact tend_safe hd hr (d.mem.sameAt_sweepExpired (Int64.le_refl t))
  | compact => exact ⟨⟨_, journalled_compact d⟩, (compact_restored_iff d t).mpr ha⟩

/-- In a log that is not encrypted, only a safe operation keeps the guarantee. -/
theorem safe_of_perform (hd : d.Intact) (hr : d.Restored t) (hplain : d.cipher = none)
    {a : FallibleAction} (hsmall : a.Small) (h : (d.perform t a).2.Restored t) : a.Safe t d := by
  cases a with
  | batch reqs synced =>
    rw [perform, tryBatch_eq] at h
    simp only [FallibleAction.Safe]
    split_ifs at h ⊢ with hc
    · have hsmall' : Action.Small (.batch (submitted reqs)) := by
        intro p hp
        obtain ⟨a, ha, rfl⟩ := List.mem_map.mp hp
        exact hsmall a ha
      exact safe_of_step hd hr (a := .batch (submitted reqs)) (by simp [Action.readings]) hsmall' h
    · obtain ⟨hs, htorn⟩ := batchResidue_tornOff d.cipher hsmall
      exact unseen_of_restored hd hr hplain hs htorn h
  | single req synced =>
    intro r hlog
    rw [perform, trySingle_logged hlog] at h
    have hs : r.Small := by
      unfold singleRecord at hlog
      split_ifs at hlog
      exact hsmall.logged hlog
    split_ifs at h ⊢ with hc
    · by_contra hread
      obtain ⟨j, hj⟩ := hd
      exact hj.not_restored (by simpa using hs) (by simpa using hread) _ t h
    · obtain ⟨hs', htorn⟩ := singleResidue_tornOff d.cipher (p := (r, req.nonce)) hs req.cut
      exact unseen_of_restored hd hr hplain hs' htorn h
  | get key => trivial
  | sweep => trivial
  | compact => exact (compact_restored_iff d t).mp h

theorem cipher_perform (t : Int64) (d : DiskStore) (a : FallibleAction) :
    (d.perform t a).2.cipher = d.cipher := by
  cases a with
  | batch reqs synced =>
    rw [perform, tryBatch_eq, d.writeBatch_eq _ t]
    split_ifs <;> rfl
  | single req synced =>
    rw [perform]
    cases hlog : d.singleRecord t req.cmd with
    | none =>
      obtain ⟨m, hm, -⟩ := trySingle_unlogged hlog synced
      rw [hm]
    | some r =>
      rw [trySingle_logged hlog]
      split_ifs <;> rfl
  | _ => rfl

end DiskStore

/-- Every operation of the run is safe in the state before it. -/
def AllUnseen (t : Int64) (d : DiskStore) (acts : List FallibleAction) : Prop :=
  ∀ before a after, acts = before ++ a :: after → a.Safe t (d.performAll t before)

/-- A run at a fixed clock on an intact directory, in which any append and any sync may fail. If it
    is safe, a restart after every operation succeeds and shows the memory, whether the operation
    was acknowledged or not. If the log is not encrypted and the strings written take less than
    4 GiB each, this happens only if the run is safe. -/
theorem failed_writes_agree_iff (t : Int64) (d : DiskStore) (hd : d.Intact)
    (acts : List FallibleAction) :
    (d.Restored t ∧ AllUnseen t d acts →
        ∀ pre, pre <+: acts → (d.performAll t pre).Restored t) ∧
      (d.cipher = none → (∀ a ∈ acts, a.Small) →
        (∀ pre, pre <+: acts → (d.performAll t pre).Restored t) →
          d.Restored t ∧ AllUnseen t d acts) := by
  constructor
  · rintro ⟨hr, hs⟩ pre ⟨rest, rfl⟩
    have hpre := Transition.AllMeet.of_append (f := fun d a => (DiskStore.perform t d a).2) hs
    exact (hpre.invariant (P := fun d => d.Intact ∧ d.Restored t) ⟨hd, hr⟩ fun d' a _ h hsafe =>
      DiskStore.perform_safe h.1 h.2 hsafe).2
  · intro hplain hsmall h
    refine ⟨h [] List.nil_prefix, Transition.allMeet_of_prefixes
      (f := fun d a => (DiskStore.perform t d a).2) (P := fun d => d.Intact ∧ d.cipher = none)
      (Q := DiskStore.Restored t) ⟨hd, hplain⟩ ?_ ?_ h⟩
    · intro d' a ha hd' hr' hstep
      exact DiskStore.safe_of_perform hd'.1 hr' hd'.2 (hsmall a ha) hstep
    · intro d' a ha hd' hr' hsafe
      exact ⟨(DiskStore.perform_safe hd'.1 hr' hsafe).1,
        (DiskStore.cipher_perform t d' a).trans hd'.2⟩

/-- What the operations are answered with. -/
def DiskStore.answers (t : Int64) : DiskStore → List FallibleAction → List (Except WriteError Value)
  | _, [] => []
  | d, a :: acts => (d.perform t a).1 :: DiskStore.answers t (d.perform t a).2 acts

/-- `Put k 1` whose append or sync fails, and `Put l 2` behind it. -/
def failThenPut (cut : Option ℕ) (synced : Bool) : List FallibleAction :=
  [.batch [⟨{ op := .put, key := [107], value := [49] }, zeroNonce, cut⟩] synced,
   .batch [⟨{ op := .put, key := [108], value := [50] }, zeroNonce, none⟩] true]

/-- An append that fails before anything is written does no harm. -/
theorem failed_write_without_trace :
    (DiskStore.new none).answers 0 (failThenPut (some 0) true) = [.error .file, .ok .none] ∧
      ((DiskStore.new none).performAll 0 (failThenPut (some 0) true)).Restored 0 := by
  refine ⟨by decide, ?_⟩
  refine (failed_writes_agree_iff 0 (.new none) (intact_new none) (failThenPut (some 0) true)).1
    ⟨restored_new none 0, ?_⟩ _ (List.prefix_refl _)
  refine (Transition.allMeet_cons (f := fun d a => (DiskStore.perform 0 d a).2)).mpr
    ⟨?_, Transition.allMeet_cons.mpr ⟨?_, Transition.allMeet_nil⟩⟩
  · simp only [FallibleAction.Safe]
    rw [if_neg (by decide)]
    exact ⟨by decide, by decide, .refl _⟩
  · simp only [FallibleAction.Safe]
    rw [if_pos (by decide)]
    decide

/-- An append that fails after one byte: the next write is acknowledged, and the directory cannot
    be opened any more. A sync that fails: the next write is acknowledged, and a restart shows the
    failed write. -/
theorem failed_write_diverges :
    ((DiskStore.new none).answers 0 (failThenPut (some 1) true) = [.error .file, .ok .none] ∧
        ¬ ((DiskStore.new none).performAll 0 (failThenPut (some 1) true)).Restored 0) ∧
      (DiskStore.new none).answers 0 (failThenPut none false) = [.error .file, .ok .none] ∧
        ¬ ((DiskStore.new none).performAll 0 (failThenPut none false)).Restored 0 := by
  refine ⟨⟨by decide, ?_⟩, by decide, ?_⟩
  · rintro ⟨d', hopen, -⟩
    have herr : (openDiskStore none none
        ((DiskStore.new none).performAll 0 (failThenPut (some 1) true)).wal 0).toOption.isSome
        = false := by decide
    have hfiles : openDiskStore none none
        ((DiskStore.new none).performAll 0 (failThenPut (some 1) true)).wal 0 = .ok d' := hopen
    rw [hfiles] at herr
    cases herr
  · rintro ⟨d', hopen, hsame⟩
    have hshown : (openDiskStore none none
        ((DiskStore.new none).performAll 0 (failThenPut none false)).wal 0).toOption.map
        (fun d => live 0 (d.mem.cell [107])) = some (some ⟨[49], 0⟩) := by decide
    have hmem : live 0 (((DiskStore.new none).performAll 0 (failThenPut none false)).mem.cell [107])
        = none := by decide
    have hfiles : openDiskStore none none
        ((DiskStore.new none).performAll 0 (failThenPut none false)).wal 0 = .ok d' := hopen
    rw [hfiles] at hshown
    have hkey := (Option.some.inj hshown).symm.trans (hsame [107])
    rw [hmem] at hkey
    cases hkey

end KvStore.Storage
