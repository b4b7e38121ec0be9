import KvStore.Journal.Replay
import KvStore.Storage.Snapshot
import KvStore.Transition.Guarded

/-!
# What a restart restores

The records of the log are replayed at the clock of the restart, not at the clock of
the original operation (`applyRecord`, pkg/storage/wal.go:311). An `Incr`, a `CAS` or an
`Expire` that found its key alive can find it dead on replay, and then does something
else.

* `Command.live_onCell_iff`: on one cell, replay at `t` of a command executed at `τ` shows
  the same content at `t` exactly when the command is harmless.
* `storeMachine` makes the store an instance of `Journal.Machine`.
* `Journalled d j` connects the files of a `DiskStore` with a journal, and
  `Journalled.opens` says what `openDiskStore` makes of them.
* `sameAt_decode_iff`: a snapshot shows the same contents as the memory exactly when JSON
  does not change what is alive.
* `restart_restores_iff`: the acknowledged state is restored after every prefix of a run
  exactly when every step of the run is safe.
-/

namespace KvStore.Storage

open KvStore.Expiring (live Crosses)

/-! ## One cell -/

theorem formatInt_eq_one_iff {v : ℤ} : formatInt v = [49] ↔ v = 1 := by
  refine ⟨fun h => ?_, fun h => h ▸ formatInt_one⟩
  unfold formatInt at h
  dsimp only at h
  split_ifs at h with hneg
  · simp at h
  · split at h
    · simp at h
    · rename_i n hn
      obtain ⟨d, hd⟩ : ∃ d, Nat.digits 10 v.natAbs = [d] := by
        have hlen := congrArg List.length h
        simp only [List.length_map, List.length_reverse, List.length_singleton] at hlen
        exact List.length_eq_one_iff.mp hlen
      rw [hd] at h
      have hlt : d < 10 := Nat.digits_lt_base (by norm_num) (by rw [hd]; simp)
      have hval : v.natAbs = d := by
        have := Nat.ofDigits_digits 10 v.natAbs
        rw [hd] at this
        simpa using this.symm
      have hd1 : d = 1 := by
        simp only [List.reverse_singleton, List.map_singleton, List.cons.injEq, and_true] at h
        have hbyte : (48 + d.toUInt8).toNat = 49 := by rw [h]; rfl
        interval_cases d <;> simp_all
      omega

/-- A command that is executed at `τ` on the cell `c` may be replayed at `t`: it finds no
    entry that dies in between, or what it does to that entry does not show at `t`. -/
def Command.Harmless (cmd : Command) (τ t : Int64) (c : Option Entry) : Prop :=
  ∀ e, live τ c = some e → entryExpired e t = true →
    match cmd.op with
    | .incr => parseInt e.value = some 0
    | .cas => e.value ≠ cmd.old
    | .expire => cmd.expiresAt ≠ 0 ∧ cmd.expiresAt ≤ t
    | _ => True

/-- The entry dies between the two readings: what the replay has left and what the
    original has left. -/
theorem Command.live_onCell_crossing {cmd : Command} (hc : cmd.op.conditional = true)
    {τ t : Int64} {o r : Option Entry} {e : Entry} (he : live τ o = some e)
    (hd : entryExpired e t = true) (hr : live t r = none) :
    live t (cmd.onCell t r).2 = live t (cmd.onCell τ o).2 ↔ cmd.Harmless τ t o := by
  have hdead : live t (some e) = none := Expiring.live_some_of_dead hd
  have hharm : cmd.Harmless τ t o ↔
      match cmd.op with
      | .incr => parseInt e.value = some 0
      | .cas => e.value ≠ cmd.old
      | .expire => cmd.expiresAt ≠ 0 ∧ cmd.expiresAt ≤ t
      | _ => True :=
    ⟨fun h => h e he hd, fun h e' he' _ => by
      obtain rfl := Option.some.inj (he.symm.trans he'); exact h⟩
  rw [hharm]
  unfold onCell
  cases hop : cmd.op with
  | incr =>
    simp only [hr, he]
    cases hp : parseInt e.value with
    | none => simp [hdead, live_never_expires]
    | some v =>
      by_cases hv : v = maxInt64
      · simp [hv, hdead, live_never_expires, zero_ne_maxInt64.symm]
      · simp only [hv, ↓reduceIte, live_never_expires, Option.some.injEq, Entry.mk.injEq, and_true]
        rw [eq_comm, formatInt_eq_one_iff]
        omega
  | cas =>
    simp only [hr, he]
    by_cases hv : e.value = cmd.old
    · simp [hv, live_never_expires]
    · simp [hv, hdead]
  | expire =>
    simp only [hr, he, Expiring.live_none]
    rw [eq_comm, Expiring.live_eq_none_iff]
    simp [entryExpired]
  | _ => simp [hop, Op.conditional] at hc

/-- Replay at `t` of a command executed at `τ`, on cells that look alike at `t`. -/
theorem Command.live_onCell_iff (cmd : Command) {τ t : Int64} (hτ : τ ≤ t) {o r : Option Entry}
    (h : live t r = live t o) :
    live t (cmd.onCell t r).2 = live t (cmd.onCell τ o).2 ↔ cmd.Harmless τ t o := by
  cases hc : cmd.op.conditional with
  | false =>
    have hharm : cmd.Harmless τ t o := by
      intro e _ _
      cases hop : cmd.op <;> simp_all [Op.conditional]
    refine iff_of_true ?_ hharm
    unfold onCell
    cases hop : cmd.op with
    | other code => exact h
    | incr => simp [hop, Op.conditional] at hc
    | cas => simp [hop, Op.conditional] at hc
    | expire => simp [hop, Op.conditional] at hc
    | _ => rfl
  | true =>
    by_cases hx : Crosses τ t o
    · obtain ⟨e, he, hd⟩ := hx
      exact live_onCell_crossing hc he hd (h.trans (Crosses.live_eq_none ⟨e, he, hd⟩))
    · have hview := Expiring.live_eq_of_not_crosses hτ hx
      rw [onCell_congr hc (h.trans hview.symm)]
      exact iff_of_true rfl fun e he hd => absurd ⟨e, he, hd⟩ hx

/-! ## The store as a journalled machine -/

/-- The two stores show the same live keys, values and deadlines at the time `t`. -/
def MemStore.SameAt (t : Int64) (m m' : MemStore) : Prop :=
  ∀ k, live t (m.cell k) = live t (m'.cell k)

namespace MemStore

theorem sameAt_equivalence (t : Int64) : Equivalence (SameAt t) where
  refl _ _ := rfl
  symm h k := (h k).symm
  trans h h' k := (h k).trans (h' k)

theorem SameAt.refl {t : Int64} (m : MemStore) : SameAt t m m := fun _ => rfl

theorem SameAt.symm {t : Int64} {m m' : MemStore} (h : SameAt t m m') : SameAt t m' m :=
  fun k => (h k).symm

theorem SameAt.trans {t : Int64} {m m' m'' : MemStore} (h : SameAt t m m') (h' : SameAt t m' m'') :
    SameAt t m m'' := fun k => (h k).trans (h' k)

/-- Who shows the same at `s` shows the same at every later time. -/
theorem SameAt.mono {s t : Int64} (hst : s ≤ t) {m m' : MemStore} (h : SameAt s m m') :
    SameAt t m m' := fun k => Expiring.live_congr_of_le hst (h k)

/-- The command executed at `τ` and its replay at `t`, on stores that look alike at `t`. -/
theorem apply_sameAt_iff {cmd : Command} {τ t : Int64} (hτ : τ ≤ t) {r m : MemStore}
    (h : SameAt t r m) :
    SameAt t (r.apply cmd t).2 (m.apply cmd τ).2 ↔ cmd.Harmless τ t (m.cell cmd.key) := by
  constructor
  · intro hs
    have htouch : cmd.Touches cmd.key := Or.inr rfl
    have hkey := hs cmd.key
    rw [apply_cell, apply_cell, if_pos htouch, if_pos htouch] at hkey
    exact (cmd.live_onCell_iff hτ (h cmd.key)).mp hkey
  · intro hh k
    rw [apply_cell, apply_cell]
    split_ifs with ht
    · refine (cmd.live_onCell_iff hτ (h k)).mpr ?_
      rcases ht with hclear | rfl
      · -- `Clear` does not look at any cell
        intro e _ _
        rw [hclear]
        trivial
      · exact hh
    · exact h k

end MemStore

/-- The store with its records as operations. -/
def storeMachine : Journal.Machine MemStore Record Int64 where
  exec τ r m := (m.apply r.command τ).2
  Same := MemStore.SameAt
  Harmless τ t r m := r.command.Harmless τ t (m.cell r.command.key)
  same_equivalence := MemStore.sameAt_equivalence
  exec_same_iff hτ h := MemStore.apply_sameAt_iff hτ h

theorem storeMachine_execAll (t : Int64) (rs : List Record) (m : MemStore) :
    storeMachine.execAll t rs m = m.replayed t rs := rfl

/-! ## Work on the memory that does not show -/

namespace MemStore

variable (m : MemStore) {t : Int64}

theorem cell_get (key k : Bytes) (now later : Int64) :
    (m.get key now later).2.cell k = m.cell k ∨
      (m.get key now later).2.cell k = none ∧
        ∃ e, m.cell k = some e ∧ entryExpired e later = true := by
  unfold get
  cases h : m.cell key with
  | none => exact .inl rfl
  | some e =>
    dsimp only
    split_ifs with hnow hlater
    · rw [cell_erase]
      by_cases hk : key = k
      · subst hk
        exact .inr ⟨if_pos rfl, e, h, hlater⟩
      · exact .inl (if_neg hk)
    · exact .inl rfl
    · exact .inl rfl

/-- A lazy `Get` drops only what is dead. -/
theorem sameAt_get (key : Bytes) {now later : Int64} (hl : later ≤ t) :
    SameAt t (m.get key now later).2 m := by
  intro k
  rcases m.cell_get key k now later with h | ⟨h, e, he, hd⟩
  · rw [h]
  · rw [h, he, Expiring.live_none, Expiring.live_some_of_dead (Expiring.Mortal.dead_mono hl hd)]

theorem cell_sweepExpired (k : Bytes) (now : Int64) :
    (m.sweepExpired now).2.cell k = live now (m.cell k) := by
  simp only [sweepExpired, cell, Std.ExtTreeMap.getElem?_filter, live, dead_eq]
  cases h : m.data[k]? with
  | none => rfl
  | some e => cases he : entryExpired e now <;> simp [Option.filter, he]

/-- The expiry sweep drops only what is dead. -/
theorem sameAt_sweepExpired {now : Int64} (hl : now ≤ t) : SameAt t (m.sweepExpired now).2 m := by
  intro k
  rw [cell_sweepExpired, Expiring.live_live_of_le hl]

end MemStore

/-! ## Images -/

/-- JSON changes nothing that is alive at `t`: live keys and values are UTF-8, and no
    greater key reads as a live one. -/
def MemStore.TextAt (t : Int64) (m : MemStore) : Prop :=
  (∀ k e, live t (m.cell k) = some e → Utf8.Valid k ∧ Utf8.Valid e.value) ∧
    ∀ k e k' e', live t (m.cell k) = some e → m.cell k' = some e' → Utf8.repair k' = k →
      k' = k ∨ compare k' k = .lt

/-- A snapshot shows the same contents as the memory it was taken of. -/
theorem sameAt_decode_iff {t : Int64} {m : MemStore} :
    MemStore.SameAt t (decodeSnapshot (marshalSnapshot m)) m ↔ m.TextAt t := by
  constructor
  · intro h
    have htext : ∀ k e, live t (m.cell k) = some e → Utf8.Valid k ∧ Utf8.Valid e.value := by
      intro k e he
      rw [← h k] at he
      exact isText_decode_marshal m k e (Expiring.live_eq_some_iff.mp he).1
    refine ⟨htext, fun k e k' e' he hk' hr => ?_⟩
    rw [← h k] at he
    obtain ⟨hcell, hd⟩ := Expiring.live_eq_some_iff.mp he
    obtain ⟨k₀, e₀, hk₀, hr₀, rfl, hmax⟩ := (cell_decode_marshal m).mp hcell
    -- the key that has won is alive, so it is the key itself
    have hlive : live t (m.cell k₀) = some e₀ := Expiring.live_eq_some_iff.mpr ⟨hk₀, hd⟩
    rw [(htext k₀ e₀ hlive).1.repair_eq] at hr₀
    subst hr₀
    exact hmax k' e' hk' hr
  · rintro ⟨htext, hmax⟩ q
    cases hq : live t (m.cell q) with
    | some e =>
      obtain ⟨hkey, hval⟩ := htext q e hq
      obtain ⟨hcell, hd⟩ := Expiring.live_eq_some_iff.mp hq
      refine Expiring.live_eq_some_iff.mpr ⟨(cell_decode_marshal m).mpr ?_, hd⟩
      exact ⟨q, e, hcell, hkey.repair_eq, Entry.repaired_eq_self_iff.mpr hval,
        fun k' e' => hmax q e k' e' hq⟩
    | none =>
      by_contra hne
      obtain ⟨e, he⟩ := Option.ne_none_iff_exists'.mp hne
      obtain ⟨hcell, hd⟩ := Expiring.live_eq_some_iff.mp he
      obtain ⟨k₀, e₀, hk₀, hr₀, rfl, -⟩ := (cell_decode_marshal m).mp hcell
      have hlive : live t (m.cell k₀) = some e₀ := Expiring.live_eq_some_iff.mpr ⟨hk₀, hd⟩
      rw [(htext k₀ e₀ hlive).1.repair_eq] at hr₀
      rw [hr₀, hq] at hlive
      cases hlive

/-! ## The files and the journal -/

/-- The files of the store hold the journal `j`. -/
structure Journalled (d : DiskStore) (j : Journal.State MemStore Record) : Prop where
  mem : j.mem = d.mem
  image : loadSnapshot d.cipher d.snapshot = .ok j.image
  wal : ∃ ps : List (Record × Nonce),
    d.wal = walEmpty d.cipher ++ ps.flatMap (walFrame d.cipher) ∧ ps.map Prod.fst = j.tail
  readable : ∀ r ∈ j.tail, r.Readable d.cipher

/-- Opening intact files replays the journal. -/
theorem Journalled.opens {d : DiskStore} {j : Journal.State MemStore Record} (h : Journalled d j)
    (t : Int64) :
    openDiskStore d.cipher d.snapshot d.wal t =
      .ok { d with mem := storeMachine.recover t j } := by
  obtain ⟨ps, hwal, hps⟩ := h.wal
  have hread : ∀ p ∈ ps, p.1.Readable d.cipher := by
    intro p hp
    exact h.readable p.1 (hps ▸ List.mem_map_of_mem hp)
  have hreplay := walReplay_flatMap d.cipher hread t [] j.image
  rw [List.append_nil, List.append_nil, hps, walReplay_walEmpty] at hreplay
  rw [hwal]
  refine (openDiskStore_eq_ok_iff h.image _ t _).mpr ⟨hreplay, ?_⟩
  rw [← hwal]

/-- A restart at `t` succeeds and shows the contents that the memory shows at `t`. -/
def DiskStore.Restored (t : Int64) (d : DiskStore) : Prop :=
  ∃ d', openDiskStore d.cipher d.snapshot d.wal t = .ok d' ∧ d'.mem.SameAt t d.mem

theorem Journalled.restored_iff {d : DiskStore} {j : Journal.State MemStore Record}
    (h : Journalled d j) (t : Int64) : d.Restored t ↔ storeMachine.Restores t j := by
  rw [DiskStore.Restored, h.opens t, Journal.Machine.Restores, h.mem]
  constructor
  · rintro ⟨d', hd', hs⟩
    cases hd'
    exact hs
  · intro hs
    exact ⟨_, rfl, hs⟩

/-- The data directory is one that the store has written: a snapshot that loads, if
    any, and a log of readable records. -/
def DiskStore.Intact (d : DiskStore) : Prop := ∃ j, Journalled d j

theorem journalled_new (cipher : Option AtRestCipher) :
    Journalled (DiskStore.new cipher) ⟨.new, [], .new⟩ where
  mem := rfl
  image := rfl
  wal := ⟨[], by simp [DiskStore.new], rfl⟩
  readable := by simp

theorem Journalled.tend {d : DiskStore} {j : Journal.State MemStore Record} (h : Journalled d j)
    (m : MemStore) : Journalled { d with mem := m } { j with mem := m } :=
  ⟨rfl, h.image, h.wal, h.readable⟩

theorem journalled_compact (d : DiskStore) :
    Journalled d.compact ⟨decodeSnapshot (marshalSnapshot d.mem), [], d.mem⟩ where
  mem := rfl
  image := loadSnapshot_saveSnapshot d.cipher d.mem
  wal := ⟨[], by simp [DiskStore.compact], rfl⟩
  readable := by simp

/-- Appending readable records and executing them at `τ`. -/
theorem Journalled.append {d : DiskStore} {j : Journal.State MemStore Record} (h : Journalled d j)
    {ps : List (Record × Nonce)} (hps : ∀ p ∈ ps, p.1.Readable d.cipher) (τ : Int64) :
    Journalled
      { d with
        wal := d.wal ++ ps.flatMap (walFrame d.cipher)
        mem := d.mem.replayed τ (ps.map Prod.fst) }
      { j with
        tail := j.tail ++ ps.map Prod.fst
        mem := storeMachine.execAll τ (ps.map Prod.fst) j.mem } where
  mem := by rw [storeMachine_execAll, h.mem]
  image := h.image
  wal := by
    obtain ⟨qs, hwal, hqs⟩ := h.wal
    exact ⟨qs ++ ps, by simp [hwal], by simp [hqs]⟩
  readable := by
    intro r hr
    rcases List.mem_append.mp hr with hr | hr
    · exact h.readable r hr
    · obtain ⟨p, hp, rfl⟩ := List.mem_map.mp hr
      exact hps p hp

/-- After an unreadable record the directory cannot be opened any more. -/
theorem Journalled.not_restored {d : DiskStore} {j : Journal.State MemStore Record}
    (h : Journalled d j) {ps : List (Record × Nonce)} (hsmall : ∀ p ∈ ps, p.1.Small)
    (hps : ¬ ∀ p ∈ ps, p.1.Readable d.cipher) (m : MemStore) (t : Int64) :
    ¬ DiskStore.Restored t
      { d with wal := d.wal ++ ps.flatMap (walFrame d.cipher), mem := m } := by
  obtain ⟨qs, hwal, hqs⟩ := h.wal
  have hread : ∀ p ∈ qs, p.1.Readable d.cipher := by
    intro p hp
    exact h.readable p.1 (hqs ▸ List.mem_map_of_mem hp)
  rintro ⟨d', hd', -⟩
  -- the log is read up to the first record of `ps` that is not readable
  obtain ⟨e, he⟩ := walReplay_flatMap_unreadable d.cipher hsmall hps t []
    (j.image.replayed t (qs.map Prod.fst))
  rw [List.append_nil, ← walReplay_flatMap d.cipher hread t] at he
  dsimp only at hd'
  rw [hwal, List.append_assoc] at hd'
  rw [((openDiskStore_eq_ok_iff h.image _ t d').mp hd').1] at he
  cases he

/-! ## What an action appends -/

namespace DiskStore

/-- The records of a batch. -/
def batchRecords (reqs : List (Command × Nonce)) : List (Record × Nonce) :=
  reqs.filterMap fun p => (batchRecord p.1).map fun r => (r, p.2)

/-- A batched request does to the memory what its record does on replay, at any clock. -/
theorem applyBatched_eq (m : MemStore) (req : Command) (τ : Int64) :
    applyBatched m req =
      match batchRecord req with
      | some r => (m.apply r.command τ).2
      | none => m := by
  unfold applyBatched batchRecord
  cases req.op <;> rfl

theorem foldl_appendBatched (d : DiskStore) (reqs : List (Command × Nonce)) :
    reqs.foldl appendBatched d =
      { d with wal := d.wal ++ (batchRecords reqs).flatMap (walFrame d.cipher) } := by
  induction reqs generalizing d with
  | nil => simp [batchRecords]
  | cons p reqs ih =>
    rw [List.foldl_cons, ih]
    cases hr : batchRecord p.1 <;> simp [batchRecords, hr, append, appendBatched]

theorem foldl_applyBatched (m : MemStore) (reqs : List (Command × Nonce)) (τ : Int64) :
    reqs.foldl (fun m p => applyBatched m p.1) m =
      m.replayed τ ((batchRecords reqs).map Prod.fst) := by
  induction reqs generalizing m with
  | nil => rfl
  | cons p reqs ih =>
    rw [List.foldl_cons, ih, applyBatched_eq m p.1 τ]
    cases hr : batchRecord p.1 <;> simp [batchRecords, hr, MemStore.replayed]

/-- `writeBatch` appends the records of the batch and executes them. -/
theorem writeBatch_eq (d : DiskStore) (reqs : List (Command × Nonce)) (τ : Int64) :
    d.writeBatch reqs =
      { d with
        wal := d.wal ++ (batchRecords reqs).flatMap (walFrame d.cipher)
        mem := d.mem.replayed τ ((batchRecords reqs).map Prod.fst) } := by
  simp only [writeBatch, foldl_appendBatched, foldl_applyBatched _ _ τ]

theorem harmless_batchRecord {req : Command} {r : Record} (h : batchRecord req = some r)
    (τ t : Int64) (c : Option Entry) : r.command.Harmless τ t c := by
  intro e _ _
  unfold batchRecord at h
  cases hop : req.op <;> rw [hop] at h <;> cases h <;> trivial

theorem harmlessAll_batchRecords (reqs : List (Command × Nonce)) (τ t : Int64) (m : MemStore) :
    storeMachine.HarmlessAll τ t ((batchRecords reqs).map Prod.fst) m := by
  induction reqs generalizing m with
  | nil => trivial
  | cons p reqs ih =>
    cases hr : batchRecord p.1 with
    | none =>
      have hcons : batchRecords (p :: reqs) = batchRecords reqs := by simp [batchRecords, hr]
      rw [hcons]
      exact ih m
    | some r =>
      have hcons : batchRecords (p :: reqs) = (r, p.2) :: batchRecords reqs := by
        simp [batchRecords, hr]
      rw [hcons]
      exact ⟨harmless_batchRecord hr τ t _, ih _⟩

/-- What a state-dependent write must meet, in the state before it, so that a restart at
    `t` restores what it leaves: the record it logs, if any, is readable, and the entry
    it finds does not die before `t`, or what it does to it does not show. -/
def SingleSafe (t : Int64) (d : DiskStore) (req : Command) (now later : Int64) : Prop :=
  match req.op with
  | .incr =>
    (Record.incr req.key).Readable d.cipher ∧
      ∀ e, live now (d.mem.cell req.key) = some e → entryExpired e t = true →
        parseInt e.value = some 0
  | .cas =>
    ∀ e, live now (d.mem.cell req.key) = some e → e.value = req.old →
      (Record.cas req.key req.old req.value).Readable d.cipher ∧ entryExpired e t = false
  | .expire =>
    ∀ e, live now (d.mem.cell req.key) = some e →
      (Record.expire req.key req.expiresAt).Readable d.cipher ∧
        (entryExpired e later = false → entryExpired e t = true →
          req.expiresAt ≠ 0 ∧ req.expiresAt ≤ t)
  | _ => True

theorem get_of_live {m : MemStore} {key : Bytes} {now : Int64} {e : Entry}
    (h : live now (m.cell key) = some e) (later : Int64) :
    m.get key now later = (.ok e.value, m) := by
  obtain ⟨hcell, hd⟩ := Expiring.live_eq_some_iff.mp h
  rw [dead_eq] at hd
  simp [MemStore.get, hcell, hd]

theorem get_of_gone {m : MemStore} {key : Bytes} {now : Int64} (h : live now (m.cell key) = none)
    (later : Int64) : m.get key now later = (.error .notFound, (m.get key now later).2) := by
  refine Prod.ext ?_ rfl
  unfold MemStore.get
  cases hc : m.cell key with
  | none => rfl
  | some e =>
    have hd : entryExpired e now = true := Expiring.live_eq_none_iff.mp h e hc
    simp [hd]

/-- What `writeSingle` does: it logs nothing and at most drops a dead entry, or it logs
    one record and executes it at one of its readings. -/
theorem writeSingle_cases (d : DiskStore) (req : Command) (nonce : Nonce) (now later : Int64) :
    (∃ m, (d.writeSingle req nonce now later).2 = { d with mem := m } ∧
        (∀ t, later ≤ t → MemStore.SameAt t m d.mem) ∧ ∀ t, d.SingleSafe t req now later) ∨
      ∃ r τ, (τ = now ∨ τ = later) ∧
        r.encode.length ≤ req.key.length + req.old.length + req.value.length + 13 ∧
        (d.writeSingle req nonce now later).2 =
          { d.append r nonce with mem := (d.mem.apply r.command τ).2 } ∧
        ∀ t, d.SingleSafe t req now later ↔
          r.Readable d.cipher ∧ r.command.Harmless τ t (d.mem.cell r.command.key) := by
  unfold writeSingle SingleSafe
  cases hop : req.op with
  | incr =>
    refine .inr ⟨.incr req.key, now, .inl rfl, ?_, rfl, fun t => Iff.rfl⟩
    simp [Record.encode, length_field]
    omega
  | cas =>
    cases hl : live now (d.mem.cell req.key) with
    | none =>
      refine .inl ⟨(d.mem.get req.key now later).2, ?_, fun t ht => d.mem.sameAt_get _ ht, ?_⟩
      · rw [get_of_gone hl later]
      · intro t e he
        cases he
    | some e =>
      simp only [get_of_live hl later, Option.some.injEq, forall_eq']
      by_cases hv : e.value = req.old
      · obtain ⟨hcell, hd⟩ := Expiring.live_eq_some_iff.mp hl
        refine .inr ⟨.cas req.key req.old req.value, now, .inl rfl, ?_, ?_, fun t => ?_⟩
        · simp [Record.encode, length_field]
          omega
        · rw [dead_eq] at hd
          simp [hv, Record.command, MemStore.apply, MemStore.cas, MemStore.lookup, hcell, hd]
        · simp only [hv, forall_const]
          refine and_congr_right fun _ => ⟨fun h e' he' hdead => ?_, fun h => ?_⟩
          · obtain rfl := Option.some.inj (hl.symm.trans he')
            rw [h] at hdead
            cases hdead
          · by_contra hdead
            exact h e hl (by simpa using hdead) hv
      · refine .inl ⟨d.mem, ?_, fun t _ => .refl _, fun t h => absurd h hv⟩
        simp [hv]
  | expire =>
    cases hl : live now (d.mem.cell req.key) with
    | none =>
      refine .inl ⟨(d.mem.get req.key now later).2, ?_, fun t ht => d.mem.sameAt_get _ ht, ?_⟩
      · rw [get_of_gone hl later]
      · intro t e he
        cases he
    | some e =>
      simp only [get_of_live hl later, Option.some.injEq, forall_eq']
      obtain ⟨hcell, -⟩ := Expiring.live_eq_some_iff.mp hl
      refine .inr ⟨.expire req.key req.expiresAt, later, .inr rfl, ?_, rfl, fun t => ?_⟩
      · simp [Record.encode, length_field]
        omega
      · refine and_congr_right fun _ => ⟨fun h e' he' hdead => ?_, fun h hlater hdead => ?_⟩
        · obtain ⟨hcell', hlater⟩ := Expiring.live_eq_some_iff.mp he'
          obtain rfl := Option.some.inj (hcell.symm.trans hcell')
          exact h hlater hdead
        · exact h e (Expiring.live_eq_some_iff.mpr ⟨hcell, hlater⟩) hdead
  | _ => exact .inl ⟨d.mem, rfl, fun t _ => .refl _, fun t => trivial⟩

end DiskStore

/-! ## Runs -/

/-- What an action must meet, in the state before it, so that a restart at `t` restores
    what it leaves. -/
def Action.Safe (t : Int64) (d : DiskStore) : Action → Prop
  | .batch reqs => ∀ p ∈ DiskStore.batchRecords reqs, p.1.Readable d.cipher
  | .single req _ now later => d.SingleSafe t req now later
  | .get .. => True
  | .sweep .. => True
  | .compact => d.mem.TextAt t

/-- The strings of a request take less than 4 GiB. -/
def Command.Small (req : Command) : Prop :=
  req.key.length + req.old.length + req.value.length + 41 < 2 ^ 32

/-- The strings of the requests of an action take less than 4 GiB. -/
def Action.Small : Action → Prop
  | .batch reqs => ∀ p ∈ reqs, p.1.Small
  | .single req .. => req.Small
  | _ => True

theorem Command.Small.batchRecords {reqs : List (Command × Nonce)} (h : ∀ p ∈ reqs, p.1.Small) :
    ∀ p ∈ DiskStore.batchRecords reqs, p.1.Small := by
  intro p hp
  obtain ⟨q, hq, hqp⟩ := List.mem_filterMap.mp hp
  obtain ⟨r, hr, rfl⟩ := Option.map_eq_some_iff.mp hqp
  have hsmall := h q hq
  unfold Small at hsmall
  unfold DiskStore.batchRecord at hr
  cases hop : q.1.op <;> rw [hop] at hr <;> cases hr <;>
    simp [Record.Small, Record.encode, length_field] <;> omega

namespace DiskStore

variable {d : DiskStore} {t : Int64}

/-- The store after some records were appended and executed at `τ`. -/
def appendAll (d : DiskStore) (ps : List (Record × Nonce)) (τ : Int64) : DiskStore :=
  { d with
    wal := d.wal ++ ps.flatMap (walFrame d.cipher)
    mem := d.mem.replayed τ (ps.map Prod.fst) }

theorem appendAll_singleton (d : DiskStore) (r : Record) (nonce : Nonce) (τ : Int64) :
    d.appendAll [(r, nonce)] τ = { d.append r nonce with mem := (d.mem.apply r.command τ).2 } := by
  simp [appendAll, append, MemStore.replayed]

theorem appendAll_safe (hd : d.Intact) (hr : d.Restored t) {ps : List (Record × Nonce)}
    {τ : Int64} (hτ : τ ≤ t) (hread : ∀ p ∈ ps, p.1.Readable d.cipher)
    (hharm : storeMachine.HarmlessAll τ t (ps.map Prod.fst) d.mem) :
    (d.appendAll ps τ).Intact ∧ (d.appendAll ps τ).Restored t := by
  obtain ⟨j, hj⟩ := hd
  have hj' := hj.append hread τ
  refine ⟨⟨_, hj'⟩, (hj'.restored_iff t).mpr ?_⟩
  exact storeMachine.restores_writeAll hτ ((hj.restored_iff t).mp hr) (hj.mem ▸ hharm)

theorem tend_safe (hd : d.Intact) (hr : d.Restored t) {m : MemStore} (hm : m.SameAt t d.mem) :
    DiskStore.Intact { d with mem := m } ∧ DiskStore.Restored t { d with mem := m } := by
  obtain ⟨j, hj⟩ := hd
  refine ⟨⟨_, hj.tend m⟩, ((hj.tend m).restored_iff t).mpr ?_⟩
  exact (storeMachine.restores_tend (hj.mem ▸ hm)).mpr ((hj.restored_iff t).mp hr)

theorem compact_restored_iff (d : DiskStore) (t : Int64) :
    d.compact.Restored t ↔ d.mem.TextAt t := by
  rw [(journalled_compact d).restored_iff, storeMachine.restores_checkpoint]
  exact sameAt_decode_iff

/-- A safe action keeps the directory intact and the guarantee. -/
theorem step_safe (hd : d.Intact) (hr : d.Restored t) {a : Action}
    (ha : ∀ τ ∈ a.readings, τ ≤ t) (hs : a.Safe t d) :
    (d.step a).Intact ∧ (d.step a).Restored t := by
  cases a with
  | batch reqs =>
    rw [step, d.writeBatch_eq reqs t]
    exact appendAll_safe hd hr (Int64.le_refl t) hs (harmlessAll_batchRecords reqs t t d.mem)
  | single req nonce now later =>
    simp only [Action.readings, List.mem_cons, List.not_mem_nil, or_false, forall_eq_or_imp,
      forall_eq] at ha
    rw [step]
    rcases d.writeSingle_cases req nonce now later with ⟨m, hm, hsame, -⟩ | ⟨r, τ, hτ, -, hm, hiff⟩
    · rw [hm]
      exact tend_safe hd hr (hsame t ha.2)
    · obtain ⟨hread, hharm⟩ := (hiff t).mp hs
      have hle : τ ≤ t := by rcases hτ with rfl | rfl; exacts [ha.1, ha.2]
      rw [hm, ← appendAll_singleton]
      exact appendAll_safe hd hr hle (by simpa using hread) ⟨hharm, trivial⟩
  | get key now later => exact tend_safe hd hr (d.mem.sameAt_get key (ha later (by simp [Action.readings])))
  | sweep now => exact tend_safe hd hr (d.mem.sameAt_sweepExpired (ha now (by simp [Action.readings])))
  | compact => exact ⟨⟨_, journalled_compact d⟩, (compact_restored_iff d t).mpr hs⟩

/-- Only a safe action keeps the guarantee. -/
theorem safe_of_step (hd : d.Intact) (hr : d.Restored t) {a : Action}
    (ha : ∀ τ ∈ a.readings, τ ≤ t) (hsmall : a.Small) (h : (d.step a).Restored t) :
    a.Safe t d := by
  obtain ⟨j, hj⟩ := hd
  cases a with
  | batch reqs =>
    rw [step, d.writeBatch_eq reqs t] at h
    by_contra hread
    exact hj.not_restored (Command.Small.batchRecords hsmall) hread _ t h
  | single req nonce now later =>
    simp only [Action.readings, List.mem_cons, List.not_mem_nil, or_false, forall_eq_or_imp,
      forall_eq] at ha
    rw [step] at h
    rcases d.writeSingle_cases req nonce now later with ⟨m, -, -, hsafe⟩ | ⟨r, τ, hτ, hlen, hm, hiff⟩
    · exact hsafe t
    · have hle : τ ≤ t := by rcases hτ with rfl | rfl; exacts [ha.1, ha.2]
      rw [hm, ← appendAll_singleton] at h
      have hsmall' : r.Small := by
        unfold Action.Small Command.Small at hsmall
        unfold Record.Small
        omega
      by_cases hread : r.Readable d.cipher
      · have hread' : ∀ p ∈ [(r, nonce)], p.1.Readable d.cipher := by simpa using hread
        have hj' := hj.append hread' τ
        have hrest := (hj'.restored_iff t).mp h
        have hharm := (storeMachine.restores_write hle ((hj.restored_iff t).mp hr) r).mp hrest
        rw [hj.mem] at hharm
        exact (hiff t).mpr ⟨hread, hharm⟩
      · exact absurd h (hj.not_restored (by simpa using hsmall') (by simpa using hread) _ t)
  | get key now later => trivial
  | sweep now => trivial
  | compact => exact (compact_restored_iff d t).mp h

end DiskStore

/-- Every action of the run is safe in the state before it. -/
def AllSafe (t : Int64) (d : DiskStore) (acts : List Action) : Prop :=
  ∀ before a after, acts = before ++ a :: after → a.Safe t (d.run before)

theorem allSafe_cons {t : Int64} {d : DiskStore} {a : Action} {acts : List Action} :
    AllSafe t d (a :: acts) ↔ a.Safe t d ∧ AllSafe t (d.step a) acts :=
  Transition.allMeet_cons (f := DiskStore.step)

/-- A run on an intact directory: if it is safe, a restart at `t`, not earlier than any
    clock reading of the run, succeeds after every prefix of it and shows what the memory
    shows at `t`. If the strings written take less than 4 GiB each, this happens only if
    the run is safe. -/
theorem restart_restores_iff (d : DiskStore) (hd : d.Intact) (acts : List Action) (t : Int64)
    (ht : ∀ a ∈ acts, ∀ τ ∈ a.readings, τ ≤ t) :
    (d.Restored t ∧ AllSafe t d acts → ∀ pre, pre <+: acts → (d.run pre).Restored t) ∧
      ((∀ a ∈ acts, a.Small) → (∀ pre, pre <+: acts → (d.run pre).Restored t) →
        d.Restored t ∧ AllSafe t d acts) := by
  constructor
  · rintro ⟨hr, hs⟩ pre ⟨rest, rfl⟩
    have hpre := Transition.AllMeet.of_append (f := DiskStore.step) hs
    exact (hpre.invariant (P := fun d => d.Intact ∧ d.Restored t) ⟨hd, hr⟩ fun d' a ha h hsafe =>
      DiskStore.step_safe h.1 h.2 (ht a (List.mem_append_left _ ha)) hsafe).2
  · intro hsmall h
    refine ⟨h [] List.nil_prefix, Transition.allMeet_of_prefixes (f := DiskStore.step)
      (P := DiskStore.Intact) (Q := DiskStore.Restored t) hd ?_ ?_ h⟩
    · intro d' a ha hd' hr' hstep
      exact DiskStore.safe_of_step hd' hr' (ht a ha) (hsmall a ha) hstep
    · intro d' a ha hd' hr' hsafe
      exact (DiskStore.step_safe hd' hr' (ht a ha) hsafe).1

/-- `k = 5`, to expire at time 10, and an increment at time 2, which removes the deadline. -/
def earlyIncrement : List Action :=
  [.batch [({ op := .put, key := [107], value := [53] }, zeroNonce)],
   .single { op := .expire, key := [107], expiresAt := 10 } zeroNonce 1 1,
   .single { op := .incr, key := [107] } zeroNonce 2 2]

theorem intact_new (cipher : Option AtRestCipher) : (DiskStore.new cipher).Intact :=
  ⟨_, journalled_new cipher⟩

theorem restored_new (cipher : Option AtRestCipher) (t : Int64) :
    (DiskStore.new cipher).Restored t :=
  ((journalled_new cipher).restored_iff t).mpr (.refl _)

/-- Restarted before the deadline, the store shows the counter at 6. -/
theorem restart_restores_before_deadline :
    ((DiskStore.new none).run earlyIncrement).Restored 5 := by
  have hreadings : ∀ a ∈ earlyIncrement, ∀ τ ∈ a.readings, τ ≤ 5 := by
    simp only [earlyIncrement, List.forall_mem_cons, Action.readings, List.not_mem_nil,
      IsEmpty.forall_iff, implies_true, and_true, true_and]
    decide
  refine (restart_restores_iff (.new none) (intact_new none) earlyIncrement 5 hreadings).1
    ⟨restored_new none 5, ?_⟩ earlyIncrement (List.prefix_refl _)
  refine allSafe_cons.mpr ⟨?_, allSafe_cons.mpr ⟨?_, allSafe_cons.mpr ⟨?_, ?_⟩⟩⟩
  · simp only [Action.Safe]
    decide
  · intro e he
    have hcell : e = ⟨[53], 0⟩ := Option.some.inj (he.symm.trans (by decide))
    subst hcell
    decide
  · refine ⟨by decide, fun e he hd => ?_⟩
    have hcell : e = ⟨[53], 10⟩ := Option.some.inj (he.symm.trans (by decide))
    subst hcell
    revert hd
    decide
  · intro before a after h
    simp at h

/-- Restarted after the deadline, the store shows 1: replay has found the key expired. -/
theorem restart_loses_increment :
    ¬ ((DiskStore.new none).run earlyIncrement).Restored 15 := by
  rintro ⟨d', hd', hs⟩
  have hopen : (openDiskStore none none ((DiskStore.new none).run earlyIncrement).wal 15).toOption.map
      (fun d => live 15 (d.mem.cell [107])) = some (some ⟨[49], 0⟩) := by decide
  have hmem : live 15 (((DiskStore.new none).run earlyIncrement).mem.cell [107]) =
      some ⟨[54], 0⟩ := by decide
  have hfiles : openDiskStore none none ((DiskStore.new none).run earlyIncrement).wal 15 = .ok d' :=
    hd'
  rw [hfiles] at hopen
  have hkey := (Option.some.inj hopen).symm.trans (hs [107])
  rw [hmem] at hkey
  revert hkey
  decide

end KvStore.Storage
