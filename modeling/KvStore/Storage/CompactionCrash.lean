import KvStore.Storage.GroupCommit

/-!
# A crash inside a compaction

`compactLocked` (pkg/storage/snapshot.go:142) replaces `snapshot.dat` and then empties
`wal.log`. After a crash between the two, the next restart replays the whole old log over
the state that it led to. That is harmless for `Put`, `Delete` and `Clear`, which do not
look at what they overwrite; an `Incr` counts once more.

* `cell_replayed`: replay, cell by cell.
* `cellAfter_rewritten`: a key that the log overwrites somewhere forgets what it held.
* `cellAfter_idle`: a key on whose entry every record is idle keeps that entry.
* `compaction_crash_harmless_iff`: for every schedule of requests the crash is harmless
  exactly when every key that the log does not overwrite comes back to what it held.
* `compaction_crash_harmless`: which records on which entries lead back.
-/

namespace KvStore.Storage

open KvStore.Expiring (live)

/-! ## Replay, cell by cell -/

/-- What some records make of the cell of `k`. -/
def cellAfter (t : Int64) (k : Bytes) (rs : List Record) (c : Option Entry) : Option Entry :=
  rs.foldl (fun c r => if r.command.Touches k then (r.command.onCell t c).2 else c) c

theorem cell_replayed (t : Int64) (k : Bytes) (rs : List Record) (m : MemStore) :
    (m.replayed t rs).cell k = cellAfter t k rs (m.cell k) := by
  induction rs generalizing m with
  | nil => rfl
  | cons r rs ih =>
    have hstep := m.apply_cell k t r.command
    rw [MemStore.replayed, List.foldl_cons, cellAfter, List.foldl_cons, ← hstep]
    exact ih (m.apply r.command t).2

/-- Some record overwrites `k` whatever it held. -/
def Rewritten (rs : List Record) (k : Bytes) : Prop :=
  ∃ r ∈ rs, r.command.op.conditional = false ∧ r.command.Touches k

/-- `Put`, `Delete` and `Clear` do not look at the cell. -/
theorem Record.onCell_blind {r : Record} (h : r.command.op.conditional = false) (t : Int64)
    (c c' : Option Entry) : r.command.onCell t c = r.command.onCell t c' := by
  cases r <;> first | rfl | simp [Record.command, Op.conditional] at h

theorem cellAfter_rewritten {t : Int64} {k : Bytes} {rs : List Record} (h : Rewritten rs k)
    (c c' : Option Entry) : cellAfter t k rs c = cellAfter t k rs c' := by
  induction rs generalizing c c' with
  | nil => obtain ⟨r, hr, -⟩ := h; cases hr
  | cons r rs ih =>
    rw [cellAfter, cellAfter, List.foldl_cons, List.foldl_cons]
    by_cases hr : r.command.op.conditional = false ∧ r.command.Touches k
    · rw [if_pos hr.2, if_pos hr.2, Record.onCell_blind hr.1 t c c']
    · refine ih ?_ _ _
      obtain ⟨r', hmem, hr'⟩ := h
      rcases List.mem_cons.mp hmem with rfl | hmem
      · exact absurd hr' hr
      · exact ⟨r', hmem, hr'⟩

/-- Executed at `t` on the cell `c`, the command changes nothing that shows: a counter that is no
    number or at its limit, a `CAS` that does not find `old` or finds what it would write, a
    deadline that is already there. -/
def Command.Idle (cmd : Command) (t : Int64) (c : Option Entry) : Prop :=
  match cmd.op with
  | .put => live t c = some { value := cmd.value }
  | .delete | .clear => live t c = none
  | .incr => ∃ e, live t c = some e ∧ (parseInt e.value = none ∨ parseInt e.value = some maxInt64)
  | .cas => ∀ e, live t c = some e → e.value = cmd.old → e = { value := cmd.value }
  | .expire => ∀ e, live t c = some e → e.exp = cmd.expiresAt
  | .other _ => True

theorem Command.Idle.live_onCell {cmd : Command} {t : Int64} {c : Option Entry}
    (h : cmd.Idle t c) : live t (cmd.onCell t c).2 = live t c := by
  unfold Idle at h
  unfold onCell
  cases hop : cmd.op with
  | put => simp only [hop] at h; rw [h, live_never_expires]
  | delete => simp only [hop] at h; rw [h, Expiring.live_none]
  | clear => simp only [hop] at h; rw [h, Expiring.live_none]
  | incr =>
    simp only [hop] at h
    obtain ⟨e, he, hval⟩ := h
    have hself := Expiring.live_some_of_not_dead (Expiring.live_eq_some_iff.mp he).2
    rcases hval with hval | hval <;> simp [he, hval, hself]
  | cas =>
    simp only [hop] at h
    cases he : live t c with
    | none => rfl
    | some e =>
      have hself := Expiring.live_some_of_not_dead (Expiring.live_eq_some_iff.mp he).2
      by_cases hv : e.value = cmd.old
      · simp [hv, ← h e he hv, hself]
      · simp [hv, hself]
  | expire =>
    simp only [hop] at h
    cases he : live t c with
    | none => rfl
    | some e =>
      have hself := Expiring.live_some_of_not_dead (Expiring.live_eq_some_iff.mp he).2
      simp [← h e he, hself]
  | other code => rfl

/-- Cells that look alike at `t` look alike after a command at `t`. -/
theorem Command.live_onCell_congr (cmd : Command) {t : Int64} {c c' : Option Entry}
    (h : live t c = live t c') : live t (cmd.onCell t c).2 = live t (cmd.onCell t c').2 :=
  (cmd.live_onCell_iff (Int64.le_refl t) h).mpr (cmd.harmless_self t c')

theorem cellAfter_congr {t : Int64} {k : Bytes} (rs : List Record) {c c' : Option Entry}
    (h : live t c = live t c') : live t (cellAfter t k rs c) = live t (cellAfter t k rs c') := by
  induction rs generalizing c c' with
  | nil => exact h
  | cons r rs ih =>
    rw [cellAfter, cellAfter, List.foldl_cons, List.foldl_cons]
    apply ih
    split_ifs with htouch
    · exact r.command.live_onCell_congr h
    · exact h

/-- The records that touch `k` are idle on `c₀`: a cell that looks like it goes on doing so. -/
theorem cellAfter_idle {t : Int64} {k : Bytes} {rs : List Record} {c c₀ : Option Entry}
    (hc : live t c = live t c₀)
    (hidle : ∀ r ∈ rs, r.command.Touches k → r.command.Idle t c₀) :
    live t (cellAfter t k rs c) = live t c₀ := by
  induction rs generalizing c with
  | nil => exact hc
  | cons r rs ih =>
    rw [cellAfter, List.foldl_cons]
    refine ih ?_ fun r' hr' => hidle r' (List.mem_cons_of_mem _ hr')
    split_ifs with htouch
    · exact (r.command.live_onCell_congr hc).trans (hidle r List.mem_cons_self htouch).live_onCell
    · exact hc

/-! ## The crash -/

/-- The store has just been opened on a snapshot, with an empty log. -/
structure DiskStore.Fresh (d : DiskStore) : Prop where
  loaded : loadSnapshot d.cipher d.snapshot = .ok d.mem
  wal : d.wal = walEmpty d.cipher

/-- A crash between the two steps of `compactLocked` is harmless: the restart at `t` finds
    the new snapshot and the old log, and shows what the memory showed. -/
def DiskStore.CrashHarmless (t : Int64) (d : DiskStore) : Prop :=
  ∃ d', openDiskStore d.cipher d.compact.snapshot d.wal t = .ok d' ∧ d'.mem.SameAt t d.mem

/-- The requests that have been answered when the schedule is through. -/
def acknowledged (t : Int64) (d : DiskStore) (schedule : List Event) : List Request :=
  (requests schedule).take ((Batcher.new d).run t schedule).answers.length

/-- The log can be replayed, and every key that it does not overwrite is led back, from
    the entry that the snapshot of `m` has for it, to the entry that `m` shows. -/
structure Resettles (t : Int64) (cipher : Option AtRestCipher) (m : MemStore) (rs : List Record) :
    Prop where
  readable : ∀ r ∈ rs, r.Readable cipher
  settled : ∀ k, ¬ Rewritten rs k →
    live t (cellAfter t k rs ((decodeSnapshot (marshalSnapshot m)).cell k)) = live t (m.cell k)

/-- The store after a schedule is the store after the acknowledged requests one by one. -/
theorem store_eq_oneByOne (t : Int64) (d : DiskStore) (schedule : List Event) :
    ((Batcher.new d).run t schedule).store =
      Batcher.oneByOne t d (acknowledged t d schedule) := by
  obtain ⟨finished, pending, h, heq⟩ := (Batcher.follows_new t d).run schedule
  have hlen : ((Batcher.new d).run t schedule).answers.length = finished.length := by
    rw [h.answers]
    simp
  have hack : acknowledged t d schedule = finished := by
    rw [acknowledged, hlen, ← List.nil_append (requests schedule)]
    rw [List.append_nil] at heq
    rw [← heq, List.take_left]
  rw [hack]
  exact h.store

/-- What the restart finds, if the old log can be replayed. -/
theorem DiskStore.Fresh.crashHarmless_iff {t : Int64} {d : DiskStore} (hd : d.Fresh) {reqs : List Request}
    (hread : ∀ p ∈ journal t d.mem reqs, p.1.Readable d.cipher) :
    (Batcher.oneByOne t d reqs).CrashHarmless t ↔
      Resettles t d.cipher (d.mem.executed t (reqs.map Request.cmd))
        ((journal t d.mem reqs).map Prod.fst) := by
  set rs := (journal t d.mem reqs).map Prod.fst with hrs
  set m := d.mem.executed t (reqs.map Request.cmd) with hm
  have hload : loadSnapshot d.cipher (Batcher.oneByOne t d reqs).compact.snapshot =
      .ok (decodeSnapshot (marshalSnapshot m)) :=
    loadSnapshot_saveSnapshot d.cipher m
  have hreplay := walReplay_flatMap d.cipher hread t [] (decodeSnapshot (marshalSnapshot m))
  rw [List.append_nil, List.append_nil, walReplay_walEmpty] at hreplay
  have hwal : (Batcher.oneByOne t d reqs).wal =
      walEmpty d.cipher ++ (journal t d.mem reqs).flatMap (walFrame d.cipher) := by
    rw [Batcher.oneByOne, hd.wal]
  -- the log leads from the first snapshot to the memory
  have hmem : MemStore.SameAt t (d.mem.replayed t rs) m := sameAt_replayed_journal t reqs (.refl _)
  have hopen := openDiskStore_eq_ok_iff hload
    ((journal t d.mem reqs).flatMap (walFrame d.cipher)) t
  rw [DiskStore.CrashHarmless, hwal]
  constructor
  · rintro ⟨d', hd', hsame⟩
    obtain ⟨hok, -⟩ := (hopen d').mp hd'
    rw [hreplay] at hok
    refine ⟨?_, fun k _ => ?_⟩
    · intro r hr
      obtain ⟨p, hp, rfl⟩ := List.mem_map.mp hr
      exact hread p hp
    · rw [← cell_replayed, hrs, (Prod.mk.inj hok).2]
      exact hsame k
  · intro h
    refine ⟨_, (hopen { mem := _, snapshot := _, wal := _, cipher := _ }).mpr ⟨hreplay, rfl⟩, ?_⟩
    intro k
    refine (congrArg (live t) (cell_replayed t k rs _)).trans ?_
    by_cases hk : Rewritten rs k
    · rw [cellAfter_rewritten hk _ (d.mem.cell k), ← cell_replayed]
      exact hmem k
    · exact h.settled k hk

/-- A crash inside a compaction, after any schedule of requests on a store that was opened
    on any snapshot. If the strings written take less than 4 GiB each, it is harmless only
    if the log resettles. -/
theorem compaction_crash_harmless_iff (t : Int64) (d : DiskStore) (hd : d.Fresh)
    (schedule : List Event) :
    let b := (Batcher.new d).run t schedule
    let rs := (journal t d.mem (acknowledged t d schedule)).map Prod.fst
    (Resettles t d.cipher b.store.mem rs → b.store.CrashHarmless t) ∧
      ((∀ req ∈ requests schedule, req.cmd.Small) → b.store.CrashHarmless t →
        Resettles t d.cipher b.store.mem rs) := by
  dsimp only
  rw [store_eq_oneByOne]
  constructor
  · intro h
    refine (hd.crashHarmless_iff fun p hp => ?_).mpr h
    exact h.readable p.1 (List.mem_map_of_mem hp)
  · intro hsmall h
    refine (hd.crashHarmless_iff ?_).mp h
    by_contra hbad
    have hjournal : ∀ p ∈ journal t d.mem (acknowledged t d schedule), p.1.Small := by
      intro p hp
      obtain ⟨req, hreq, c, hlog⟩ := mem_journal hp
      exact (hsmall req (List.mem_of_mem_take hreq)).logged hlog
    -- the old log is the whole log, so replay fails on it
    obtain ⟨d', hd', -⟩ := h
    rw [Batcher.oneByOne, hd.wal] at hd'
    have hload := loadSnapshot_saveSnapshot d.cipher
      (d.mem.executed t ((acknowledged t d schedule).map Request.cmd))
    have hok := ((openDiskStore_eq_ok_iff hload _ t d').mp hd').1
    obtain ⟨e, he⟩ := walReplay_flatMap_unreadable d.cipher hjournal hbad t []
      (decodeSnapshot (marshalSnapshot
        (d.mem.executed t ((acknowledged t d schedule).map Request.cmd))))
    rw [List.append_nil, hok] at he
    cases he

/-- What JSON leaves of the key `k` of `m`: its live entry is UTF-8, and no other key of `m` reads
    as `k`. -/
def MemStore.TextKey (t : Int64) (m : MemStore) (k : Bytes) : Prop :=
  (∀ e, live t (m.cell k) = some e → Utf8.Valid k ∧ Utf8.Valid e.value) ∧
    ∀ k' e', m.cell k' = some e' → Utf8.repair k' = k → k' = k

theorem MemStore.TextKey.live_decode {t : Int64} {m : MemStore} {k : Bytes} (h : m.TextKey t k) :
    live t ((decodeSnapshot (marshalSnapshot m)).cell k) = live t (m.cell k) := by
  obtain ⟨htext, hother⟩ := h
  cases hk : live t (m.cell k) with
  | some e =>
    obtain ⟨hkey, hval⟩ := htext e hk
    obtain ⟨hcell, hd⟩ := Expiring.live_eq_some_iff.mp hk
    refine Expiring.live_eq_some_iff.mpr ⟨(cell_decode_marshal m).mpr ?_, hd⟩
    exact ⟨k, e, hcell, hkey.repair_eq, Entry.repaired_eq_self_iff.mpr hval,
      fun k' e' hk' hr => .inl (hother k' e' hk' hr)⟩
  | none =>
    refine Expiring.live_eq_none_iff.mpr fun e he => ?_
    obtain ⟨k₀, e₀, hk₀, hr₀, rfl, -⟩ := (cell_decode_marshal m).mp he
    obtain rfl := hother k₀ e₀ hk₀ hr₀
    exact Expiring.live_eq_none_iff.mp hk e₀ hk₀

/-- What the records may do to the memory `m` that they have led to: every key is overwritten by
    one of them, or each record that touches it is idle on the entry that `m` has for it. -/
structure Repeatable (t : Int64) (cipher : Option AtRestCipher) (m : MemStore) (rs : List Record) :
    Prop where
  readable : ∀ r ∈ rs, r.Readable cipher
  keys : ∀ k, Rewritten rs k ∨
    m.TextKey t k ∧ ∀ r ∈ rs, r.command.Touches k → r.command.Idle t (m.cell k)

theorem Repeatable.resettles {t : Int64} {cipher : Option AtRestCipher} {m : MemStore}
    {rs : List Record} (h : Repeatable t cipher m rs) : Resettles t cipher m rs := by
  refine ⟨h.readable, fun k hk => ?_⟩
  obtain ⟨htext, hidle⟩ := (h.keys k).resolve_left hk
  exact cellAfter_idle htext.live_decode hidle

/-- **A crash inside a compaction, after any schedule of requests on a store that was opened on
    any snapshot, is harmless if the logged records are repeatable on the memory.** -/
theorem compaction_crash_harmless (t : Int64) (d : DiskStore) (hd : d.Fresh)
    (schedule : List Event)
    (h : Repeatable t d.cipher ((Batcher.new d).run t schedule).store.mem
      ((journal t d.mem (acknowledged t d schedule)).map Prod.fst)) :
    ((Batcher.new d).run t schedule).store.CrashHarmless t :=
  (compaction_crash_harmless_iff t d hd schedule).1 h.resettles

theorem fresh_new (cipher : Option AtRestCipher) : (DiskStore.new cipher).Fresh := ⟨rfl, rfl⟩

/-- `Put k 5` and `Incr k` on an empty directory, then `CAS l 1 2`, which finds no key. -/
def countedSchedule : List Event :=
  [.recv ⟨{ op := .put, key := [107], value := [53] }, zeroNonce, put_known⟩,
   .recv ⟨{ op := .incr, key := [107] }, zeroNonce, incr_known⟩,
   .recv ⟨{ op := .cas, key := [108], old := [49], value := [50] }, zeroNonce, cas_known⟩, .timer]

/-- The counter is written anew by the log before it counts, and is not counted twice. -/
theorem compaction_crash_after_put :
    live 0 (((Batcher.new (.new none)).run 0 countedSchedule).store.mem.cell [107]) =
        some ⟨[54], 0⟩ ∧
      ((Batcher.new (.new none)).run 0 countedSchedule).store.CrashHarmless 0 := by
  refine ⟨by decide, compaction_crash_harmless 0 (.new none) (fresh_new none) countedSchedule ?_⟩
  have hrs : (journal 0 (DiskStore.new none).mem
      (acknowledged 0 (.new none) countedSchedule)).map Prod.fst =
        [.put [107] [53], .incr [107]] := by decide
  have hmem : ((Batcher.new (.new none)).run 0 countedSchedule).store.mem.data.toList =
      [([107], ⟨[54], 0⟩)] := by decide
  have honly : ∀ k e, ((Batcher.new (.new none)).run 0 countedSchedule).store.mem.cell k = some e →
      k = [107] := by
    intro k e hk
    rw [← MemStore.mem_toList_iff, hmem, List.mem_singleton] at hk
    exact congrArg Prod.fst hk
  rw [hrs]
  refine ⟨by decide, fun k => ?_⟩
  by_cases hk : k = [107]
  · exact .inl ⟨.put [107] [53], by simp, rfl, .inr hk.symm⟩
  · refine .inr ⟨⟨fun e he => ?_, fun k' e' hk' hr => ?_⟩, fun r hr htouch => ?_⟩
    · exact absurd (honly k e (Expiring.live_eq_some_iff.mp he).1) hk
    · obtain rfl := honly k' e' hk'
      exact absurd (hr.symm.trans (by decide)) hk
    · rcases List.mem_cons.mp hr with rfl | hr
      · exact absurd (htouch.resolve_left (by decide)).symm hk
      · obtain rfl := List.mem_singleton.mp hr
        exact absurd (htouch.resolve_left (by decide)).symm hk

/-- `Incr k` on an empty directory. -/
def oneIncrement : List Event := [.recv ⟨{ op := .incr, key := [107] }, zeroNonce, by simp⟩]

/-- The counter was acknowledged as 1 and comes back as 2. -/
theorem compaction_crash_counts_twice :
    ¬ ((Batcher.new (.new none)).run 0 oneIncrement).store.CrashHarmless 0 := by
  rintro ⟨d', hd', hs⟩
  have hopen : (openDiskStore none
      ((Batcher.new (.new none)).run 0 oneIncrement).store.compact.snapshot
      ((Batcher.new (.new none)).run 0 oneIncrement).store.wal 0).toOption.map
        (fun d => live 0 (d.mem.cell [107])) = some (some ⟨[50], 0⟩) := by decide
  have hmem : live 0 (((Batcher.new (.new none)).run 0 oneIncrement).store.mem.cell [107]) =
      some ⟨[49], 0⟩ := by decide
  have hfiles : openDiskStore none
      ((Batcher.new (.new none)).run 0 oneIncrement).store.compact.snapshot
      ((Batcher.new (.new none)).run 0 oneIncrement).store.wal 0 = .ok d' := hd'
  rw [hfiles] at hopen
  have hkey := (Option.some.inj hopen).symm.trans (hs [107])
  rw [hmem] at hkey
  revert hkey
  decide

end KvStore.Storage
