import KvStore.Storage.Linearizable
import KvStore.Storage.TextStores

/-!
# What `Close` leaves on disk

`Close` drains the requests, compacts and closes the log. Reads go on afterwards, and a late `Get`
may still drop a dead entry from the memory.

* `Textual`: if all strings that are written are UTF-8, the memory only holds such.
* `Saved`: from the return of `Close` on, `snapshot.dat` holds what the memory shows, and the log
  is empty; a later call of `Compact` does not change that.
* `closed_store_reopens`: the directory reopens with what the memory showed, and that is what the
  calls have left on the atomic store.
-/

namespace KvStore.Concurrent

open KvStore.Storage
open KvStore.Expiring (live)
open KvStore.Transition (Reach)

variable {Client : Type} [DecidableEq Client] {s s' : Sys Client} {c : Client} {p : Phase}

/-! ## Text -/

/-- The request that a goroutine is busy with. -/
def Phase.request? : Phase → Option Request
  | .entering req | .entered req | .waiting req => some req
  | _ => none

/-- The command that is submitted. -/
def Act.command? : Act Client → Option Command
  | .submit _ req => some req.cmd
  | _ => none

/-- The store holds text, and only text is on its way. -/
structure Textual (s : Sys Client) : Prop where
  mem : s.disk.mem.IsText
  calls : ∀ c req, (s.phase c).request? = some req → req.cmd.IsText

omit [DecidableEq Client] in
theorem Textual.quiet (h : Textual s) (hmem : s'.disk.mem.IsText) (hphase : s'.phase = s.phase) :
    Textual s' := ⟨hmem, by rw [hphase]; exact h.calls⟩

theorem Textual.set (h : Textual s) (hmem : s'.disk.mem.IsText)
    (hphase : s'.phase = Function.update s.phase c p)
    (hp : ∀ req, p.request? = some req → req.cmd.IsText) : Textual s' := by
  refine ⟨hmem, fun c' req hreq => ?_⟩
  rw [hphase] at hreq
  by_cases hc : c' = c
  · subst hc
    rw [Function.update_self] at hreq
    exact hp req hreq
  · rw [Function.update_of_ne hc] at hreq
    exact h.calls c' req hreq

omit [DecidableEq Client] in
/-- The requests in the hands of the loop are text. -/
theorem Textual.job (h : Textual s) (hq : Queued s) {job : Job Client} (hjob : job ∈ s.loop.jobs) :
    job.req.cmd.IsText := by
  refine h.calls job.client job.req ?_
  rw [(hq.waiting job.client job.req).mpr (mem_jobs_of_loop hjob)]
  rfl

/-- `writeSingle` keeps a store of text. -/
theorem isText_executeSingle {m : MemStore} (h : m.IsText) {cmd : Command} (hcmd : cmd.IsText)
    (hop : cmd.op.conditional = true) (t : Int64) : (Sys.executeSingle m cmd t).2.IsText := by
  have happly := h.apply hcmd t
  unfold MemStore.apply at happly
  unfold Sys.executeSingle
  cases hop' : cmd.op with
  | cas => exact h.put hcmd.1 hcmd.2.2
  | incr => rw [hop'] at happly; exact happly
  | expire => rw [hop'] at happly; exact happly
  | _ => simp [hop', Op.conditional] at hop

/-- One step, if what is submitted is text. -/
theorem Moves.textual {b : Act Client} (hm : Moves s b s') (h : Textual s) (hc : Consistent s)
    (hb : ∀ cmd ∈ b.command?, cmd.IsText) : Textual s' := by
  have hnone : ∀ {p : Phase}, p.request? = none → ∀ req, p.request? = some req → req.cmd.IsText :=
    fun hp req hreq => absurd (hp.symm.trans hreq) (by simp)
  cases hm with
  | @submit c req hp =>
    refine h.set h.mem rfl fun req' hreq => ?_
    cases hreq
    exact hb req.cmd rfl
  | @enter c req hp hlock hopen =>
    refine h.set h.mem rfl fun req' hreq => ?_
    cases hreq
    exact h.calls c req (by rw [hp]; rfl)
  | @send c req hp hopen =>
    refine h.set h.mem rfl fun req' hreq => ?_
    cases hreq
    exact h.calls c req (by rw [hp]; rfl)
  | read hp => exact h.set h.mem rfl (hnone rfl)
  | refuse hp _ _ => exact h.set h.mem rfl (hnone rfl)
  | look hp => exact h.set h.mem rfl (hnone rfl)
  | dead hp _ => exact h.set h.mem rfl (hnone rfl)
  | reap hp => exact h.set (h.mem.lookup _ _) rfl (hnone rfl)
  | finish hp => exact h.set h.mem rfl (hnone rfl)
  | finishRead hp => exact h.set h.mem rfl (hnone rfl)
  | answer hl hp => exact h.set h.mem rfl (hnone rfl)
  | reply hl hp => exact h.set h.mem rfl (hnone rfl)
  | writeFailed hl _ | write hl _ => exact h.quiet (by rw [mem_tryAppends]; exact h.mem) rfl
  | beginFailed hl _ | beginIncr hl _ | logFailed hl | log hl =>
    exact h.quiet (by rw [mem_tryAppend]; exact h.mem) rfl
  | beginMissing hl _ _ => exact h.quiet (h.mem.get _ _ _) rfl
  | @execute executed todo job after hl =>
    have hshaped := hc.shaped
    rw [hl] at hshaped
    have happly := apply_batched (hshaped.2.1 job (by simp)) s.disk.mem s.clock
    have hjob : job ∈ s.loop.jobs := by simp [hl, Loop.jobs]
    have htext := h.mem.apply (h.job hc.queued hjob) s.clock
    rw [happly] at htext
    exact h.quiet htext rfl
  | @executeSingle job hl =>
    have hshaped := hc.shaped
    rw [hl] at hshaped
    exact h.quiet
      (isText_executeSingle h.mem (h.job hc.queued (by simp [hl, Loop.jobs])) hshaped _) rfl
  | compact _ => exact h.quiet (by rw [mem_tryCompact]; exact h.mem) rfl
  | @compactLast fault _ _ =>
    refine h.quiet ?_ rfl
    show (s.disk.tryCompact fault).2.mem.IsText
    rw [mem_tryCompact]
    exact h.mem
  | sweep => exact h.quiet (h.mem.sweepExpired _) rfl
  | _ => exact h.quiet h.mem rfl

/-! ## The files after the close -/

/-- Once `Close` has returned without an error, the files hold what the memory shows. -/
def Saved (s : Sys Client) : Prop :=
  Event.closed true ∈ s.history → s.closer = .done ∧
    ∃ m : MemStore, m.IsText ∧ MemStore.SameAt s.clock s.disk.mem m ∧
      s.disk.snapshot = some (saveSnapshot s.disk.cipher m) ∧
      (s.disk.wal = walEmpty s.disk.cipher ∨ s.disk.wal = [])

/-- A compaction that has not failed. -/
theorem tryCompact_eq_none {d : DiskStore} {fault : Option RestorePoint}
    (h : (d.tryCompact fault).1 = none) : (d.tryCompact fault).2 = d.compact := by
  unfold DiskStore.tryCompact at h ⊢
  cases hcipher : d.cipher with
  | none =>
    rw [hcipher] at h
    dsimp only at h ⊢
    split_ifs at h ⊢
    simp [DiskStore.compact, DiskStore.saved, walEmpty, hcipher]
  | some cipher =>
    rw [hcipher] at h
    dsimp only at h ⊢
    split_ifs at h ⊢
    simp [DiskStore.compact, DiskStore.saved, walEmpty, hcipher]

/-- What a compaction leaves, wherever it fails. -/
theorem tryCompact_files (d : DiskStore) (fault : Option RestorePoint) :
    (d.tryCompact fault).2 = d ∨
      (d.tryCompact fault).2.mem = d.mem ∧ (d.tryCompact fault).2.cipher = d.cipher ∧
        (d.tryCompact fault).2.snapshot = some (saveSnapshot d.cipher d.mem) ∧
        ((d.tryCompact fault).2.wal = d.wal ∨ (d.tryCompact fault).2.wal = walEmpty d.cipher ∨
          (d.tryCompact fault).2.wal = []) := by
  unfold DiskStore.tryCompact
  cases hcipher : d.cipher with
  | none => split_ifs <;> simp [DiskStore.saved, walEmpty, hcipher]
  | some cipher => split_ifs <;> simp [DiskStore.saved, walEmpty, hcipher]

omit [DecidableEq Client] in
/-- The files stay, the clock may go on and the memory may lose what is dead. -/
theorem Saved.quiet (h : Saved s) (hhist : Event.closed true ∈ s'.history →
      Event.closed true ∈ s.history) (hcloser : s'.closer = s.closer) (hclock : s.clock ≤ s'.clock)
    (hmem : MemStore.SameAt s'.clock s'.disk.mem s.disk.mem)
    (hfiles : (s'.disk.snapshot, s'.disk.wal, s'.disk.cipher) =
      (s.disk.snapshot, s.disk.wal, s.disk.cipher)) : Saved s' := by
  intro hclosed
  obtain ⟨hdone, m, htext, hsame, hsnap, hwal⟩ := h (hhist hclosed)
  obtain ⟨h1, h2, h3⟩ : s'.disk.snapshot = s.disk.snapshot ∧ s'.disk.wal = s.disk.wal ∧
      s'.disk.cipher = s.disk.cipher := by
    simpa only [Prod.mk.injEq] using hfiles
  refine ⟨hcloser.trans hdone, m, htext, hmem.trans (hsame.mono hclock), ?_, ?_⟩
  · rw [h1, h3]
    exact hsnap
  · rw [h2, h3]
    exact hwal

omit [DecidableEq Client] in
/-- Another compaction, of a file that is closed: it is truncated by its name, and an encrypted one
    does not get its magic byte back. -/
theorem Saved.compact (h : Saved s) (ht : Textual s) (fault : Option RestorePoint) :
    Saved { s with disk := (s.disk.tryCompact fault).2 } := by
  intro hclosed
  obtain ⟨hdone, m, htext, hsame, hsnap, hwal⟩ := h hclosed
  refine ⟨hdone, ?_⟩
  rcases tryCompact_files s.disk fault with hd | ⟨hmem, hcipher, hsnap', hwal'⟩
  · rw [hd]
    exact ⟨m, htext, hsame, hsnap, hwal⟩
  · dsimp only
    rw [hmem, hcipher]
    refine ⟨s.disk.mem, ht.mem, .refl _, hsnap', ?_⟩
    rcases hwal' with hwal' | hwal' | hwal'
    · rw [hwal']
      exact hwal
    · exact .inl hwal'
    · exact .inr hwal'

omit [DecidableEq Client] in
/-- While `Close` has not returned there is nothing to keep. -/
theorem Saved.before (h : Saved s) (hne : s.closer ≠ .done) (hhist : s'.history = s.history) :
    Saved s' := by
  intro hclosed
  rw [hhist] at hclosed
  exact absurd (h hclosed).1 hne

/-- One step. -/
theorem Moves.saved {b : Act Client} (hm : Moves s b s') (h : Saved s) (ht : Textual s)
    (hc : Consistent s) : Saved s' := by
  have hle := Int64.le_refl s.clock
  have same : MemStore.SameAt s.clock s.disk.mem s.disk.mem := .refl _
  have hrunning : s.loop ≠ .done → s.closer ≠ .done := fun hl hd => hl (hc.shut.drained (.inr hd))
  cases hm with
  | submit hp => exact h.quiet (by simp [Sys.observe, Sys.setPhase]) rfl hle same rfl
  | read hp => exact h.quiet (by simp [Sys.observe, Sys.setPhase]) rfl hle same rfl
  | refuse hp _ _ => exact h.quiet id rfl hle same rfl
  | enter hp _ _ => exact h.quiet id rfl hle same rfl
  | panic hp _ => exact h.quiet id rfl hle same rfl
  | send hp _ => exact h.quiet id rfl hle same rfl
  | look hp => exact h.quiet id rfl hle same rfl
  | dead hp _ => exact h.quiet id rfl hle same rfl
  | reap hp => exact h.quiet id rfl hle (MemStore.sameAt_lookup _) rfl
  | finish hp => exact h.quiet (by simp [Sys.observe, Sys.setPhase]) rfl hle same rfl
  | finishRead hp => exact h.quiet (by simp [Sys.observe, Sys.setPhase]) rfl hle same rfl
  | sweep => exact h.quiet id rfl hle (s.disk.mem.sameAt_sweepExpired hle) rfl
  | tick htick => exact h.quiet (by simp [Sys.observe]) rfl htick (.refl _) rfl
  | @compact byLoop fault hl => exact h.compact ht fault
  | close hcl =>
    intro hclosed
    have hclosed' : Event.closed true ∈ s.history := by simpa [Sys.observe] using hclosed
    exact absurd (h hclosed').1 (by simp [hcl])
  | stopSnapshots hcl => exact h.before (by simp [hcl]) rfl
  | stopSweeps hcl => exact h.before (by simp [hcl]) rfl
  | lock hcl _ => exact h.before (by simp [hcl]) rfl
  | drained hcl _ => exact h.before (by simp [hcl]) rfl
  | @compactLast fault closedFile hcl =>
    -- this is the return of `Close`
    intro hclosed
    refine ⟨rfl, ?_⟩
    rcases List.mem_append.mp hclosed with hold | hnew
    · exact absurd (h hold).1 (by simp [hcl])
    · have hok : (s.disk.tryCompact fault).1 = none := by
        have hand := List.mem_singleton.mp hnew
        simp only [Event.closed.injEq, eq_comm (a := true), Bool.and_eq_true,
          Option.isNone_iff_eq_none] at hand
        exact hand.1
      refine ⟨s.disk.mem, ht.mem, ?_⟩
      show MemStore.SameAt s.clock (s.disk.tryCompact fault).2.mem s.disk.mem ∧
        (s.disk.tryCompact fault).2.snapshot =
          some (saveSnapshot (s.disk.tryCompact fault).2.cipher s.disk.mem) ∧
        ((s.disk.tryCompact fault).2.wal = walEmpty (s.disk.tryCompact fault).2.cipher ∨
          (s.disk.tryCompact fault).2.wal = [])
      rw [tryCompact_eq_none hok]
      exact ⟨.refl _, rfl, .inl rfl⟩
  | receiveSingle hl _ _ | receiveFull hl _ _ _ | receive hl _ _ _ | receiveClosed hl _ _ | timer hl
  | writeNone hl | writeFailed hl _ | write hl _ | beginFailed hl _ | beginIncr hl _
  | beginMissing hl _ _ | beginMismatch hl _ _ _ | beginChecked hl _ _ _ | beginOther hl _
  | logFailed hl | log hl | execute hl | executed hl | executeSingle hl | answer hl _ | answered hl
  | reply hl _ => exact h.before (hrunning (by simp [hl])) rfl

/-! ## Reopening -/

/-- Only text is submitted. -/
def TextAct (_ : Sys Client) (b : Act Client) : Prop := ∀ cmd ∈ b.command?, cmd.IsText

/-- A directory whose snapshot holds a store of text and whose log is empty. -/
theorem open_saved {d : DiskStore} {m : MemStore} (htext : m.IsText)
    (hsnap : d.snapshot = some (saveSnapshot d.cipher m))
    (hwal : d.wal = walEmpty d.cipher ∨ d.wal = []) (t : Int64) :
    ∃ d', openDiskStore d.cipher d.snapshot d.wal t = .ok d' ∧ d'.mem.data = m.data := by
  have hopen : openDiskStore d.cipher d.snapshot d.wal t =
      openDiskStore d.cipher d.snapshot (walEmpty d.cipher) t := by
    rcases hwal with hwal | hwal
    · rw [hwal]
    · -- the opening stamps an empty file
      rw [hwal]
      cases hcipher : d.cipher <;> simp [openDiskStore, openWal, walEmpty]
  rw [hopen, hsnap]
  exact ⟨_, openDiskStore_compact { d with mem := m } t, (decode_marshal_data_iff m).mpr htext⟩

/-- **`Close` loses nothing**: after it has returned without an error, whatever the interleaving
    before and after it, the directory reopens at every later time and shows what the memory showed,
    which is what the atomic store holds after the same calls with the same answers. Keys and values
    have to be UTF-8. -/
theorem closed_store_reopens {d : DiskStore} {t : Int64} (hd : d.mem.IsText)
    (h : Reach Sys.step TextAct (Sys.init d t) s) (hclosed : Event.closed true ∈ s.history) :
    ∃ a, Atomic.Runs true (Atomic.State.init d.mem t) a ∧ a.history = s.history ∧
      MemStore.SameAt s.clock s.disk.mem a.store ∧
      ∀ t', s.clock ≤ t' → ∃ d', openDiskStore s.disk.cipher s.disk.snapshot s.disk.wal t' = .ok d' ∧
        MemStore.SameAt t' d'.mem s.disk.mem := by
  obtain ⟨a, ha, hrel⟩ := Related.run true h (by simp) (consistent_init d t)
    (casKept_init d t) (related_init d t)
  have hinv : Consistent s ∧ Textual s ∧ Saved s := by
    refine h.invariant (P := fun s => Consistent s ∧ Textual s ∧ Saved s)
      ⟨consistent_init d t, ⟨hd, by simp [Sys.init, Phase.request?]⟩, by simp [Saved, Sys.init]⟩ ?_
    rintro s s' b ⟨hc, ht, hs⟩ hb hstep
    have hm := Sys.step_moves hstep
    exact ⟨hc.step hstep, hm.textual ht hc hb, hm.saved hs ht hc⟩
  obtain ⟨-, m, htext, hmem, hsnap, hwal⟩ := hinv.2.2 hclosed
  refine ⟨a, ha, hrel.history, hrel.store, fun t' hle => ?_⟩
  obtain ⟨d', hopen, hdata⟩ := open_saved htext hsnap hwal t'
  refine ⟨d', hopen, fun k => ?_⟩
  rw [MemStore.cell_congr hdata k]
  exact (hmem.symm.mono hle) k

/-- The directory that `putGetClose` leaves holds the value that was put. -/
theorem putGetClose_reopens : ∃ (s : Sys Bool) (d' : DiskStore),
    Reach Sys.step TextAct (Sys.init (.new none) 0) s ∧ s.closer = .done ∧
      openDiskStore s.disk.cipher s.disk.snapshot s.disk.wal s.clock = .ok d' ∧
      live s.clock (d'.mem.cell [107]) = some { value := [118] } := by
  obtain ⟨s, hs, hrun⟩ := Option.map_eq_some_iff.mp
    (show (Transition.run Sys.step (fun _ b => b.command? ∈ [none, some putRequest.cmd])
        (.init (.new none) 0) putGetClose).map
          (fun s => (s.closer, s.history.getLast?, live s.clock (s.disk.mem.cell [107]))) =
      some (.done, some (.closed true), some { value := [118] }) by rfl)
  obtain ⟨hdone, hrun⟩ := Prod.mk.inj hrun
  obtain ⟨hlast, hlive⟩ := Prod.mk.inj hrun
  have htext : putRequest.cmd.IsText :=
    ⟨Utf8.valid_of_ascii (by simp [putRequest]), .nil, Utf8.valid_of_ascii (by simp [putRequest])⟩
  have hreach : Reach Sys.step TextAct (Sys.init (.new none) 0) s := by
    refine (Reach.of_run hs).mono fun s b hb cmd hcmd => ?_
    rw [hcmd] at hb
    obtain rfl : cmd = putRequest.cmd := by simpa using hb
    exact htext
  have hnew : (DiskStore.new none).mem.IsText := fun k e hk => by
    simp [DiskStore.new, MemStore.new, MemStore.cell] at hk
  obtain ⟨a, -, -, -, hopen⟩ := closed_store_reopens hnew hreach (List.mem_of_getLast? hlast)
  obtain ⟨d', hd', hshow⟩ := hopen s.clock (Int64.le_refl _)
  exact ⟨s, d', hreach, hdone, hd', (hshow [107]).trans hlive⟩

end KvStore.Concurrent
