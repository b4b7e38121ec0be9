import KvStore.Storage.Execution

/-!
# Group commit

Model of `batchLoop` (pkg/storage/batcher.go:34). `Put`, `Delete` and `Clear` wait in a
batch; the batch is written when it is full, when the timer fires, before a
state-dependent write, and when the channel is closed. The clock stands still and no
I/O fails.

* `Batcher.Follows`: what the loop has done so far is what the requests answered so far
  do one by one, and the batch holds the others.
* `group_commit_transparent_iff`: after the close every request has been answered once,
  as the operation of a `MemStore` would; memory agrees, and so does what replay makes of
  the appended records, unless the log is encrypted and the sealed form of a `CAS` is
  beyond the bound that replay checks.
-/

namespace KvStore.Storage

/-- `maxBatchSize` (pkg/storage/batcher.go:10). -/
def maxBatchSize : ℕ := 1000

/-- What wakes `batchLoop` up before the close. -/
inductive Event where
  | recv (req : Request)
  | timer

/-- The requests of a schedule, in the order in which they are received. -/
def requests (schedule : List Event) : List Request :=
  schedule.filterMap fun
    | .recv req => some req
    | .timer => none

/-- `batchLoop` between two turns. Requests are numbered as they arrive; `answers` has
    what was sent to `errChan` and `result`, under the number of the request. -/
structure Batcher where
  store : DiskStore
  batch : List (Request × ℕ)
  timer : Bool
  received : ℕ
  answers : List (Except Err Value × ℕ)

namespace Batcher

def new (d : DiskStore) : Batcher :=
  { store := d, batch := [], timer := false, received := 0, answers := [] }

/-- `writeBatch(batch)`, `batch = nil` and the timer stopped. -/
def flush (b : Batcher) : Batcher :=
  { b with
    store := b.store.writeBatch (b.batch.map fun p => (p.1.cmd, p.1.nonce))
    batch := []
    timer := false
    answers := b.answers ++ b.batch.map fun p => (.ok .none, p.2) }

/-- One turn of the loop. -/
def step (t : Int64) (b : Batcher) : Event → Batcher
  | .recv req =>
    if req.cmd.op.conditional then
      let b := b.flush
      let r := b.store.writeSingle req.cmd req.nonce t t
      { b with
        store := r.2, received := b.received + 1
        answers := b.answers ++ [(r.1, b.received)] }
    else
      let b := { b with
        batch := b.batch ++ [(req, b.received)], timer := true, received := b.received + 1 }
      if b.batch.length ≥ maxBatchSize then b.flush else b
  | .timer => if b.timer then b.flush else b

def run (t : Int64) (b : Batcher) (schedule : List Event) : Batcher := schedule.foldl (step t) b

/-- The channel is closed: the remainder is written. -/
def close (b : Batcher) : Batcher := b.flush

/-! ## The invariant -/

/-- The store after the requests one by one. -/
def oneByOne (t : Int64) (d : DiskStore) (reqs : List Request) : DiskStore :=
  { d with
    mem := d.mem.executed t (reqs.map Request.cmd)
    wal := d.wal ++ (journal t d.mem reqs).flatMap (walFrame d.cipher) }

theorem oneByOne_append (t : Int64) (d : DiskStore) (reqs reqs' : List Request) :
    oneByOne t d (reqs ++ reqs') = oneByOne t (oneByOne t d reqs) reqs' := by
  simp [oneByOne, MemStore.executed_append, journal_append]

/-- `finished` has been written and answered, `pending` is in the batch. -/
structure Follows (t : Int64) (d : DiskStore) (b : Batcher) (finished pending : List Request) :
    Prop where
  store : b.store = oneByOne t d finished
  answers : b.answers = (d.mem.results t (finished.map Request.cmd)).zipIdx
  batch : b.batch = pending.zipIdx finished.length
  blind : ∀ req ∈ pending, req.cmd.op.conditional = false
  received : b.received = finished.length + pending.length

variable {t : Int64} {d : DiskStore} {b : Batcher} {finished pending : List Request}

/-- Writing the batch finishes what was pending. -/
theorem Follows.flush (h : Follows t d b finished pending) :
    Follows t d b.flush (finished ++ pending) [] where
  store := by
    have hbatch : (b.batch.map fun p => (p.1.cmd, p.1.nonce)) =
        pending.map fun req => (req.cmd, req.nonce) := by
      have hfst := congrArg (List.map fun req : Request => (req.cmd, req.nonce))
        (List.zipIdx_map_fst finished.length pending)
      rw [List.map_map] at hfst
      rw [h.batch]
      exact hfst
    rw [oneByOne_append, Batcher.flush, hbatch, h.store]
    exact (oneByOne t d finished).writeBatch_eq_executed h.blind t
  answers := by
    have hbatch : (b.batch.map fun p => ((.ok .none : Except Err Value), p.2)) =
        (pending.map fun _ => .ok .none).zipIdx finished.length := by
      rw [h.batch, List.zipIdx_map]
      rfl
    rw [Batcher.flush, hbatch, h.answers, List.map_append, MemStore.results_append,
      List.zipIdx_append, MemStore.length_results, List.length_map, Nat.zero_add,
      DiskStore.results_blind t h.blind]
  batch := rfl
  blind := by simp
  received := by
    rw [List.length_append]
    exact h.received

/-- One turn of the loop. -/
theorem Follows.step (h : Follows t d b finished pending) (e : Event) :
    ∃ finished' pending', Follows t d (b.step t e) finished' pending' ∧
      finished' ++ pending' = finished ++ pending ++ requests [e] := by
  cases e with
  | timer =>
    rw [Batcher.step]
    split_ifs
    · exact ⟨finished ++ pending, [], h.flush, by simp [requests]⟩
    · exact ⟨finished, pending, h, by simp [requests]⟩
  | recv req =>
    rw [Batcher.step]
    split_ifs with hop
    · -- the batch is written first, so the write sees all of it
      have hf := h.flush
      refine ⟨finished ++ pending ++ [req], [], ⟨?_, ?_, rfl, by simp, ?_⟩, by simp [requests]⟩
      · dsimp only
        rw [DiskStore.writeSingle_eq _ req hop t, hf.store, oneByOne_append _ _ _ [req]]
        rfl
      · have hlast : d.mem.results t ((finished ++ pending ++ [req]).map Request.cmd) =
            d.mem.results t ((finished ++ pending).map Request.cmd) ++
              [((oneByOne t d (finished ++ pending)).mem.apply req.cmd t).1] := by
          rw [List.map_append, MemStore.results_append]
          rfl
        dsimp only
        rw [DiskStore.writeSingle_eq _ req hop t, hf.store, hf.answers, hf.received, hlast,
          List.zipIdx_append]
        simp
      · dsimp only
        rw [hf.received]
        simp [Nat.add_assoc]
    · have hnext : Follows t d
          { b with
            batch := b.batch ++ [(req, b.received)], timer := true, received := b.received + 1 }
          finished (pending ++ [req]) :=
        { store := h.store
          answers := h.answers
          batch := by rw [h.batch, h.received, List.zipIdx_append]; rfl
          blind := by
            intro r hr
            rcases List.mem_append.mp hr with hr | hr
            · exact h.blind r hr
            · obtain rfl := List.mem_singleton.mp hr
              simpa using hop
          received := by simp [h.received, Nat.add_assoc] }
      dsimp only
      split_ifs
      · exact ⟨_, _, hnext.flush, by simp [requests]⟩
      · exact ⟨_, _, hnext, by simp [requests]⟩

/-- A whole run. -/
theorem Follows.run (h : Follows t d b finished pending) (schedule : List Event) :
    ∃ finished' pending', Follows t d (b.run t schedule) finished' pending' ∧
      finished' ++ pending' = finished ++ pending ++ requests schedule := by
  induction schedule generalizing b finished pending with
  | nil => exact ⟨finished, pending, h, by simp [requests]⟩
  | cons e schedule ih =>
    obtain ⟨finished₁, pending₁, h₁, heq₁⟩ := h.step e
    obtain ⟨finished₂, pending₂, h₂, heq₂⟩ := ih h₁
    refine ⟨finished₂, pending₂, h₂, ?_⟩
    have hcons : requests (e :: schedule) = requests [e] ++ requests schedule := by
      cases e <;> simp [requests]
    rw [heq₂, heq₁, hcons, List.append_assoc]

theorem follows_new (t : Int64) (d : DiskStore) : Follows t d (new d) [] [] where
  store := by simp [oneByOne, new, MemStore.executed, journal]
  answers := rfl
  batch := rfl
  blind := by simp
  received := rfl

/-- After the close nothing is pending. -/
theorem follows_close (t : Int64) (d : DiskStore) (schedule : List Event) :
    Follows t d ((new d).run t schedule).close (requests schedule) [] := by
  obtain ⟨finished, pending, h, heq⟩ := (follows_new t d).run schedule
  have hclose := h.flush
  rw [heq] at hclose
  exact hclose

end Batcher

/-! ## Transparency -/

/-- The schedule, followed by the close, does to the store `d` what its requests do one by
    one on a `MemStore`: every request is answered once and with the same answer, the
    memory is the same, and the appended records replayed over the memory of `d` show the
    same. -/
def Transparent (t : Int64) (d : DiskStore) (schedule : List Event) : Prop :=
  let b := ((Batcher.new d).run t schedule).close
  let cmds := (requests schedule).map Request.cmd
  b.answers = (d.mem.results t cmds).zipIdx ∧
    b.store.mem = d.mem.executed t cmds ∧
    ∃ appended m, b.store.wal = d.wal ++ appended ∧
      walReplay d.cipher t (walEmpty d.cipher ++ appended) d.mem = (none, m) ∧
      m.SameAt t b.store.mem

/-- All strings of the command are within `maxRecordField`. -/
def Command.Bounded (cmd : Command) : Prop :=
  cmd.key.length ≤ maxRecordField ∧ cmd.old.length ≤ maxRecordField ∧
    cmd.value.length ≤ maxRecordField

/-- A log that is encrypted has no `CAS` record whose sealed form is beyond the bound. -/
def CasFits (cipher : Option AtRestCipher) (records : List (Record × Nonce)) : Prop :=
  cipher.isSome → ∀ key old new nonce, (Record.cas key old new, nonce) ∈ records →
    key.length + old.length + new.length + 41 ≤ maxSealed

theorem transparent_iff_replays (t : Int64) (d : DiskStore) (schedule : List Event) :
    Transparent t d schedule ↔
      (walReplay d.cipher t
        (walEmpty d.cipher ++ (journal t d.mem (requests schedule)).flatMap (walFrame d.cipher))
        d.mem).1 = none ∧
      MemStore.SameAt t
        (walReplay d.cipher t
          (walEmpty d.cipher ++ (journal t d.mem (requests schedule)).flatMap (walFrame d.cipher))
          d.mem).2
        (d.mem.executed t ((requests schedule).map Request.cmd)) := by
  have h := Batcher.follows_close t d schedule
  have hwal : ((Batcher.new d).run t schedule).close.store.wal =
      d.wal ++ (journal t d.mem (requests schedule)).flatMap (walFrame d.cipher) := by
    rw [h.store]
    rfl
  have hmem : ((Batcher.new d).run t schedule).close.store.mem =
      d.mem.executed t ((requests schedule).map Request.cmd) := by
    rw [h.store]
    rfl
  rw [Transparent]
  constructor
  · rintro ⟨-, -, appended, m, happ, hreplay, hsame⟩
    obtain rfl := List.append_cancel_left (hwal.symm.trans happ)
    rw [hreplay, ← hmem]
    exact ⟨rfl, hsame⟩
  · rintro ⟨hnone, hsame⟩
    refine ⟨h.answers, hmem, _, _, hwal, Prod.ext hnone rfl, ?_⟩
    rw [hmem]
    exact hsame

/-- A record within the bound is within the bounds of replay, a sealed `CAS` apart. -/
theorem Record.Bounded.readable_iff {r : Record} (hb : r.Bounded) (cipher : Option AtRestCipher) :
    r.Small ∧ (r.Readable cipher ↔ (cipher.isSome → ∀ key old new, r = .cas key old new →
      key.length + old.length + new.length + 41 ≤ maxSealed)) := by
  have hmax : maxSealed = 2097216 := by decide
  have hfield : maxRecordField = 1048576 := by decide
  rw [Record.Readable, and_iff_right hb, Record.Small]
  cases r <;> simp only [Record.Bounded, Record.fields, List.forall_mem_cons] at hb <;>
    simp only [Record.encode, List.length_cons, List.length_append, length_field,
      Framing.length_bigEndian, List.length_nil]
  case cas key old new =>
    refine ⟨by omega, forall_congr' fun _ => ⟨?_, fun h => ?_⟩⟩
    · rintro hle _ _ _ ⟨⟩
      omega
    · have := h key old new rfl
      omega
  all_goals
    refine ⟨by omega, iff_of_true (fun _ => by omega) ?_⟩
    simp

/-- What is logged for a bounded command is a bounded record. -/
theorem Command.Bounded.logged {t : Int64} {cmd : Command} {c : Option Entry} {r : Record}
    (hb : cmd.Bounded) (h : cmd.logged t c = some r) : r.Bounded := by
  obtain ⟨hkey, hold, hvalue⟩ := hb
  unfold Command.logged at h
  cases hop : cmd.op <;> rw [hop] at h <;> dsimp only at h
  case cas =>
    split at h
    · cases h
    · split_ifs at h
      cases h
      simp [Record.Bounded, Record.fields, hkey, hold, hvalue]
  case expire =>
    split at h
    · cases h
    · cases h
      simp [Record.Bounded, Record.fields, hkey]
  case other => cases h
  all_goals
    cases h
    simp [Record.Bounded, Record.fields, hkey, hvalue]

/-- Records within the bound are all taken back exactly if every `CAS` fits. -/
theorem all_readable_iff {ps : List (Record × Nonce)} (hb : ∀ p ∈ ps, p.1.Bounded)
    (cipher : Option AtRestCipher) :
    (∀ p ∈ ps, p.1.Small) ∧ ((∀ p ∈ ps, p.1.Readable cipher) ↔ CasFits cipher ps) := by
  refine ⟨fun p hp => ((hb p hp).readable_iff cipher).1, ?_⟩
  constructor
  · intro hread hcipher key old new nonce hp
    exact ((hb _ hp).readable_iff cipher).2.mp (hread _ hp) hcipher key old new rfl
  · intro hfits p hp
    refine ((hb p hp).readable_iff cipher).2.mpr fun hcipher key old new hcas => ?_
    exact hfits hcipher key old new p.2 (hcas ▸ hp)

theorem mem_journal {t : Int64} {m : MemStore} {reqs : List Request} {p : Record × Nonce}
    (h : p ∈ journal t m reqs) : ∃ req ∈ reqs, ∃ c, req.cmd.logged t c = some p.1 := by
  induction reqs generalizing m with
  | nil => cases h
  | cons req reqs ih =>
    rcases List.mem_append.mp h with h | h
    · obtain ⟨r, hr, rfl⟩ := Option.map_eq_some_iff.mp (Option.mem_toList.mp h)
      exact ⟨req, List.mem_cons_self, _, hr⟩
    · obtain ⟨req', hmem, hlog⟩ := ih h
      exact ⟨req', List.mem_cons_of_mem _ hmem, hlog⟩

theorem bounded_journal {t : Int64} {m : MemStore} {reqs : List Request}
    (hb : ∀ req ∈ reqs, req.cmd.Bounded) : ∀ p ∈ journal t m reqs, p.1.Bounded := by
  intro p hp
  obtain ⟨req, hreq, c, hlog⟩ := mem_journal hp
  exact (hb req hreq).logged hlog

/-- Group commit is transparent for every schedule of requests whose strings are within
    `maxRecordField`, exactly when no `CAS` is logged that an encrypted log does not take
    back. -/
theorem group_commit_transparent_iff (t : Int64) (d : DiskStore) (schedule : List Event)
    (hb : ∀ req ∈ requests schedule, req.cmd.Bounded) :
    Transparent t d schedule ↔ CasFits d.cipher (journal t d.mem (requests schedule)) := by
  obtain ⟨hsmall, hread⟩ := all_readable_iff (bounded_journal hb (t := t) (m := d.mem)) d.cipher
  rw [transparent_iff_replays, ← hread]
  constructor
  · rintro ⟨hnone, -⟩
    by_contra hbad
    obtain ⟨e, he⟩ := walReplay_flatMap_unreadable d.cipher hsmall hbad t [] d.mem
    rw [List.append_nil, hnone] at he
    cases he
  · intro hall
    have hreplay := walReplay_flatMap d.cipher hall t [] d.mem
    rw [List.append_nil, List.append_nil, walReplay_walEmpty] at hreplay
    rw [hreplay]
    exact ⟨rfl, sameAt_replayed_journal t _ (.refl _)⟩

/-- `Put k 5` waits in the batch, `Incr k` writes it and itself, the timer comes too late. -/
theorem increment_after_put_transparent :
    Transparent 0 (.new none)
      [.recv ⟨{ op := .put, key := [107], value := [53] }, zeroNonce, by simp⟩,
       .recv ⟨{ op := .incr, key := [107] }, zeroNonce, by simp⟩, .timer] := by
  refine (group_commit_transparent_iff 0 _ _ ?_).mpr fun h => by cases h
  simp [requests, Command.Bounded, maxRecordField]

/-- `CAS k s s`. -/
def swap (key s : Bytes) : Request :=
  ⟨{ op := .cas, key := key, old := s, value := s }, zeroNonce, by simp⟩

theorem journal_swap (key s : Bytes) :
    journal 0 (MemStore.new.put key s) [swap key s] = [(.cas key s s, zeroNonce)] := by
  have hcell : (MemStore.new.put key s).cell key = some ⟨s, 0⟩ := by
    rw [MemStore.cell_put, if_pos rfl]
  simp [journal, swap, Command.logged, hcell, live_never_expires]

/-- An encrypted log takes the record of a swap whose strings are together longer than two
    strings of the largest size, and replay rejects it. -/
theorem swap_not_replayed {key s : Bytes} (hkey : key.length = 24) (hs : s.length = maxRecordField) :
    ¬ Transparent 0 { DiskStore.new (some .tagged) with mem := MemStore.new.put key s }
      [.recv (swap key s)] := by
  rw [transparent_iff_replays]
  rintro ⟨hnone, -⟩
  have hlen : (Record.cas key s s).encode.length = maxRecordField + maxRecordField + 37 := by
    simp [Record.encode, length_field, hs, hkey]
    omega
  have hsmall : ∀ p ∈ journal 0 (MemStore.new.put key s) [swap key s], p.1.Small := by
    rw [journal_swap]
    simp only [List.mem_singleton, forall_eq, Record.Small, hlen]
    decide
  have hbad : ¬ ∀ p ∈ journal 0 (MemStore.new.put key s) [swap key s],
      p.1.Readable (some .tagged) := by
    rw [journal_swap]
    simp only [List.mem_singleton, forall_eq, Record.Readable, hlen]
    rintro ⟨-, h⟩
    exact absurd (h rfl) (by decide)
  obtain ⟨e, he⟩ := walReplay_flatMap_unreadable (some .tagged) hsmall hbad 0 []
    (MemStore.new.put key s)
  rw [List.append_nil] at he
  exact absurd (hnone.symm.trans he) (by simp)

/-- A key of 24 bytes and a value of the largest size. -/
theorem large_swap_not_replayed :
    ¬ Transparent 0
      { DiskStore.new (some .tagged) with
        mem := MemStore.new.put (List.replicate 24 0) (List.replicate maxRecordField 0) }
      [.recv (swap (List.replicate 24 0) (List.replicate maxRecordField 0))] :=
  swap_not_replayed List.length_replicate List.length_replicate

end KvStore.Storage
