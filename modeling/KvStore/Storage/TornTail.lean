import KvStore.Storage.DiskStore

/-!
# A crash in the middle of an append

A crash may leave any prefix of the bytes that were appended to `wal.log` since the last
`Sync`. The plaintext parser (`replayPlain`, pkg/storage/wal.go:206) returns an error for
every incomplete record, and the encrypted one (`replayEncrypted`,
pkg/storage/wal.go:242) for every incomplete sealed body; only a cut inside the length of
a sealed record, or right behind it, is taken for the end of the log. `openDiskStore`
passes the error on, and the store does not start.

* `crash_recovers_iff`: which cuts are recovered from.
* `torn_record_blocks_open`: a synced record that is lost to a torn one behind it.
-/

namespace KvStore.Storage

open KvStore.Framing

/-- `wal.log` after a crash that has kept the first `n` bytes of what was appended. The
    magic byte of an encrypted log is synced before anything is appended. -/
def crashedWal (cipher : Option AtRestCipher) (ps : List (Record × Nonce)) (n : ℕ) : Bytes :=
  walEmpty cipher ++ (ps.flatMap (walFrame cipher)).take n

/-- Opening the directory succeeds, and the memory is the snapshot with exactly the
    records applied that are entirely in the file. -/
def CrashRecovers (cipher : Option AtRestCipher) (snapshot : Option SnapshotFile)
    (ps : List (Record × Nonce)) (n : ℕ) (now : Int64) : Prop :=
  ∃ m d, loadSnapshot cipher snapshot = .ok m ∧
    openDiskStore cipher snapshot (crashedWal cipher ps n) now = .ok d ∧
    d.mem = m.replayed now ((whole (walFrame cipher) ps n).map Prod.fst)

/-- Replay takes the piece behind the complete records for the end of the log: it is
    empty or, in an encrypted log, not more than the length of a record, and that
    within the bound. -/
def EndsLog (cipher : Option AtRestCipher) (piece : Bytes) : Prop :=
  match cipher with
  | none => piece = []
  | some _ => piece.length < 4 ∨
      piece.length = 4 ∧ 0 < ofBigEndian piece ∧ ofBigEndian piece ≤ maxSealed

/-- The cut falls between two records, or, in an encrypted log, inside the length of a
    record or right behind it; and the complete records are within the bounds of replay. -/
def CleanCut (cipher : Option AtRestCipher) (ps : List (Record × Nonce)) (n : ℕ) : Prop :=
  (∀ p ∈ whole (walFrame cipher) ps n, p.1.Readable cipher) ∧
    EndsLog cipher (torn (walFrame cipher) ps n)

theorem EndsLog.walReplay {cipher : Option AtRestCipher} {piece : Bytes} (h : EndsLog cipher piece)
    (now : Int64) (m : MemStore) : walReplay cipher now (walEmpty cipher ++ piece) m = (none, m) := by
  cases cipher with
  | none =>
    obtain rfl : piece = [] := h
    rfl
  | some c =>
    simp only [Storage.walReplay, walEmpty, List.singleton_append, replayEncrypted_cons]
    rcases h with h | ⟨hlen, hpos, hmax⟩
    · exact feed_stop (readFrame_short h) m
    · have hback := bigEndian_ofBigEndian piece
      rw [hlen] at hback
      have hstop := readFrame_bare_header hpos hmax
      rw [hback] at hstop
      exact feed_stop hstop m

/-- Any other piece of a sealed record makes the reader fail. -/
theorem readFrame_piece_fails {blob : Bytes} (hlt : blob.length < 2 ^ 32) (hpos : 0 < blob.length)
    {j : ℕ} (hj : j < (field blob).length) {c : AtRestCipher}
    (h : ¬ EndsLog (some c) ((field blob).take j)) : ∃ e, readFrame ((field blob).take j) = .fail e := by
  have hlen : ((field blob).take j).length = j := by
    rw [List.length_take]; omega
  simp only [EndsLog, hlen] at h
  push Not at h
  rcases Nat.lt_or_ge 4 j with h4 | h4
  · exact readFrame_torn_body hlt h4 hj
  · -- the whole length is there, and it is beyond the bound
    obtain rfl : j = 4 := by omega
    have htake : (field blob).take 4 = bigEndian 4 blob.length := by
      rw [field, List.take_left' (by simp)]
    rw [htake, ofBigEndian_bigEndian_of_lt (by simpa using hlt)] at h
    have hread := readFrame_header hlt []
    rw [List.append_nil, if_pos (h.2 rfl hpos)] at hread
    exact ⟨_, by rw [htake]; exact hread⟩

/-- Any other piece of a record makes replay fail. -/
theorem walReplay_piece_fails {cipher : Option AtRestCipher} {p : Record × Nonce}
    (hs : p.1.Small) {j : ℕ} (hj : 0 < j) (hlt : j < (walFrame cipher p).length)
    (h : ¬ EndsLog cipher ((walFrame cipher p).take j)) (now : Int64) (m : MemStore) :
    ∃ e, (walReplay cipher now (walEmpty cipher ++ (walFrame cipher p).take j) m).1 = some e := by
  cases cipher with
  | none =>
    obtain ⟨e, he⟩ := walRead_torn hs.addressable hj hlt
    exact ⟨e, congrArg Prod.fst (feed_fail walRead_reader he m)⟩
  | some c =>
    have hblob : (c.encrypt p.2 p.1.encode).length < 2 ^ 32 := by
      rw [c.length_encrypt]; exact hs
    have hpos : 0 < (c.encrypt p.2 p.1.encode).length := by rw [c.length_encrypt]; omega
    obtain ⟨e, he⟩ := readFrame_piece_fails hblob hpos hlt h
    simp only [walReplay, walEmpty, List.singleton_append, replayEncrypted_cons]
    exact ⟨e, congrArg Prod.fst (feed_fail readFrame_reader he m)⟩

/-- A crash is recovered from at a clean cut and, if every record takes less than 4 GiB,
    only there. -/
theorem crash_recovers_iff (cipher : Option AtRestCipher) (snapshot : Option SnapshotFile)
    (m : MemStore) (hm : loadSnapshot cipher snapshot = .ok m) (ps : List (Record × Nonce)) (n : ℕ)
    (now : Int64) :
    (CleanCut cipher ps n → CrashRecovers cipher snapshot ps n now) ∧
      ((∀ p ∈ ps, p.1.Small) → CrashRecovers cipher snapshot ps n now → CleanCut cipher ps n) := by
  have hfile := take_flatMap (walFrame cipher) ps n
  constructor
  · rintro ⟨hread, hend⟩
    have hreplay := walReplay_flatMap cipher hread now (torn (walFrame cipher) ps n) m
    rw [hend.walReplay] at hreplay
    refine ⟨m, ⟨_, snapshot, crashedWal cipher ps n, cipher⟩, hm, ?_, rfl⟩
    rw [crashedWal, hfile]
    exact (openDiskStore_eq_ok_iff hm _ now _).mpr ⟨hreplay, rfl⟩
  · rintro hsmall ⟨m', d, hm', hopen, -⟩
    obtain rfl : m' = m := Except.ok.inj (hm'.symm.trans hm)
    rw [crashedWal, hfile] at hopen
    have hreplay := ((openDiskStore_eq_ok_iff hm _ now d).mp hopen).1
    have hsmall' : ∀ p ∈ whole (walFrame cipher) ps n, p.1.Small :=
      fun p hp => hsmall p (whole_subset _ ps n p hp)
    have hread : ∀ p ∈ whole (walFrame cipher) ps n, p.1.Readable cipher := by
      by_contra hnot
      obtain ⟨e, he⟩ := walReplay_flatMap_unreadable cipher hsmall' hnot now
        (torn (walFrame cipher) ps n) m'
      rw [hreplay] at he
      cases he
    refine ⟨hread, ?_⟩
    rw [walReplay_flatMap cipher hread] at hreplay
    by_contra hend
    rcases torn_cases (walFrame cipher) ps n with hnil | ⟨p, hp, j, hj, hlt, heq⟩
    · rw [hnil] at hend
      cases cipher with
      | none => exact hend rfl
      | some c => exact hend (.inl (by simp))
    · rw [heq] at hend hreplay
      obtain ⟨e, he⟩ := walReplay_piece_fails (hsmall p hp) hj hlt hend now _
      rw [hreplay] at he
      cases he

/-- `k = 1`, and `l = 2` behind it; each record takes 11 bytes. -/
def twoPuts : List (Record × Nonce) :=
  [(.put [107] [49], zeroNonce), (.put [108] [50], zeroNonce)]

/-- Cut between the two records, the log is replayed up to there. -/
theorem crash_recovers_between_records : CrashRecovers none none twoPuts 11 0 :=
  (crash_recovers_iff none none .new rfl twoPuts 11 0).1
    ⟨by decide, show torn (walFrame none) twoPuts 11 = [] by decide⟩

/-- The first record is synced; one byte of the second has reached the disk. The store
    does not open, and the first write is unavailable. -/
theorem torn_record_blocks_open : ¬ CrashRecovers none none twoPuts 12 0 := by
  rintro ⟨m, d, -, hopen, -⟩
  have herr : (openDiskStore none none (crashedWal none twoPuts 12) 0).toOption.isSome = false := by
    decide
  rw [hopen] at herr
  cases herr

end KvStore.Storage
