import KvStore.Storage.GroupCommit
import KvStore.Storage.TornTail

/-!
# Appending to an encrypted log

`replayEncrypted` (pkg/storage/wal.go:242) takes an incomplete length at the end of the file,
or a length of which no byte follows, for the end of the log. The file is opened in append
mode with those bytes still in place, so the next record is read with a shifted frame.

* `readFrame_eq_item_iff`, `readFrame_eq_stop_iff`: what the reader of frames finds.
* `encrypted_append_iff`: a log that replays takes further records exactly if it ends behind a
  frame. It is an equivalence for every cipher: behind a tolerated piece some record fails.
* `append_behind_torn_length`: one byte of a length, and a record that is lost.
* `encrypted_log_agrees_iff`: the encrypted and the plaintext log of the same records replay
  alike exactly if every `CAS` fits in a sealed record.
-/

namespace KvStore.Storage

open KvStore.Framing

/-! ## Frames -/

/-- The reader finds exactly the frames within the bound. -/
theorem readFrame_eq_item_iff {bytes blob rest : Bytes} :
    readFrame bytes = .item blob rest ↔ blob.length ≤ maxSealed ∧ bytes = field blob ++ rest := by
  constructor
  · intro h
    unfold readFrame readFull at h
    split_ifs at h with h4 hempty
    dsimp only at h
    split_ifs at h with hmax hle
    cases h
    have hhead : (bytes.take 4).length = 4 := by simpa using h4
    have hblob : ((bytes.drop 4).take (ofBigEndian (bytes.take 4))).length =
        ofBigEndian (bytes.take 4) := by simpa using hle
    have hback := bigEndian_ofBigEndian (bytes.take 4)
    rw [hhead] at hback
    refine ⟨by rw [hblob]; omega, ?_⟩
    rw [field, hblob, hback, List.append_assoc, List.take_append_drop, List.take_append_drop]
  · rintro ⟨hmax, rfl⟩
    exact readFrame_field hmax rest

/-- A header of four bytes and what follows it. -/
theorem readFrame_head {head : Bytes} (hlen : head.length = 4) (rest : Bytes) :
    readFrame (head ++ rest) =
      if ofBigEndian head > maxSealed then .fail (.exceedsBound (ofBigEndian head))
      else match readFull rest (ofBigEndian head) with
        | .error .eof => .stop
        | .error e => .fail (.readSealed e)
        | .ok (sealed, r) => .item sealed r := by
  have hlt := ofBigEndian_lt head
  have hback := bigEndian_ofBigEndian head
  rw [hlen] at hlt hback
  have h := readFrame_header (by simpa using hlt) rest
  rwa [hback] at h

/-- The reader takes exactly the tolerated pieces for the end of the log. -/
theorem readFrame_eq_stop_iff {bytes : Bytes} (c : AtRestCipher) :
    readFrame bytes = .stop ↔ EndsLog (some c) bytes := by
  constructor
  · intro h
    rcases Nat.lt_or_ge bytes.length 4 with hlt | hge
    · exact .inl hlt
    · have hhead : (bytes.take 4).length = 4 := by simpa using hge
      rw [← List.take_append_drop 4 bytes, readFrame_head hhead] at h
      unfold readFull at h
      split_ifs at h with hmax hle hnil
      · -- nothing follows the length
        have hall : bytes.take 4 = bytes := by
          have := List.take_append_drop 4 bytes
          rwa [hnil, List.append_nil] at this
        rw [hnil] at hle
        rw [hall] at hmax hle hhead
        exact .inr ⟨hhead, Nat.pos_of_ne_zero (by simpa using hle), by omega⟩
  · rintro (hlt | ⟨hlen, hpos, hmax⟩)
    · exact readFrame_short hlt
    · have h := readFrame_bare_header hpos hmax
      have hback := bigEndian_ofBigEndian bytes
      rw [hlen] at hback
      rwa [hback] at h

theorem AtRestCipher.length_of_decrypt {c : AtRestCipher} {sealed plain : Bytes}
    (h : c.decrypt sealed = some plain) : sealed.length = plain.length + 28 := by
  unfold decrypt at h
  split_ifs at h with hlen
  have hbody := congrArg List.length (c.openWith_eq_some_iff.mp h)
  rw [c.length_sealWith, List.length_drop] at hbody
  unfold atRestNonceSize at hlen hbody
  omega

/-- A length that is shorter than any sealed record, or longer than what follows, makes replay
    fail, whatever the cipher. -/
theorem misframed_fails (c : AtRestCipher) (t : Int64) (m : MemStore) (head rest : Bytes)
    (hlen : head.length = 4) (hne : rest ≠ [])
    (hn : ofBigEndian head < 28 ∨ rest.length < ofBigEndian head) :
    ∃ e, (feed readFrame (applySealed c t) (head ++ rest) m).1 = some e := by
  have hread := readFrame_head hlen rest
  by_cases hmax : ofBigEndian head > maxSealed
  · rw [if_pos hmax] at hread
    exact ⟨_, congrArg Prod.fst (feed_fail readFrame_reader hread m)⟩
  rw [if_neg hmax, readFull] at hread
  by_cases hle : ofBigEndian head ≤ rest.length
  · -- the blob is there, and too short to be opened
    rw [if_pos hle] at hread
    have hshort : c.decrypt (rest.take (ofBigEndian head)) = none := by
      by_contra hopen
      obtain ⟨plain, hplain⟩ := Option.ne_none_iff_exists'.mp hopen
      have hlen := c.length_of_decrypt hplain
      rw [List.length_take] at hlen
      omega
    refine ⟨.decrypt, ?_⟩
    rw [feed_item readFrame_reader hread, applySealed, hshort]
  · rw [if_neg hle, if_neg hne] at hread
    exact ⟨_, congrArg Prod.fst (feed_fail readFrame_reader hread m)⟩

/-! ## A tolerated piece in front of a record -/

/-- The plaintexts of `n ≤ 5` bytes that replay accepts. -/
def shortLogs (n : ℕ) : Finset Bytes := {List.replicate n 3, [2, 0, 0, 0, 0], [4, 0, 0, 0, 0]}

theorem mem_shortLogs (rs : List Record) (h : (rs.flatMap Record.encode).length ≤ 5) :
    rs.flatMap Record.encode ∈ shortLogs (rs.flatMap Record.encode).length := by
  induction rs with
  | nil => simp [shortLogs]
  | cons r rs ih =>
    rw [List.flatMap_cons, List.length_append] at h ⊢
    have hcase : r = .clear ∨ ((r = .delete [] ∨ r = .incr []) ∧ rs.flatMap Record.encode = []) := by
      cases r <;> simp only [Record.encode, List.length_cons, List.length_append, length_field,
        length_bigEndian] at h
      case clear => exact .inl rfl
      case delete key =>
        have hkey : key = [] := List.length_eq_zero_iff.mp (by omega)
        exact .inr ⟨.inl (by rw [hkey]), List.length_eq_zero_iff.mp (by omega)⟩
      case incr key =>
        have hkey : key = [] := List.length_eq_zero_iff.mp (by omega)
        exact .inr ⟨.inr (by rw [hkey]), List.length_eq_zero_iff.mp (by omega)⟩
      all_goals omega
    rcases hcase with rfl | ⟨rfl | rfl, hnil⟩
    · -- behind a `Clear` there are at most four bytes
      have hclear : Record.clear.encode = [3] := rfl
      rw [hclear, List.length_singleton] at h ⊢
      have hrest := ih (by omega)
      simp only [shortLogs, Finset.mem_insert, Finset.mem_singleton] at hrest ⊢
      rcases hrest with hrest | hrest | hrest
      · left
        rw [Nat.add_comm, List.replicate_succ, ← hrest]
        rfl
      · rw [hrest] at h
        simp at h
      · rw [hrest] at h
        simp at h
    · rw [hnil]
      decide
    · rw [hnil]
      decide

/-- Four nonces that differ in their last byte only. -/
def probe (i : Fin 4) : Nonce := ⟨[0, 0, 0, 0, 0, 0, 0, 0, 0, 0, 0, UInt8.ofNat i], rfl⟩

/-- What replay takes for the nonce of a sealed `Clear` whose frame is shifted by a length. -/
def shiftedNonce : Bytes := [0, 0, 0, 29, 0, 0, 0, 0, 0, 0, 0, 0]

theorem walFrame_clear (c : AtRestCipher) (i : Fin 4) :
    walFrame (some c) (.clear, probe i) =
      shiftedNonce ++ (0 :: 0 :: 0 :: UInt8.ofNat i :: c.sealWith (probe i).1 [3]) := by
  have hlen : (c.encrypt (probe i) Record.clear.encode).length = 29 := c.length_encrypt _ _
  have hhead : bigEndian 4 29 = [0, 0, 0, 29] := by decide
  rw [walFrame, field, hlen, hhead]
  rfl

/-- A blob of the announced length that replay accepts can be opened, and holds a log. -/
theorem decrypt_of_accepted {c : AtRestCipher} {t : Int64} {m : MemStore} {head rest : Bytes}
    (hlen : head.length = 4) (hmax : ofBigEndian head ≤ maxSealed)
    (hlong : ofBigEndian head ≤ rest.length)
    (h : (feed readFrame (applySealed c t) (head ++ rest) m).1 = none) :
    ∃ plain, c.decrypt (rest.take (ofBigEndian head)) = some plain ∧
      (replayPlain t plain m).1 = none := by
  have hread := readFrame_head hlen rest
  rw [if_neg (not_lt.mpr hmax), readFull, if_pos hlong] at hread
  rw [feed_item readFrame_reader hread] at h
  cases hdec : c.decrypt (rest.take (ofBigEndian head)) with
  | none =>
    rw [applySealed, hdec] at h
    cases h
  | some plain =>
    refine ⟨plain, rfl, ?_⟩
    rw [applySealed, hdec] at h
    dsimp only at h
    rcases hr : replayPlain t plain m with ⟨- | e, m'⟩
    · rfl
    · rw [hr] at h
      cases h

/-- What is opened was sealed under the nonce in front of it. -/
theorem sealWith_of_decrypt_take {c : AtRestCipher} {nonce body plain : Bytes} {n : ℕ}
    (hnonce : nonce.length = atRestNonceSize) (hn : atRestNonceSize ≤ n)
    (h : c.decrypt ((nonce ++ body).take n) = some plain) :
    c.sealWith nonce plain = body.take (n - atRestNonceSize) := by
  unfold AtRestCipher.decrypt at h
  split_ifs at h with hshort
  have hsealed := c.openWith_eq_some_iff.mp h
  have htake : ((nonce ++ body).take n).take atRestNonceSize = nonce := by
    rw [List.take_take, Nat.min_eq_left hn]
    exact List.take_left' hnonce
  have hdrop : (nonce ++ body).drop atRestNonceSize = body := List.drop_left' hnonce
  rw [htake, List.drop_take, hdrop] at hsealed
  exact hsealed.symm

/-- If replay accepts the shifted frame, the cipher has sealed a short log under `shiftedNonce`
    as something that starts with the end of the true nonce. -/
theorem opened_of_accepted {c : AtRestCipher} {t : Int64} {m : MemStore} {head : Bytes}
    (hlen : head.length = 4) (hlo : 28 ≤ ofBigEndian head) (hhi : ofBigEndian head ≤ 33) {i : Fin 4}
    (h : (feed readFrame (applySealed c t)
      (head ++ walFrame (some c) (.clear, probe i)) m).1 = none) :
    ∃ plain ∈ shortLogs (ofBigEndian head - 28), ∃ more,
      c.sealWith shiftedNonce plain = 0 :: 0 :: 0 :: UInt8.ofNat i :: more := by
  set n := ofBigEndian head with hn
  set body := 0 :: 0 :: 0 :: UInt8.ofNat i :: c.sealWith (probe i).1 [3] with hbody
  have hframe : walFrame (some c) (.clear, probe i) = shiftedNonce ++ body := walFrame_clear c i
  have hseal : (c.sealWith (probe i).1 [3]).length = 17 := c.length_sealWith _ _
  have hlong : n ≤ (shiftedNonce ++ body).length := by
    simp only [List.length_append, hbody, List.length_cons, hseal]
    exact hhi
  have hmax : n ≤ maxSealed := le_trans hhi (by decide)
  rw [hframe] at h
  obtain ⟨plain, hdec, hplain⟩ := decrypt_of_accepted hlen hmax hlong h
  have hsize := c.length_of_decrypt hdec
  rw [List.length_take, Nat.min_eq_left hlong] at hsize
  obtain ⟨rs, -, -, -, haccept⟩ := (replayPlain_applies_longest t m).1 plain
  have hrs := haccept.mp hplain
  refine ⟨plain, ?_, (c.sealWith (probe i).1 [3]).take (n - 16), ?_⟩
  · have hmem := mem_shortLogs rs (by rw [hrs]; omega)
    rw [hrs] at hmem
    have hsub : n - 28 = plain.length := by omega
    rwa [hsub]
  · have hcut : n - atRestNonceSize = n - 16 + 4 := by
      have : atRestNonceSize = 12 := rfl
      omega
    rw [sealWith_of_decrypt_take rfl (le_trans (by decide) hlo) hdec, hcut, hbody]
    rfl

/-- A header that announces a blob of 28 to 33 bytes, in front of a sealed `Clear`: the nonce of the
    `Clear` lies partly in the nonce and partly in the body of what is read, so one of four
    nonces is refused. -/
theorem shifted_clear_fails (c : AtRestCipher) (t : Int64) (m : MemStore) {head : Bytes}
    (hlen : head.length = 4) (hlo : 28 ≤ ofBigEndian head) (hhi : ofBigEndian head ≤ 33) :
    ∃ i, ∃ e, (feed readFrame (applySealed c t)
      (head ++ walFrame (some c) (.clear, probe i)) m).1 = some e := by
  by_contra hnone
  have hopen : ∀ i : Fin 4, ∃ plain ∈ shortLogs (ofBigEndian head - 28), ∃ more,
      c.sealWith shiftedNonce plain = 0 :: 0 :: 0 :: UInt8.ofNat i :: more := by
    intro i
    refine opened_of_accepted hlen hlo hhi (t := t) (m := m) ?_
    by_contra herr
    exact hnone ⟨i, Option.ne_none_iff_exists'.mp herr⟩
  choose plain hplain more hmore using hopen
  have hcard : (shortLogs (ofBigEndian head - 28)).card < (Finset.univ : Finset (Fin 4)).card := by
    refine lt_of_le_of_lt Finset.card_le_three ?_
    decide
  obtain ⟨i, -, j, -, hij, heq⟩ := Finset.exists_ne_map_eq_of_card_lt_of_maps_to hcard
    (f := plain) (fun i _ => hplain i)
  have hbytes : UInt8.ofNat i = UInt8.ofNat j := by
    have h := (hmore i).symm.trans ((congrArg _ heq).trans (hmore j))
    simpa using (List.cons.inj (List.cons.inj (List.cons.inj (List.cons.inj h).2).2).2).1
  have hinj : ∀ i j : Fin 4, UInt8.ofNat i = UInt8.ofNat j → i = j := by decide
  exact hij (hinj i j hbytes)

/-- A tolerated piece that is not empty makes replay fail on some record behind it. -/
theorem torn_tail_fails {c : AtRestCipher} (t : Int64) (m : MemStore) {tail : Bytes}
    (hend : EndsLog (some c) tail) (hne : tail ≠ []) :
    ∃ i, ∃ e, (feed readFrame (applySealed c t)
      (tail ++ walFrame (some c) (.clear, probe i)) m).1 = some e := by
  rcases hend with hlt | ⟨hlen, -, -⟩
  · -- the length is completed with zeros, so it is a multiple of 256
    refine ⟨0, ?_⟩
    set body := 0 :: 0 :: 0 :: UInt8.ofNat (0 : Fin 4) :: c.sealWith (probe 0).1 [3]
    have hbody : body.length = 21 := by
      simp only [body, List.length_cons, c.length_sealWith, List.length_nil]
    have hframe : walFrame (some c) (.clear, probe 0) =
        0 :: 0 :: 0 :: 29 :: ([0, 0, 0, 0, 0, 0, 0, 0] ++ body) := walFrame_clear c 0
    rw [hframe]
    match tail, hne, hlt with
    | [a], _, _ =>
      refine misframed_fails c t m [a, 0, 0, 0] (29 :: _) rfl (by simp) ?_
      simp [ofBigEndian, hbody]
      omega
    | [a, b], _, _ =>
      refine misframed_fails c t m [a, b, 0, 0] (0 :: 29 :: _) rfl (by simp) ?_
      simp [ofBigEndian, hbody]
      omega
    | [a, b, c'], _, _ =>
      refine misframed_fails c t m [a, b, c', 0] (0 :: 0 :: 29 :: _) rfl (by simp) ?_
      simp [ofBigEndian, hbody]
      omega
  · have hframe : (walFrame (some c) (.clear, probe 0)).length = 33 := by
      rw [walFrame, length_field, c.length_encrypt]
      rfl
    by_cases hn : ofBigEndian tail < 28 ∨ 33 < ofBigEndian tail
    · refine ⟨0, misframed_fails c t m _ _ hlen ?_ (by rwa [hframe])⟩
      intro hnil
      rw [hnil] at hframe
      cases hframe
    · exact shifted_clear_fails c t m hlen (by omega) (by omega)

/-! ## Appending -/

/-- All strings of the record have at most 1000 bytes. -/
def Record.Short (r : Record) : Prop := ∀ s ∈ r.fields, s.length ≤ 1000

/-- A short record is within the bounds of replay, sealed or not. -/
theorem Record.Short.readable {r : Record} (h : r.Short) (cipher : Option AtRestCipher) :
    r.Readable cipher := by
  have hmax : maxSealed = 2097216 := by decide
  have hfield : maxRecordField = 1048576 := by decide
  refine ⟨fun s hs => le_trans (h s hs) (by decide), fun _ => ?_⟩
  cases r <;> simp only [Short, fields, List.forall_mem_cons, encode, List.length_cons,
    List.length_append, length_field, length_bigEndian, List.length_nil] at h ⊢ <;> omega

/-- A short record that is appended to the log, once that is opened, is executed by the next
    replay, behind what the log led to. -/
def TakesRecords (c : AtRestCipher) (t : Int64) (file : Bytes) (m : MemStore) : Prop :=
  ∀ (r : Record) (nonce : Nonce), r.Short → ∃ wal, openWal (some c) file = .ok wal ∧
    replayEncrypted c t (wal ++ walFrame (some c) (r, nonce)) m =
      (none, ((replayEncrypted c t file m).2.apply r.command t).2)

/-- The file is empty, or it ends behind a frame. -/
def FrameAligned (file : Bytes) : Prop :=
  file = [] ∨ ∃ blobs : List Bytes, (∀ blob ∈ blobs, blob.length ≤ maxSealed) ∧
    file = walEncryptedMagic :: blobs.flatMap field

/-- One record behind what has been read. -/
theorem feed_walFrame (c : AtRestCipher) (t : Int64) {r : Record} (hr : r.Short) (nonce : Nonce)
    (m : MemStore) :
    feed readFrame (applySealed c t) (walFrame (some c) (r, nonce)) m =
      (none, (m.apply r.command t).2) := by
  have hread : ∀ p ∈ [(r, nonce)], p.1.Readable (some c) := by simpa using hr.readable (some c)
  have h := walReplay_flatMap (some c) hread t [] m
  simp only [walReplay, walEmpty, List.singleton_append, replayEncrypted_cons, List.flatMap_cons,
    List.flatMap_nil, List.append_nil] at h
  rw [h]
  rfl

/-- An encrypted log on which replay returns `nil` takes further records exactly if it ends
    behind a frame. -/
theorem encrypted_append_iff (c : AtRestCipher) (t : Int64) (file : Bytes) (m : MemStore)
    (h : (replayEncrypted c t file m).1 = none) :
    TakesRecords c t file m ↔ FrameAligned file := by
  rcases file with - | ⟨magic, body⟩
  · -- the magic byte is stamped when the file is opened
    refine iff_of_true (fun r nonce hr => ⟨_, rfl, ?_⟩) (.inl rfl)
    rw [List.singleton_append, replayEncrypted_cons, feed_walFrame c t hr]
    rfl
  · have hmagic : magic = walEncryptedMagic := by
      by_contra hne
      simp [replayEncrypted, hne] at h
    subst hmagic
    have hopen : openWal (some c) (walEncryptedMagic :: body) = .ok (walEncryptedMagic :: body) := by
      simp [openWal]
    rw [replayEncrypted_cons] at h
    obtain ⟨blobs, tail, hblobs, hbody, hstop, hgo⟩ :=
      feed_accepts readFrame_reader readFrame_eq_item_iff (Prod.ext h rfl)
    have hframe : ∀ p : Record × Nonce,
        replayEncrypted c t (walEncryptedMagic :: body ++ walFrame (some c) p) m =
          feed readFrame (applySealed c t) (tail ++ walFrame (some c) p)
            (feed readFrame (applySealed c t) body m).2 := by
      intro p
      rw [List.cons_append, replayEncrypted_cons]
      conv_lhs => rw [hbody, List.append_assoc]
      exact hgo _
    constructor
    · intro htakes
      have hnil : tail = [] := by
        by_contra hne
        obtain ⟨i, e, he⟩ := torn_tail_fails t (feed readFrame (applySealed c t) body m).2
          ((readFrame_eq_stop_iff c).mp hstop) hne
        obtain ⟨wal, hwal, hreplay⟩ := htakes .clear (probe i) (by simp [Record.Short, Record.fields])
        rw [hopen] at hwal
        cases hwal
        rw [hframe] at hreplay
        rw [hreplay] at he
        cases he
      exact .inr ⟨blobs, hblobs, by rw [hbody, hnil, List.append_nil]⟩
    · rintro (hfile | ⟨blobs', hblobs', hfile⟩) r nonce hr
      · cases hfile
      · have hnil : tail = [] := by
          have hcut : blobs.flatMap field ++ tail = blobs'.flatMap field ++ [] := by
            rw [← hbody, List.append_nil]
            exact (List.cons.inj hfile).2
          exact stop_unique readFrame_eq_item_iff hblobs hblobs' hcut hstop readFrame_reader.nil
        refine ⟨_, hopen, ?_⟩
        rw [hframe, hnil, List.nil_append, feed_walFrame c t hr, replayEncrypted_cons]

/-- `Put k 1`, `CAS k 1 2` and `Incr k`. -/
def casRecords : List (Record × Nonce) :=
  [(.put [107] [49], zeroNonce), (.cas [107] [49] [50], zeroNonce), (.incr [107], zeroNonce)]

/-- A log with records takes more of them. -/
theorem filled_log_takes_records :
    (replayEncrypted .tagged 0
        (walEmpty (some .tagged) ++ casRecords.flatMap (walFrame (some .tagged))) .new).2.cell [107] =
      some { value := [51] } ∧
    TakesRecords .tagged 0
      (walEmpty (some .tagged) ++ casRecords.flatMap (walFrame (some .tagged))) .new :=
  ⟨by decide +kernel, (encrypted_append_iff .tagged 0 _ .new (by decide +kernel)).mpr
    (.inr ⟨casRecords.map fun p => AtRestCipher.tagged.encrypt p.2 p.1.encode, by decide +kernel,
      by decide +kernel⟩)⟩

/-- One byte of the length of a record has reached the disk before a crash. Replay takes it for the
    end of the log; `Put k 1` behind it is acknowledged, and the next replay fails. -/
theorem append_behind_torn_length :
    (replayEncrypted .tagged 0 [walEncryptedMagic, 0] .new).1 = none ∧
      ¬ TakesRecords .tagged 0 [walEncryptedMagic, 0] .new := by
  refine ⟨by decide, fun h => ?_⟩
  obtain ⟨wal, hwal, hreplay⟩ := h (.put [107] [49]) zeroNonce (by simp [Record.Short, Record.fields])
  cases hwal
  have herr : (replayEncrypted .tagged 0
      ([walEncryptedMagic, 0] ++ walFrame (some .tagged) (.put [107] [49], zeroNonce)) .new).1 =
        some .decrypt := by decide
  rw [hreplay] at herr
  cases herr

/-! ## Encrypted and plaintext logs -/

/-- The log of the records, encrypted or not, replays without an error to the same store. -/
def LogsAgree (c : AtRestCipher) (t : Int64) (m : MemStore) (ps : List (Record × Nonce)) : Prop :=
  ∃ s, walReplay none t (walEmpty none ++ ps.flatMap (walFrame none)) m = (none, s) ∧
    walReplay (some c) t (walEmpty (some c) ++ ps.flatMap (walFrame (some c))) m = (none, s)

/-- The two logs of records whose strings are within `maxRecordField` replay alike exactly if
    the strings of every `CAS` fit together in a sealed record. -/
theorem encrypted_log_agrees_iff (c : AtRestCipher) (t : Int64) (m : MemStore)
    (ps : List (Record × Nonce)) (hb : ∀ p ∈ ps, p.1.Bounded) :
    LogsAgree c t m ps ↔ CasFits (some c) ps := by
  obtain ⟨hsmall, hread⟩ := all_readable_iff hb (some c)
  have hplain : ∀ p ∈ ps, p.1.Readable none := fun p hp => ⟨hb p hp, by simp⟩
  have hreplay := walReplay_flatMap none hplain t [] m
  rw [List.append_nil, List.append_nil, walReplay_walEmpty] at hreplay
  rw [← hread, LogsAgree]
  constructor
  · rintro ⟨s, -, hs⟩
    by_contra hbad
    obtain ⟨e, he⟩ := walReplay_flatMap_unreadable (some c) hsmall hbad t [] m
    rw [List.append_nil, hs] at he
    cases he
  · intro hall
    have hsealed := walReplay_flatMap (some c) hall t [] m
    rw [List.append_nil, List.append_nil, walReplay_walEmpty] at hsealed
    exact ⟨_, hreplay, hsealed⟩

/-- With a `CAS`. -/
theorem cas_logs_agree : LogsAgree .tagged 0 .new casRecords := by
  refine (encrypted_log_agrees_iff .tagged 0 .new _ (by decide)).mpr ?_
  intro _ key old new nonce hmem
  simp only [casRecords, List.mem_cons, Prod.mk.injEq, reduceCtorEq, false_and, Record.cas.injEq,
    List.not_mem_nil, or_false, false_or] at hmem
  obtain ⟨⟨rfl, rfl, rfl⟩, -⟩ := hmem
  decide

/-- A `CAS` of two strings of the largest size under a key of 24 bytes is within the bound of every
    field, and its sealed form is not read back. -/
theorem cas_disagrees {key s : Bytes} (hkey : key.length = 24) (hs : s.length = maxRecordField) :
    (Record.cas key s s).Bounded ∧ ¬ LogsAgree .tagged 0 .new [(.cas key s s, zeroNonce)] := by
  have hencode : (Record.cas key s s).encode.length = maxRecordField + maxRecordField + 37 := by
    simp [Record.encode, length_field, hkey, hs]
    omega
  have hsmall : (Record.cas key s s).Small := by
    rw [Record.Small, hencode]
    decide
  have hbad : ¬ (Record.cas key s s).Readable (some .tagged) := by
    rintro ⟨-, h⟩
    rw [hencode] at h
    exact absurd (h rfl) (by decide)
  refine ⟨?_, ?_⟩
  · simp only [Record.Bounded, Record.fields, List.forall_mem_cons, hkey, hs]
    exact ⟨by decide, le_refl _, le_refl _, by simp⟩
  · rintro ⟨m, -, hm⟩
    obtain ⟨e, he⟩ := walReplay_unreadable (some .tagged) (p := (.cas key s s, zeroNonce)) hsmall
      hbad 0 [] .new
    rw [List.append_nil] at he
    rw [List.flatMap_singleton, Prod.ext_iff, he] at hm
    cases hm.1

theorem large_cas_disagrees :
    (Record.cas (List.replicate 24 0) (List.replicate maxRecordField 0)
        (List.replicate maxRecordField 0)).Bounded ∧
      ¬ LogsAgree .tagged 0 .new
        [(.cas (List.replicate 24 0) (List.replicate maxRecordField 0)
          (List.replicate maxRecordField 0), zeroNonce)] :=
  cas_disagrees List.length_replicate List.length_replicate

end KvStore.Storage
