import Mathlib

/-!
# Streams of self-delimiting records

A log file is a concatenation of encoded records. This file has what any such
format rests on:

* `bigEndian w n` and `ofBigEndian`: numbers in `w` bytes, most significant first
  (`ofBigEndian_bigEndian`).
* `feed read apply`: the loop that reads one record after the other and applies it,
  until the stream ends or something fails. `feed_flatMap` runs it over a
  concatenation of encodings.
* `feed_longest`: over a reader of exactly the good records it applies the longest list
  of them that the stream starts with.
* `whole` and `torn`: what a stream that was cut after `n` bytes still holds, the
  records it contains entirely and the piece of the next one (`take_flatMap`).
-/

namespace KvStore.Framing

/-! ## Numbers -/

/-- The `w` low bytes of `n`, most significant first. -/
def bigEndian : ℕ → ℕ → List UInt8
  | 0, _ => []
  | w + 1, n => bigEndian w (n / 256) ++ [n.toUInt8]

/-- The number with the given bytes, most significant first. -/
def ofBigEndian (bytes : List UInt8) : ℕ := bytes.foldl (fun n b => 256 * n + b.toNat) 0

@[simp] theorem length_bigEndian (w n : ℕ) : (bigEndian w n).length = w := by
  induction w generalizing n with
  | zero => rfl
  | succ w ih => simp [bigEndian, ih]

theorem ofBigEndian_bigEndian (w n : ℕ) : ofBigEndian (bigEndian w n) = n % 256 ^ w := by
  induction w generalizing n with
  | zero => simp [bigEndian, ofBigEndian, Nat.mod_one]
  | succ w ih =>
    have h := ih (n / 256)
    rw [ofBigEndian] at h ⊢
    rw [bigEndian, List.foldl_append, h, pow_succ', Nat.mod_mul]
    simp
    omega

theorem bigEndian_ofBigEndian (bytes : List UInt8) :
    bigEndian bytes.length (ofBigEndian bytes) = bytes := by
  induction bytes using List.reverseRecOn with
  | nil => rfl
  | append_singleton l b ih =>
    have hb := b.toNat_lt
    have hof : ofBigEndian (l ++ [b]) = 256 * ofBigEndian l + b.toNat := by simp [ofBigEndian]
    have hdiv : (256 * ofBigEndian l + b.toNat) / 256 = ofBigEndian l := by omega
    have hlow : (256 * ofBigEndian l + b.toNat).toUInt8 = b := by
      apply UInt8.toNat_inj.mp
      simp
    rw [List.length_append, List.length_singleton, bigEndian, hof, hdiv, ih, hlow]

theorem ofBigEndian_bigEndian_of_lt {w n : ℕ} (h : n < 256 ^ w) :
    ofBigEndian (bigEndian w n) = n := by
  rw [ofBigEndian_bigEndian, Nat.mod_eq_of_lt h]

theorem ofBigEndian_lt (bytes : List UInt8) : ofBigEndian bytes < 256 ^ bytes.length := by
  have h := ofBigEndian_bigEndian bytes.length (ofBigEndian bytes)
  rw [bigEndian_ofBigEndian] at h
  rw [h]
  exact Nat.mod_lt _ (by positivity)

/-! ## The reading loop -/

/-- What a reader finds at the head of a stream: nothing more to read, a record and
    the bytes behind it, or an error. -/
inductive Read (B R E : Type) where
  | stop
  | item (r : R) (rest : List B)
  | fail (e : E)

variable {B R E S : Type}

/-- The loop with a bound on the number of records. -/
def consume (read : List B → Read B R E) (apply : R → S → Option E × S) :
    ℕ → List B → S → Option E × S
  | 0, _, s => (none, s)
  | n + 1, bytes, s =>
    match read bytes with
    | .stop => (none, s)
    | .fail e => (some e, s)
    | .item r rest =>
      match apply r s with
      | (some e, s') => (some e, s')
      | (none, s') => consume read apply n rest s'

/-- Read records from `bytes` and apply them to `s` until the stream stops or
    something fails; every record takes a byte at least, so the length of the stream
    bounds the loop. -/
def feed (read : List B → Read B R E) (apply : R → S → Option E × S) (bytes : List B) (s : S) :
    Option E × S := consume read apply bytes.length bytes s

/-- The reader of a stream: it stops at the end and consumes with every record. -/
structure Reader (read : List B → Read B R E) : Prop where
  nil : read [] = .stop
  progress : ∀ {bytes : List B} {r : R} {rest : List B},
    read bytes = .item r rest → rest.length < bytes.length

section Feed

variable {read : List B → Read B R E} {apply : R → S → Option E × S}

/-- More fuel than bytes changes nothing. -/
theorem consume_eq_feed (hr : Reader read) {n : ℕ} {bytes : List B} (h : bytes.length ≤ n) (s : S) :
    consume read apply n bytes s = feed read apply bytes s := by
  unfold feed
  induction hl : bytes.length using Nat.strong_induction_on generalizing n bytes s with
  | _ l ih =>
    rcases n with - | n
    · obtain rfl : l = 0 := by omega
      rfl
    · rcases l with - | l
      · obtain rfl : bytes = [] := List.length_eq_zero_iff.mp hl
        simp only [consume, hr.nil]
      · simp only [consume]
        cases hread : read bytes with
        | stop => rfl
        | fail e => rfl
        | item r rest =>
          have hlt := hr.progress hread
          dsimp only
          rcases apply r s with ⟨- | e, s'⟩
          · dsimp only
            rw [ih rest.length (by omega) (by omega) s' rfl]
            exact (ih rest.length (by omega) (n := l) (by omega) s' rfl).symm
          · rfl

theorem feed_nil (s : S) : feed read apply [] s = (none, s) := rfl

theorem feed_stop {bytes : List B} (h : read bytes = .stop) (s : S) :
    feed read apply bytes s = (none, s) := by
  rcases bytes with - | ⟨b, bytes⟩
  · rfl
  · simp only [feed, List.length_cons, consume, h]

theorem feed_fail {bytes : List B} {e : E} (hr : Reader read) (h : read bytes = .fail e) (s : S) :
    feed read apply bytes s = (some e, s) := by
  rcases bytes with - | ⟨b, bytes⟩
  · rw [hr.nil] at h; cases h
  · simp only [feed, List.length_cons, consume, h]

theorem feed_item (hr : Reader read) {bytes rest : List B} {r : R} (h : read bytes = .item r rest)
    (s : S) : feed read apply bytes s =
      match apply r s with
      | (some e, s') => (some e, s')
      | (none, s') => feed read apply rest s' := by
  have hlt := hr.progress h
  rcases bytes with - | ⟨b, bytes⟩
  · simp at hlt
  · simp only [feed, List.length_cons, consume, h] at hlt ⊢
    rcases apply r s with ⟨- | e, s'⟩
    · exact consume_eq_feed hr (by omega) s'
    · rfl

variable (read) in
/-- Two ways of applying the records that keep a relation between their states end in
    related states, with the same error. -/
theorem feed_rel {S' : Type} {apply' : R → S' → Option E × S'} {rel : S → S' → Prop}
    (hstep : ∀ r s s', rel s s' →
      (apply r s).1 = (apply' r s').1 ∧ rel (apply r s).2 (apply' r s').2)
    (bytes : List B) {s : S} {s' : S'} (h : rel s s') :
    (feed read apply bytes s).1 = (feed read apply' bytes s').1 ∧
      rel (feed read apply bytes s).2 (feed read apply' bytes s').2 := by
  unfold feed
  generalize bytes.length = n
  induction n generalizing bytes s s' with
  | zero => exact ⟨rfl, h⟩
  | succ n ih =>
    simp only [consume]
    cases read bytes with
    | stop => exact ⟨rfl, h⟩
    | fail e => exact ⟨rfl, h⟩
    | item r rest =>
      obtain ⟨herr, hrel⟩ := hstep r s s' h
      dsimp only
      generalize apply r s = p at herr hrel ⊢
      generalize apply' r s' = p' at herr hrel ⊢
      obtain ⟨err, s₁⟩ := p
      obtain ⟨err', s₁'⟩ := p'
      obtain rfl : err = err' := herr
      cases err with
      | none => exact ih rest hrel
      | some e => exact ⟨rfl, hrel⟩

/-- Reading a concatenation of encodings applies the records in order and goes on
    with what follows; `g a` is what the reader returns for `enc a`. -/
theorem feed_flatMap (hr : Reader read) {A : Type} {enc : A → List B} {g : A → R}
    {f : A → S → S} {as : List A}
    (hread : ∀ a ∈ as, ∀ rest, read (enc a ++ rest) = .item (g a) rest)
    (happly : ∀ a ∈ as, ∀ s, apply (g a) s = (none, f a s)) (tail : List B) (s : S) :
    feed read apply (as.flatMap enc ++ tail) s =
      feed read apply tail (as.foldl (fun s a => f a s) s) := by
  induction as generalizing s with
  | nil => rfl
  | cons a as ih =>
    have hmem : a ∈ a :: as := List.mem_cons_self
    rw [List.flatMap_cons, List.append_assoc, feed_item hr (hread a hmem _), happly a hmem]
    exact ih (fun a' ha' => hread a' (List.mem_cons_of_mem _ ha'))
      (fun a' ha' => happly a' (List.mem_cons_of_mem _ ha')) _

end Feed

/-! ## Grammars -/

section Grammar

variable (enc : R → List B) (good : R → Prop)

/-- The stream starts with the encodings of the records `rs`, all of them good. -/
structure StartsWith (rs : List R) (bytes : List B) : Prop where
  good : ∀ r ∈ rs, good r
  encoded : ∃ rest, bytes = rs.flatMap enc ++ rest

/-- `rs` is the longest list of good records that the stream starts with. -/
def Longest (rs : List R) (bytes : List B) : Prop :=
  StartsWith enc good rs bytes ∧ ∀ rs', StartsWith enc good rs' bytes → rs'.length ≤ rs.length

variable {enc good} {read : List B → Read B R E} {apply : R → S → Option E × S} {f : R → S → S}

/-- A reader of exactly the good records finds the first record of every such list. -/
theorem StartsWith.read_eq
    (hitem : ∀ {bytes r rest}, read bytes = .item r rest ↔ good r ∧ bytes = enc r ++ rest)
    {r : R} {rs : List R} {bytes : List B} (h : StartsWith enc good (r :: rs) bytes) :
    ∃ rest, read bytes = .item r rest ∧ StartsWith enc good rs rest := by
  obtain ⟨hgood, tail, rfl⟩ := h
  rw [List.flatMap_cons, List.append_assoc]
  have hmem : ∀ r' ∈ rs, good r' := fun r' hr' => hgood r' (List.mem_cons_of_mem _ hr')
  exact ⟨_, hitem.mpr ⟨hgood r List.mem_cons_self, rfl⟩, hmem, tail, rfl⟩

/-- The loop over a reader of exactly the good records applies the longest list of them
    that the stream starts with, and succeeds when nothing follows it. -/
theorem feed_longest (hr : Reader read)
    (hitem : ∀ {bytes r rest}, read bytes = .item r rest ↔ good r ∧ bytes = enc r ++ rest)
    (hstop : ∀ {bytes}, read bytes = .stop → bytes = [])
    (happly : ∀ r s, good r → apply r s = (none, f r s)) (bytes : List B) (s : S) :
    ∃ rs, StartsWith enc good rs bytes ∧ (∀ rs', StartsWith enc good rs' bytes → rs' <+: rs) ∧
      (feed read apply bytes s).2 = rs.foldl (fun s r => f r s) s ∧
      ((feed read apply bytes s).1 = none ↔ rs.flatMap enc = bytes) := by
  -- induction on the stream: the first record is the first one of every such list
  induction hl : bytes.length using Nat.strong_induction_on generalizing bytes s with
  | _ l ih =>
    have hempty : StartsWith enc good [] bytes := ⟨by simp, bytes, rfl⟩
    have hnone : (∀ r rest, read bytes ≠ .item r rest) →
        ∀ rs', StartsWith enc good rs' bytes → rs' <+: [] := by
      intro hno rs' h'
      rcases rs' with - | ⟨r', rs'⟩
      · exact List.prefix_rfl
      · obtain ⟨rest, hread, -⟩ := h'.read_eq hitem
        exact absurd hread (hno r' rest)
    cases hread : read bytes with
    | stop =>
      refine ⟨[], hempty, hnone (by simp [hread]), ?_⟩
      rw [feed_stop hread]
      simp [hstop hread]
    | fail e =>
      have hne : bytes ≠ [] := by
        rintro rfl
        rw [hr.nil] at hread
        cases hread
      refine ⟨[], hempty, hnone (by simp [hread]), ?_⟩
      rw [feed_fail hr hread]
      simpa using hne.symm
    | item r rest =>
      obtain ⟨hgood, heq⟩ := hitem.mp hread
      obtain ⟨rs, ⟨hrs, tail, htail⟩, hmax, hstate, herr⟩ :=
        ih rest.length (by rw [← hl]; exact hr.progress hread) rest (f r s) rfl
      refine ⟨r :: rs, ⟨?_, tail, ?_⟩, fun rs' h' => ?_, ?_, ?_⟩
      · exact List.forall_mem_cons.mpr ⟨hgood, hrs⟩
      · rw [heq, htail, List.flatMap_cons, List.append_assoc]
      · rcases rs' with - | ⟨r', rs'⟩
        · exact List.nil_prefix
        · obtain ⟨rest', hread', h''⟩ := h'.read_eq hitem
          rw [hread] at hread'
          cases hread'
          exact (List.prefix_cons_inj r).mpr (hmax rs' h'')
      · rw [feed_item hr hread, happly r s hgood]
        exact hstate
      · rw [feed_item hr hread, happly r s hgood, heq, List.flatMap_cons, List.append_cancel_left_eq]
        exact herr

/-- A stream that the loop accepts is a list of records and a tail at which the reader stops.
    With anything else in place of the tail the loop goes on from there. -/
theorem feed_accepts (hr : Reader read)
    (hitem : ∀ {bytes r rest}, read bytes = .item r rest ↔ good r ∧ bytes = enc r ++ rest)
    {bytes : List B} {s s' : S} (h : feed read apply bytes s = (none, s')) :
    ∃ (rs : List R) (tail : List B), (∀ r ∈ rs, good r) ∧ bytes = rs.flatMap enc ++ tail ∧
      read tail = .stop ∧
      ∀ x, feed read apply (rs.flatMap enc ++ x) s = feed read apply x s' := by
  induction hl : bytes.length using Nat.strong_induction_on generalizing bytes s with
  | _ l ih =>
    cases hread : read bytes with
    | stop =>
      rw [feed_stop hread] at h
      cases h
      exact ⟨[], bytes, by simp, rfl, hread, fun x => rfl⟩
    | fail e =>
      rw [feed_fail hr hread] at h
      cases h
    | item r rest =>
      obtain ⟨hgood, heq⟩ := hitem.mp hread
      rw [feed_item hr hread] at h
      rcases happ : apply r s with ⟨- | e, s₁⟩
      · rw [happ] at h
        obtain ⟨rs, tail, hrs, htail, hstop, hgo⟩ :=
          ih rest.length (by rw [← hl]; exact hr.progress hread) h rfl
        refine ⟨r :: rs, tail, List.forall_mem_cons.mpr ⟨hgood, hrs⟩, ?_, hstop, fun x => ?_⟩
        · rw [heq, htail, List.flatMap_cons, List.append_assoc]
        · have hfirst : read ((r :: rs).flatMap enc ++ x) = .item r (rs.flatMap enc ++ x) := by
            rw [List.flatMap_cons, List.append_assoc]
            exact hitem.mpr ⟨hgood, rfl⟩
          rw [feed_item hr hfirst, happ]
          exact hgo x
      · rw [happ] at h
        cases h

/-- Where the reader stops does not depend on how the stream is cut into records. -/
theorem stop_unique
    (hitem : ∀ {bytes r rest}, read bytes = .item r rest ↔ good r ∧ bytes = enc r ++ rest)
    {rs rs' : List R} {tail tail' : List B} (hrs : ∀ r ∈ rs, good r) (hrs' : ∀ r ∈ rs', good r)
    (h : rs.flatMap enc ++ tail = rs'.flatMap enc ++ tail') (hstop : read tail = .stop)
    (hstop' : read tail' = .stop) : tail = tail' := by
  have hcons : ∀ {r : R} {rs : List R} {x : List B}, (∀ r' ∈ r :: rs, good r') →
      read ((r :: rs).flatMap enc ++ x) = .item r (rs.flatMap enc ++ x) := by
    intro r rs x hgood
    rw [List.flatMap_cons, List.append_assoc]
    exact hitem.mpr ⟨hgood r List.mem_cons_self, rfl⟩
  induction rs generalizing rs' with
  | nil =>
    rcases rs' with - | ⟨r', rs'⟩
    · exact h
    · have hread := hcons hrs' (x := tail')
      rw [← h, List.flatMap_nil, List.nil_append, hstop] at hread
      cases hread
  | cons r rs ih =>
    have hread := hcons hrs (x := tail)
    rcases rs' with - | ⟨r', rs'⟩
    · rw [h, List.flatMap_nil, List.nil_append, hstop'] at hread
      cases hread
    · rw [h, hcons hrs'] at hread
      injection hread with hr hrest
      exact ih (fun r' hr' => hrs r' (List.mem_cons_of_mem _ hr'))
        (fun r' hr' => hrs' r' (List.mem_cons_of_mem _ hr')) hrest.symm

/-- There is one longest list at most, if all such lists are initial pieces of one. -/
theorem Longest.eq {rs rs' : List R} {bytes : List B} (h : Longest enc good rs' bytes)
    (hrs : StartsWith enc good rs bytes)
    (hmax : ∀ rs', StartsWith enc good rs' bytes → rs' <+: rs) : rs' = rs :=
  (hmax rs' h.1).eq_of_length_le (h.2 rs hrs)

end Grammar

/-! ## Cuts -/

section Cut

variable (enc : R → List B)

/-- The records that lie entirely in the first `n` bytes of the stream. -/
def whole : List R → ℕ → List R
  | [], _ => []
  | r :: rs, n => if (enc r).length ≤ n then r :: whole rs (n - (enc r).length) else []

/-- The piece of the next record that the first `n` bytes end with. -/
def torn : List R → ℕ → List B
  | [], _ => []
  | r :: rs, n => if (enc r).length ≤ n then torn rs (n - (enc r).length) else (enc r).take n

theorem take_flatMap (rs : List R) (n : ℕ) :
    (rs.flatMap enc).take n = (whole enc rs n).flatMap enc ++ torn enc rs n := by
  induction rs generalizing n with
  | nil => simp [whole, torn]
  | cons r rs ih =>
    rw [List.flatMap_cons, List.take_append]
    unfold whole torn
    split_ifs with h
    · rw [ih, List.take_of_length_le h, List.flatMap_cons, List.append_assoc]
    · have : n - (enc r).length = 0 := by omega
      simp [this]

theorem whole_subset (rs : List R) (n : ℕ) : ∀ r ∈ whole enc rs n, r ∈ rs := by
  induction rs generalizing n with
  | nil => simp [whole]
  | cons r rs ih =>
    intro r' hr'
    unfold whole at hr'
    split_ifs at hr' with h
    · rcases List.mem_cons.mp hr' with rfl | hr'
      · exact List.mem_cons_self
      · exact List.mem_cons_of_mem _ (ih _ r' hr')
    · cases hr'

/-- The torn piece is empty or a proper piece of the encoding of some record. -/
theorem torn_cases (rs : List R) (n : ℕ) :
    torn enc rs n = [] ∨
      ∃ r ∈ rs, ∃ j, 0 < j ∧ j < (enc r).length ∧ torn enc rs n = (enc r).take j := by
  induction rs generalizing n with
  | nil => exact .inl rfl
  | cons r rs ih =>
    unfold torn
    split_ifs with h
    · rcases ih (n - (enc r).length) with h0 | ⟨r', hr', j, hj⟩
      · exact .inl h0
      · exact .inr ⟨r', List.mem_cons_of_mem _ hr', j, hj⟩
    · rcases Nat.eq_zero_or_pos n with rfl | hn
      · exact .inl (List.take_zero)
      · exact .inr ⟨r, List.mem_cons_self, n, hn, by omega, rfl⟩

end Cut

end KvStore.Framing
