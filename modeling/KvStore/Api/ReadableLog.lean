import KvStore.Api.Handlers
import KvStore.Storage.GroupCommit

/-!
# Requests and the log they leave

`maxRecordField` (pkg/storage/wal.go:33) is the size of a string that replay accepts, and the
HTTP layer rejects bodies above that size. A body is no string of a record, though: the JSON
decoder replaces every ill-formed byte by three bytes, so a `CAS` of an accepted size may be
logged with a string that replay rejects.

* `serve_logs`: what a request appends to the log, and when replay takes it back.
* `log_readable_iff`: after any sequence of requests, sweeps and compactions the log can be
  replayed exactly when every `CAS` that has swapped since the last compaction fits.
-/

namespace KvStore.Api

open KvStore.Storage

/-! ## Runs -/

/-- What happens to the store of a running server. -/
inductive Event where
  | request (req : Request) (env : Env)
  /-- `expireLoop` -/
  | sweep (now : Int64)
  /-- `snapshotLoop` -/
  | compact

def step (d : DiskStore) : Event → DiskStore
  | .request req env => (serve d req env).2
  | .sweep now => d.step (.sweep now)
  | .compact => d.step .compact

def run (d : DiskStore) (events : List Event) : DiskStore := events.foldl step d

/-- Replay of the log returns no error, at any reading and over any snapshot. -/
def LogReadable (d : DiskStore) : Prop :=
  ∀ t m, (walReplay d.cipher t d.wal m).1 = none

/-- A `CAS` that passes the checks and finds its `old` has strings that replay accepts. -/
def CasFits (d : DiskStore) : Event → Prop
  | .request (.cas key (some body)) env =>
    keyMatches key = true → body.length ≤ maxBodyBytes →
      ∀ old new, casFields body = some (old, new) →
        (d.mem.get key env.now env.later).1 = .ok old →
        old.length ≤ maxRecordField ∧ new.length ≤ maxRecordField
  | _ => True

/-- Every event since the last compaction fits. -/
def AllFit (d : DiskStore) (events : List Event) : Prop :=
  ∀ before e after, events = before ++ e :: after → Event.compact ∉ after → CasFits (run d before) e

theorem run_concat (d : DiskStore) (events : List Event) (e : Event) :
    run d (events ++ [e]) = step (run d events) e := by
  simp [run]

theorem allFit_compact (d : DiskStore) (events : List Event) :
    AllFit d (events ++ [.compact]) := by
  intro before e after h hafter
  rcases List.eq_nil_or_concat after with rfl | ⟨after', last, rfl⟩
  · obtain ⟨-, h⟩ := List.append_inj' h rfl
    cases h
    exact trivial
  · rw [List.concat_eq_append, ← List.cons_append, ← List.append_assoc] at h
    obtain ⟨-, h⟩ := List.append_inj' h rfl
    cases h
    simp at hafter

theorem allFit_concat {d : DiskStore} {events : List Event} {e : Event} (he : e ≠ .compact) :
    AllFit d (events ++ [e]) ↔ AllFit d events ∧ CasFits (run d events) e := by
  constructor
  · intro h
    refine ⟨fun before e' after heq hafter => ?_, h events e [] rfl (by simp)⟩
    refine h before e' (after ++ [e]) (by simp [heq]) ?_
    simp [hafter, he.symm]
  · rintro ⟨h, hlast⟩ before e' after heq hafter
    rcases List.eq_nil_or_concat after with rfl | ⟨after', last, rfl⟩
    · obtain ⟨hbefore, he'⟩ := List.append_inj' heq rfl
      cases he'
      rw [← hbefore]
      exact hlast
    · rw [List.concat_eq_append] at heq hafter
      rw [← List.cons_append, ← List.append_assoc] at heq
      obtain ⟨heq, -⟩ := List.append_inj' heq rfl
      exact h before e' after' heq fun hmem => hafter (by simp [hmem])

/-! ## What a request appends -/

/-- The store has appended these records; replay of a plaintext log takes them back exactly if
    `fits`. -/
structure Logs (d d' : DiskStore) (fits : Prop) (ps : List (Record × Nonce)) : Prop where
  cipher : d'.cipher = d.cipher
  wal : d'.wal = d.wal ++ ps.flatMap (walFrame d.cipher)
  small : ∀ p ∈ ps, p.1.Small
  readable : (∀ p ∈ ps, p.1.Readable none) ↔ fits

variable {d d' : DiskStore}

theorem logs_nothing (hcipher : d'.cipher = d.cipher) (hwal : d'.wal = d.wal) :
    Logs d d' True [] :=
  ⟨hcipher, by simp [hwal], by simp, by simp⟩

/-- A record within the bounds is taken back. -/
theorem logs_bounded {r : Record} {nonce : Nonce} (hb : r.Bounded) (hcipher : d'.cipher = d.cipher)
    (hwal : d'.wal = d.wal ++ walFrame d.cipher (r, nonce)) : Logs d d' True [(r, nonce)] where
  cipher := hcipher
  wal := by simpa using hwal
  small := by simpa using (hb.readable_iff none).1
  readable := by simpa using (hb.readable_iff none).2.mpr (by simp)

/-- A bound on the keys of the requests that is assumed here. `validateKey` looks at the characters
    of a key and not at its length. -/
def maxKeyLen : ℕ := 1000

theorem logs_cas {key old new : Bytes} (hkey : key.length ≤ maxKeyLen)
    (hold : old.length ≤ 3 * maxBodyBytes) (hnew : new.length ≤ 3 * maxBodyBytes) (nonce : Nonce)
    (now later : Int64) :
    ∃ ps, Logs d (d.writeSingle { op := .cas, key := key, old := old, value := new } nonce now
        later).2
      ((d.mem.get key now later).1 = .ok old →
        old.length ≤ maxRecordField ∧ new.length ≤ maxRecordField) ps := by
  have hfield : maxRecordField = 1048576 := by decide
  have hbody : maxBodyBytes = 1048576 := by decide
  have hmax : maxKeyLen = 1000 := rfl
  unfold DiskStore.writeSingle
  dsimp only
  rcases hget : d.mem.get key now later with ⟨res, m⟩
  cases res with
  | error e => exact ⟨[], rfl, by simp, by simp, by simp⟩
  | ok cur =>
    dsimp only
    by_cases hcur : cur = old
    · rw [if_neg (not_not.mpr hcur)]
      refine ⟨[(.cas key old new, nonce)], rfl, by simp [DiskStore.append], ?_, ?_⟩
      · simp only [List.mem_singleton, forall_eq, Record.Small, Record.encode, List.length_cons,
          List.length_append, length_field]
        omega
      · simp only [List.mem_singleton, forall_eq, Record.Readable, Record.Bounded, Record.fields,
          List.forall_mem_cons, hcur, forall_const]
        simp
        omega
    · rw [if_pos hcur]
      exact ⟨[], rfl, by simp, by simp, by simp [hcur]⟩

theorem logs_expire {key : Bytes} (hkey : key.length ≤ maxRecordField) (expiresAt : Int64)
    (nonce : Nonce) (now later : Int64) :
    ∃ ps, Logs d (d.writeSingle { op := .expire, key := key, expiresAt := expiresAt } nonce now
        later).2 True ps := by
  unfold DiskStore.writeSingle
  dsimp only
  rcases d.mem.get key now later with ⟨e | cur, m⟩
  · exact ⟨[], logs_nothing rfl rfl⟩
  · refine ⟨[(.expire key expiresAt, nonce)], logs_bounded ?_ rfl rfl⟩
    simp [Record.Bounded, Record.fields, hkey]

theorem handleCAS_store {key text old new : Bytes} {env : Env} (hlen : text.length ≤ maxBodyBytes)
    (hfields : casFields text = some (old, new)) :
    (handleCAS d key (some text) env).2 =
      (d.writeSingle { op := .cas, key := key, old := old, value := new } env.nonce env.now
        env.later).2 := by
  rw [handleCAS, readBody, if_neg (not_lt.mpr hlen)]
  dsimp only
  rw [hfields]
  dsimp only
  rcases d.writeSingle { op := .cas, key := key, old := old, value := new } env.nonce env.now
    env.later with ⟨(_ | _ | _ | _) | (_ | _ | (_ | _)), d'⟩ <;> rfl

theorem handleExpire_store (d : DiskStore) (key ttl : Bytes) (env : Env) :
    (handleExpire d key ttl env).2 = d ∨ ∃ expiresAt, (handleExpire d key ttl env).2 =
      (d.writeSingle { op := .expire, key := key, expiresAt := expiresAt } env.nonce env.now
        env.later).2 := by
  unfold handleExpire
  split_ifs
  · exact .inl rfl
  · split
    · exact .inl rfl
    · next n _ =>
      refine .inr ⟨env.clock + Int64.ofInt n, ?_⟩
      rcases d.writeSingle { op := .expire, key := key, expiresAt := env.clock + Int64.ofInt n }
        env.nonce env.now env.later with ⟨(_ | _ | _ | _) | v, d'⟩ <;> rfl

theorem handleIncr_store {key : Bytes} {env : Env} :
    (handleIncr d key env).2 =
      (d.writeSingle { op := .incr, key := key } env.nonce env.now env.later).2 := by
  unfold handleIncr
  rcases d.writeSingle { op := .incr, key := key } env.nonce env.now env.later with
    ⟨(_ | _ | _ | _) | (_ | _ | _), d'⟩ <;> rfl

theorem handleScan_store {cursor count pattern : Bytes} {env : Env} :
    (handleScan d cursor count pattern env).2 = d := by
  unfold handleScan
  split_ifs
  · rfl
  · split <;> rfl
  · split
    · rfl
    · split <;> rfl

theorem handleGet_store {key : Bytes} {env : Env} :
    (handleGet d key env).2 = { d with mem := (d.mem.get key env.now env.later).2 } := by
  unfold handleGet
  rcases d.mem.get key env.now env.later with ⟨(_ | _ | _ | _) | v, m⟩ <;> rfl

/-! A key is within the bound of a record, and so is the body of a `PUT`. -/

theorem length_key {key : Bytes} (hkey : key.length ≤ maxKeyLen) : key.length ≤ maxRecordField :=
  hkey.trans (by decide)

theorem handlePut_logs {key : Bytes} (hkey : key.length ≤ maxKeyLen) (body : Option Bytes)
    (env : Env) : ∃ ps, Logs d (handlePut d key body env).2 True ps := by
  rw [handlePut]
  rcases body with - | body
  · exact ⟨[], logs_nothing rfl rfl⟩
  · rw [readBody]
    split_ifs with hlen
    · exact ⟨[], logs_nothing rfl rfl⟩
    · have hvalue : body.length ≤ maxRecordField := (not_lt.mp hlen).trans (by decide)
      refine ⟨[(.put key body, env.nonce)], logs_bounded ?_ rfl rfl⟩
      simp [Record.Bounded, Record.fields, length_key hkey, hvalue]

/-- A `CAS` that is refused before it reaches the store. -/
theorem logs_refused {key : Bytes} {body : Option Bytes} {env : Env}
    (hstore : d' = d) (hfits : CasFits d (.request (.cas key body) env)) :
    Logs d d' (CasFits d (.request (.cas key body) env)) [] := by
  obtain rfl := hstore
  exact ⟨rfl, by simp, by simp, by simp [hfits]⟩

theorem handleCAS_logs {key : Bytes} (hkey : key.length ≤ maxKeyLen)
    (hvalid : keyMatches key = true) (body : Option Bytes) (env : Env) :
    ∃ ps, Logs d (handleCAS d key body env).2 (CasFits d (.request (.cas key body) env)) ps := by
  rcases body with - | body
  · exact ⟨[], logs_refused rfl trivial⟩
  by_cases hlen : body.length ≤ maxBodyBytes
  · cases hfields : casFields body with
    | none =>
      -- the body is no JSON with the two fields
      refine ⟨[], logs_refused ?_ (by simp [CasFits, hfields])⟩
      rw [handleCAS, readBody, if_neg (not_lt.mpr hlen)]
      dsimp only
      rw [hfields]
    | some fields =>
      obtain ⟨old, new⟩ := fields
      obtain ⟨hold, hnew⟩ := length_casFields hfields
      obtain ⟨ps, hps⟩ := logs_cas (d := d) hkey (hold.trans (by omega)) (hnew.trans (by omega))
        env.nonce env.now env.later
      rw [handleCAS_store hlen hfields]
      refine ⟨ps, hps.cipher, hps.wal, hps.small, hps.readable.trans ?_⟩
      simp [CasFits, hfields, hlen, hvalid]
  · refine ⟨[], logs_refused ?_ (by simp [CasFits, hlen])⟩
    rw [handleCAS, readBody, if_pos (not_le.mp hlen)]

/-- What a request appends to the log. -/
theorem serve_logs {req : Request} (env : Env) (hkey : ∀ key ∈ req.key?, key.length ≤ maxKeyLen) :
    ∃ ps, Logs d (serve d req env).2 (CasFits d (.request req env)) ps := by
  unfold serve
  split_ifs with hvalid
  · cases req with
    | get key =>
      rw [route, handleGet_store]
      exact ⟨[], logs_nothing rfl rfl⟩
    | put key body => exact handlePut_logs (hkey key rfl) body env
    | delete key =>
      refine ⟨[(.delete key, env.nonce)], logs_bounded ?_ rfl rfl⟩
      simp [Record.Bounded, Record.fields, length_key (hkey key rfl)]
    | expire key ttl =>
      rw [route]
      rcases handleExpire_store d key ttl env with h | ⟨_, h⟩
      · rw [h]
        exact ⟨[], logs_nothing rfl rfl⟩
      · rw [h]
        exact logs_expire (length_key (hkey key rfl)) _ _ _ _
    | incr key =>
      rw [route, handleIncr_store]
      refine ⟨[(.incr key, env.nonce)], logs_bounded ?_ rfl rfl⟩
      simp [Record.Bounded, Record.fields, length_key (hkey key rfl)]
    | cas key body => exact handleCAS_logs (hkey key rfl) hvalid body env
    | scan cursor count pattern =>
      rw [route, handleScan_store]
      exact ⟨[], logs_nothing rfl rfl⟩
  · -- the key is refused
    cases req with
    | cas key body =>
      have hkeyMatches : ¬ keyMatches key = true := hvalid
      exact ⟨[], logs_refused rfl (by cases body <;> simp [CasFits, hkeyMatches])⟩
    | _ => exact ⟨[], logs_nothing rfl rfl⟩

/-! ## The log of a run -/

/-- The store of a server without encryption whose log consists of whole records that replay
    accepts. A new store is one, and so is one that has been opened on such a directory. -/
structure WholeLog (d : DiskStore) : Prop where
  cipher : d.cipher = none
  wal : ∃ ps : List (Record × Nonce), d.wal = ps.flatMap (walFrame none) ∧
    ∀ p ∈ ps, p.1.Readable none

/-- Replay accepts a log of whole records exactly if it accepts each of them. -/
theorem logReadable_iff {ps : List (Record × Nonce)} (hcipher : d.cipher = none)
    (hwal : d.wal = ps.flatMap (walFrame none)) (hsmall : ∀ p ∈ ps, p.1.Small) :
    LogReadable d ↔ ∀ p ∈ ps, p.1.Readable none := by
  have hempty : walEmpty none = [] := rfl
  rw [LogReadable, hcipher, hwal]
  constructor
  · intro h
    by_contra hbad
    obtain ⟨e, he⟩ := walReplay_flatMap_unreadable none hsmall hbad 0 [] .new
    rw [hempty, List.nil_append, List.append_nil, h] at he
    cases he
  · intro h t m
    have hreplay := walReplay_flatMap none h t [] m
    rw [hempty, List.nil_append, List.append_nil, List.append_nil] at hreplay
    rw [hreplay]
    rfl

/-- The log of a run consists of whole records, and replay accepts them if all `CAS` since the
    last compaction fit. -/
theorem run_logs {events : List Event} (hd : WholeLog d)
    (hkeys : ∀ req env, .request req env ∈ events → ∀ key ∈ req.key?, key.length ≤ maxKeyLen) :
    ∃ ps : List (Record × Nonce), (run d events).cipher = none ∧
      (run d events).wal = ps.flatMap (walFrame none) ∧ (∀ p ∈ ps, p.1.Small) ∧
      ((∀ p ∈ ps, p.1.Readable none) ↔ AllFit d events) := by
  induction events using List.reverseRecOn with
  | nil =>
    obtain ⟨ps, hwal, hps⟩ := hd.wal
    refine ⟨ps, hd.cipher, hwal, fun p hp => ((hps p hp).1.readable_iff none).1, ?_⟩
    refine iff_of_true hps fun before e after h => ?_
    simp at h
  | append_singleton events e ih =>
    obtain ⟨ps, hcipher, hwal, hsmall, hread⟩ := ih fun req env hmem => hkeys req env (by simp [hmem])
    rw [run_concat]
    -- an event that appends some records
    have happend : e ≠ .compact → ∀ ps', Logs (run d events) (step (run d events) e)
        (CasFits (run d events) e) ps' → ∃ ps : List (Record × Nonce),
        (step (run d events) e).cipher = none ∧
        (step (run d events) e).wal = ps.flatMap (walFrame none) ∧ (∀ p ∈ ps, p.1.Small) ∧
        ((∀ p ∈ ps, p.1.Readable none) ↔ AllFit d (events ++ [e])) := by
      intro he ps' h
      refine ⟨ps ++ ps', h.cipher.trans hcipher, ?_, ?_, ?_⟩
      · rw [h.wal, hwal, hcipher, List.flatMap_append]
      · exact List.forall_mem_append.mpr ⟨hsmall, h.small⟩
      · rw [List.forall_mem_append, hread, h.readable, allFit_concat he]
    cases e with
    | request req env =>
      obtain ⟨ps', h⟩ := serve_logs (d := run d events) env (hkeys req env (by simp))
      exact happend (by simp) ps' h
    | sweep now => exact happend (by simp) [] (logs_nothing rfl rfl)
    | compact =>
      refine ⟨[], hcipher, ?_, by simp, iff_of_true (by simp) (allFit_compact d events)⟩
      show walEmpty (run d events).cipher = []
      rw [hcipher]
      rfl

/-- After any sequence of requests with keys of at most 1000 characters, and of sweeps and
    compactions in between, the log can be replayed exactly when every `CAS` that has swapped
    since the last compaction fits. -/
theorem log_readable_iff (d : DiskStore) (hd : WholeLog d) (events : List Event)
    (hkeys : ∀ req env, .request req env ∈ events → ∀ key ∈ req.key?, key.length ≤ maxKeyLen) :
    LogReadable (run d events) ↔ AllFit d events := by
  obtain ⟨ps, hcipher, hwal, hsmall, hread⟩ := run_logs hd hkeys
  exact (logReadable_iff hcipher hwal hsmall).trans hread

theorem wholeLog_new : WholeLog (.new none) := ⟨rfl, [], rfl, by simp⟩

/-- All readings zero. -/
def zeroEnv : Env := { peek := (0, 0), now := 0, later := 0, clock := 0, nonce := zeroNonce }

/-- `PUT k` with the body `value`, and a `CAS` of `k` with the given strings. -/
def putThenCas (value old new : Bytes) : List Event :=
  [.request (.put [107] (some value)) zeroEnv,
    .request (.cas [107] (some (casText old new))) zeroEnv]

theorem key_putThenCas (value old new : Bytes) :
    ∀ req env, .request req env ∈ putThenCas value old new →
      ∀ key ∈ req.key?, key.length ≤ maxKeyLen := by
  intro req env hmem key hkey
  simp only [putThenCas, List.mem_cons, Event.request.injEq, List.not_mem_nil, or_false] at hmem
  rcases hmem with ⟨rfl, -⟩ | ⟨rfl, -⟩ <;> cases hkey <;> decide

/-- A `CAS` whose body is a third of the bound fits. -/
theorem casFits_short {key body : Bytes} {env : Env} (h : 3 * body.length ≤ maxRecordField) :
    CasFits d (.request (.cas key (some body)) env) := by
  intro _ _ old new hfields _
  obtain ⟨hold, hnew⟩ := length_casFields hfields
  exact ⟨hold.trans h, hnew.trans h⟩

/-- `k` is set to 1 and swapped for 2. -/
theorem swap_readable : LogReadable (run (.new none) (putThenCas [49] [49] [50])) := by
  refine (log_readable_iff (.new none) wholeLog_new _ (key_putThenCas [49] [49] [50])).mpr ?_
  intro before e after h _
  have he : e ∈ putThenCas [49] [49] [50] := by simp [h]
  simp only [putThenCas, List.mem_cons, List.not_mem_nil, or_false] at he
  rcases he with rfl | rfl
  · exact trivial
  · exact casFits_short (by decide)

/-- An empty value is swapped for bytes that are not UTF-8, more than a third of the bound. -/
theorem ill_formed_swap_unreadable {n : ℕ} (hn : maxRecordField < 3 * n)
    (hbody : n + 19 ≤ maxBodyBytes) :
    ¬ LogReadable (run (.new none) (putThenCas [] [] (List.replicate n 0xFF))) := by
  obtain ⟨ps, hcipher, hwal, hsmall, hread⟩ :=
    run_logs wholeLog_new (key_putThenCas [] [] (List.replicate n 0xFF))
  rw [logReadable_iff hcipher hwal hsmall, hread]
  intro h
  have hplain : ∀ b ∈ List.replicate n (0xFF : UInt8), JsonText.Plain b := by
    intro b hb
    rw [List.eq_of_mem_replicate hb]
    simp [JsonText.Plain]
  have hfit := h [.request (.put [107] (some [])) zeroEnv]
    (.request (.cas [107] (some (casText [] (List.replicate n 0xFF)))) zeroEnv) [] rfl (by simp)
  have hlen : (casText [] (List.replicate n 0xFF)).length ≤ maxBodyBytes := by
    simp only [casText, List.length_append, List.length_cons, List.length_replicate,
      List.length_nil]
    omega
  obtain ⟨-, hnew⟩ := hfit (by decide) hlen [] (Utf8.repair (List.replicate n 0xFF))
    (casFields_casText (by simp) hplain) (by decide)
  rw [Utf8.length_repair_replicate] at hnew
  omega

/-- The body has 350,019 bytes and the string 1,050,000. -/
theorem large_swap_unreadable :
    ¬ LogReadable (run (.new none) (putThenCas [] [] (List.replicate 350000 0xFF))) :=
  ill_formed_swap_unreadable (by decide) (by decide)

end KvStore.Api
