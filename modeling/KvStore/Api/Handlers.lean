import KvStore.Framing.JsonText
import KvStore.Storage.DiskStore
import KvStore.Storage.Scan

/-!
# The HTTP interface of a standalone server

Model of the handlers of `pkg/api/handlers.go` and of the middleware in front of them
(`pkg/api/middleware.go`, `pkg/api/server.go`) on the engine of a server without peers, the
`DiskStore`. No I/O of the store fails, so the branches for other errors of the engine and
for a node that is not the leader do not occur. Logging and the metrics are left out.

* A body is `none` if it cannot be read to its end.
* `io.ReadAll` behind `limitBody` fails on a body of more than `maxBodyBytes`.
* The JSON of a `CAS` is read by `JsonText.parse`.
-/

namespace KvStore.Api

open KvStore.Storage (Bytes Command DiskStore Nonce Err Value parseInt)

/-! ## Requests and responses -/

/-- The routes of `Handler` (pkg/api/server.go:6), with the parts of a request that they look at;
    an absent query parameter is empty. -/
inductive Request where
  | get (key : Bytes)
  | put (key : Bytes) (body : Option Bytes)
  | delete (key : Bytes)
  | expire (key ttl : Bytes)
  | incr (key : Bytes)
  | cas (key : Bytes) (body : Option Bytes)
  | scan (cursor count pattern : Bytes)

/-- The key in the path, which all routes but one have. -/
def Request.key? : Request → Option Bytes
  | .get key => some key
  | .put key _ => some key
  | .delete key => some key
  | .expire key _ => some key
  | .incr key => some key
  | .cas key _ => some key
  | .scan _ _ _ => none

/-- What is written into the response. -/
inductive Body where
  | empty
  /-- `http.Error` -/
  | text (message : String)
  /-- a JSON object with the member `error` -/
  | error (message : String)
  /-- a value as it is stored -/
  | value (value : Bytes)
  /-- a JSON object with the members `ok` and `key` -/
  | done (key : Bytes)
  /-- a JSON object with the members `key` and `value` -/
  | counter (key : Bytes) (value : ℤ)
  /-- a JSON object with the members `items` and `cursor` -/
  | page (items : List (Bytes × Bytes)) (cursor : Bytes)
  deriving DecidableEq

structure Response where
  status : ℕ
  body : Body
  deriving DecidableEq

/-- What a request takes from outside: the readings of a first `Get`, those of the operation,
    the reading a lifetime is added to, and the nonce of the record. -/
structure Env where
  peek : Int64 × Int64
  now : Int64
  later : Int64
  clock : Int64
  nonce : Nonce

/-! ## Middleware -/

/-- `maxBodyBytes` (pkg/api/middleware.go:11). -/
def maxBodyBytes : ℕ := 2 ^ 20

/-- A character of `keyPattern` (pkg/api/middleware.go:16). -/
def keyByte (b : UInt8) : Bool :=
  (97 ≤ b && b ≤ 122) || (65 ≤ b && b ≤ 90) || (48 ≤ b && b ≤ 57) || b = 58

/-- `keyPattern.MatchString`. -/
def keyMatches (key : Bytes) : Bool := key ≠ [] && key.all keyByte

/-- `io.ReadAll` behind `limitBody` (pkg/api/middleware.go:37), with the answers of the handlers to
    its two errors. -/
def readBody : Option Bytes → Except Response Bytes
  | none => .error ⟨400, .error "failed to read body"⟩
  | some body =>
    if maxBodyBytes < body.length then .error ⟨413, .text "request body too large"⟩ else .ok body

/-! ## Handlers -/

def notFound : Response := ⟨404, .text "key not found"⟩

/-- The answer to an error that the handler does not expect (pkg/api/handlers.go:46). -/
def internalError (e : Err) : Response :=
  ⟨500, .error (match e with
    | .notFound => "key not found"
    | .notNumeric => "value is not a base-10 integer"
    | .overflow => "value overflows int64"
    | .unknownOp => "storage: unexpected single op")⟩

/-- `handleGet` (pkg/api/handlers.go:39). -/
def handleGet (d : DiskStore) (key : Bytes) (env : Env) : Response × DiskStore :=
  match d.mem.get key env.now env.later with
  | (.ok value, m) => (⟨200, .value value⟩, { d with mem := m })
  | (.error .notFound, m) => (notFound, { d with mem := m })
  | (.error e, m) => (internalError e, { d with mem := m })

/-- The `Get` for the metrics that `handlePut` and `handleDelete` begin with. -/
def peek (d : DiskStore) (key : Bytes) (env : Env) : DiskStore :=
  { d with mem := (d.mem.get key env.peek.1 env.peek.2).2 }

/-- `handlePut` (pkg/api/handlers.go:73). -/
def handlePut (d : DiskStore) (key : Bytes) (body : Option Bytes) (env : Env) :
    Response × DiskStore :=
  match readBody body with
  | .error resp => (resp, d)
  | .ok value =>
    (⟨200, .done key⟩,
      (peek d key env).writeBatch [({ op := .put, key := key, value := value }, env.nonce)])

/-- `handleDelete` (pkg/api/handlers.go:101). -/
def handleDelete (d : DiskStore) (key : Bytes) (env : Env) : Response × DiskStore :=
  (⟨200, .empty⟩, (peek d key env).writeBatch [({ op := .delete, key := key }, env.nonce)])

/-- `maxTTL` (pkg/api/handlers.go:118) in nanoseconds. -/
def maxTTL : ℤ := 10 * 365 * 24 * 3600 * 1000000000

/-- `handleExpire` (pkg/api/handlers.go:120). -/
def handleExpire (d : DiskStore) (key ttl : Bytes) (env : Env) : Response × DiskStore :=
  if ttl = [] then (⟨400, .error "missing ttl query parameter"⟩, d)
  else
    match (parseInt ttl).filter fun n => 0 < n ∧ n ≤ maxTTL with
    | none => (⟨400, .error "ttl must be a positive duration in nanoseconds"⟩, d)
    | some n =>
      match d.writeSingle { op := .expire, key := key, expiresAt := env.clock + Int64.ofInt n }
        env.nonce env.now env.later with
      | (.ok _, d) => (⟨200, .done key⟩, d)
      | (.error .notFound, d) => (notFound, d)
      | (.error e, d) => (internalError e, d)

/-- `handleIncr` (pkg/api/handlers.go:150). -/
def handleIncr (d : DiskStore) (key : Bytes) (env : Env) : Response × DiskStore :=
  match d.writeSingle { op := .incr, key := key } env.nonce env.now env.later with
  | (.ok (.int v), d) => (⟨200, .counter key v⟩, d)
  -- `Incr` returns a number
  | (.ok _, d) => (⟨200, .empty⟩, d)
  | (.error .notNumeric, d) => (⟨422, .error "value is not a base-10 integer"⟩, d)
  | (.error .overflow, d) => (⟨422, .error "value overflows int64"⟩, d)
  | (.error e, d) => (internalError e, d)

/-- The two fields that `handleCAS` unmarshals (pkg/api/handlers.go:187); `none` is an error. A
    document that is `null` leaves both empty. -/
def casFields (body : Bytes) : Option (Bytes × Bytes) :=
  match JsonText.parse body with
  | some (.object members) => do
    -- `old` and `new`
    let old ← JsonText.stringField [111, 108, 100] members
    let new ← JsonText.stringField [110, 101, 119] members
    some (old, new)
  | some .null => some ([], [])
  | _ => none

/-- `handleCAS` (pkg/api/handlers.go:173). -/
def handleCAS (d : DiskStore) (key : Bytes) (body : Option Bytes) (env : Env) :
    Response × DiskStore :=
  match readBody body with
  | .error resp => (resp, d)
  | .ok text =>
    match casFields text with
    | none => (⟨400, .error "body must be JSON with old and new fields"⟩, d)
    | some (old, new) =>
      match d.writeSingle { op := .cas, key := key, old := old, value := new } env.nonce env.now
        env.later with
      | (.ok (.bool false), d) => (⟨409, .error "cas mismatch"⟩, d)
      | (.ok _, d) => (⟨200, .done key⟩, d)
      | (.error .notFound, d) => (notFound, d)
      | (.error e, d) => (internalError e, d)

def maxCursorLen : ℕ := 4096

def maxPatternLen : ℕ := 256

/-- The page size of `handleScan` (pkg/api/handlers.go:235); `none` is its error. -/
def scanCount (count : Bytes) : Option ℤ :=
  if count = [] then some 100 else (parseInt count).filter fun n => 1 ≤ n ∧ n ≤ 1000

/-- `handleScan` (pkg/api/handlers.go:225). -/
def handleScan (d : DiskStore) (cursor count pattern : Bytes) (env : Env) : Response × DiskStore :=
  if maxCursorLen < cursor.length then (⟨400, .error "cursor too long"⟩, d)
  else
    match scanCount count with
    | none => (⟨400, .error "count must be between 1 and 1000"⟩, d)
    | some n =>
      if maxPatternLen < pattern.length then (⟨400, .error "pattern too long"⟩, d)
      else
        match d.mem.scan cursor n pattern env.now with
        | none => (⟨500, .error "scan: count must be positive"⟩, d)
        | some (items, next) => (⟨200, .page items next⟩, d)

/-- The handlers behind `validateKey`. -/
def route (d : DiskStore) (req : Request) (env : Env) : Response × DiskStore :=
  match req with
  | .get key => handleGet d key env
  | .put key body => handlePut d key body env
  | .delete key => handleDelete d key env
  | .expire key ttl => handleExpire d key ttl env
  | .incr key => handleIncr d key env
  | .cas key body => handleCAS d key body env
  | .scan cursor count pattern => handleScan d cursor count pattern env

/-- `validateKey` (pkg/api/middleware.go:42) and the handlers behind it. -/
def serve (d : DiskStore) (req : Request) (env : Env) : Response × DiskStore :=
  if req.key?.all keyMatches then route d req env
  else (⟨400, .text "key must contain only alphanumeric characters"⟩, d)

/-! ## The JSON of a `CAS` -/

/-- The body of a `CAS` whose two strings are written without escapes. -/
def casText (old new : Bytes) : Bytes :=
  -- `{"old":"`, `","new":"` and `"}`
  [0x7B, 0x22, 0x6F, 0x6C, 0x64, 0x22, 0x3A, 0x22] ++ old ++
    0x22 :: ([0x2C, 0x22, 0x6E, 0x65, 0x77, 0x22, 0x3A, 0x22] ++ new ++ 0x22 :: [0x7D])

/-- The fields of such a body are its strings, with every ill-formed byte replaced by the three
    bytes of U+FFFD. -/
theorem casFields_casText {old new : Bytes} (hold : ∀ b ∈ old, JsonText.Plain b)
    (hnew : ∀ b ∈ new, JsonText.Plain b) :
    casFields (casText old new) = some (Utf8.repair old, Utf8.repair new) := by
  have hnameOld : ∀ b ∈ ([0x6F, 0x6C, 0x64] : Bytes), JsonText.Plain b := by simp [JsonText.Plain]
  have hnameNew : ∀ b ∈ ([0x6E, 0x65, 0x77] : Bytes), JsonText.Plain b := by simp [JsonText.Plain]
  have htext : casText old new = 0x7B :: 0x22 :: ([0x6F, 0x6C, 0x64] ++ 0x22 :: 0x3A :: 0x22 ::
      (old ++ 0x22 :: 0x2C :: 0x22 :: ([0x6E, 0x65, 0x77] ++ 0x22 :: 0x3A :: 0x22 ::
        (new ++ 0x22 :: 0x7D :: [])))) := by
    simp [casText]
  obtain ⟨n, hn⟩ : ∃ n, ([0x6F, 0x6C, 0x64] ++ 0x22 :: 0x3A :: 0x22 ::
      (old ++ 0x22 :: 0x2C :: 0x22 :: ([0x6E, 0x65, 0x77] ++ 0x22 :: 0x3A :: 0x22 ::
        (new ++ 0x22 :: 0x7D :: [])))).length = n + 1 := ⟨_, by simp; rfl⟩
  have hvalue : JsonText.value JsonText.maxNestingDepth (casText old new) = some (.object
      [([0x6F, 0x6C, 0x64], .string (Utf8.repair old)),
        ([0x6E, 0x65, 0x77], .string (Utf8.repair new))], []) := by
    rw [htext, show JsonText.maxNestingDepth = 9999 + 1 from rfl,
      JsonText.value_object (by decide) (by decide), hn,
      JsonText.members_plain hnameOld hold (by decide), if_pos rfl,
      JsonText.members_plain hnameNew hnew (by decide), if_neg (by decide), if_pos rfl]
    rfl
  rw [casFields, JsonText.parse, hvalue]
  rfl

/-- The fields are at most three times as long as the body. -/
theorem length_casFields {body old new : Bytes} (h : casFields body = some (old, new)) :
    old.length ≤ 3 * body.length ∧ new.length ≤ 3 * body.length := by
  unfold casFields at h
  split at h
  · next members hp =>
    obtain ⟨old', hold, h⟩ := Option.bind_eq_some_iff.mp h
    obtain ⟨new', hnew, h⟩ := Option.bind_eq_some_iff.mp h
    cases h
    exact ⟨JsonText.length_stringField hp hold, JsonText.length_stringField hp hnew⟩
  · cases h
    exact ⟨Nat.zero_le _, Nat.zero_le _⟩
  · cases h

end KvStore.Api
