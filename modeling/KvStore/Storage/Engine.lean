import Mathlib

/-!
# The storage contract

Types shared by the storage engines and by raft (`pkg/storage/engine.go`).

* A Go `string` is a byte string, `Bytes := List UInt8`: the WAL, the HTTP body
  and the map keys are all raw bytes.
* `int64` deadlines are Lean `Int64`; the value of a counter is an `ℤ` that
  `parseInt` keeps inside the `int64` range.
* A call `(any, error)` of the source is `Except Err Value`.
-/

namespace KvStore.Storage

/-- A Go `string` or `[]byte`. -/
abbrev Bytes := List UInt8

/-- `Op` (pkg/storage/engine.go:58). The wire type is `uint8`, so a decoded
    command may carry a code outside the enumeration. -/
inductive Op where
  | put
  | delete
  | clear
  | incr
  | cas
  | expire
  | other (code : UInt8)
  deriving DecidableEq, Repr

/-- `Command` (pkg/storage/engine.go:75), the mutation a log entry carries. -/
structure Command where
  op : Op
  key : Bytes
  old : Bytes := []
  value : Bytes := []
  expiresAt : Int64 := 0
  deriving DecidableEq, Repr

/-- The errors of `Engine` that the modelled operations return
    (pkg/storage/engine.go:41), and the one of `applyCmd` for an unknown
    operation (pkg/raft/leader.go:355). -/
inductive Err where
  | notFound
  | notNumeric
  | overflow
  | unknownOp
  deriving DecidableEq, Repr

/-- The `any` an operation returns beside its error: nothing, the new counter
    of `Incr`, or the outcome of `CAS`. -/
inductive Value where
  | none
  | int (v : ℤ)
  | bool (b : Bool)
  deriving DecidableEq, Repr

end KvStore.Storage
