import Istos.Codec.Json
import Istos.Codec.Base64
import Mathlib.Order.Defs.LinearOrder

/-!
# The durability ledger

`LedgerOp` is a call of `StoragePlugin`, and `InMemoryStorage` is `InMemoryStoragePlugin`: each of
its calls holds one lock from its start to its end.  A value is JSON or bytes, and `None` is the
JSON `null`.

A call reads clocks: `Clock` has a reading of each of them, so that the three backends can be asked
the same.
-/

namespace Istos

/-- A value of a storage call. -/
inductive Value
  | json (j : Json)
  | bytes (data : Bytes)

/-- `None`. -/
def Value.none : Value := .json .null

/-- `ClaimState`. -/
inductive ClaimState
  /-- this caller owns the key and must execute the work -/
  | claimed
  /-- another caller owns it and has not finished -/
  | inFlight
  /-- the work already ran -/
  | done
  deriving DecidableEq

/-- `Claim`. -/
structure Claim where
  state : ClaimState
  /-- what the work returned, when it is done -/
  result : Value := .none

/-- `DEFAULT_CLAIM_LEASE_S`. -/
def defaultClaimLease : ℕ := 300

/-- An entry of the event log. -/
structure LogEntry where
  value : Value
  timestamp : PyFloat
  idempotencyKey : Option String

/-- A call of `StoragePlugin`. -/
inductive LedgerOp (T : Type)
  | put (key : String) (value : Value)
  | get (key : String)
  | delete (key : String)
  | log (key : String) (value : Value) (idempotencyKey : Option String)
  | getLog (key : String) (limit : ℤ)
  | claim (key : String) (lease : T)
  | release (key : String)
  | check (key : String)
  | mark (key : String) (result : Value)

/-- What a call answers. -/
inductive LedgerAnswer
  | unit
  | value (v : Value)
  | entries (es : List LogEntry)
  | claim (c : Claim)
  /-- the call raises -/
  | raised

/-- What a call reads from the clocks. -/
structure Clock (T : Type) where
  /-- `time.time()`, as a timestamp of the log -/
  stamp : PyFloat
  /-- `time.time()`, at the start of an attempt to claim -/
  wall : T
  /-- `time.time()`, at the start of a second attempt -/
  wall' : T
  /-- `time.monotonic()`, to test a lease -/
  monotonic : T
  /-- `time.monotonic()`, to grant a lease -/
  monotonic' : T
  /-- the milliseconds of the Redis server -/
  server : ℤ

/-- The last `limit` entries, newest first. -/
def newest {α : Type} (entries : List α) (limit : ℤ) : List α :=
  if limit ≤ 0 then [] else entries.reverse.take limit.toNat

/-! ### `InMemoryStoragePlugin` -/

/-- `_Record`: one key's state, claimed with a lease or done with a result. -/
structure Rec (T : Type) where
  done : Bool
  result : Value
  leaseUntil : T

/-- `InMemoryStoragePlugin`. -/
structure InMemoryStorage (T : Type) where
  store : Table (Prod.fst : String × Value → String)
  eventLog : Table (Prod.fst : String × List LogEntry → String)
  processed : Table (Prod.fst : String × Rec T → String)

namespace InMemoryStorage

variable {T : Type}

/-- An empty storage. -/
def init : InMemoryStorage T := ⟨∅, ∅, ∅⟩

/-- `put`. -/
def put (s : InMemoryStorage T) (key : String) (value : Value) : InMemoryStorage T :=
  { s with store := s.store.put (key, value) }

/-- `get`. -/
def get (s : InMemoryStorage T) (key : String) : Value :=
  match s.store.get? key with
  | some row => row.2
  | none => .none

/-- `delete`. -/
def delete (s : InMemoryStorage T) (key : String) : InMemoryStorage T :=
  { s with store := s.store.erase key }

/-- The record of a key. -/
def rec? (s : InMemoryStorage T) (key : String) : Option (Rec T) :=
  (s.processed.get? key).map Prod.snd

/-- The entries of a key, oldest first. -/
def logOf (s : InMemoryStorage T) (key : String) : List LogEntry :=
  ((s.eventLog.get? key).map Prod.snd).getD []

/-- `rec is not None and rec.done`, of the record that `log` looks up: none for an empty key. -/
def finished (s : InMemoryStorage T) (idempotencyKey : Option String) : Bool :=
  match idempotencyKey with
  | none => false
  | some k => k ≠ "" ∧ (s.rec? k).any Rec.done

/-- `log`. -/
def log (s : InMemoryStorage T) (key : String) (value : Value) (idempotencyKey : Option String)
    (timestamp : PyFloat) : InMemoryStorage T :=
  if s.finished idempotencyKey then s
  else
    { s with
      eventLog := s.eventLog.put (key, s.logOf key ++ [⟨value, timestamp, idempotencyKey⟩]) }

/-- `get_log`. -/
def getLog (s : InMemoryStorage T) (key : String) (limit : ℤ) : List LogEntry :=
  newest (s.logOf key) limit

variable [LinearOrder T] [Zero T] [Add T]

/-- Sets the record of a key. -/
def setRec (s : InMemoryStorage T) (key : String) (r : Rec T) : InMemoryStorage T :=
  { s with processed := s.processed.put (key, r) }

/-- `claim_processed`; the clock is read for the test at `now` and for the lease at `later`. -/
def claimProcessed (s : InMemoryStorage T) (key : String) (lease now later : T) :
    InMemoryStorage T × Claim :=
  match s.rec? key with
  | some r =>
    if r.done then (s, ⟨.done, r.result⟩)
    else if now < r.leaseUntil then (s, { state := .inFlight })
    -- the lease lapsed: take over
    else (s.setRec key ⟨false, .none, later + lease⟩, { state := .claimed })
  | none => (s.setRec key ⟨false, .none, later + lease⟩, { state := .claimed })

/-- `release_claim`. -/
def releaseClaim (s : InMemoryStorage T) (key : String) : InMemoryStorage T :=
  if (s.rec? key).any (fun r => !r.done) then { s with processed := s.processed.erase key } else s

/-- `check_processed`. -/
def checkProcessed (s : InMemoryStorage T) (key : String) : Value :=
  match s.rec? key with
  | some r => if r.done then r.result else .none
  | none => .none

/-- `mark_processed`: the first result wins. -/
def markProcessed (s : InMemoryStorage T) (key : String) (result : Value) : InMemoryStorage T :=
  if (s.rec? key).any Rec.done then s else s.setRec key ⟨true, result, 0⟩

/-- Carries out one call. -/
def perform (s : InMemoryStorage T) (op : LedgerOp T) (x : Clock T) :
    InMemoryStorage T × LedgerAnswer :=
  match op with
  | .put key value => (s.put key value, .unit)
  | .get key => (s, .value (s.get key))
  | .delete key => (s.delete key, .unit)
  | .log key value idempotencyKey => (s.log key value idempotencyKey x.stamp, .unit)
  | .getLog key limit => (s, .entries (s.getLog key limit))
  | .claim key lease =>
    ((s.claimProcessed key lease x.monotonic x.monotonic').1,
      .claim (s.claimProcessed key lease x.monotonic x.monotonic').2)
  | .release key => (s.releaseClaim key, .unit)
  | .check key => (s, .value (s.checkProcessed key))
  | .mark key result => (s.markProcessed key result, .unit)

end InMemoryStorage

end Istos
