import Istos.Codec.Detect
import Istos.Consistency.Storage

/-!
# `SqlAlchemyStoragePlugin`

`SqlDb` is the plugin's schema: a table of values, the event log with its unique idempotency key,
and the idempotency table.  Each statement of the plugin is a function on it, which the database
carries out alone: an insertion that a primary key or a unique column refuses is an
`IntegrityError`, and an update reports whether it found a row.

The calls of the plugin are sequences of such statements; here each is carried out without another
caller in between.
-/

namespace Istos

/-- `status` of a row of the idempotency table; `NULL` is none. -/
inductive RowStatus
  /-- `_PENDING` -/
  | pending
  /-- `_DONE` -/
  | done
  deriving DecidableEq

/-- A row of `istos_idempotency`. -/
structure IdempotencyRow (T : Type) where
  idempotencyKey : String
  result : Option Bytes
  createdAt : T
  status : Option RowStatus
  leaseExpiresAt : Option T

/-- A row of `istos_event_log`; the rows stand in the order of their ids. -/
structure EventRow where
  key : String
  value : Bytes
  idempotencyKey : Option String
  timestamp : PyFloat

/-- The tables of the plugin. -/
structure SqlDb (T : Type) where
  kv : Table (Prod.fst : String × Bytes → String)
  eventLog : List EventRow
  idempotency : Table (IdempotencyRow.idempotencyKey (T := T))

namespace SqlDb

variable {T : Type}

/-- Empty tables. -/
def init : SqlDb T := ⟨∅, [], ∅⟩

/-! ### Statements -/

/-- `INSERT` into the event log; `none` is an `IntegrityError`. -/
def insertEvent (db : SqlDb T) (row : EventRow) : Option (SqlDb T) :=
  if row.idempotencyKey.isSome ∧ row.idempotencyKey ∈ db.eventLog.map EventRow.idempotencyKey then
    none
  else some { db with eventLog := db.eventLog ++ [row] }

/-- `INSERT` into the idempotency table; `none` is an `IntegrityError`. -/
def insertIdempotency (db : SqlDb T) (row : IdempotencyRow T) : Option (SqlDb T) :=
  if row.idempotencyKey ∈ db.idempotency.keys then none
  else some { db with idempotency := db.idempotency.put row }

/-- `SELECT ... WHERE idempotency_key = key`. -/
def selectIdempotency (db : SqlDb T) (key : String) : Option (IdempotencyRow T) :=
  db.idempotency.get? key

/-- `UPDATE ... WHERE idempotency_key = key AND cond`; `none` where no row qualifies. -/
def updateIdempotency (db : SqlDb T) (key : String) (cond : IdempotencyRow T → Bool)
    (change : (row : IdempotencyRow T) →
      {row' : IdempotencyRow T // row'.idempotencyKey = row.idempotencyKey}) : Option (SqlDb T) :=
  match db.idempotency.get? key with
  | some row =>
    if cond row then some { db with idempotency := db.idempotency.put (change row).val } else none
  | none => none

/-- A row is pending. -/
def pending (row : IdempotencyRow T) : Bool := row.status = some .pending

/-- `DELETE ... WHERE idempotency_key = key AND status = 'pending'`. -/
def deletePending (db : SqlDb T) (key : String) : SqlDb T :=
  match db.idempotency.get? key with
  | some row =>
    if pending row then { db with idempotency := db.idempotency.erase key } else db
  | none => db

/-- The update that completes a claim. -/
def complete (db : SqlDb T) (key : String) (payload : Bytes) (now : T) : Option (SqlDb T) :=
  db.updateIdempotency key pending fun row =>
    ⟨{ row with result := some payload, status := some .done, leaseExpiresAt := none,
                createdAt := now }, rfl⟩

/-- The insertion of a result without a claim. -/
def insertDone (db : SqlDb T) (key : String) (payload : Bytes) (now : T) : Option (SqlDb T) :=
  db.insertIdempotency ⟨key, some payload, now, some .done, none⟩

variable [LinearOrder T] [Add T]

/-- The insertion that claims a key. -/
def insertClaim (db : SqlDb T) (key : String) (lease now : T) : Option (SqlDb T) :=
  db.insertIdempotency ⟨key, none, now, some .pending, some (now + lease)⟩

/-- The update that takes a lapsed claim over. -/
def takeOver (db : SqlDb T) (key : String) (lease now : T) : Option (SqlDb T) :=
  db.updateIdempotency key
    (fun row => pending row && row.leaseExpiresAt.any (fun t => decide (t ≤ now)))
    fun row => ⟨{ row with leaseExpiresAt := some (now + lease), createdAt := now }, rfl⟩

end SqlDb

namespace SqlStorage

variable {T : Type}

/-- `_serialize`. -/
def serialize : Value → Bytes
  | .bytes data => data
  | .json (.str s) => Utf8.encode s
  | .json j => Utf8.encode j.dumps

/-- `put`: an update, and an insertion where it finds no row. -/
def put (db : SqlDb T) (key : String) (value : Value) : SqlDb T :=
  { db with kv := db.kv.put (key, serialize value) }

/-- `delete`. -/
def delete (db : SqlDb T) (key : String) : SqlDb T := { db with kv := db.kv.erase key }

/-- `log`: a duplicate is skipped. -/
def log (db : SqlDb T) (key : String) (value : Value) (idempotencyKey : Option String)
    (timestamp : PyFloat) : SqlDb T :=
  (db.insertEvent ⟨key, serialize value, idempotencyKey, timestamp⟩).getD db

/-- `release_claim`. -/
def releaseClaim (db : SqlDb T) (key : String) : SqlDb T := db.deletePending key

/-- `mark_processed`. -/
def markProcessed (db : SqlDb T) (key : String) (result : Value) (now : T) : SqlDb T :=
  match db.complete key (serialize result) now with
  | some db' => db'
  | none => (db.insertDone key (serialize result) now).getD db

variable [Rounding]

/-- `_deserialize`. -/
def deserialize : Option Bytes → Value
  | none => .none
  | some raw =>
    match Json.loadb raw with
    | some j => .json j
    | none => .bytes raw

/-- `get`. -/
def get (db : SqlDb T) (key : String) : Value :=
  match db.kv.get? key with
  | some row => deserialize (some row.2)
  | none => .none

/-- `get_log`. -/
def getLog (db : SqlDb T) (key : String) (limit : ℤ) : List LogEntry :=
  (newest (db.eventLog.filter fun row => row.key = key) limit).map fun row =>
    ⟨deserialize (some row.value), row.timestamp, row.idempotencyKey⟩

/-- `check_processed`. -/
def checkProcessed (db : SqlDb T) (key : String) : Value :=
  match db.selectIdempotency key with
  | some row => if SqlDb.pending row then .none else deserialize row.result
  | none => .none

variable [LinearOrder T] [Add T]

/-- `claim_processed`, with the clock readings of its attempts. -/
def claimProcessed (db : SqlDb T) (key : String) (lease : T) : List T → SqlDb T × Claim
  | [] => (db, { state := .inFlight })
  | now :: later =>
    match db.insertClaim key lease now with
    | some db' => (db', { state := .claimed })
    | none =>
      match db.selectIdempotency key with
      -- released in the meantime
      | none => claimProcessed db key lease later
      | some row =>
        if ¬ SqlDb.pending row then (db, ⟨.done, deserialize row.result⟩)
        else if row.leaseExpiresAt.any (fun t => decide (now < t)) then
          (db, { state := .inFlight })
        else
          match db.takeOver key lease now with
          | some db' => (db', { state := .claimed })
          | none => (db, { state := .inFlight })

/-- Carries out one call. -/
def perform (db : SqlDb T) (op : LedgerOp T) (x : Clock T) : SqlDb T × LedgerAnswer :=
  match op with
  | .put key value => (put db key value, .unit)
  | .get key => (db, .value (get db key))
  | .delete key => (delete db key, .unit)
  | .log key value idempotencyKey => (log db key value idempotencyKey x.stamp, .unit)
  | .getLog key limit => (db, .entries (getLog db key limit))
  | .claim key lease =>
    ((claimProcessed db key lease [x.wall, x.wall']).1,
      .claim (claimProcessed db key lease [x.wall, x.wall']).2)
  | .release key => (releaseClaim db key, .unit)
  | .check key => (db, .value (checkProcessed db key))
  | .mark key result => (markProcessed db key result x.wall, .unit)

end SqlStorage

end Istos
