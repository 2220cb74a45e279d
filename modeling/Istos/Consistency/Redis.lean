import Istos.Codec.Detect
import Istos.Consistency.Storage

/-!
# `RedisStoragePlugin`

`RedisDb` is the part of a Redis server that the plugin uses: strings with an expiry, and lists.
Each call of the plugin is one command or one script, which the server carries out alone.  A string
whose expiry has passed is gone for every command.

The plugin writes JSON.  A record of the idempotency table is the byte `P` while it is claimed, and
the byte `D` with the JSON of the result once it is done.
-/

namespace Istos

/-- What a Redis key holds. -/
inductive RedisValue
  /-- a string, and the last millisecond at which it exists -/
  | string (data : Bytes) (expires : Option ℤ)
  | list (items : List Bytes)
  deriving DecidableEq

/-- The keys of a Redis server. -/
structure RedisDb where
  keys : Table (Prod.fst : String × RedisValue → String)

namespace RedisDb

/-- An empty server. -/
def init : RedisDb := ⟨∅⟩

/-- `GET`; on a list it would be an error. -/
def get (db : RedisDb) (now : ℤ) (key : String) : Option Bytes :=
  match db.keys.get? key with
  | some (_, .string data expires) => if expires.all (fun t => now ≤ t) then some data else none
  | _ => none

/-- `SET`, with the expiry that `PX` gives. -/
def set (db : RedisDb) (key : String) (data : Bytes) (expires : Option ℤ) : RedisDb :=
  ⟨db.keys.put (key, .string data expires)⟩

/-- `DEL`. -/
def del (db : RedisDb) (key : String) : RedisDb := ⟨db.keys.erase key⟩

/-- The items of a list, newest first; there are none under a key that does not exist. -/
def items (db : RedisDb) (key : String) : List Bytes :=
  match db.keys.get? key with
  | some (_, .list items) => items
  | _ => []

/-- `LPUSH`; on a string it would be an error. -/
def lpush (db : RedisDb) (key : String) (item : Bytes) : RedisDb :=
  ⟨db.keys.put (key, .list (item :: db.items key))⟩

/-- `LRANGE key 0 stop` with `0 ≤ stop`. -/
def lrange (db : RedisDb) (key : String) (stop : ℕ) : List Bytes := (db.items key).take (stop + 1)

/-! ### The scripts -/

/-- `_PENDING_TAG`. -/
def pendingTag : UInt8 := 0x50

/-- `_DONE_TAG`. -/
def doneTag : UInt8 := 0x44

/-- `string.sub(cur, 1, 1) == tag`. -/
def tagged (tag : UInt8) (cur : Bytes) : Bool := cur.head? = some tag

theorem tagged_cons (tag : UInt8) (body : Bytes) : tagged tag (tag :: body) = true :=
  decide_eq_true rfl

/-- `_CLAIM_LUA`: what was there, or `none` once the key is taken; an error where the expiry is not
positive. -/
def claimLua (db : RedisDb) (now : ℤ) (key : String) (px : ℤ) : RedisDb × Option (Option Bytes) :=
  match db.get now key with
  | some cur => (db, some (some cur))
  | none =>
    if px ≤ 0 then (db, none) else (db.set key [pendingTag] (some (now + px)), some none)

/-- `_MARK_LUA`. -/
def markLua (db : RedisDb) (now : ℤ) (key : String) (data : Bytes) : RedisDb :=
  if (db.get now key).any (tagged doneTag) then db else db.set key data none

/-- `_RELEASE_LUA`. -/
def releaseLua (db : RedisDb) (now : ℤ) (key : String) : RedisDb :=
  if (db.get now key).any (tagged pendingTag) then db.del key else db

/-- `_LOG_LUA`. -/
def logLua (db : RedisDb) (now : ℤ) (key logKey : String) (entry : Bytes) : RedisDb :=
  if (db.get now key).any (fun cur => !tagged pendingTag cur) then db else db.lpush logKey entry

end RedisDb

/-- The keys of a plugin and the unit of its leases: `millis` is `int(lease_s * 1000)`. -/
structure RedisConfig (T : Type) where
  redisPrefix : String
  millis : T → ℤ

namespace RedisStorage

variable {T : Type} (c : RedisConfig T)

/-- `_key`. -/
def kvKey (key : String) : String := c.redisPrefix ++ "kv:" ++ key

/-- `_log_key`. -/
def logKey (key : String) : String := c.redisPrefix ++ "log:" ++ key

/-- `_idemp_key`. -/
def idempKey (key : String) : String := c.redisPrefix ++ "idemp:" ++ key

/-- `json.dumps(value)` in bytes; `none` where it raises. -/
def dumpb : Value → Option Bytes
  | .json j => some (Utf8.encode j.dumps)
  | .bytes _ => none

/-- `put`. -/
def put (db : RedisDb) (key : String) (value : Value) : RedisDb :=
  match value with
  | .bytes data => db.set (kvKey c key) data none
  | .json j => db.set (kvKey c key) (Utf8.encode j.dumps) none

/-- `delete`. -/
def delete (db : RedisDb) (key : String) : RedisDb := db.del (kvKey c key)

/-- The JSON of an entry of the log. -/
def entryJson (value : Json) (timestamp : PyFloat) (idempotencyKey : Option String) : Json :=
  .obj [("value", value), ("timestamp", .float timestamp),
    ("idempotency_key", match idempotencyKey with
      | some k => .str k
      | none => .null)]

/-- The value of an entry: bytes are decoded; `none` where that raises. -/
def entryValue : Value → Option Json
  | .json j => some j
  | .bytes data => (Utf8.decode data).map Json.str

/-- Stores an entry: through the script, if there is an idempotency key. -/
def pushEntry (db : RedisDb) (now : ℤ) (key : String) (idempotencyKey : Option String)
    (entry : Bytes) : RedisDb :=
  match idempotencyKey with
  | none => db.lpush (logKey c key) entry
  | some k =>
    if k = "" then db.lpush (logKey c key) entry
    else db.logLua now (idempKey c k) (logKey c key) entry

/-- `log`; `none` where it raises. -/
def log (db : RedisDb) (now : ℤ) (key : String) (value : Value) (idempotencyKey : Option String)
    (timestamp : PyFloat) : Option RedisDb :=
  (entryValue value).map fun j =>
    pushEntry c db now key idempotencyKey
      (Utf8.encode (entryJson j timestamp idempotencyKey).dumps)

/-- `release_claim`. -/
def releaseClaim (db : RedisDb) (now : ℤ) (key : String) : RedisDb :=
  db.releaseLua now (idempKey c key)

/-- `mark_processed`; `none` where it raises. -/
def markProcessed (db : RedisDb) (now : ℤ) (key : String) (result : Value) : Option RedisDb :=
  (dumpb result).map fun data => db.markLua now (idempKey c key) (RedisDb.doneTag :: data)

variable [Rounding]

/-- `get`; `none` where it raises. -/
def get (db : RedisDb) (now : ℤ) (key : String) : Option Value :=
  match db.get now (kvKey c key) with
  | none => some .none
  | some raw =>
    -- bytes that do not decode are a `ValueError` but no `JSONDecodeError`
    ((Encoding.detect raw).decode raw).map fun text =>
      match Json.loads (String.ofList text) with
      | some j => .json j
      | none => .bytes raw

/-- The entry that a stored item is read as; `none` where it raises. -/
def readEntry (item : Bytes) : Option LogEntry := do
  let j ← Json.loadb item
  let value ← j.get? "value"
  match j.get? "timestamp", j.get? "idempotency_key" with
  | some (.float timestamp), some (.str k) => return ⟨.json value, timestamp, some k⟩
  | some (.float timestamp), some .null => return ⟨.json value, timestamp, none⟩
  | _, _ => none

/-- `get_log`; `none` where it raises. -/
def getLog (db : RedisDb) (key : String) (limit : ℤ) : Option (List LogEntry) :=
  if limit ≤ 0 then some []
  else (db.lrange (logKey c key) (limit.toNat - 1)).mapM readEntry

/-- `_loads`. -/
def loadsOrRaw (raw : Bytes) : Value :=
  match Json.loadb raw with
  | some j => .json j
  | none => .bytes raw

/-- `_decode`: the result of a stored record, if it is finished. -/
def decodeRecord : Option Bytes → Option Value
  | none => none
  | some raw =>
    if raw.head? = some RedisDb.doneTag then some (loadsOrRaw raw.tail)
    else if raw.head? = some RedisDb.pendingTag then none
    -- untagged: an older release wrote a bare result
    else some (loadsOrRaw raw)

/-- `claim_processed`; `none` where it raises. -/
def claimProcessed (db : RedisDb) (now : ℤ) (key : String) (lease : T) :
    RedisDb × Option Claim :=
  let out := db.claimLua now (idempKey c key) (c.millis lease)
  (out.1, out.2.map fun existing =>
    if existing.all List.isEmpty then { state := .claimed }
    else match decodeRecord existing with
      | some result => ⟨.done, result⟩
      | none => { state := .inFlight })

/-- `check_processed`. -/
def checkProcessed (db : RedisDb) (now : ℤ) (key : String) : Value :=
  (decodeRecord (db.get now (idempKey c key))).getD .none

/-- Carries out one call. -/
def perform (db : RedisDb) (op : LedgerOp T) (x : Clock T) : RedisDb × LedgerAnswer :=
  match op with
  | .put key value => (put c db key value, .unit)
  | .get key => (db, ((get c db x.server key).map .value).getD .raised)
  | .delete key => (delete c db key, .unit)
  | .log key value idempotencyKey =>
    match log c db x.server key value idempotencyKey x.stamp with
    | some db' => (db', .unit)
    | none => (db, .raised)
  | .getLog key limit => (db, ((getLog c db key limit).map .entries).getD .raised)
  | .claim key lease =>
    ((claimProcessed c db x.server key lease).1,
      ((claimProcessed c db x.server key lease).2.map .claim).getD .raised)
  | .release key => (releaseClaim c db x.server key, .unit)
  | .check key => (db, .value (checkProcessed c db x.server key))
  | .mark key result =>
    match markProcessed c db x.server key result with
    | some db' => (db', .unit)
    | none => (db, .raised)

end RedisStorage

end Istos
