import Istos.Codec.Base64
import Mathlib.Order.Defs.LinearOrder

/-!
# Job records

`JobRecord`, its two serialized forms and the `JobContext` a worker sees.  Times are Python floats;
nothing depends on them beyond their order and whatever `+` does on them, so they are a type `T`
with a linear order, an addition and a zero, which covers the infinities and rounding.  Python
integers are `ℤ` and `bytes` is a list of bytes.

`JobRecord.fromDict_toDict`: a record survives its dictionary form.
-/

namespace Istos

/-- `JobState`. -/
inductive JobState
  /-- waiting to be claimed -/
  | ready
  /-- handed to a worker, ack pending -/
  | leased
  /-- exhausted its attempts, parked for inspection -/
  | dead
  /-- completed; result retained for the result backend -/
  | done
  deriving DecidableEq, Repr

/-- `JobState.value`. -/
def JobState.value : JobState → String
  | ready => "ready"
  | leased => "leased"
  | dead => "dead"
  | done => "done"

/-- `JobState(value)`; `none` where it raises `ValueError`. -/
def JobState.ofValue? (s : String) : Option JobState :=
  if s = "ready" then some ready
  else if s = "leased" then some leased
  else if s = "dead" then some dead
  else if s = "done" then some done
  else none

@[simp] theorem JobState.ofValue?_value (s : JobState) : ofValue? s.value = some s := by
  cases s <;> decide

/-- `JobRecord`. -/
structure JobRecord (T : Type) where
  /-- The id, `uuid4().hex`. -/
  id : String
  /-- The job body, exactly as it went on the wire. -/
  data : Bytes
  state : JobState
  attempts : ℤ
  maxAttempts : ℤ
  enqueuedAt : T
  leaseUntil : T
  /-- The earliest time the job may be claimed (delay or backoff). -/
  notBefore : T
  /-- Higher is claimed first. -/
  priority : ℤ
  /-- The monotonic tie-break within a priority. -/
  seq : ℤ
  lastError : Option String
  /-- Base64 of the handler's return, when kept. -/
  result : Option String
  completedAt : T
  /-- The workflow continuation (chain or chord), if any. -/
  wf : Option String
  correlationId : Option String
  traceparent : Option String
  deriving DecidableEq

/-- A value in a job dictionary. -/
inductive Field (T : Type)
  | none
  | int (n : ℤ)
  | float (x : T)
  | text (s : String)
  deriving DecidableEq

namespace Field

variable {T : Type}

/-- An optional string as a dictionary value. -/
def ofOption : Option String → Field T
  | some s => text s
  | Option.none => none

/-- Reads an integer field; a value of another type is refused. -/
def asInt : Field T → Option ℤ
  | int n => some n
  | _ => Option.none

/-- Reads a float field; a value of another type is refused. -/
def asFloat : Field T → Option T
  | float x => some x
  | _ => Option.none

/-- Reads a string field; a value of another type is refused. -/
def asText : Field T → Option String
  | text s => some s
  | _ => Option.none

/-- Reads a string-or-`None` field; a value of another type is refused. -/
def asOptText : Field T → Option (Option String)
  | text s => some (some s)
  | none => some Option.none
  | _ => Option.none

@[simp] theorem asOptText_ofOption (s : Option String) :
    (ofOption s : Field T).asOptText = some s := by
  cases s <;> rfl

end Field

/-- The dictionary form of a record: field names with their values. -/
abbrev JobDict (T : Type) := List (String × Field T)

namespace JobRecord

variable {T : Type}

/-- `JobRecord.to_dict`. -/
def toDict (r : JobRecord T) : JobDict T :=
  [("id", .text r.id),
   ("data", .text (Base64.b64encode r.data)),
   ("state", .text r.state.value),
   ("attempts", .int r.attempts),
   ("max_attempts", .int r.maxAttempts),
   ("enqueued_at", .float r.enqueuedAt),
   ("lease_until", .float r.leaseUntil),
   ("not_before", .float r.notBefore),
   ("priority", .int r.priority),
   ("seq", .int r.seq),
   ("last_error", .ofOption r.lastError),
   ("result", .ofOption r.result),
   ("completed_at", .float r.completedAt),
   ("wf", .ofOption r.wf),
   ("correlation_id", .ofOption r.correlationId),
   ("traceparent", .ofOption r.traceparent)]

/-- `JobRecord.from_dict`; `none` where it raises.  The fields read with `d[...]` must be present,
the others have the defaults of `d.get(...)`. -/
def fromDict [Zero T] (d : JobDict T) : Option (JobRecord T) := do
  let id ← (← d.lookup "id").asText
  let data ← Base64.b64decode (← (← d.lookup "data").asText)
  let state ← JobState.ofValue? (← (← d.lookup "state").asText)
  let attempts ← (← d.lookup "attempts").asInt
  let maxAttempts ← (← d.lookup "max_attempts").asInt
  let enqueuedAt ← (← d.lookup "enqueued_at").asFloat
  let leaseUntil ← (← d.lookup "lease_until").asFloat
  let notBefore ← ((d.lookup "not_before").getD (.float 0)).asFloat
  let priority ← ((d.lookup "priority").getD (.int 0)).asInt
  let seq ← ((d.lookup "seq").getD (.int 0)).asInt
  let lastError ← ((d.lookup "last_error").getD .none).asOptText
  let result ← ((d.lookup "result").getD .none).asOptText
  let completedAt ← ((d.lookup "completed_at").getD (.float 0)).asFloat
  let wf ← ((d.lookup "wf").getD .none).asOptText
  let correlationId ← ((d.lookup "correlation_id").getD .none).asOptText
  let traceparent ← ((d.lookup "traceparent").getD .none).asOptText
  return {
    id, data, state, attempts, maxAttempts, enqueuedAt, leaseUntil, notBefore, priority, seq,
    lastError, result, completedAt, wf, correlationId, traceparent }

/-- **Round trip**: a record survives `to_dict` and `from_dict`. -/
@[simp] theorem fromDict_toDict [Zero T] (r : JobRecord T) : fromDict r.toDict = some r := by
  simp [fromDict, toDict, List.lookup_cons, Field.asText, Field.asInt, Field.asFloat]

end JobRecord

/-- `JobContext`: what the queue knows about one delivery of a job. -/
structure JobContext where
  jobId : String
  queue : String
  /-- 1 on first delivery, 2 on first redelivery. -/
  attempt : ℤ
  maxAttempts : ℤ
  /-- Why the previous attempt nacked, if it did. -/
  lastError : Option String
  correlationId : Option String
  traceparent : Option String
  deriving DecidableEq

/-- `JobContext.is_retry`: a previous attempt at this job failed. -/
def JobContext.isRetry (c : JobContext) : Bool := decide (1 < c.attempt)

/-- `JobContext.is_last_attempt`: raising will dead-letter the job instead of redelivering it. -/
def JobContext.isLastAttempt (c : JobContext) : Bool := decide (c.maxAttempts ≤ c.attempt)

end Istos
