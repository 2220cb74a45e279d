import Istos.Primitives.Errors
import Istos.Queue.Role

/-!
# The worker

A worker's loop claims a job, runs the body, sends the follow-on of the job's workflow, and acks.
Between two calls it stands in a `Phase`; `Worker.resume` is what it does when a call is over,
whatever came of the call, and `Worker.finish` what it does when the body is.

The owner answers a claim with `JobRecord.reply`; `ClaimReply` is what the worker reads of it.
-/

namespace Istos

/-! ### The reply to a claim -/

/-- What the worker reads of the reply to a claim that found a job. -/
structure ClaimReply where
  jobId : String
  attempt : ℤ
  maxAttempts : ℤ
  lastError : Option String
  /-- Base64 of the job body. -/
  data : String
  wf : Option String
  correlationId : Option String
  traceparent : Option String
  deriving DecidableEq

/-- The reply of `_on_claim`, field by field. -/
def ClaimReply.ofRecord {T : Type} (r : JobRecord T) : ClaimReply where
  jobId := r.id
  attempt := r.attempts
  maxAttempts := r.maxAttempts
  lastError := r.lastError
  data := Base64.b64encode r.data
  wf := r.wf
  correlationId := r.correlationId
  traceparent := r.traceparent

/-- `reply.get(key)` of an optional string; another type, which no owner sends, is `none`. -/
def getText (j : Json) (key : String) : Option (Option String) :=
  match j.get? key with
  | none => some none
  | some .null => some none
  | some (.str s) => some (some s)
  | _ => none

/-- `reply.get(key, default)` of an integer; another type, which no owner sends, is `none`. -/
def getInt (j : Json) (key : String) (default : ℤ) : Option ℤ :=
  match j.get? key with
  | none => some default
  | some (.num n) => some n
  | _ => none

/-- What the loop takes out of a reply; `none` where a field is missing or of another type. -/
def ClaimReply.ofJson (j : Json) : Option ClaimReply := do
  let jobId ← (← getText j "job_id")
  let attempt ← getInt j "attempt" 1
  let maxAttempts ← getInt j "max_attempts" 0
  let lastError ← getText j "last_error"
  let data ← (← getText j "data")
  let wf ← getText j "wf"
  let correlationId ← getText j "correlation_id"
  let traceparent ← getText j "traceparent"
  return { jobId, attempt, maxAttempts, lastError, data, wf, correlationId, traceparent }

/-- The context that the worker's loop builds from a reply. -/
def ClaimReply.context (queue : String) (reply : ClaimReply) : JobContext where
  jobId := reply.jobId
  queue := queue
  attempt := reply.attempt
  maxAttempts := reply.maxAttempts
  lastError := reply.lastError
  correlationId := reply.correlationId
  traceparent := reply.traceparent

/-! ### The loop -/

/-- A worker's serializer, on the values of its handler. -/
structure Serializer (β : Type) where
  /-- The bytes, a string being encoded; `none` where it raises. -/
  serialize : β → Option Bytes
  /-- `none` where it raises. -/
  deserialize : Bytes → Option β
  /-- `{"results": results, "input": input}`. -/
  collect : List (Option β) → β → β

/-- `worker_wrapper`, as far as its loop goes. -/
structure Worker (β : Type) where
  /-- The prefix, without slashes at its end. -/
  queue : String
  serializer : Serializer β

/-- Where a loop stands: the call that it awaits, or the body. -/
inductive Phase
  | idle
  | claiming
  /-- the body is running -/
  | working (d : ClaimReply)
  | nacking
  /-- the next step of the chain is being enqueued -/
  | chaining (d : ClaimReply) (result : Bytes) (wf : Json)
  | reporting (d : ClaimReply) (result : Bytes) (chord : ChordRef)
  /-- the callback of the chord is being enqueued -/
  | calling (d : ClaimReply) (result : Bytes)
  | acking
  | crashed

/-- What a loop does next: it stands in a phase, or makes a call and awaits it in one. -/
inductive Next (T : Type)
  | enter (p : Phase)
  | call (c : QueueCall T) (await : Phase)

/-- What came of a call of `_queue_get`. -/
inductive Got
  /-- `None`: nobody answered in time -/
  | nothing
  | raised
  | reply (j : Json)

/-- What `_queue_get` makes of the reply: it is sent as text, and an error is raised. -/
def queueGet [Rounding] (reply : Json) : Got :=
  match Json.loads (Json.dumps reply) with
  | none => .raised
  | some j => if isErrorPayload j then .raised else .reply j

namespace Worker

variable [Rounding] {T β : Type} [Zero T] (w : Worker β)

/-- `_queue_ack`, and nothing after it. -/
def acknowledge (d : ClaimReply) (result : Bytes) : Next T :=
  .call (.ack w.queue d.jobId (some result) (some d.attempt)) .acking

/-- `_advance_workflow` from the chord on, then the ack.  An exception ends the delivery without
an ack. -/
def advanceChord (d : ClaimReply) (result : Bytes) (wf : Json) : Next T :=
  match chordStep wf with
  | none => .enter .idle
  | some none => w.acknowledge d result
  | some (some chord) =>
    .call (.chordReport w.queue chord.id chord.index chord.size (Base64.b64encode result))
      (.reporting d result chord)

/-- `_advance_workflow`, then the ack. -/
def advance (d : ClaimReply) (result : Bytes) : Next T :=
  match d.wf with
  | none => w.acknowledge d result
  | some packed =>
    if packed = "" then w.acknowledge d result
    else
      match decodeWf packed with
      | some (.obj fields) =>
        match chainStep (.obj fields) with
        | none => .enter .idle
        | some none => w.advanceChord d result (.obj fields)
        | some (some (queue, rest)) =>
          .call (.enqueue queue result 0 0 rest) (.chaining d result (.obj fields))
      -- `wf.get` raises on anything that is not a dictionary
      | _ => .enter .idle

/-- The body of the callback job; `none` where a decoder or the serializer raises. -/
def callbackBody (results : Json) (cb : Callback) : Option Bytes := do
  let members ← match results with
    | .null => some []
    | .arr rs => rs.mapM fun r =>
      match r with
      | .null => some none
      | .str s => (Base64.b64decode s).bind fun data => (w.serializer.deserialize data).map some
      | _ => none
    | _ => none
  let input ← w.serializer.deserialize cb.data
  w.serializer.serialize (w.serializer.collect members input)

/-- The callback of a complete chord, then the ack. -/
def fireCallback (d : ClaimReply) (result : Bytes) (chord : ChordRef) (reply : Json) : Next T :=
  match chord.callback.bind Callback.ofJson with
  | none => .enter .idle
  | some cb =>
    match w.callbackBody ((reply.get? "results").getD .null) cb with
    | none => .enter .idle
    | some body =>
      .call (.enqueue cb.queue body 0 0 none) (.calling d result)

/-- **What the loop does when a call is over.** -/
def resume : Phase → Got → Next T
  | .claiming, .reply j =>
    if ¬ j.truthy ∨ (j.get? "empty").any Json.truthy then .enter .idle
    else
      match ClaimReply.ofJson j with
      | some d => .enter (.working d)
      -- the exception ends the loop
      | none => .enter .crashed
  | .chaining d result wf, .reply j =>
    if (j.get? "job_id").isSome then w.advanceChord d result wf else .enter .idle
  | .reporting d result chord, .reply j =>
    if (j.get? "complete").any Json.truthy then w.fireCallback d result chord j
    else w.acknowledge d result
  -- `_queue_chord_report` returns `None` when nobody answers, and the ack follows
  | .reporting d result _, .nothing => w.acknowledge d result
  | .calling d result, .reply j =>
    if (j.get? "job_id").isSome then w.acknowledge d result else .enter .idle
  | .crashed, _ => .enter .crashed
  | _, _ => .enter .idle

/-- **What the loop does when the body is over.**  It returned a value, or the body or the decoder
before it raised `error`. -/
def finish (d : ClaimReply) : Except String β → Next T
  | .error e => .call (.nack w.queue d.jobId e d.attempt) .nacking
  | .ok value =>
    match w.serializer.serialize value with
    | none => .enter .idle
    | some result => w.advance d result

end Worker

end Istos
