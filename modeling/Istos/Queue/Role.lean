import Istos.Codec.Json
import Istos.Codec.PyInt
import Istos.Queue.Run
import Istos.Queue.Workflow
import Istos.Wire.Selector

/-!
# The calls of a queue and its owner

`QueueCall` is a call of `_queue_get` on the caller's side: a key, parameters and a payload.
`QueueRole` is the owner: a handler reads the parameters of a query, asks the store, and forms the
reply.  Whether the owner's authorizer lets a query through is left to the environment.
-/

namespace Istos

/-- `str` and `float` on times. -/
structure FloatText (T : Type) where
  str : T → String
  /-- `none` where it raises. -/
  float : String → Option T

variable {T : Type}

/-! ### The caller -/

/-- The requests of `_queue_enqueue`, `_queue_claim`, `_queue_ack`, `_queue_nack` and
`_queue_chord_report`. -/
inductive QueueCall (T : Type)
  | enqueue (queue : String) (payload : Bytes) (delay : T) (priority : ℤ) (wf : Option String)
  | claim (queue : String)
  | ack (queue jobId : String) (result : Option Bytes) (attempt : Option ℤ)
  | nack (queue jobId error : String) (attempt : ℤ)
  | chordReport (queue chordId : String) (index size : ℤ) (result : String)
  deriving DecidableEq

/-- The last part of a queryable's key. -/
inductive Verb
  | enqueue
  | claim
  | ack
  | nack
  | chord
  deriving DecidableEq

/-- The part as it stands in the key. -/
def Verb.name : Verb → String
  | enqueue => "enqueue"
  | claim => "claim"
  | ack => "ack"
  | nack => "nack"
  | chord => "chord"

/-- `f"{prefix}/{verb}"`. -/
def Verb.key (queue : String) (verb : Verb) : String := queue ++ "/" ++ verb.name

/-- `str(n)`. -/
def intText (n : ℤ) : String := String.ofList (Decimal.text n)

namespace QueueCall

/-- The key expression of the selector. -/
def key : QueueCall T → String
  | enqueue queue _ _ _ _ => Verb.enqueue.key (rstripSlash queue)
  | claim queue => Verb.claim.key queue
  | ack queue _ _ _ => Verb.ack.key queue
  | nack queue _ _ _ => Verb.nack.key queue
  | chordReport queue _ _ _ _ => Verb.chord.key (rstripSlash queue)

/-- The parameters of the selector. -/
def params [LinearOrder T] [Zero T] (f : FloatText T) : QueueCall T → Params
  | enqueue _ _ delay priority wf =>
    (if 0 < delay then [("delay", f.str delay)] else [])
      ++ (if priority ≠ 0 then [("priority", intText priority)] else [])
      ++ wf.toList.map fun wf => ("wf", wf)
  | claim _ => []
  | ack _ jobId _ attempt =>
    ("job_id", jobId) :: attempt.toList.map fun k => ("attempt", intText k)
  | nack _ jobId _ attempt => [("job_id", jobId), ("attempt", intText attempt)]
  | chordReport _ chordId index size _ =>
    [("chord_id", chordId), ("index", intText index), ("size", intText size)]

/-- The payload; a call without one is answered as one with an empty payload. -/
def payload : QueueCall T → Bytes
  | enqueue _ payload _ _ _ => payload
  | claim _ => []
  | ack _ _ result _ => result.getD []
  | nack _ _ error _ => Utf8.encode error
  | chordReport _ _ _ _ result => Utf8.encode result

/-- The selector. -/
def selector [LinearOrder T] [Zero T] (f : FloatText T) (call : QueueCall T) : String :=
  buildSelector call.key (call.params f)

end QueueCall

/-! ### The owner -/

/-- `_as_int`. -/
def asInt (params : Params) (key : String) (default : ℤ) : ℤ :=
  match params.lookup key with
  | none => default
  | some s => (PyInt.parse s.toList).getD default

/-- `_as_float`. -/
def asFloat (f : FloatText T) (params : Params) (key : String) (default : T) : T :=
  match params.lookup key with
  | none => default
  | some s => (f.float s).getD default

/-- `_fence`. -/
def fence (params : Params) : Option ℤ :=
  (params.lookup "attempt").bind fun s => PyInt.parse s.toList

/-- `data.decode("ascii")`; `none` where it raises. -/
def decodeAscii (data : Bytes) : Option String :=
  if data.all (fun b => b.toNat < 128) then Utf8.decode data else none

/-- `value or None` of a string. -/
def orNone (s : String) : Option String := if s = "" then none else some s

/-- `QueueRole`, as far as its handlers go. -/
structure QueueRole (T : Type) where
  /-- The prefix, without slashes at its end. -/
  queue : String
  lease : T
  maxAttempts : ℤ
  config : QueueConfig T

/-- What a handler draws or reads besides the query: the id of a new job, the clock, the back-off
of a retry with its jitter, and the tracing fields of the attachment. -/
structure Readings (T : Type) where
  jobId : String
  t₁ : T
  t₂ : T
  t₃ : T
  retryDelay : T
  correlationId : Option String
  traceparent : Option String
  deriving DecidableEq

/-- What `_on_enqueue`, `_on_claim`, `_on_ack` and `_on_nack` ask of the store; `none` where they
raise before they ask. -/
def QueueRole.op [Zero T] (role : QueueRole T) (f : FloatText T) (verb : Verb) (params : Params)
    (payload : Bytes) (x : Readings T) : Option (Op T) :=
  match verb with
  | .enqueue =>
    some (.add
      { data := payload
        maxAttempts := role.maxAttempts
        priority := asInt params "priority" 0
        delay := asFloat f params "delay" 0
        wf := params.lookup "wf"
        correlationId := x.correlationId
        traceparent := x.traceparent } x.jobId x.t₁ x.t₂ x.t₃)
  | .claim => some (.claim x.t₁ role.lease)
  | .ack =>
    some (.ack ((params.lookup "job_id").getD "") (if payload = [] then none else some payload)
      (fence params) x.t₁)
  | .nack =>
    (Utf8.decode payload).map fun error =>
      .nack ((params.lookup "job_id").getD "") (orNone error) x.retryDelay (fence params) x.t₁ x.t₂
  | .chord => none

/-- An optional string as a JSON value. -/
def optJson : Option String → Json
  | some s => .str s
  | none => .null

/-- The reply of `_on_claim` for a job. -/
def JobRecord.reply (r : JobRecord T) : Json :=
  .obj [("job_id", .str r.id), ("attempt", .num r.attempts), ("max_attempts", .num r.maxAttempts),
    ("last_error", optJson r.lastError), ("data", .str (Base64.b64encode r.data)),
    ("wf", optJson r.wf), ("correlation_id", optJson r.correlationId),
    ("traceparent", optJson r.traceparent)]

/-- The disposition as it is sent. -/
def Disposition.value : Disposition → String
  | requeued => "requeued"
  | dead => "dead"

/-- The reply to what the store answered. -/
def Answer.reply : Answer T → Json
  | added id => .obj [("job_id", .str id)]
  | claimed none => .obj [("empty", .bool true)]
  | claimed (some r) => r.reply
  | acked ok => .obj [("ok", .bool ok)]
  | nacked d =>
    .obj [("ok", .bool d.isSome), ("disposition", optJson (d.map Disposition.value))]
  -- a sweep is not a query
  | swept _ => .null

/-- The reply of `_on_chord`. -/
def chordReply (results : Option (List (Option String))) : Json :=
  .obj [("complete", .bool results.isSome),
    ("results", match results with
      | none => .null
      | some rs => .arr (rs.map optJson))]

/-- `_on_chord`: the store, the reply, and the result list if there is one; `none` where it raises
before it asks the store. -/
def onChord [LinearOrder T] (s : QueueStore T) (params : Params) (payload : Bytes) (now : T) :
    Option (QueueStore T × Json × Option (List (Option String))) :=
  (decodeAscii payload).map fun result =>
    match s.chordReport ((params.lookup "chord_id").getD "") (asInt params "index" 0)
        (asInt params "size" 1) (orNone result) now with
    | .error _ =>
      (s, .obj [("complete", .bool false), ("error", .str "invalid_chord")], none)
    | .ok (s', results) => (s', chordReply results, results)

end Istos
