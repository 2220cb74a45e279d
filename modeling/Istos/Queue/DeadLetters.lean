import Istos.Queue.Worker

/-!
# Dead letters

The owner lists its dead-lettered jobs, `app.dead_letters` decodes the list, and what the
documentation prescribes for each is `app.enqueue(prefix, job["data"])`.
-/

namespace Istos

variable {T β : Type}

/-! ### The list -/

/-- What `_on_dead` says of a job. -/
def JobRecord.deadReply (r : JobRecord T) : Json :=
  .obj [("job_id", .str r.id), ("attempts", .num r.attempts), ("last_error", optJson r.lastError),
    ("data", .str (Base64.b64encode r.data))]

/-- The reply of `_on_dead`. -/
def deadReply (dead : List (JobRecord T)) : Json :=
  .obj [("jobs", .arr (dead.map JobRecord.deadReply))]

/-- A job in the answer of `app.dead_letters`. -/
structure DeadLetter (β : Type) where
  jobId : String
  attempts : ℤ
  lastError : Option String
  data : β

/-- One pass of the loop of `dead_letters`; `none` where a field is missing or of another type,
which no owner sends, or a decoder raises. -/
def DeadLetter.ofJson (ser : Serializer β) (j : Json) : Option (DeadLetter β) := do
  let jobId ← (← getText j "job_id")
  let attempts ← getInt j "attempts" 0
  let lastError ← getText j "last_error"
  let data ← ser.deserialize (← Base64.b64decode (← (← getText j "data")))
  return { jobId, attempts, lastError, data }

/-- `app.dead_letters`; `none` where it raises. -/
def readDeadLetters (ser : Serializer β) : Got → Option (List (DeadLetter β))
  | .nothing => some []
  | .raised => none
  | .reply j =>
    match j.get? "jobs" with
    | none => some []
    | some (.arr jobs) => jobs.mapM (DeadLetter.ofJson ser)
    | some _ => none

/-! ### The second enqueue -/

/-- `app.enqueue(prefix, data)`; `none` where the serializer raises. -/
def enqueueCall [Zero T] (ser : Serializer β) (queue : String) (data : β) : Option (QueueCall T) :=
  (ser.serialize data).map fun payload => .enqueue queue payload 0 0 none

/-- What Zenoh documents of a selector without a question mark. -/
def Zenoh.NoParameters (z : Zenoh) : Prop :=
  ∀ selector key params, '?' ∉ selector.toList → z.parse selector = some (key, params) → params = []

/-- **A dead letter is replayed**: its queue's dead letters are listed and read, the data of this
one is enqueued, and this is what the owner asks of its store; `none` where one of the steps fails.
-/
def replay [Rounding] [LinearOrder T] [Zero T] (z : Zenoh) (f : FloatText T) (ser : Serializer β)
    (role : QueueRole T) (s : QueueStore T) (jobId : String) (x : Readings T) : Option (Op T) := do
  let letters ← readDeadLetters ser (queueGet (deadReply s.deadLetters))
  let letter ← letters.find? fun letter => decide (letter.jobId = jobId)
  let call ← enqueueCall ser role.queue letter.data
  let (_, params) ← z.read (call.selector f)
  role.op f .enqueue params call.payload x

/-! ### What a delivery leads to -/

/-- What a worker sends before the ack when a delivery went well: the next step of a chain, or the
report of a member of a chord. -/
def Next.followOn : Next T → Option (QueueCall T)
  | .call (.ack _ _ _ _) _ => none
  | .call c _ => some c
  | .enter _ => none

/-- What a job of a workflow carries. -/
inductive Continuation
  /-- the queues of the chain that are still to come -/
  | chain (rest : List String)
  /-- the place in a chord -/
  | chord (id : String) (index size : ℤ) (callback : Callback)
  deriving DecidableEq

/-- The continuation as `chain` and `chord` pack it. -/
def Continuation.wf [Rounding] : Continuation → Option String
  | .chain rest => chainWf rest
  | .chord id index size callback => some (chordWf id index size callback)

end Istos
