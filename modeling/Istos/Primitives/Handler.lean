import Istos.Consistency.Leased
import Istos.Data.Steps
import Istos.Data.Tenure
import Istos.Primitives.Retry

/-!
# The calls of an exactly-once handler

`HandlerCalls` are the calls of one `handler_wrapper` with `durability="exactly_once"` that carry
one idempotency key, and their storage.  A call is suspended at every storage call, at its
dependencies, at the body, at a middleware and at a wait between two attempts; what the storage does
to the key happens at one instant.  A storage call may raise, or be cancelled, before or after the
storage has carried it out.

A middleware may do as it likes: call the handler again, raise, or return something else.

A cancellation inside the body ends it as an error does.  The thread of a synchronous handler, which
goes on after the call is cancelled, is not modelled.
-/

namespace Istos

open Lease

/-- `handler_wrapper`, as far as an exactly-once call reads it. -/
structure HandlerWrapper (F T : Type) where
  /-- the path under which the handler answers -/
  path : String
  retryPolicy : RetryPolicy F
  /-- whether there is a middleware -/
  middleware : Bool
  /-- `_validate_return`; `none` where it raises -/
  validateReturn : Value → Option Value
  /-- `idempotency_lease_s` -/
  lease : T

/-- `SchemaValidationError`. -/
def PyError.invalidReturn : PyError := ⟨"SchemaValidationError", true, none⟩

/-- The error of a storage that refuses a call. -/
def PyError.storage : PyError := ⟨"storage error", true, none⟩

/-- The writes that follow a body, in their order. -/
inductive Recording
  | put
  | log
  | mark
  deriving DecidableEq

/-- Where a call stands; `lease` is until when it was granted the key. -/
inductive CallPhase (S : Type)
  | idle
  /-- at its dependencies -/
  | resolving (lease : WithTop S)
  /-- in a middleware, in attempt `n` -/
  | outer (lease : WithTop S) (n : ℕ)
  /-- in the body, in attempt `n` -/
  | body (lease : WithTop S) (n : ℕ)
  /-- in the sleep that follows attempt `n` -/
  | waiting (lease : WithTop S) (n : ℕ)
  /-- at a write -/
  | recording (lease : WithTop S) (result : Value) (write : Recording)
  /-- at the teardown of its dependencies -/
  | closing (lease : WithTop S) (outcome : Except PyError Value)
  /-- at `_release` -/
  | releasing (lease : WithTop S) (e : PyError)
  | ended

/-- How a call ends. -/
inductive CallOutcome
  | returns (v : Value)
  | raises (e : PyError)
  /-- `ConflictError` -/
  | refused

/-- What happens. -/
inductive CallEvent (C S : Type)
  /-- the body begins -/
  | started (c : C) (now : S)
  /-- the body returns, under a lease -/
  | bodyReturned (c : C) (v : Value) (lease : WithTop S)
  | bodyRaised (c : C) (e : PyError)
  /-- `mark_processed` returns -/
  | marked (c : C)
  | ended (c : C) (outcome : CallOutcome)

/-- How a storage call ends; `applied` says whether the storage has carried it out. -/
inductive StorageEnd
  | returns
  | raises (applied : Bool)
  | cancelled (applied : Bool)

/-- Whether the storage has carried the call out. -/
def StorageEnd.applied : StorageEnd → Bool
  | returns => true
  | raises applied => applied
  | cancelled applied => applied

/-- How a teardown ends. -/
inductive TeardownEnd
  | returns
  | raises (e : PyError)
  /-- a dependency takes the error and does not raise it again -/
  | swallows

/-- What can happen next. -/
inductive CallAction (C T S F : Type)
  /-- time passes -/
  | tick (t : S)
  /-- a call begins, and claims the key -/
  | call (c : C) (x : Clock T)
  /-- a call begins, and its claim raises -/
  | callFails (c : C) (x : Clock T) (applied : Bool) (e : PyError)
  /-- the dependencies are there, and the first attempt begins -/
  | resolved (c : C)
  /-- a dependency raises -/
  | unresolved (c : C) (e : PyError)
  /-- a middleware calls the handler -/
  | next (c : C)
  | bodyReturns (c : C) (v : Value)
  | bodyRaises (c : C) (e : PyError) (draw : F)
  /-- the middleware ends an attempt -/
  | attemptEnds (c : C) (outcome : Except PyError Value) (draw : F)
  /-- the sleep ends, and the next attempt begins -/
  | wake (c : C)
  /-- the sleep is cancelled -/
  | cancelSleep (c : C)
  /-- a write ends; `serialized` is what `put` and `log` are given -/
  | written (c : C) (x : Clock T) (serialized : Value) (end' : StorageEnd)
  /-- the teardown ends -/
  | closed (c : C) (end' : TeardownEnd)
  /-- `release_claim` ends -/
  | released (c : C) (x : Clock T) (end' : StorageEnd)

/-- The calls, their storage and its clock.  `standing` are the grants that were given back neither
by a release nor by a completion; nobody stores them. -/
structure HandlerCalls (σ C S : Type) where
  store : σ
  clock : S
  phase : C → CallPhase S
  standing : List (C × WithTop S)
  log : List (CallEvent C S)

namespace HandlerCalls

variable {σ C T S F : Type} [DecidableEq C]

/-- A call gets to a phase. -/
def goto (m : HandlerCalls σ C S) (c : C) (p : CallPhase S) : HandlerCalls σ C S :=
  { m with phase := Function.update m.phase c p }

/-- Something happens. -/
def add (m : HandlerCalls σ C S) (e : CallEvent C S) : HandlerCalls σ C S :=
  { m with log := m.log ++ [e] }

/-- A call ends. -/
def finish (m : HandlerCalls σ C S) (c : C) (o : CallOutcome) : HandlerCalls σ C S :=
  (m.goto c .ended).add (.ended c o)

/-- The body begins. -/
def start (m : HandlerCalls σ C S) (c : C) (lease : WithTop S) (n : ℕ) : HandlerCalls σ C S :=
  (m.goto c (.body lease n)).add (.started c m.clock)

section Wrapper

variable (h : HandlerWrapper F T)

/-- An attempt begins. -/
def beginAttempt (m : HandlerCalls σ C S) (c : C) (lease : WithTop S) (n : ℕ) :
    HandlerCalls σ C S :=
  if h.middleware then m.goto c (.outer lease n) else m.start c lease n

/-- An attempt returns: the result is validated. -/
def attemptReturns (m : HandlerCalls σ C S) (c : C) (lease : WithTop S) (v : Value) :
    HandlerCalls σ C S :=
  match h.validateReturn v with
  | some v => m.goto c (.recording lease v .put)
  | none => m.goto c (.closing lease (.error .invalidReturn))

variable [LinearOrder F] [Zero F] [One F] [Add F] [Mul F] [FloatPow F]

/-- An attempt raises. -/
def attemptRaises (m : HandlerCalls σ C S) (c : C) (lease : WithTop S) (n : ℕ) (e : PyError)
    (draw : F) : HandlerCalls σ C S :=
  match h.retryPolicy.after n e draw with
  | .again _ => m.goto c (.waiting lease n)
  | .fail e => m.goto c (.closing lease (.error e))

end Wrapper

variable [LinearOrder S] (B : LeasedStorage σ T S)

/-- Nobody has called. -/
def init (clock : S) : HandlerCalls σ C S := ⟨B.init, clock, fun _ => .idle, [], []⟩

/-- The storage carries a call out, or it does not, and time passes. -/
def ask (m : HandlerCalls σ C S) (op : LedgerOp T) (x : Clock T) (applied : Bool) :
    HandlerCalls σ C S :=
  { m with store := if applied then (B.perform m.store op x).1 else m.store, clock := B.later x }

/-- The readings of a storage call are in the order of time. -/
def Ready (m : HandlerCalls σ C S) (x : Clock T) : Prop := m.clock ≤ B.now x ∧ B.now x ≤ B.later x

instance (m : HandlerCalls σ C S) (x : Clock T) : Decidable (Ready B m x) :=
  inferInstanceAs (Decidable (_ ∧ _))

variable (h : HandlerWrapper F T) (key : String)

/-- `__call__`, up to the first suspension after the claim. -/
def claim (m : HandlerCalls σ C S) (c : C) (x : Clock T) : HandlerCalls σ C S :=
  match (B.perform m.store (.claim key h.lease) x).2 with
  | .claim ⟨.done, v⟩ => (m.ask B (.claim key h.lease) x true).finish c (.returns v)
  | .claim ⟨.inFlight, _⟩ => (m.ask B (.claim key h.lease) x true).finish c .refused
  | .claim ⟨.claimed, _⟩ =>
    { (m.ask B (.claim key h.lease) x true).goto c (.resolving (B.lapse x h.lease)) with
      standing := (c, B.lapse x h.lease) :: m.standing }
  | _ => (m.ask B (.claim key h.lease) x true).finish c (.raises .storage)

/-- The storage call of a write. -/
def writeOp (v serialized : Value) : Recording → LedgerOp T
  | .put => .put h.path serialized
  | .log => .log h.path serialized (some key)
  | .mark => .mark key v

/-- The storage call of a write raises: the failure is swallowed. -/
def writeRaises (m : HandlerCalls σ C S) (c : C) (lease : WithTop S) (v : Value) :
    Recording → HandlerCalls σ C S
  | .mark => m.goto c (.closing lease (.ok v))
  -- `put` and `log` share one `try`
  | _ => m.goto c (.recording lease v .mark)

/-- The storage call of a write returns. -/
def writeReturns (m : HandlerCalls σ C S) (c : C) (lease : WithTop S) (v : Value) :
    Recording → HandlerCalls σ C S
  | .put => m.goto c (.recording lease v .log)
  | .log => m.goto c (.recording lease v .mark)
  | .mark => (m.goto c (.closing lease (.ok v))).add (.marked c)

/-- The grants that stand after a write. -/
def standingAfterWrite (m : HandlerCalls σ C S) (c : C) (op : LedgerOp T) (x : Clock T)
    (applied : Bool) : List (C × WithTop S) :=
  match op, (B.perform m.store op x).2 with
  | .mark _ _, .unit => if applied then leave c m.standing else m.standing
  | _, _ => m.standing

/-- A write of a call ends. -/
def write (m : HandlerCalls σ C S) (c : C) (lease : WithTop S) (v : Value) (w : Recording)
    (x : Clock T) (serialized : Value) (end' : StorageEnd) : HandlerCalls σ C S :=
  let op := writeOp h key v serialized w
  let asked := { m.ask B op x end'.applied with
    standing := standingAfterWrite B m c op x end'.applied }
  match end' with
  -- `except Exception` lets a cancellation through
  | .cancelled _ => asked.goto c (.closing lease (.error .cancelled))
  | .raises _ => asked.writeRaises c lease v w
  | .returns =>
    match (B.perform m.store op x).2 with
    | .raised => asked.writeRaises c lease v w
    | _ => asked.writeReturns c lease v w

/-- The teardown of a call ends. -/
def close (m : HandlerCalls σ C S) (c : C) (lease : WithTop S) (outcome : Except PyError Value) :
    TeardownEnd → Option (HandlerCalls σ C S)
  | .returns =>
    match outcome with
    | .ok v => some (m.finish c (.returns v))
    | .error e => some (m.goto c (.releasing lease e))
  | .raises e => some (m.goto c (.releasing lease e))
  | .swallows =>
    match outcome with
    -- nothing was raised that a teardown could swallow
    | .ok _ => none
    -- `_invoke` falls off its end
    | .error _ => some (m.finish c (.returns .none))

/-- `release_claim` of a call ends; what it raises is swallowed. -/
def release (m : HandlerCalls σ C S) (c : C) (e : PyError) (x : Clock T) (end' : StorageEnd) :
    HandlerCalls σ C S :=
  let asked := { m.ask B (.release key) x end'.applied with
    standing := if end'.applied then leave c m.standing else m.standing }
  match end' with
  -- and so does the `except` of `_release`
  | .cancelled _ => asked.finish c (.raises .cancelled)
  | _ => asked.finish c (.raises e)

variable [LinearOrder F] [Zero F] [One F] [Add F] [Mul F] [FloatPow F]

/-- One action. -/
def step (m : HandlerCalls σ C S) : CallAction C T S F → Option (HandlerCalls σ C S)
  | .tick t => if m.clock ≤ t then some { m with clock := t } else none
  | .call c x =>
    match m.phase c with
    | .idle => if Ready B m x then some (m.claim B h key c x) else none
    | _ => none
  | .callFails c x applied e =>
    match m.phase c with
    | .idle =>
      if Ready B m x then some ((m.ask B (.claim key h.lease) x applied).finish c (.raises e))
        else none
    | _ => none
  | .resolved c =>
    match m.phase c with
    | .resolving lease => some (m.beginAttempt h c lease 0)
    | _ => none
  | .unresolved c e =>
    match m.phase c with
    | .resolving lease => some (m.goto c (.closing lease (.error e)))
    | _ => none
  | .next c =>
    match m.phase c with
    | .outer lease n => some (m.start c lease n)
    | _ => none
  | .bodyReturns c v =>
    match m.phase c with
    | .body lease n =>
      let m := m.add (.bodyReturned c v lease)
      some (if h.middleware then m.goto c (.outer lease n) else m.attemptReturns h c lease v)
    | _ => none
  | .bodyRaises c e draw =>
    match m.phase c with
    | .body lease n =>
      let m := m.add (.bodyRaised c e)
      some (if h.middleware then m.goto c (.outer lease n) else m.attemptRaises h c lease n e draw)
    | _ => none
  | .attemptEnds c outcome draw =>
    match m.phase c with
    | .outer lease n =>
      match outcome with
      | .ok v => some (m.attemptReturns h c lease v)
      | .error e => some (m.attemptRaises h c lease n e draw)
    | _ => none
  | .wake c =>
    match m.phase c with
    | .waiting lease n => some (m.beginAttempt h c lease (n + 1))
    | _ => none
  | .cancelSleep c =>
    match m.phase c with
    | .waiting lease _ => some (m.goto c (.closing lease (.error .cancelled)))
    | _ => none
  | .written c x serialized end' =>
    match m.phase c with
    | .recording lease v w =>
      if Ready B m x then some (m.write B h key c lease v w x serialized end') else none
    | _ => none
  | .closed c end' =>
    match m.phase c with
    | .closing lease outcome => m.close c lease outcome end'
    | _ => none
  | .released c x end' =>
    match m.phase c with
    | .releasing _ e => if Ready B m x then some (m.release B key c e x end') else none
    | _ => none

end HandlerCalls

end Istos
