import Istos.Data.Program
import Istos.Middleware.Context
import Istos.Middleware.RateLimit
import Istos.Observability.Metrics

/-!
# The middlewares of a request

`MiddlewareStack.invoke` runs the handler within the middlewares.  A middleware is a program that
reaches the task, and asks for the next one by `call_next`: once, several times or never.

`log` is what happened, with what the handler itself did.
-/

namespace Istos

/-- What is raised. -/
inductive Thrown
  | exception (e : Raised)
  /-- a `BaseException` that is no `Exception`, as where the task is cancelled -/
  | exit

/-- How a call of the next handler ends, for the metrics. -/
def handlerEnd {V : Type} : Except Thrown V → HandlerEnd
  | .ok _ => .returns
  | .error (.exception _) => .raises
  | .error .exit => .exits

namespace MiddlewareStack

/-- `RequestScope`; its context is the one with this number. -/
structure Scope where
  /-- `prefix` -/
  path : String
  operation : String
  params : Params
  context : ℕ

/-- `Middleware`: it is given a scope, and `call_next`, which it awaits one call after the other. -/
abbrev Middleware (P W V : Type) :=
  Scope → Program (Task P W) Scope (Except Thrown V) (Except Thrown V)

/-- A handler, and what it does. -/
abbrev Handler (P W V X : Type) := Scope → Task P W → List X → Except Thrown V × Task P W × List X

/-- What happens in a stack; a middleware is named by how many come after it. -/
inductive Event (P V X : Type)
  | entered (n : ℕ) (scope : Scope)
  | left (n : ℕ)
  /-- the handler was called in a context, and did something -/
  | handled (scope : Scope) (current : Option ℕ) (context : Option (RequestContext P))
    (result : Except Thrown V) (did : List X)

variable {P W V X : Type}

/-- What the handler did. -/
def Event.did : Event P V X → List X
  | handled _ _ _ _ did => did
  | _ => []

/-- All that the handler did. -/
def did (log : List (Event P V X)) : List X := log.flatMap Event.did

variable (handler : Handler P W V X)

/-- `dispatch`, from the middlewares that are left. -/
def dispatch :
    List (Middleware P W V) → Scope → Task P W → List (Event P V X) →
      Except Thrown V × Task P W × List (Event P V X)
  | [], scope, t, log =>
    let t := t.describe scope.context scope.path scope.operation
    let (result, t', now) := handler scope t (did log)
    (result, t', log ++ [.handled scope t.current t.contexts[scope.context]? result now])
  | m :: ms, scope, t, log =>
    let t := t.describe scope.context scope.path scope.operation
    let callNext (next : Scope) (t : Task P W) (log : List (Event P V X)) :=
      let (result, t', log) := dispatch ms next (t.push next.context) log
      (result, t'.pop t.current, log)
    let (result, t, log) := (m scope).run callNext t (log ++ [.entered ms.length scope])
    (result, t, log ++ [.left ms.length])

/-- `invoke`. -/
def invoke (ms : List (Middleware P W V)) (scope : Scope) (t : Task P W)
    (log : List (Event P V X)) : Except Thrown V × Task P W × List (Event P V X) :=
  let t := t.describe scope.context scope.path scope.operation
  let (result, t', log) := dispatch handler ms scope (t.push scope.context) log
  (result, t'.pop t.current, log)

end MiddlewareStack

/-! ### The middlewares of the package -/

section Middlewares

open MiddlewareStack

variable {P W V : Type}

/-- Something is done to the world. -/
def doing {Q A R : Type} (f : Task P W → W) (next : Program (Task P W) Q A R) :
    Program (Task P W) Q A R :=
  .look fun t => .put { t with world := f t } next

/-- What `LoggingMiddleware` logs, with the correlation id. -/
inductive LogRecord
  | started (operation path correlationId : String)
  | completed (operation path correlationId : String)
  | failed (operation path correlationId text : String)

/-- The correlation id of a context. -/
def Task.correlationId (t : Task P W) (ctx : ℕ) : String :=
  (t.contexts[ctx]?.map (·.correlationId)).getD ""

/-- `LoggingMiddleware.__call__`. -/
def loggingMiddleware (info : LogRecord → W → W) : Middleware P W V := fun scope =>
  doing (fun t =>
    info (.started scope.operation scope.path (t.correlationId scope.context)) t.world)
  (.ask scope fun
    | .ok v =>
      doing (fun t =>
        info (.completed scope.operation scope.path (t.correlationId scope.context)) t.world)
      (.done (.ok v))
    | .error (.exception e) =>
      doing (fun t => info
        (.failed scope.operation scope.path (t.correlationId scope.context) e.text) t.world)
      (.done (.error (.exception e)))
    | .error .exit => .done (.error .exit))

/-- `CorrelationIdMiddleware.__call__`. -/
def correlationIdMiddleware (uuid : Task P W → ℕ) : Middleware P W V := fun scope =>
  .look fun t =>
    let named (ctx : RequestContext P) := { ctx with correlationId := uuidText (uuid t) }
    if t.correlationId scope.context = "" then
      .put { t with contexts := t.contexts.modify scope.context named } (.ask scope .done)
    else .ask scope .done

/-- `TracingMiddleware.__call__`; `inject` is the traceparent of the span that is started, where
tracing is configured. -/
def tracingMiddleware (inject : Option (Scope → Task P W → Option String)) : Middleware P W V :=
  fun scope =>
    match inject with
    | none => .ask scope .done
    | some inject => .look fun t =>
      match inject scope t with
      | none => .ask scope .done
      | some tp =>
        let written (ctx : ℕ) (contexts : List (RequestContext P)) :=
          contexts.modify ctx fun ctx => { ctx with traceparent := some tp }
        let contexts := written scope.context t.contexts
        .put { t with contexts := t.current.elim contexts (written · contexts) }
          (.ask scope .done)

/-- `PrometheusMiddleware.__call__`; `collect` is a call of its collector. -/
def prometheusMiddleware (collect : MetricCall → W → W) (duration : Task P W → PyFloat) :
    Middleware P W V := fun scope =>
  let all (calls : List MetricCall) (w : W) := calls.foldl (fun w call => collect call w) w
  -- the first call is made before the handler is called, whatever it ends with
  doing (fun t => all ((prometheusCalls scope.operation scope.path .exits floatZero).take 1)
    t.world)
  (.ask scope fun result =>
    doing (fun t => all ((prometheusCalls scope.operation scope.path (handlerEnd result)
      (duration t)).drop 1) t.world)
    (.done result))

/-- `RateLimitError(message, details)`. -/
def Raised.rateLimit (e : RateLimitError) (details : PyValue) : Raised :=
  ⟨[.rateLimit, .istos, .other "Exception", .other "BaseException", .other "object"], e.message,
    .json .null, some ⟨.str e.message, .str "rate_limit_exceeded", 429, none, details⟩, by simp⟩

/-- `RateLimitMiddleware.__call__`; the world has its buckets, the request is what it reads under
its lock, and `details` is the object with the `retry_after`. -/
def rateLimitMiddleware [PyText] {M : Type} (m : RateLimitMiddleware M)
    (seen : Scope → Task P W → TimedRequest M) (buckets : W → Buckets) (keep : Buckets → W → W)
    (details : RateLimitError → PyValue) : Middleware P W V := fun scope =>
  .look fun t =>
    let (after, result) := m.call (buckets t.world) (seen scope t)
    .put { t with world := keep after t.world }
      (match result with
        | .error e => .done (.error (.exception (.rateLimit e (details e))))
        | .ok () => .ask scope .done)

end Middlewares

end Istos
