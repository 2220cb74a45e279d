import Istos.Di.Depends
import Istos.Middleware.Stack
import Istos.Streaming.Bridge
import Istos.Wire.Selector

/-!
# The server of a stream

`StreamWrapper.onQuery` answers one query to a `@stream`: it authorizes, validates and injects, runs
the generator within the middlewares, and sends one reply for each chunk.

A generator is a program that asks with each chunk, and is answered whether to go on or to end.
What the authorizer, the middlewares, the dependencies, the generator and the exception handlers do
is theirs.  The authorizer runs before the context of the query is pushed, and so do the exception
handlers where it refuses.
-/

namespace Istos

open MiddlewareStack Contextlib

/-! ### Generators -/

/-- How a generator at a `yield` is resumed. -/
inductive Resumption
  | next
  /-- `GeneratorExit` is raised at the `yield` -/
  | close

/-- How a generator ends. -/
inductive GeneratorEnd
  | returned
  | raised (x : Thrown)
  /-- with the `GeneratorExit` -/
  | exited

/-- An async generator. -/
abbrev AsyncGenerator (P W : Type) := Program (Task P W) PyValue Resumption GeneratorEnd

/-- An exception of Python's own, or of a class that nothing is registered for. -/
def Raised.plain (name text : String) : Raised :=
  ⟨[.other name, .other "Exception", .other "BaseException", .other "object"], text, .json .null,
    none, by simp⟩

/-- The exception that a call does not come about for. -/
def CallFault.thrown {F : Type} : CallFault F Thrown → Thrown
  | invalid x => x
  | cycle _ => .exception (.plain "DependencyCycleError" "dependency cycle")
  | required _ _ => .exception (.plain "TypeError" "missing a required argument")
  | raised x => x
  | recursion => .exception (.plain "RecursionError" "maximum recursion depth exceeded")
  | arguments => .exception (.plain "TypeError" "unexpected or missing keyword argument")

/-! ### The query -/

/-- What `query.reply` does. -/
inductive ReplyEnd
  | returns
  /-- it raises, having sent the reply or not -/
  | raises (sent : Bool) (x : Thrown)

/-- Whether the reply is sent. -/
def ReplyEnd.sent : ReplyEnd → Bool
  | returns => true
  | raises sent _ => sent

/-- A query, as the server sees it. -/
structure StreamQuery where
  keyExpr : String
  parameters : Params
  attachment : Option Bytes
  /-- `query.reply`, after the replies before it -/
  reply : List Bytes → Bytes → ReplyEnd

/-- What happens while a query is answered. -/
inductive StreamEvent
  /-- the generator yields -/
  | yielded (chunk : PyValue)
  | replied (payload : Bytes)
  /-- `query.drop` -/
  | dropped

/-- The reply that is sent. -/
def StreamEvent.reply : StreamEvent → Option Bytes
  | replied payload => some payload
  | _ => none

/-- The replies that were sent. -/
def replies (events : List StreamEvent) : List Bytes := events.filterMap StreamEvent.reply

/-- `JsonSerializer.serialize`. -/
def jsonSerialize (v : PyValue) : Except Thrown Bytes :=
  match v.written with
  | some j => .ok (Utf8.encode j.dumps)
  | none => .error (.exception (.plain "TypeError" "not JSON serializable"))

/-- An authorizer, which may act on the task. -/
abbrev TaskAuthorizer (P W : Type) :=
  AuthContext P → Task P W → Except Raised (AuthResult P) × Task P W

/-- Whether it is an exception of a class. -/
def Thrown.isA (c : ErrorClass) : Thrown → Bool
  | exception e => decide (c ∈ e.mro)
  | exit => false

/-- `stream_wrapper`. -/
structure StreamWrapper (F H O P W : Type) extends Endpoint F H String O Thrown where
  path : String
  serialize : PyValue → Except Thrown Bytes
  authorizer : Option (TaskAuthorizer P W)
  registry : ExceptionHandlerRegistry
  /-- what the exception handlers do to the task -/
  resolving : Raised → Task P W → Task P W
  middleware : Option (List (Middleware P W Unit))
  kind : F → CallableKind
  bodies : Bodies F String O Thrown
  /-- the function itself, called with its arguments -/
  generate : Kwargs F String O → AsyncGenerator P W
  recursionLimit : ℕ
  /-- `uuid4` -/
  uuid : Task P W → ℕ
  stream : verb = .stream

namespace StreamWrapper

variable {F H O P W : Type} (s : StreamWrapper F H O P W) (q : StreamQuery)

/-- The callables and the overrides of the dependencies. -/
def graph : DependencyGraph F H O := ⟨s.signature, s.kind, s.override⟩

/-- `agen.aclose()` after something was raised: what is raised then. -/
def aclose (x : Thrown) : AsyncGenerator P W → Task P W → Thrown × Task P W
  | .done .returned, t => (x, t)
  | .done .exited, t => (x, t)
  | .done (.raised y), t => (y, t)
  | .look next, t => aclose x (next t) t
  | .put t next, _ => aclose x next t
  | .ask _ _, t => (.exception (.plain "RuntimeError" "async generator ignored GeneratorExit"), t)

/-- The loop of `_drive`; `before` is what happened, and `now` what the loop does. -/
def driveFrom (before : List StreamEvent) :
    AsyncGenerator P W → Task P W → List StreamEvent →
      Except Thrown Unit × Task P W × List StreamEvent
  | .done .returned, t, now => (.ok (), t, now)
  | .done (.raised x), t, now => (.error x, t, now)
  | .done .exited, t, now => (.error .exit, t, now)
  | .look next, t, now => driveFrom before (next t) t now
  | .put t next, _, now => driveFrom before next t now
  | .ask chunk next, t, now =>
    let now := now ++ [.yielded chunk]
    let close (x : Thrown) (now : List StreamEvent) :=
      let (x, t) := aclose x (next .close) t
      (.error x, t, now)
    match s.serialize chunk with
    | .error x => close x now
    | .ok payload =>
      let reply := q.reply (replies (before ++ now)) payload
      let now := if reply.sent then now ++ [.replied payload] else now
      match reply with
      | .raises _ x => close x now
      | .returns => driveFrom before (next .next) t now

/-- `_drive`. -/
def drive (kwargs : Kwargs F String O) : Handler P W Unit StreamEvent := fun _ t before =>
  if s.sig.binds kwargs then s.driveFrom q before (s.generate kwargs) t []
  else (.error (CallFault.thrown (F := F) .arguments), t, [])

/-- `_drive` within the middlewares, in a scope with a context of its own. -/
def runMiddlewares (params : Params) (ctx : RequestContext P) (kwargs : Kwargs F String O)
    (t : Task P W) : Except Thrown Unit × Task P W × List StreamEvent :=
  let scope : Scope := ⟨s.path, "stream", params, t.contexts.length⟩
  match s.middleware with
  | none => s.drive q kwargs scope t []
  | some ms =>
    let own : RequestContext P := { (RequestContext.fresh (s.uuid t) : RequestContext P) with
      principal := ctx.principal
      attachment := ctx.attachment
      correlationId := ctx.correlationId
      traceparent := ctx.traceparent }
    let (result, t, log) := invoke (s.drive q kwargs) ms scope (t.create own) []
    (result, t, did log)

/-- `_reply_error`: what the registry raises, and the reply. -/
def replyError (e : Raised) (t : Task P W) (events : List StreamEvent) :
    Except Thrown Unit × Task P W × List StreamEvent :=
  let t := s.resolving e t
  match envelope s.registry e (t.peek.map (·.correlationId)) with
  | .error x => (.error (.exception x), t, events)
  | .ok error =>
    match s.serialize error with
    | .error (.exception _) => (.ok (), t, events)
    | .error .exit => (.error .exit, t, events)
    | .ok payload =>
      let reply := q.reply (replies events) payload
      let events := if reply.sent then events ++ [.replied payload] else events
      match reply with
      | .raises _ .exit => (.error .exit, t, events)
      | _ => (.ok (), t, events)

/-- What is raised while a query is served. -/
structure Failure where
  thrown : Thrown
  /-- it is caught where it is raised, and answered there -/
  caught : Bool

/-- What the body of `on_query` has come to when it ends or raises. -/
structure Attempt (P W : Type) where
  result : Except Failure Unit
  task : Task P W
  events : List StreamEvent
  /-- `token`, which is set when the context has been pushed -/
  token : Option (Option ℕ)

/-- What was raised is answered, if it is an `Exception`. -/
def answer (result : Except Thrown Unit) (t : Task P W) (events : List StreamEvent) :
    Except Thrown Unit × Task P W × List StreamEvent :=
  match result with
  | .ok () => (.ok (), t, events)
  | .error (.exception e) => s.replyError q e t events
  | .error .exit => (.error .exit, t, events)

/-- The exceptions of `on_query`: what is caught where it is raised is answered there, and what that
raises is answered as what was raised outside. -/
def conclude (result : Except Failure Unit) (t : Task P W) (events : List StreamEvent) :
    Except Thrown Unit × Task P W × List StreamEvent :=
  match result with
  | .ok () => (.ok (), t, events)
  | .error failure =>
    let (inner, t, events) :=
      if failure.caught then s.answer q (.error failure.thrown) t events
      else (.error failure.thrown, t, events)
    s.answer q inner t events

variable [DecidableEq F]

/-- The end of `async with AsyncExitStack()`. -/
def leave (inj : Injecting F String O Thrown) (result : Except (CallFault F Thrown) Unit) :
    Except Thrown Unit :=
  let exc := match result with
    | .ok _ => none
    | .error fault => some fault
  match (unwind (s.graph.exit s.bodies) inj.stack exc inj.log).1 with
  | none => .ok ()
  | some fault => .error fault.thrown

/-- From `validate_params` to the end of the stream, in the context of the query. -/
def serve (params : Params) (ctx : RequestContext P) (t : Task P W) :
    Except Failure Unit × Task P W × List StreamEvent :=
  match s.sig.validateParams s.py params s.injectedParams with
  | .error x => (.error ⟨x, x.isA .schemaValidation⟩, t, [])
  | .ok validated =>
    match s.callKwargs (validated.filter fun x => decide (x.1 ≠ "db")) with
    | .error fault => (.error ⟨fault.thrown, false⟩, t, [])
    | .ok existing =>
      let (resolved, inj) :=
        if s.hasDepends then
          s.graph.resolveDependencies s.bodies existing s.recursionLimit [] s.func [] .empty
        else (.ok existing, .empty)
      let (result, t, events) :=
        match resolved with
        | .error fault => (.error fault, t, [])
        | .ok kwargs =>
          let (result, t, events) := s.runMiddlewares q params ctx kwargs t
          (result.mapError .raised, t, events)
      ((s.leave inj result).mapError fun x => ⟨x, false⟩, t, events)

/-- What the authorizer is asked. -/
def authContext : AuthContext P :=
  ⟨s.path, q.keyExpr, decodeParams q.parameters, q.attachment, "stream", none⟩

/-- `await check_authorized(…)`. -/
def authorize (t : Task P W) : Except Raised (Option P) × Task P W :=
  match s.authorizer with
  | none => (checkAuthorized none (s.authContext q), t)
  | some authorizer =>
    let (answer, t) := authorizer (s.authContext q) t
    (checkAuthorized (some fun _ => answer) (s.authContext q), t)

/-- The body of `on_query`, up to what it raises. -/
def attempt [Rounding] (t : Task P W) : Attempt P W :=
  match s.authorize q t with
  | (.error e, t) => ⟨.error ⟨.exception e, (Thrown.exception e).isA .unauthorized⟩, t, [], none⟩
  | (.ok principal, t) =>
    let ctx := RequestContext.ingress s.path "stream" q.attachment principal (s.uuid t)
    let (result, t', events) := s.serve q (decodeParams q.parameters) ctx
      ((t.create ctx).push t.contexts.length)
    ⟨result, t', events, some t.current⟩

/-- `on_query`. -/
def onQuery [Rounding] (t : Task P W) : Except Thrown Unit × Task P W × List StreamEvent :=
  let a := s.attempt q t
  let (result, t, events) := s.conclude q a.result a.task a.events
  let t := match a.token with
    | some before => t.pop before
    | none => t
  (result, t, events ++ [.dropped])

end StreamWrapper

/-! ### The caller -/

/-- What the generator of `stream_query` raises for a reply. -/
inductive ChunkFault
  /-- it cannot be decoded -/
  | undecodable
  /-- the error that is rebuilt; `none` where that raises -/
  | refused (e : Option Rebuilt)

/-- What the generator of `stream_query` does with a reply to a JSON stream. -/
def readChunk [Rounding] (payload : Bytes) : Except ChunkFault Json :=
  match (Utf8.decode payload).bind Json.loads with
  | none => .error .undecodable
  | some j =>
    if isErrorPayload j then .error (.refused (errorFromPayload j "stream_error")) else .ok j

end Istos
