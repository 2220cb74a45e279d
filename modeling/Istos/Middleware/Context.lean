import Istos.Codec.Hex
import Istos.Security.Authz

/-!
# The context of a request

`ingressContext` is the context of one delivery: a correlation id and a traceparent are taken from
the attachment when they pass `sanitizeCorrelationId` and `sanitizeTraceparent`.  What is sent from
within a request carries both on (`Hop.attachment`).

Contexts are objects, which scopes share: a `Task` has those that exist, and the variable
`_request_context`.
-/

namespace Istos

/-- `str(uuid)` of the 128 bits of a UUID. -/
def uuidText (n : ℕ) : String :=
  let digits := (List.range 32).map fun i => Hex.lower (n / 16 ^ (31 - i) % 16)
  String.ofList (digits.take 8 ++ '-' :: ((digits.drop 8).take 4 ++ '-' ::
    ((digits.drop 12).take 4 ++ '-' :: ((digits.drop 16).take 4 ++ '-' :: digits.drop 20))))

/-- `[0-9a-f]`. -/
def isHexDigit (c : Char) : Bool :=
  (48 ≤ c.toNat && c.toNat ≤ 57) || (97 ≤ c.toNat && c.toNat ≤ 102)

/-- A field of a traceparent. -/
def isTraceField (n : ℕ) (field : List Char) : Bool := field.length == n && field.all isHexDigit

/-- The fields of a traceparent, as `_TRACEPARENT_RE` has them. -/
def isTraceparent (candidate : List Char) : Bool :=
  match candidate.splitOn '-' with
  | [version, traceId, spanId, flags] =>
    isTraceField 2 version && isTraceField 32 traceId && isTraceField 16 spanId &&
      isTraceField 2 flags && version != ['f', 'f'] && traceId.any (· != '0') &&
      spanId.any (· != '0')
  | _ => false

/-- `sanitize_traceparent`. -/
def sanitizeTraceparent : Json → Option String
  | .str s =>
    let candidate := (strip s).map Char.toLower
    if isTraceparent candidate then some (String.ofList candidate) else none
  | _ => none

/-- `RequestContext`. -/
structure RequestContext (P : Type) where
  correlationId : String
  /-- `prefix` -/
  path : String
  operation : String
  principal : Option P
  attachment : Option Bytes
  traceparent : Option String

namespace RequestContext

variable {P : Type}

/-- `RequestContext()`. -/
def fresh (uuid : ℕ) : RequestContext P := ⟨uuidText uuid, "", "", none, none, none⟩

/-- `RequestContext.token`. -/
def token [Rounding] (ctx : RequestContext P) : Json :=
  (RequestEnvelope.fromAttachment ctx.attachment).token

/-- `ingress_context`. -/
def ingress [Rounding] (path operation : String) (attachment : Option Bytes) (principal : Option P)
    (uuid : ℕ) : RequestContext P where
  correlationId := ingressContext attachment (uuidText uuid)
  path := path
  operation := operation
  principal := principal
  attachment := attachment
  traceparent := sanitizeTraceparent (RequestEnvelope.fromAttachment attachment).traceparent

/-- The context of the `RequestScope` that an endpoint with a middleware makes of its own. -/
def copied (ctx : RequestContext P) (path operation : String) : RequestContext P :=
  { ctx with path := path, operation := operation }

end RequestContext

/-! ### What is sent from within a request -/

/-- The token of a query, as bytes; the token that `from_attachment` finds in them is text. -/
structure QueryToken [Rounding] where
  given : Option Bytes
  inner : Option String
  reads : (RequestEnvelope.fromAttachment given).token = orNull inner

/-- How the next node is reached. -/
inductive Hop [Rounding]
  /-- by a query, with the token that the caller gives -/
  | query (token : QueryToken)
  /-- by a stream, an open handshake, a call of a queue or `publish_once`, with the token that the
  caller gives, as text -/
  | request (token : Option String)
  /-- by a `@publish` function -/
  | publish

/-- The attachment that is sent; `ctx` is `peek_request_context()`. -/
def Hop.attachment [Rounding] {P : Type} (ctx : Option (RequestContext P)) : Hop → Option Bytes
  -- the token inside is text (`QueryToken.outboundAttachment_eq`)
  | query token => (outboundAttachment token.given (ctx.map (·.correlationId))
      (ctx.bind (·.traceparent))).getD none
  | request token => RequestEnvelope.toAttachment token (ctx.map (·.correlationId))
      (ctx.bind (·.traceparent))
  | publish =>
    match ctx with
    | none => none
    | some ctx =>
      if ctx.correlationId = "" ∧ (ctx.traceparent = none ∨ ctx.traceparent = some "") then none
      else RequestEnvelope.toAttachment none (some ctx.correlationId) ctx.traceparent

/-- The endpoint that a hop comes to, and what there is of its own. -/
structure Ingress (P : Type) where
  path : String
  operation : String
  principal : Option P
  uuid : ℕ
  /-- the function runs in the scope of a middleware -/
  middleware : Bool

/-- The context that the function at a delivery runs in. -/
def Ingress.context [Rounding] {P : Type} (d : Ingress P) (attachment : Option Bytes) :
    RequestContext P :=
  let ctx := RequestContext.ingress d.path d.operation attachment d.principal d.uuid
  if d.middleware then ctx.copied d.path d.operation else ctx

/-- What the code in a task reaches: the contexts, the variable `_request_context`, and the rest. -/
structure Task (P W : Type) where
  contexts : List (RequestContext P)
  current : Option ℕ
  world : W

namespace Task

variable {P W : Type}

/-- `peek_request_context`. -/
def peek (t : Task P W) : Option (RequestContext P) := t.current.bind (t.contexts[·]?)

/-- `push_request_context`; its token is the variable as it was. -/
def push (t : Task P W) (ctx : ℕ) : Task P W := { t with current := some ctx }

/-- `pop_request_context`. -/
def pop (t : Task P W) (token : Option ℕ) : Task P W := { t with current := token }

/-- A new context, which comes last. -/
def create (t : Task P W) (ctx : RequestContext P) : Task P W :=
  { t with contexts := t.contexts ++ [ctx] }

/-- `ctx.prefix = …; ctx.operation = …`. -/
def describe (t : Task P W) (ctx : ℕ) (path operation : String) : Task P W :=
  { t with contexts := t.contexts.modify ctx (·.copied path operation) }

end Task

end Istos
