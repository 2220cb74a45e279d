import Istos.Codec.Utf8
import Istos.Primitives.Errors
import Istos.Wire.Selector

/-!
# Authorizers

An `Authorizer` decides on an `AuthContext`: it answers, or it raises.  `checkAuthorized` turns a
falsy answer into an `UnauthorizedError`; `combineAuthorizers` layers the authorizer of one endpoint
over the one of the application.
-/

namespace Istos

/-! ### The envelope of a request -/

/-- `RequestEnvelope`; `None` is `null`. -/
structure RequestEnvelope where
  token : Json
  correlationId : Json
  traceparent : Json

/-- An optional string as a field. -/
def orNull : Option String → Json
  | some s => .str s
  | none => .null

/-- An envelope of strings, each present or absent. -/
def RequestEnvelope.ofStrings (token correlationId traceparent : Option String) : RequestEnvelope :=
  ⟨orNull token, orNull correlationId, orNull traceparent⟩

/-- The object that `to_attachment` writes. -/
def RequestEnvelope.fields (token correlationId traceparent : Option String) :
    List (String × Json) :=
  (token.toList.map fun s => ("tok", .str s)) ++ (correlationId.toList.map fun s => ("cid", .str s))
    ++ traceparent.toList.map fun s => ("tp", .str s)

/-- `RequestEnvelope.to_attachment`. -/
def RequestEnvelope.toAttachment (token correlationId traceparent : Option String) : Option Bytes :=
  if correlationId = none ∧ traceparent = none then token.map Utf8.encode
  else some (Utf8.encode (Json.obj (fields token correlationId traceparent)).dumpsCompact)

/-- A character that `str.strip` removes. -/
def isSpace (c : Char) : Bool :=
  let n := c.toNat
  (9 ≤ n ∧ n ≤ 13) ∨ (28 ≤ n ∧ n ≤ 32) ∨ n = 0x85 ∨ n = 0xA0 ∨ n = 0x1680 ∨
      (0x2000 ≤ n ∧ n ≤ 0x200A) ∨
    n = 0x2028 ∨ n = 0x2029 ∨ n = 0x202F ∨ n = 0x205F ∨ n = 0x3000

/-- `text.strip()`. -/
def strip (text : String) : List Char :=
  ((text.toList.dropWhile isSpace).reverse.dropWhile isSpace).reverse

/-- `RequestEnvelope.from_attachment`. -/
def RequestEnvelope.fromAttachment [Rounding] (raw : Option Bytes) : RequestEnvelope :=
  match raw.bind Utf8.decode with
  | none => ⟨.null, .null, .null⟩
  | some text =>
    let bare : RequestEnvelope := ⟨.str text, .null, .null⟩
    let stripped := strip text
    if stripped.head? = some '{' ∧ stripped.getLast? = some '}' then
      match Json.loads (String.ofList stripped) with
      | some (.obj fields) =>
        if ["tok", "cid", "tp"].any fun k => (fields.lookup k).isSome then
          ⟨(fields.lookup "tok").getD .null, (fields.lookup "cid").getD .null,
            (fields.lookup "tp").getD .null⟩
        else bare
      | _ => bare
    else bare

/-- `_outbound_attachment` for the token that a caller gives, as bytes; `none` where the token
inside is no text. -/
def outboundAttachment [Rounding] (given : Option Bytes)
    (correlationId traceparent : Option String) :
    Option (Option Bytes) :=
  match (RequestEnvelope.fromAttachment given).token with
  | .null => some (RequestEnvelope.toAttachment none correlationId traceparent)
  | .str text => some (RequestEnvelope.toAttachment (some text) correlationId traceparent)
  | _ => none

/-- `_CORRELATION_ID_MAX`. -/
def correlationIdMax : ℕ := 200

/-- `sanitize_correlation_id`. -/
def sanitizeCorrelationId (value : Json) : Option String :=
  match value with
  | .str s =>
    if s = "" ∨ correlationIdMax < s.length then none
    else if s.toList.any fun c => c.toNat < 32 ∨ c = '"' ∨ c = '\\' then none
    else some s
  | _ => none

/-- The correlation id of `ingress_context`; `fresh` is a new one. -/
def ingressContext [Rounding] (attachment : Option Bytes) (fresh : String) : String :=
  (sanitizeCorrelationId (RequestEnvelope.fromAttachment attachment).correlationId).getD fresh

/-! ### Authorizers -/

/-- `AuthContext`. -/
structure AuthContext (P : Type) where
  /-- `prefix` -/
  path : String
  keyExpr : String
  params : Params
  attachment : Option Bytes
  operation : String
  principal : Option P

/-- `AuthContext.token`. -/
def AuthContext.token [Rounding] {P : Type} (ctx : AuthContext P) : Json :=
  (RequestEnvelope.fromAttachment ctx.attachment).token

/-- What an authorizer returns, by its truth. -/
inductive AuthResult (P : Type)
  | falsy
  /-- `True` -/
  | allow
  /-- another truthy value -/
  | principal (p : P)

/-- An authorizer: it answers or raises. -/
abbrev Authorizer (P : Type) := AuthContext P → Except Raised (AuthResult P)

variable {P : Type}

/-- `UnauthorizedError(message)`. -/
def Raised.unauthorized (message : String) : Raised :=
  ⟨[.unauthorized, .istos, .other "Exception", .other "BaseException", .other "object"], message,
    .json .null, some ⟨.str message, .str "unauthorized", 401, none, .json .null⟩, by simp⟩

/-- `ForbiddenError(message)`. -/
def Raised.forbidden (message : String) : Raised :=
  ⟨[.forbidden, .istos, .other "Exception", .other "BaseException", .other "object"], message,
    .json .null, some ⟨.str message, .str "forbidden", 403, none, .json .null⟩, by simp⟩

/-- `check_authorized`. -/
def checkAuthorized (authorizer : Option (Authorizer P)) (ctx : AuthContext P) :
    Except Raised (Option P) :=
  match authorizer with
  | none => .ok none
  | some authorizer =>
    match authorizer ctx with
    | .ok .falsy => .error (.unauthorized ("Not authorized for '" ++ ctx.path ++ "'"))
    | .ok .allow => .ok none
    | .ok (.principal p) => .ok (some p)
    | .error e => .error e

/-- The authorizer that an endpoint is given. -/
inductive EndpointAuthorizer (P : Type)
  | inherited
  /-- `Public` -/
  | isPublic
  | guard (authorizer : Authorizer P)

/-- What `combine_authorizers` makes of two. -/
def layered (app handler : Authorizer P) : Authorizer P := fun ctx => do
  let appPrincipal ← checkAuthorized (some app) ctx
  let handlerPrincipal ← checkAuthorized (some handler) { ctx with principal := appPrincipal }
  match handlerPrincipal <|> appPrincipal with
  | some p => return .principal p
  | none => return .allow

/-- `combine_authorizers`. -/
def combineAuthorizers (app : Option (Authorizer P)) (handler : EndpointAuthorizer P) :
    Option (Authorizer P) :=
  match handler with
  | .isPublic => none
  | .inherited => app
  | .guard handler =>
    match app with
    | none => some handler
    | some app => some (layered app handler)

/-- `mode` of `require_roles`. -/
inductive RolesMode
  | all
  | any
  deriving DecidableEq

/-- `require_roles`; `rolesOf` is `_roles_of`, and `shown` writes what is required and what is
there. -/
def requireRoles (required : List String) (mode : RolesMode) (authenticator : Option (Authorizer P))
    (rolesOf : P → List String) (shown : List String → List String → String) : Authorizer P :=
        fun ctx => do
  let principal ←
    match authenticator with
    | some authenticator => checkAuthorized (some authenticator) ctx
    | none => pure ctx.principal
  match principal with
  | none =>
    throw (.unauthorized ("Authentication required for '" ++ ctx.path ++ "': no identity was " ++
      "established (an authorizer that returns a bare True, such as TokenAuthorizer with " ++
      "plain tokens, carries no roles — map tokens to a Principal)"))
  | some p =>
    let held := rolesOf p
    let ok := match mode with
      | .any => required.any fun role => decide (role ∈ held)
      | .all => required.all fun role => decide (role ∈ held)
    if ok then return .principal p
    else throw (.forbidden (shown required held))

end Istos
