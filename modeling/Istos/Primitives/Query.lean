import Istos.Security.Authz

/-!
# Answering a query

`HandlerEndpoint.onQuery` is the `on_query` of a `@handle` endpoint and `StreamEndpoint.onQuery` the
one of a `@stream` endpoint: they authorize, validate, run and reply.  What a reply holds is written
by the serializer of the endpoint, errors included.

The libraries behind the serializers are a parameter.
-/

namespace Istos

/-! ### Serializers -/

/-- `msgpack` and `yaml`. -/
structure SerializerLibraries where
  /-- `msgpack.packb(message, use_bin_type=True)`; `none` where it raises -/
  packb : PyValue → Option Bytes
  /-- `yaml.dump(message)`; `none` where it raises -/
  yamlDump : PyValue → Option String

/-- The built-in serializers. -/
inductive BuiltinSerializer
  | json
  | raw
  | msgPack
  | protobuf
  | pydantic
  | yaml
  | base64 (inner : BuiltinSerializer)
  deriving DecidableEq

/-- `serialize`; `none` where it raises. -/
def BuiltinSerializer.serialize (lib : SerializerLibraries) : BuiltinSerializer → PyValue →
    Option Bytes
  | json, v => v.written.map fun j => Utf8.encode j.dumps
  | raw, v =>
    match v with
    | .object (.bytes data) _ => some data
    | .json (.str s) => some (Utf8.encode s)
    | _ => none
  | msgPack, v => lib.packb v
  | protobuf, v =>
    match v with
    | .object (.message data) _ => data
    | _ => none
  | pydantic, v =>
    match v with
    | .object (.model text) _ => text.map Utf8.encode
    | _ => none
  | yaml, v => (lib.yamlDump v).map Utf8.encode
  | base64 inner, v => (inner.serialize lib v).map fun data => Utf8.encode (Base64.b64encode data)

/-! ### Queries -/

/-- A query, as `on_query` reads it. -/
structure Query where
  key : String
  /-- the decoded parameters -/
  params : Params
  attachment : Option Bytes

/-- A reply: the value and its bytes. -/
structure Reply where
  value : PyValue
  payload : Bytes

/-- What came of a query. -/
structure Served where
  replies : List Reply
  /-- whether the body ran -/
  ran : Bool
  /-- what `on_query` itself raised -/
  escaped : Option Raised

/-- What answers the exceptions of an endpoint, and how replies are written. -/
structure ReplyPath where
  lib : SerializerLibraries
  serializer : BuiltinSerializer
  registry : ExceptionHandlerRegistry
  /-- what a serializer raises for a value that it rejects -/
  rejection : PyValue → Raised

namespace ReplyPath

variable (p : ReplyPath)

/-- `query.reply(key, serializer.serialize(value))` with what is raised suppressed. -/
def attempt (v : PyValue) : List Reply := ((p.serializer.serialize p.lib v).map (⟨v, ·⟩)).toList

/-- The reply of a response. -/
def reply (r : ErrorResponse) (correlationId : Option String) : List Reply :=
  p.attempt { r with correlationId := correlationId }.toDict

/-- The last `except Exception`: what the registry raises escapes. -/
def outer (ran : Bool) (correlationId : Option String) (e : Raised) : Served :=
  match p.registry.resolve e with
  | .ok r => ⟨p.reply r correlationId, ran, none⟩
  | .error e' => ⟨[], ran, some e'⟩

/-- An `except` inside the `try`: what the registry raises is an exception of the `try`. -/
def inner (correlationId : Option String) (e : Raised) : Served :=
  match p.registry.resolve e with
  | .ok r => ⟨p.reply r correlationId, false, none⟩
  | .error e' => p.outer false correlationId e'

end ReplyPath

/-- A `handler_wrapper` on the network; `A` are validated parameters. -/
structure HandlerEndpoint (P A : Type) extends ReplyPath where
  path : String
  authorizer : Option (Authorizer P)
  /-- `validate_params` without `db` -/
  validate : Params → Except Raised A
  /-- `self(**validated_params)`, with the principal in the context -/
  call : A → Option P → Except Raised PyValue

/-- What an authorizer is shown of a query. -/
def Query.authContext {P : Type} (q : Query) (path operation : String) : AuthContext P :=
  ⟨path, q.key, q.params, q.attachment, operation, none⟩

/-- `on_query` of a `handler_wrapper`; `fresh` is a new correlation id. -/
def HandlerEndpoint.onQuery [Rounding] {P A : Type} (h : HandlerEndpoint P A) (q : Query)
    (fresh : String) :
    Served :=
  let cid := some (ingressContext q.attachment fresh)
  match checkAuthorized h.authorizer (q.authContext h.path "handle") with
  | .error e =>
    if .unauthorized ∈ e.mro then h.inner cid e else h.outer false cid e
  | .ok principal =>
    match h.validate q.params with
    | .error e =>
      if .schemaValidation ∈ e.mro then h.inner cid e else h.outer false cid e
    | .ok validated =>
      match h.call validated principal with
      | .error e => h.outer true cid e
      | .ok result =>
        match h.serializer.serialize h.lib result with
        | some payload => ⟨[⟨result, payload⟩], true, none⟩
        | none => h.outer true cid (h.rejection result)

/-- What an async generator does: it yields chunks, and then ends or raises. -/
structure Chunks where
  chunks : List PyValue
  raises : Option Raised

/-- A `stream_wrapper` on the network. -/
structure StreamEndpoint (P A : Type) extends ReplyPath where
  path : String
  authorizer : Option (Authorizer P)
  validate : Params → Except Raised A
  /-- the dependencies, the middleware and the generator -/
  body : A → Option P → Chunks

namespace StreamEndpoint

variable {P A : Type} (h : StreamEndpoint P A)

/-- `_reply_error` in the last `except Exception`. -/
def replyError (ran : Bool) (correlationId : Option String) (before : List Reply) (e : Raised) :
    Served :=
  { h.outer ran correlationId e with replies := before ++ (h.outer ran correlationId e).replies }

/-- `_drive`: the chunks that were sent, and what was raised. -/
def drive : List PyValue → List Reply × Option Raised
  | [] => ([], none)
  | v :: vs =>
    match h.serializer.serialize h.lib v with
    | some payload => (⟨v, payload⟩ :: (drive vs).1, (drive vs).2)
    | none => ([], some (h.rejection v))

/-- `on_query` of a `stream_wrapper`; `ambient` is the correlation id of the context that is there
before there is one of the query. -/
def onQuery [Rounding] (q : Query) (ambient : Option String) (fresh : String) : Served :=
  match checkAuthorized h.authorizer (q.authContext h.path "stream") with
  | .error e =>
    if .unauthorized ∈ e.mro then h.inner ambient e else h.outer false ambient e
  | .ok principal =>
    let cid := some (ingressContext q.attachment fresh)
    match h.validate q.params with
    | .error e =>
      if .schemaValidation ∈ e.mro then h.inner cid e else h.outer false cid e
    | .ok validated =>
      let body := h.body validated principal
      let (sent, failed) := h.drive body.chunks
      match failed <|> body.raises with
      | some e => h.replyError true cid sent e
      | none => ⟨sent, true, none⟩

end StreamEndpoint

end Istos
