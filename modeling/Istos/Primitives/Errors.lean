import Istos.Codec.Base64
import Istos.Codec.Json
import Istos.Primitives.Retry

/-!
# Errors and their envelope

A handler that raises is answered with an envelope: the registry makes an `ErrorResponse` of the
exception, and the caller rebuilds an exception from it.

An exception is what others see of it: the classes that it is an instance of, in the order of its
`__mro__`, its text, and, of an `IstosError`, its fields.
-/

namespace Istos

/-- The classes of exceptions. -/
inductive ErrorClass
  | schemaValidation
  | istos
  | replyDecode
  | notFound
  | unauthorized
  | forbidden
  | conflict
  | rateLimit
  | approvalDenied
  | approvalTimeout
  /-- any other class, of Python or of an application -/
  | other (name : String)
  deriving DecidableEq

/-- A Python object that is no value of `json`, as the serializers see it. -/
inductive PyObject
  /-- `bytes`, `bytearray` or `memoryview` -/
  | bytes (data : Bytes)
  /-- with `SerializeToString`; `none` where that raises -/
  | message (data : Option Bytes)
  /-- with `model_dump_json`; `none` where that raises -/
  | model (text : Option String)
  | other

/-- A Python value, as the serializers see it. -/
inductive PyValue
  | json (j : Json)
  /-- `written` is what `json.dumps` writes of it with `default=str`; `none` where it raises -/
  | object (o : PyObject) (written : Option Json)

/-- What `json.dumps` writes with `default=str`; `none` where it raises. -/
def PyValue.written : PyValue → Option Json
  | json j => some j
  | object _ written => written

/-- The fields of an `IstosError`; `None` is `null`. -/
structure IstosFields where
  message : Json
  code : Json
  status : ℤ
  retryable : Option Bool
  details : PyValue

/-- An `Exception`. -/
structure Raised where
  /-- `type(exc).__mro__` -/
  mro : List ErrorClass
  /-- `str(exc)` -/
  text : String
  /-- `getattr(exc, "errors", None)` -/
  errors : PyValue
  /-- of an `IstosError`, its fields -/
  istos : Option IstosFields
  isSome_istos : istos.isSome = true ↔ ErrorClass.istos ∈ mro

/-- What `is_retryable` looks at. -/
def Raised.asError (e : Raised) : PyError :=
  ⟨e.text, true, e.istos.map fun fields => (fields.retryable, fields.status)⟩

/-- `ErrorResponse`. -/
structure ErrorResponse where
  error : Json
  code : Json
  message : Json
  correlationId : Option String
  details : PyValue

/-- `ERROR_MARKER`. -/
def errorMarker : String := "__istos_error"

/-- The details that an envelope gets: the `none` inside is `None`, which is left out; `none` where
they cannot be written. -/
def PyValue.details : PyValue → Option (Option Json)
  | .json .null => some none
  | .json j => some (some j)
  | .object _ written => written.map some

/-- The fields of an envelope. -/
def ErrorResponse.fields (r : ErrorResponse) (details : Option Json) : List (String × Json) :=
  [(errorMarker, .bool true), ("error", r.error), ("code", r.code), ("message", r.message)]
    ++ (match r.correlationId with
      | some cid => if cid = "" then [] else [("correlation_id", .str cid)]
      | none => [])
    ++ details.toList.map fun details => ("details", details)

/-- `ErrorResponse.to_dict`. -/
def ErrorResponse.toDict (r : ErrorResponse) : PyValue :=
  match r.details with
  | .json .null => .json (.obj (r.fields none))
  | .json details => .json (.obj (r.fields (some details)))
  | .object _ written => .object .other (written.map fun details => .obj (r.fields (some details)))

/-- `is_error_payload`. -/
def isErrorPayload (j : Json) : Bool :=
  match j with
  | .obj fields =>
    match fields.lookup "__istos_error" with
    | some .null => ["error", "code", "message"].all fun k => (fields.lookup k).isSome
    | some marker => marker.truthy
    | none => ["error", "code", "message"].all fun k => (fields.lookup k).isSome
  | _ => false

/-! ### The registry -/

/-- The class for which an exception handler is registered, and the handler: it may raise. -/
abbrev ExceptionHandlerRegistry := ErrorClass → Option (Raised → Except Raised ErrorResponse)

namespace ExceptionHandlerRegistry

/-- The default handler of a `SchemaValidationError`. -/
def fromSchemaValidation (e : Raised) : Except Raised ErrorResponse :=
  .ok ⟨.str "validation_error", .str "validation_error", .str e.text, none, e.errors⟩

/-- The reply to an exception that nothing is registered for. -/
def internalError : ErrorResponse :=
  ⟨.str "internal_error", .str "internal_error", .str "Internal error", none, .json .null⟩

/-- `_from_istos_error`.  It is only called for an `IstosError`. -/
def fromIstosError (e : Raised) : Except Raised ErrorResponse :=
  match e.istos with
  | some fields => .ok ⟨fields.code, fields.code, fields.message, none, fields.details⟩
  | none => .ok internalError

/-- `_register_defaults`. -/
def default : ExceptionHandlerRegistry
  | .schemaValidation => some fromSchemaValidation
  | .istos => some fromIstosError
  | _ => none

/-- `resolve`. -/
def resolve (registry : ExceptionHandlerRegistry) (e : Raised) : Except Raised ErrorResponse :=
  match e.mro.findSome? registry with
  | some handler => handler e
  | none => .ok internalError

end ExceptionHandlerRegistry

/-! ### The caller -/

/-- The error that the caller's side rebuilds, and its classes. -/
structure Rebuilt where
  classes : List ErrorClass
  fields : IstosFields
  correlationId : Json

/-- `is_retryable` of what was rebuilt. -/
def Rebuilt.isRetryable (r : Rebuilt) : Bool :=
  PyError.isRetryable ⟨"", true, some (r.fields.retryable, r.fields.status)⟩

/-- `_CODE_TO_ERROR`: the class, and the status that its `__init__` sets. -/
def codeToError : Json → Option (ErrorClass × ℤ)
  | .str "not_found" => some (.notFound, 404)
  | .str "unauthorized" => some (.unauthorized, 401)
  | .str "forbidden" => some (.forbidden, 403)
  | .str "conflict" => some (.conflict, 409)
  | .str "rate_limit_exceeded" => some (.rateLimit, 429)
  | _ => none

/-- `CODE_TO_STATUS`. -/
def codeToStatus : Json → Option ℤ
  | .str "unauthorized" => some 401
  | .str "forbidden" => some 403
  | .str "not_found" => some 404
  | .str "validation_error" => some 400
  | .str "bad_request" => some 400
  | .str "conflict" => some 409
  | .str "rate_limit_exceeded" => some 429
  | _ => none

/-- `DEFAULT_ERROR_STATUS`. -/
def defaultErrorStatus : ℤ := 500

/-- `error_from_payload`; `none` where it raises, because the code cannot be looked up. -/
def errorFromPayload (parsed : Json) (defaultCode : String) : Option Rebuilt :=
  let code := (parsed.get? "code").getD (.str defaultCode)
  let message := (parsed.get? "message").getD (.str "the responder failed")
  let details := (parsed.get? "details").getD .null
  let correlationId := (parsed.get? "correlation_id").getD .null
  match code with
  | .arr _ => none
  | .obj _ => none
  | code =>
    match codeToError code with
    | some (cls, status) =>
      some ⟨[cls, .istos], ⟨message, code, status, none, .json details⟩, correlationId⟩
    | none =>
      some ⟨[.istos],
        ⟨message, code, (codeToStatus code).getD defaultErrorStatus, none, .json details⟩,
        correlationId⟩

/-! ### One hop -/

/-- The envelope of an exception, where the registry makes one, as `on_query` sends it. -/
def envelope (registry : ExceptionHandlerRegistry) (e : Raised) (correlationId : Option String) :
    Except Raised PyValue :=
  (registry.resolve e).map fun r => { r with correlationId := correlationId }.toDict

/-- What the caller of a JSON endpoint with the default registry raises; `none` where that is no
`IstosError` from a payload. -/
def received [Rounding] (e : Raised) (correlationId : Option String) : Option Rebuilt :=
  match envelope ExceptionHandlerRegistry.default e correlationId with
  | .ok v =>
    ((v.written.bind fun j => Json.loads j.dumps).filter isErrorPayload).bind fun j =>
      errorFromPayload j "internal_error"
  | .error _ => none

end Istos
