import Istos.Codec.PyText
import Istos.Primitives.Errors
import Istos.Wire.Selector

/-!
# The HTTP gateway and the other clients

`statusForReply` maps a reply to an HTTP status.  `Client.selector` is the selector that a client
makes of the arguments of a call: the gateway encodes them with `encode_params`, and every other
client passes them as keyword arguments to a method with options of its own, and writes them with
`str`.
-/

namespace Istos

/-- `status_for_reply`; `none` where it raises. -/
def statusForReply (parsed : Json) : Option ℤ :=
  if isErrorPayload parsed then
    match parsed.get? "code" with
    | none => none
    | some (.arr _) => none
    | some (.obj _) => none
    | some code => some ((codeToStatus code).getD defaultErrorStatus)
  else some 200

/-! ### Arguments -/

/-- The arguments of a call, as the object of a JSON text. -/
abbrev Arguments := List (String × Json)

/-- One value in `encode_params`; `none` where it is dropped. -/
def encodeParam [PyText] : Json → Option String
  | .null => none
  | .bool b => some (if b then "true" else "false")
  | .str s => some (PyText.str (.str s))
  | .num n => some (PyText.str (.num n))
  | .float x => some (PyText.str (.float x))
  | .arr xs => some (Json.arr xs).dumps
  | .obj fields => some (Json.obj fields).dumps

/-- `encode_params`. -/
def encodeParams [PyText] (args : Arguments) : Params :=
  args.filterMap fun x => (encodeParam x.2).map fun v => (x.1, v)

/-- Who makes a call. -/
inductive Client
  /-- the HTTP gateway, with `build_selector` -/
  | gateway
  /-- a function decorated with `@query` -/
  | query
  /-- `query_once(key_expr, **arguments)` -/
  | queryOnce
  /-- `MeshTool.call` -/
  | meshTool
  /-- `tools/call` of the MCP server -/
  | mcp
  /-- `stream_query(key_expr, **arguments)` -/
  | streamQuery
  deriving DecidableEq

namespace Client

/-- The names that the call gives already: an argument of such a name raises `TypeError`. -/
def given : Client → List String
  | gateway => []
  | query => ["self"]
  | queryOnce => ["self", "key_expr"]
  | meshTool => ["self", "key_expr", "token", "timeout_s"]
  | mcp => ["self", "key_expr", "token"]
  | streamQuery => ["self", "key_expr"]

/-- The options of the client's own: an argument of such a name is no parameter of the call. -/
def options : Client → List String
  | gateway => []
  | query => []
  | queryOnce => ["timeout_s", "serializer", "token", "consolidate_replies"]
  | meshTool => ["serializer", "consolidate_replies"]
  | mcp => ["timeout_s", "serializer", "consolidate_replies"]
  | streamQuery => ["timeout_s", "serializer", "token"]

/-- The parameters of the selector, in their string form; `none` where the call raises. -/
def params [PyText] (c : Client) (args : Arguments) : Option Params :=
  match c with
  | gateway => some (encodeParams args)
  | c =>
    if args.any fun x => decide (x.1 ∈ c.given) then none
    else some ((args.filter fun x => decide (x.1 ∉ c.options)).map fun x => (x.1, PyText.str x.2))

/-- What the handler decodes; `none` where the call raises or the selector is refused. -/
def decoded [PyText] (c : Client) (z : Zenoh) (key : String) (args : Arguments) : Option Params :=
  (c.params args).bind fun params => (z.read (buildSelector key params)).map Prod.snd

end Client

end Istos
