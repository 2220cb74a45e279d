import Istos.Agent.Discovery
import Istos.Primitives.Query
import Istos.Wire.Gateway

/-!
# The MCP adapter

`McpServer.handle` takes one JSON-RPC message: `tools/list` asks the authorizers of the handlers
which of them the caller may call, and `tools/call` sends a query to the handler, which asks its
authorizer itself.

The handlers are those of the node, and each replies within the default timeout.  What Zenoh makes
of another timeout and the texts of exceptions that Python raises are parameters.
-/

namespace Istos

/-! ### The catalogue -/

/-- A `handler_wrapper` and what a catalogue says of it. -/
structure CataloguedHandler (P A : Type) extends HandlerEndpoint P A where
  /-- `inspect.getdoc(func)` -/
  doc : Option String
  /-- `get_function_schemas(func)["payload_schema"]`; `none` also where that raises -/
  payloadSchema : Option Json

/-- A tool, as an MCP client is told of it. -/
structure McpTool where
  name : String
  description : String
  inputSchema : Json

/-- A tool as a dictionary. -/
def McpTool.toJson (t : McpTool) : Json :=
  .obj [("name", .str t.name), ("description", .str t.description), ("inputSchema", t.inputSchema)]

section Catalogue

variable {P A : Type}

namespace CataloguedHandler

variable (h : CataloguedHandler P A)

/-- An endpoint of the framework itself. -/
def isPlumbing : Bool := startsWith h.path ".istos/"

/-- The tool of a handler. -/
def tool : McpTool where
  name := toolName h.path
  description :=
    let text := strip (h.doc.getD "")
    if text = [] then toolName h.path else String.ofList text
  inputSchema := orElse h.payloadSchema (.obj [("type", .str "object"), ("properties", .obj [])])

end CataloguedHandler

/-- The tools, and the path under each name. -/
structure McpCatalogue where
  tools : List McpTool
  byName : List (String × String)

variable [PyText]

/-- One round of `_tools`; the text is the one of the `ValueError`. -/
def McpCatalogue.add (c : McpCatalogue) (h : CataloguedHandler P A) : Except String McpCatalogue :=
  if h.isPlumbing then .ok c
  else
    match c.byName.lookup (toolName h.path) with
    | some other =>
      .error ("MCP tool name " ++ PyText.repr (toolName h.path) ++ " is claimed by both " ++
        PyText.repr other ++ " and " ++ PyText.repr h.path ++ "; rename one of the handlers.")
    | none => .ok ⟨c.tools ++ [h.tool], c.byName ++ [(toolName h.path, h.path)]⟩

/-- `_tools`. -/
def mcpCatalogue (handlers : List (CataloguedHandler P A)) : Except String McpCatalogue :=
  handlers.foldlM McpCatalogue.add ⟨[], []⟩

/-- One round of `_callable_prefixes`. -/
def addCallable (token : Option String) (allowed : List String) (h : CataloguedHandler P A) :
    Except Raised (List String) :=
  match checkAuthorized h.authorizer
      ⟨h.path, h.path, [], RequestEnvelope.toAttachment token none none, "handle", none⟩ with
  | .ok _ => .ok (allowed ++ [h.path])
  | .error e => if .istos ∈ e.mro then .ok allowed else .error e

/-- `_callable_prefixes`, on the paths of the catalogue. -/
def callablePrefixes (handlers : List (CataloguedHandler P A)) (paths : List String)
    (token : Option String) : Except Raised (List String) :=
  (handlers.filter fun h => decide (h.path ∈ paths)).foldlM (addCallable token) []

end Catalogue

/-! ### The server -/

/-- The texts of what Python raises. -/
structure McpTexts where
  /-- `value.get` of a value without it -/
  noGet : Json → String
  /-- `query_once(path, token=token, **arguments)` of arguments that do not fit -/
  badCall : Json → String
  /-- a reply that cannot be decoded -/
  undecodable : List Bytes → String
  /-- a selector that Zenoh refuses -/
  refused : String → String
  /-- a timeout that Zenoh refuses; `none` where it takes it -/
  badTimeout : Json → Option String
  /-- the look-up of a code that cannot be looked up -/
  unhashable : Json → String
  /-- the encoding of a token that is no text -/
  badToken : String

/-- `MCPServer`, with the app that it serves and the request that it is called in. -/
structure McpServer (P A : Type) where
  zenoh : Zenoh
  handlers : List (CataloguedHandler P A)
  name : String
  version : String
  /-- of the request context, where there is one -/
  correlationId : Option String
  traceparent : Option String
  /-- a new correlation id -/
  fresh : String
  /-- whether nothing is replied within this timeout -/
  late : Json → Bool
  texts : McpTexts

/-- What a query comes to. -/
inductive Queried
  | value (reply : Json)
  /-- an `IstosError` -/
  | istosError (code message : Json)
  /-- another exception -/
  | raises (text : String)

/-- What came of something, and what the handlers did meanwhile. -/
structure McpOutcome (R : Type) where
  result : R
  served : List Served

/-- Whether the body of a handler ran. -/
def McpOutcome.ran {R : Type} (o : McpOutcome R) : Bool := o.served.any Served.ran

/-- `MCP_PROTOCOL_VERSION`. -/
def mcpProtocolVersion : String := "2025-06-18"

/-- `_jsonrpc_result`. -/
def jsonrpcResult (mid result : Json) : Json :=
  .obj [("jsonrpc", .str "2.0"), ("id", mid), ("result", result)]

/-- `_jsonrpc_error`. -/
def jsonrpcError (mid : Json) (code : ℤ) (message : String) : Json :=
  .obj [("jsonrpc", .str "2.0"), ("id", mid),
    ("error", .obj [("code", .num code), ("message", .str message)])]

/-- The result of a call. -/
def mcpContent (text : String) (isError : Bool) : Json :=
  .obj [("content", .arr [.obj [("type", .str "text"), ("text", .str text)]]),
    ("isError", .bool isError)]

/-- Whether the value is this text. -/
def isText (j : Json) (text : String) : Bool :=
  match j with
  | .str s => s == text
  | _ => false

/-- `data[0] if isinstance(data, list) and len(data) == 1 else data`. -/
def unwrapSingle : Json → Json
  | .arr [j] => j
  | j => j

namespace McpServer

variable {P A : Type} [PyText] [Rounding] (s : McpServer P A)

/-- `session.get`: every handler whose key expression the selector meets is asked. -/
def get (selector : String) (attachment : Option Bytes) : Option (List Served) :=
  (s.zenoh.read selector).map fun x =>
    (s.handlers.filter fun h => s.zenoh.intersects x.1 h.path).map fun h =>
      h.onQuery ⟨x.1, x.2, attachment⟩ s.fresh

/-- `r.decode()` of every reply; an argument `serializer` is no serializer. -/
def decodeReplies (args : Arguments) (replies : List Bytes) : Option (List Json) :=
  if (args.lookup "serializer").any Json.truthy then none
  else replies.mapM fun data => (Utf8.decode data).bind Json.loads

/-- `_do_query`, on the replies that came. -/
def received (path : String) (args : Arguments) (replies : List Bytes) : Queried :=
  if replies = [] then
    .istosError (.str "not_found") (.str ("No handler replied for " ++ PyText.repr path))
  else
    match decodeReplies args replies with
    | none =>
      .istosError (.str "decode_error") (.str ("Reply from " ++ PyText.repr path ++
        " could not be decoded: " ++ s.texts.undecodable replies))
    | some decoded =>
      let data := unwrapSingle (.arr decoded)
      if isErrorPayload data then
        match errorFromPayload data "internal_error" with
        | some r => .istosError r.fields.code r.fields.message
        | none => .raises (s.texts.unhashable data)
      else .value data

/-- The replies that come within the timeout that the arguments give. -/
def timely (args : Arguments) (served : List Served) : List Bytes :=
  if (args.lookup "timeout_s").any s.late then []
  else (served.flatMap Served.replies).map Reply.payload

/-- `query_once(path, token=token, **arguments)`. -/
def queryOnce (path : String) (args : Arguments) (token : Option String) : McpOutcome Queried :=
  match Client.mcp.params args with
  | none => ⟨.raises (s.texts.badCall (.obj args)), []⟩
  | some params =>
    match outboundAttachment (token.map Utf8.encode) s.correlationId s.traceparent with
    | none => ⟨.raises s.texts.badToken, []⟩
    | some attachment =>
      match (args.lookup "timeout_s").bind s.texts.badTimeout with
      | some text => ⟨.raises text, []⟩
      | none =>
        match s.get (buildSelector path params) attachment with
        | none => ⟨.raises (s.texts.refused (buildSelector path params)), []⟩
        | some served => ⟨s.received path args (s.timely args served), served⟩

/-- What `_call` makes of what the query came to. -/
def content : Queried → Json
  | .istosError code message => mcpContent (PyText.str code ++ ": " ++ PyText.str message) true
  | .raises text => mcpContent text true
  | .value reply =>
    match unwrapSingle reply with
    | .arr items =>
      if items.any isErrorPayload then mcpContent (Json.arr items).dumps true
      else mcpContent (Json.arr items).dumps false
    | .str text => mcpContent text false
    | data => mcpContent data.dumps false

/-- `_call`; `arguments` that are no dictionary cannot be passed on. -/
def call (path : String) (arguments : Json) (token : Option String) : McpOutcome Json :=
  match arguments with
  | .obj args =>
    let queried := s.queryOnce path args token
    ⟨content queried.result, queried.served⟩
  | j => ⟨content (.raises (s.texts.badCall j)), []⟩

/-- `tools/list`: the tools that this caller may call. -/
def visible (token : Option String) : Except String (List McpTool) := do
  let catalogue ← mcpCatalogue s.handlers
  let allowed ← (callablePrefixes s.handlers (catalogue.byName.map Prod.snd) token).mapError
    Raised.text
  return catalogue.tools.filter fun t =>
    (catalogue.byName.lookup t.name).any fun path => decide (path ∈ allowed)

/-- `tools/call`, on its `params`. -/
def toolsCall (mid params : Json) (token : Option String) :
    McpOutcome (Except String (Option Json)) :=
  match params with
  | .obj fields =>
    let name := (fields.lookup "name").getD .null
    match mcpCatalogue s.handlers with
    | .error text => ⟨.error text, []⟩
    | .ok catalogue =>
      match (match name with
        | .str name => catalogue.byName.lookup name
        | _ => none) with
      | none =>
        ⟨.ok (some (jsonrpcError mid (-32602) ("Unknown tool: " ++ PyText.reprJson name))), []⟩
      | some path =>
        let called := s.call path (orElse (fields.lookup "arguments") (.obj [])) token
        ⟨.ok (some (jsonrpcResult mid called.result)), called.served⟩
  | j => ⟨.error (s.texts.noGet j), []⟩

/-- `handle`: the response, or nothing for a notification. -/
def handle (message : Json) (token : Option String) : McpOutcome (Except String (Option Json)) :=
  match message with
  | .obj fields =>
    let method := (fields.lookup "method").getD .null
    let mid := (fields.lookup "id").getD .null
    if isText method "initialize" then
      ⟨.ok (some (jsonrpcResult mid (.obj [("protocolVersion", .str mcpProtocolVersion),
        ("capabilities", .obj [("tools", .obj [("listChanged", .bool false)])]),
        ("serverInfo", .obj [("name", .str s.name), ("version", .str s.version)])]))), []⟩
    else if isText method "notifications/initialized" then ⟨.ok none, []⟩
    else
      match mid with
      | .null => ⟨.ok none, []⟩
      | mid =>
        if isText method "tools/list" then
          ⟨(s.visible token).map fun tools =>
            some (jsonrpcResult mid (.obj [("tools", .arr (tools.map McpTool.toJson))])), []⟩
        else if isText method "tools/call" then
          s.toolsCall mid (orElse (fields.lookup "params") (.obj [])) token
        else
          let message := "Method not found: " ++ PyText.reprJson method
          ⟨.ok (some (jsonrpcError mid (-32601) message)), []⟩
  | j => ⟨.error (s.texts.noGet j), []⟩

end McpServer

end Istos
