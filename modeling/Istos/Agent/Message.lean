import Istos.Codec.PyText

/-!
# Tools, replies and events of the agent loop

The values that the loop passes around: the tools of its catalogue, the reply of the model, the chat
messages that it keeps for the model, and the events that it yields to whoever drives it.

A caller's own data is `Json`.
-/

namespace Json

/-- `None` is `null`. -/
def ofOption : Option String → Json
  | some s => .str s
  | none => .null

/-- `json.dumps(value or {})`. -/
def dumpsOrEmpty (value : Option Json) : String :=
  match value with
  | some j => if j.truthy then j.dumps else (Json.obj []).dumps
  | none => (Json.obj []).dumps

/-- `data.get("kind") == kind`. -/
def hasKind (kind : String) (data : Json) : Bool :=
  match data.get? "kind" with
  | some (.str s) => s == kind
  | _ => false

end Json

namespace Istos

/-! ### Tools -/

/-- `tool_name`: every character outside `[A-Za-z0-9_-]` becomes `-`. -/
def toolName (text : String) : String :=
  String.ofList (text.toList.map fun c =>
    if ('A' ≤ c ∧ c ≤ 'Z') ∨ ('a' ≤ c ∧ c ≤ 'z') ∨ ('0' ≤ c ∧ c ≤ '9') ∨ c = '_' ∨ c = '-' then c
    else '-')

/-- `approval=` of a tool. -/
inductive ApprovalFlag
  | flag (on : Bool)
  /-- the reason that an approver is shown -/
  | reason (text : String)
  deriving DecidableEq

/-- `MeshTool`, without what only its schema and its query use. -/
structure MeshTool where
  name : String
  approval : ApprovalFlag
  deriving DecidableEq

namespace MeshTool

/-- `requires_approval`. -/
def requiresApproval (t : MeshTool) : Bool :=
  match t.approval with
  | .flag on => on
  | .reason text => decide (text ≠ "")

/-- `approval_reason`. -/
def approvalReason (t : MeshTool) : Option String :=
  match t.approval with
  | .flag _ => none
  | .reason text => some text

end MeshTool

/-- `catalog.get(name)` for the catalogue of `_by_name`: the last tool of a name stands for it. -/
def byName (tools : List MeshTool) (name : String) : Option MeshTool :=
  tools.reverse.find? fun t => t.name = name

/-- How `MeshTool.call` ends. -/
inductive ToolEnd
  | value (v : Json)
  /-- a value that `json.dumps` refuses, and its `str` -/
  | object (text : String)
  /-- an `IstosError` -/
  | refused (code message : String)
  /-- another `Exception`, and its `str` -/
  | raised (text : String)

/-- `format_tool_result`. -/
def formatToolResult (v : Json) : String :=
  match v with
  | .str s => s
  | j => j.dumps

/-- `format_tool_error` of an `IstosError`. -/
def formatToolError (code message : String) : String := code ++ ": " ++ message

/-- The text for the model, and whether it is an error. -/
def ToolEnd.result : ToolEnd → String × Bool
  | value v => (formatToolResult v, false)
  | object text => (text, false)
  | refused code message => (formatToolError code message, true)
  | raised text => (text, true)

/-! ### The model -/

/-- `ToolCall`. -/
structure ToolCall where
  id : String
  name : String
  arguments : List (String × Json)

/-- `ModelReply`, without its telemetry. -/
structure ModelReply where
  content : Option String
  toolCalls : List ToolCall

/-- One entry of `tool_calls` in an assistant message.  A frame of the log may lack the name. -/
structure FunctionCall where
  id : String
  name : Json
  arguments : String

/-- A chat message. -/
inductive Message
  | system (content : String)
  | user (content : String)
  /-- the key `tool_calls` is there just when the list has an entry -/
  | assistant (content : Option String) (toolCalls : List FunctionCall)
  | tool (toolCallId content : String)

namespace Message

/-- `role == "system"`. -/
def isSystem : Message → Bool
  | system _ => true
  | _ => false

/-- `role == "tool"`. -/
def isTool : Message → Bool
  | tool _ _ => true
  | _ => false

end Message

/-- The entry of `tool_calls` for a call. -/
def ToolCall.function (tc : ToolCall) : FunctionCall :=
  ⟨tc.id, .str tc.name, (Json.obj tc.arguments).dumps⟩

/-- `_assistant_message`. -/
def assistantMessage (reply : ModelReply) : Message :=
  .assistant reply.content (reply.toolCalls.map ToolCall.function)

/-! ### Events -/

/-- The kinds of `AgentEvent`. -/
inductive EventKind
  | message
  | toolCall
  | toolResult
  | approvalRequest
  | approvalDecision
  | handoff
  | done
  deriving DecidableEq

/-- The text of a kind. -/
def EventKind.text : EventKind → String
  | message => "message"
  | toolCall => "tool_call"
  | toolResult => "tool_result"
  | approvalRequest => "approval_request"
  | approvalDecision => "approval_decision"
  | handoff => "handoff"
  | done => "done"

/-- `AgentEvent`: one step that the loop emits. -/
structure AgentEvent where
  kind : EventKind
  content : Option String
  name : Option String
  arguments : Option Json
  toolCallId : Option String
  error : Bool
  approvalId : Option String

/-- The frame that a driver sends for an event. -/
def AgentEvent.frame (e : AgentEvent) : Json :=
  .obj ([("kind", .str e.kind.text), ("content", Json.ofOption e.content),
    ("name", Json.ofOption e.name), ("arguments", e.arguments.getD .null),
    ("tool_call_id", Json.ofOption e.toolCallId), ("error", .bool e.error)]
    ++ match e.approvalId with
      | some id => [("approval_id", .str id)]
      | none => [])

end Istos
