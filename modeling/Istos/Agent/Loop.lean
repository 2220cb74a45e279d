import Istos.Agent.Approval
import Istos.Agent.Transcript

/-!
# The agent loop

A `Turn` is one run of the loop: it plans with the model, serves the tool calls of the reply in
their order, and goes on until the model answers with text or the steps are used up.  The loop is a
generator, so it stands still while an event waits to be taken; the model, the gate and the tools
answer it with whatever they like, and each answer is one action.

`run_agent` and `run_multi_agent` differ in what a `Loop` holds.  They share `_dispatch_tool`, which
is `file`, `decided`, `invoke` and `finished` here.
-/

namespace Istos

/-- A loop and its limits. -/
structure Loop (A : Type) where
  /-- the tools of an agent -/
  tools : A → List MeshTool
  /-- `handoff_by_tool.get(name)` -/
  target : A → String → Option A
  agentName : A → String
  /-- what the model of an agent is shown -/
  present : A → List Message → List Message
  /-- whether the check up front finds a tool that needs a gate -/
  needsGate : A → Bool
  /-- the message at the ceiling -/
  stopped : ℕ → String
  /-- `0` stands for every number below `1` -/
  maxSteps : ℕ
  maxMessages : Option ℕ
  /-- whether a gate was passed -/
  approvals : Bool

/-- Where a turn stands. -/
inductive TurnPhase
  /-- before a completion -/
  | completing
  /-- before the next call of the batch -/
  | dispatching
  /-- at `approvals.request` -/
  | filing (tc : ToolCall) (tool : MeshTool)
  /-- at `approvals.wait` -/
  | waiting (tc : ToolCall) (id : String)
  /-- before `_run_tool`; `request` is the request that has cleared it -/
  | ready (tc : ToolCall) (arguments : Json) (request : Option String)
  /-- at `tool.call` -/
  | calling (tc : ToolCall)
  | ended
  /-- an exception has left the generator -/
  | raised

/-- What a turn has done.  `call` numbers the tool calls of the turn. -/
inductive TurnEntry (A : Type)
  /-- `model.complete` was given these messages -/
  | completed (agent : A) (shown : List Message)
  /-- a request was filed -/
  | filed (call : ℕ) (id : String) (tc : ToolCall)
  /-- `MeshTool.call` was entered -/
  | invoked (call : ℕ) (request : Option String) (tool : MeshTool) (arguments : Json)
  /-- a `tool` message was appended -/
  | answered (call : ℕ) (tc : ToolCall) (content : String)

/-- One run of the loop. -/
structure Turn (A : Type) where
  active : A
  /-- the completions so far -/
  steps : ℕ
  phase : TurnPhase
  /-- what is left of the batch -/
  todo : List ToolCall
  /-- `next_active` -/
  next : A
  messages : List Message
  /-- the tool calls so far -/
  served : ℕ
  /-- the events that wait to be taken -/
  outbox : List AgentEvent
  trace : List (TurnEntry A)

/-- What can happen next. -/
inductive TurnAction (T : Type)
  /-- an event is taken -/
  | deliver
  /-- the model answers -/
  | reply (r : ModelReply)
  /-- the loop goes on with its batch -/
  | next
  /-- `approvals.request` returns a request of this id -/
  | file (id : String)
  /-- `approvals.wait` ends -/
  | verdict (v : Verdict T)
  /-- the loop runs the tool -/
  | invoke
  /-- `tool.call` ends -/
  | result (o : ToolEnd)

/-- The text for the model where `wait` raises. -/
def Verdict.refusal [PyText] {T : Type} : Verdict T → Option String
  | returned _ => none
  | denied message => some (formatToolError "approval_denied" message)
  | timedOut message => some (formatToolError "approval_timeout" message)
  | notFound id => some (formatToolError "not_found" ("No approval request " ++ PyText.repr id))

/-- The text of an approval: the note, or who has given it. -/
def approvalText {T : Type} (req : ApprovalRequest T) : String :=
  match req.note with
  | some note => if note = "" then approvedBy else note
  | none => approvedBy
where
  /-- `f"approved by {decided_by or 'a human'}"` -/
  approvedBy : String :=
    "approved by " ++ match req.decidedBy with
      | some who => if who = "" then "a human" else who
      | none => "a human"

namespace AgentEvent

/-- The last message of a turn. -/
def final (content : Option String) : AgentEvent :=
  match content with
  | some text =>
    if text = "" then ⟨.message, some "The model returned an empty response.", none, none, none,
      true, none⟩
    else ⟨.message, some text, none, none, none, false, none⟩
  | none => ⟨.message, some "The model returned an empty response.", none, none, none, true, none⟩

/-- The message at the ceiling. -/
def ceiling (text : String) : AgentEvent := ⟨.message, some text, none, none, none, false, none⟩

/-- The end of a turn. -/
def finished : AgentEvent := ⟨.done, none, none, none, none, false, none⟩

def handedOff (tc : ToolCall) (source target : String) : AgentEvent :=
  ⟨.handoff, some (source ++ " -> " ++ target), some target, none, some tc.id, false, none⟩

def called (tc : ToolCall) : AgentEvent :=
  ⟨.toolCall, none, some tc.name, some (.obj tc.arguments), some tc.id, false, none⟩

def returned (tc : ToolCall) (content : String) (error : Bool) : AgentEvent :=
  ⟨.toolResult, some content, some tc.name, none, some tc.id, error, none⟩

def asked (tc : ToolCall) (tool : MeshTool) (id : String) : AgentEvent :=
  ⟨.approvalRequest, tool.approvalReason, some tc.name, some (.obj tc.arguments), some tc.id, false,
    some id⟩

def refused (tc : ToolCall) (id refusal : String) : AgentEvent :=
  ⟨.approvalDecision, some refusal, some tc.name, none, some tc.id, true, some id⟩

def cleared {T : Type} (tc : ToolCall) (id : String) (req : ApprovalRequest T) : AgentEvent :=
  ⟨.approvalDecision, some (approvalText req), some tc.name, some req.arguments, some tc.id, false,
    some id⟩

end AgentEvent

namespace Loop

variable {A : Type}

/-- The turn that begins with an agent and a chat log; `none` where the loop raises at once. -/
def start (l : Loop A) (active : A) (messages : List Message) : Option (Turn A) :=
  if l.maxSteps < 1 then none
  else if !l.approvals && l.needsGate active then none
  else some ⟨active, 0, .completing, [], active, messages, 0, [], []⟩

/-- `_trim_messages`, where there is a bound. -/
def trimmed (l : Loop A) (messages : List Message) : Option (List Message) :=
  match l.maxMessages with
  | some n => trimMessages messages n
  | none => some messages

end Loop

namespace Turn

variable {A : Type}

/-- Appends the `tool` message of the current call. -/
def answer (m : Turn A) (tc : ToolCall) (content : String) : Turn A :=
  { m with
    phase := .dispatching
    messages := m.messages ++ [.tool tc.id content]
    trace := m.trace ++ [.answered m.served tc content] }

/-- The messages for the next completion and the reply to them. -/
def complete (l : Loop A) (m : Turn A) (r : ModelReply) : Turn A :=
  match l.trimmed m.messages with
  -- `ValueError`: a bound below 1
  | none => { m with phase := .raised }
  | some messages =>
    { m with
      steps := m.steps + 1
      messages := messages ++ [assistantMessage r]
      todo := r.toolCalls
      next := m.active
      phase := if r.toolCalls.isEmpty then .ended else .dispatching
      outbox := if r.toolCalls.isEmpty then [.final r.content, .finished] else []
      trace := m.trace ++ [.completed m.active (l.present m.active messages)] }

/-- The end of a batch: the last transfer sets the active agent. -/
def endBatch (l : Loop A) (m : Turn A) : Turn A :=
  if m.steps < l.maxSteps then { m with active := m.next, phase := .completing }
  else
    { m with
      active := m.next
      phase := .ended
      outbox := [.ceiling (l.stopped l.maxSteps), .finished] }

/-- `_dispatch_tool`, up to the gate or to the tool. -/
def dispatch (l : Loop A) (m : Turn A) (tc : ToolCall) : Turn A :=
  { m with
    outbox := [.called tc]
    phase :=
      match byName (l.tools m.active) tc.name with
      | some tool =>
        if tool.requiresApproval && l.approvals then .filing tc tool
        else .ready tc (.obj tc.arguments) none
      | none => .ready tc (.obj tc.arguments) none }

/-- The next call of the batch, or its end. -/
def advance (l : Loop A) (m : Turn A) : Turn A :=
  match m.todo with
  | [] => m.endBatch l
  | tc :: todo =>
    match l.target m.active tc.name with
    | some target =>
      { ({ m with todo := todo, served := m.served + 1 } : Turn A).answer tc
          ("Transferred to " ++ l.agentName target ++ ".") with
        next := target
        outbox := [.handedOff tc (l.agentName m.active) (l.agentName target)] }
    | none => ({ m with todo := todo, served := m.served + 1 } : Turn A).dispatch l tc

/-- `approvals.request` has returned. -/
def file (m : Turn A) (tc : ToolCall) (tool : MeshTool) (id : String) : Turn A :=
  { m with
    phase := .waiting tc id
    outbox := [.asked tc tool id]
    trace := m.trace ++ [.filed m.served id tc] }

/-- `approvals.wait` has ended. -/
def decided [PyText] {T : Type} (m : Turn A) (tc : ToolCall) (id : String) (v : Verdict T) :
    Turn A :=
  match v, v.refusal with
  -- the approver may have changed the arguments
  | .returned req, _ =>
    { m with phase := .ready tc req.arguments (some id), outbox := [.cleared tc id req] }
  | _, some refusal =>
    { m.answer tc refusal with outbox := [.refused tc id refusal, .returned tc refusal true] }
  | _, none => m

/-- `_run_tool`, up to `tool.call`. -/
def invoke [PyText] (l : Loop A) (m : Turn A) (tc : ToolCall) (arguments : Json)
    (request : Option String) : Turn A :=
  match byName (l.tools m.active) tc.name with
  | none =>
    -- an answer for the model, not an error
    let text := "unknown tool: " ++ PyText.repr tc.name
    { m.answer tc text with outbox := [.returned tc text true] }
  | some tool =>
    { m with
      phase := .calling tc
      trace := m.trace ++ [.invoked m.served request tool arguments] }

/-- `tool.call` has ended. -/
def finished (m : Turn A) (tc : ToolCall) (o : ToolEnd) : Turn A :=
  { m.answer tc o.result.1 with outbox := [.returned tc o.result.1 o.result.2] }

/-- One action.  The loop goes on when every event is taken. -/
def step [PyText] {T : Type} (l : Loop A) (m : Turn A) : TurnAction T → Option (Turn A)
  | .deliver =>
    match m.outbox with
    | [] => none
    | _ :: outbox => some { m with outbox := outbox }
  | .reply r =>
    match m.outbox, m.phase with
    | [], .completing => some (m.complete l r)
    | _, _ => none
  | .next =>
    match m.outbox, m.phase with
    | [], .dispatching => some (m.advance l)
    | _, _ => none
  | .file id =>
    match m.outbox, m.phase with
    | [], .filing tc tool => some (m.file tc tool id)
    | _, _ => none
  | .verdict v =>
    match m.outbox, m.phase with
    | [], .waiting tc id => some (m.decided tc id v)
    | _, _ => none
  | .invoke =>
    match m.outbox, m.phase with
    | [], .ready tc arguments request => some (m.invoke l tc arguments request)
    | _, _ => none
  | .result o =>
    match m.outbox, m.phase with
    | [], .calling tc => some (m.finished tc o)
    | _, _ => none

end Turn

/-- `run_agent`: one agent, whose prompt stands in the chat log. -/
def runAgent (tools : List MeshTool) (maxSteps : ℕ) (maxMessages : Option ℕ) (approvals : Bool) :
    Loop Unit where
  tools _ := tools
  target _ _ := none
  agentName _ := ""
  present _ messages := messages
  needsGate _ := tools.any MeshTool.requiresApproval
  stopped n := "Stopped after " ++ Nat.repr n ++ " tool steps without a final answer."
  maxSteps := maxSteps
  maxMessages := maxMessages
  approvals := approvals

end Istos
