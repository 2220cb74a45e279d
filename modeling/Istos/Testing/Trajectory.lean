import Istos.Agent.Loop
import Istos.Data.Table

/-!
# Recorded runs of an agent, and their replay

`record_agent` runs the loop once for each text of the user and keeps what the model answered and
what the loop emitted.  `replay` runs it again on the recorded answers, with stubs in the place of
the tools, and lists what is not as it was recorded.

Both take step after step: whoever answers the loop does so by an action.  In a replay the model and
the stubs answer by themselves, and only the gate is free to do what it likes, as the one that
answers like the recorded human is.
-/

namespace Istos

/-- What Python's `==` says.  A value equals itself, a NaN within it too, as the two are one object.
-/
class PyEq where
  /-- `a == b` -/
  eq : Json → Json → Bool
  eq_self : ∀ j, eq j j = true

/-- Equality of data whose text is the same. -/
@[reducible] def PyEq.plain : PyEq where
  eq a b := a.dumps == b.dumps
  eq_self j := beq_self_eq_true j.dumps

/-- `ModelTurn`: one completion, without its telemetry. -/
structure ModelTurn where
  content : Option String
  toolCalls : List ToolCall
  toolsOffered : List String

/-- `ModelTurn.from_reply`. -/
def ModelTurn.fromReply (reply : ModelReply) (toolsOffered : List String) : ModelTurn where
  content := reply.content
  toolCalls := reply.toolCalls
  toolsOffered := toolsOffered

/-- `ModelTurn.to_reply`. -/
def ModelTurn.toReply (t : ModelTurn) : ModelReply where
  content := t.content
  toolCalls := t.toolCalls

@[simp] theorem ModelTurn.toReply_fromReply (r : ModelReply) (offered : List String) :
    (fromReply r offered).toReply = r := rfl

/-- `ToolOutcome`: one tool call and what it returned. -/
structure ToolOutcome where
  name : String
  arguments : Json
  content : String
  error : Bool
  toolCallId : Option String

/-- An entry of `approvals`. -/
structure ApprovalRecord where
  kind : EventKind
  id : Option String
  tool : Option String
  arguments : Option Json
  content : Option String
  error : Bool

/-- `Trajectory`, without what only its file holds. -/
structure Trajectory where
  system : Option String
  userTurns : List String
  modelTurns : List ModelTurn
  tools : List ToolOutcome
  events : List AgentEvent
  approvals : List ApprovalRecord

namespace Trajectory

variable (traj : Trajectory)

/-- `tool_names`: in the order of the calls. -/
def toolNames : List String := traj.tools.map ToolOutcome.name

/-- `final_message`. -/
def finalMessage : Option String :=
  (traj.events.reverse.find? fun e => e.kind = .message).bind AgentEvent.content

/-- The tools that a human was asked about. -/
def requested : List (Option String) :=
  (traj.approvals.filter fun a => a.kind = .approvalRequest).map ApprovalRecord.tool

end Trajectory

/-! ### Recording -/

/-- A call that waits for its result. -/
structure PendingCall where
  name : String
  arguments : Json

/-- `TrajectoryRecorder`, with the completions that its model has kept. -/
structure TrajectoryRecorder where
  turns : List ModelTurn
  events : List AgentEvent
  tools : List ToolOutcome
  approvals : List ApprovalRecord
  users : List String
  /-- `_pending`: by the id of the call -/
  pending : Table (Prod.fst : String × PendingCall → String)

namespace TrajectoryRecorder

/-- A recorder that has seen nothing. -/
def empty : TrajectoryRecorder := ⟨[], [], [], [], [], ∅⟩

/-- `str(event.tool_call_id)`. -/
def pendingKey (e : AgentEvent) : String := e.toolCallId.getD "None"

/-- `dict(value or {})`. -/
def dictOrEmpty (value : Option Json) : Json :=
  match value with
  | some j => if j.truthy then j else .obj []
  | none => .obj []

/-- The outcome that a result makes of the call it belongs to. -/
def outcome (call : Option PendingCall) (e : AgentEvent) : ToolOutcome where
  name :=
    match e.name with
    | some name => if name = "" then (call.map PendingCall.name).getD "" else name
    | none => (call.map PendingCall.name).getD ""
  arguments := (call.map PendingCall.arguments).getD (.obj [])
  content := e.content.getD ""
  error := e.error
  toolCallId := e.toolCallId

/-- What `observe` does besides keeping the event. -/
def note (r : TrajectoryRecorder) (e : AgentEvent) : TrajectoryRecorder :=
  match e.kind with
  | .toolCall =>
    { r with pending := r.pending.put (pendingKey e, ⟨e.name.getD "", dictOrEmpty e.arguments⟩) }
  | .toolResult =>
    { r with
      pending := r.pending.erase (pendingKey e)
      tools := r.tools ++ [outcome ((r.pending.get? (pendingKey e)).map Prod.snd) e] }
  | .approvalRequest | .approvalDecision =>
    { r with
      approvals := r.approvals ++
        [⟨e.kind, e.approvalId, e.name, e.arguments, e.content, e.error⟩] }
  | _ => r

/-- `observe`. -/
def observe (r : TrajectoryRecorder) (e : AgentEvent) : TrajectoryRecorder :=
  ({ r with events := r.events ++ [e] } : TrajectoryRecorder).note e

/-- `user`, where there is a text. -/
def user (r : TrajectoryRecorder) (text : String) : TrajectoryRecorder :=
  if text = "" then r else { r with users := r.users ++ [text] }

/-- `RecordingModel.complete`, after the inner model has answered. -/
def complete (r : TrajectoryRecorder) (reply : ModelReply) (offered : List String) :
    TrajectoryRecorder :=
  { r with turns := r.turns ++ [.fromReply reply offered] }

/-- `build`. -/
def build (r : TrajectoryRecorder) (system : Option String) : Trajectory :=
  ⟨system, r.users, r.turns, r.tools, r.events, r.approvals⟩

end TrajectoryRecorder

/-- The texts that the loop is run for; with none it is run once all the same. -/
def passes (texts : List String) : List String := if texts.isEmpty then [""] else texts

/-- `messages.append({"role": "user", …})`, where there is a text. -/
def addUser (messages : List Message) (text : String) : List Message :=
  if text = "" then messages else messages ++ [.user text]

/-- `record_agent` at work. -/
structure RecordSession where
  /-- the texts that are left -/
  todo : List String
  turn : Option (Turn Unit)
  messages : List Message
  recorder : TrajectoryRecorder

/-- What can happen next. -/
inductive RecordAction (T : Type)
  /-- the next text is taken up -/
  | next
  /-- the loop goes on -/
  | turn (a : TurnAction T)
  /-- the loop has ended -/
  | finish

namespace RecordSession

/-- The start.  The prompt goes to the front unless there is one. -/
def init (system : Option String) (texts : List String) (messages : List Message) :
    RecordSession where
  todo := passes texts
  turn := none
  messages := if messages.any Message.isSystem then messages else systemMessages system ++ messages
  recorder := .empty

/-- What the recorder sees of a step of the loop. -/
def watch (tools : List MeshTool) (r : TrajectoryRecorder) (t : Turn Unit) {T : Type} :
    TurnAction T → TrajectoryRecorder
  | .deliver =>
    match t.outbox with
    | e :: _ => r.observe e
    | [] => r
  | .reply reply => r.complete reply (tools.map MeshTool.name)
  | _ => r

/-- One action.  Where the loop raises, so does `record_agent`, and there is no recording. -/
def step [PyText] {T : Type} (tools : List MeshTool) (l : Loop Unit) (s : RecordSession) :
    RecordAction T → Option RecordSession
  | .next =>
    match s.turn, s.todo with
    | none, text :: todo =>
      (l.start () (addUser s.messages text)).map fun t =>
        ⟨todo, some t, addUser s.messages text, s.recorder.user text⟩
    | _, _ => none
  | .turn a =>
    match s.turn with
    | some t =>
      (t.step l a).map fun t' => { s with turn := some t', recorder := watch tools s.recorder t a }
    | none => none
  | .finish =>
    match s.turn with
    | some t =>
      match t.outbox, t.phase with
      | [], .ended => some { s with turn := none, messages := t.messages }
      | _, _ => none
    | none => none

/-- `record_agent` returns. -/
def Done (s : RecordSession) : Prop := s.turn = none ∧ s.todo = []

instance (s : RecordSession) : Decidable s.Done :=
  match s with
  | ⟨[], none, _, _⟩ => isTrue ⟨rfl, rfl⟩
  | ⟨_ :: _, none, _, _⟩ => isFalse fun h => nomatch h.2
  | ⟨_, some _, _, _⟩ => isFalse fun h => nomatch h.1

end RecordSession

/-! ### Replaying -/

namespace Trajectory

variable (traj : Trajectory)

/-- `queued`: the outcomes of each name. -/
def queued : Table (Prod.fst : String × List ToolOutcome → String) :=
  traj.tools.foldl
    (fun queued o => queued.put (o.name, ((queued.get? o.name).elim [] Prod.snd) ++ [o])) ∅

/-- `replay_tools`: one stub for each recorded name, with the gate it had. -/
def replayTools : List MeshTool :=
  traj.queued.keys.map fun name => ⟨name, .flag (traj.requested.contains (some name))⟩

/-- What the stub of a name is to hand back. -/
def canned (name : String) : List String :=
  ((traj.queued.get? name).elim [] Prod.snd).map ToolOutcome.content

/-- The loop of a replay; a gate stands in where a stub needs one. -/
def replayLoop (maxSteps : ℕ) (maxMessages : Option ℕ) (approvals : Bool) : Loop Unit :=
  runAgent traj.replayTools maxSteps maxMessages
    (approvals || traj.replayTools.any MeshTool.requiresApproval)

end Trajectory

/-- What begins the text of a stub that has nothing left. -/
def unrecordedMark : String := "__istos_replay_unrecorded__"

/-- `content.startswith("__istos_replay_unrecorded__")`. -/
def isUnrecorded (content : String) : Bool := unrecordedMark.toList.isPrefixOf content.toList

/-- `replay` at work. -/
structure ReplaySession where
  /-- `ReplayModel._next` -/
  used : ℕ
  /-- `ReplayModel.offered` -/
  offered : List (List String)
  /-- what the stubs have left, by name -/
  remaining : String → List String
  todo : List String
  turn : Option (Turn Unit)
  messages : List Message
  recorder : TrajectoryRecorder
  /-- the text for the exception that has ended the replay -/
  failure : Option String

/-- What can happen next. -/
inductive ReplayAction (T : Type)
  /-- the next text is taken up -/
  | next
  /-- the recorded model answers -/
  | complete
  /-- the stub answers -/
  | canned
  /-- the loop goes on by itself, or by the gate -/
  | turn (a : TurnAction T)
  /-- the loop has ended -/
  | finish

namespace ReplaySession

variable (traj : Trajectory)

/-- The start of a replay. -/
def init : ReplaySession where
  used := 0
  offered := []
  remaining := traj.canned
  todo := passes traj.userTurns
  turn := none
  messages := systemMessages traj.system
  recorder := .empty
  failure := none

/-- `ReplayExhausted`. -/
def exhausted (asked recorded : ℕ) : String :=
  "The loop asked for completion " ++ Nat.repr asked ++ " but only " ++ Nat.repr recorded ++
    " were recorded"

/-- Another exception, which here is a `ValueError`. -/
def raised (text : String) : String := "replay raised ValueError: " ++ text

/-- `ReplayModel.complete`, and what the loop does with the reply. -/
def complete (l : Loop Unit) (s : ReplaySession) (t : Turn Unit) : ReplaySession :=
  match l.trimmed t.messages with
  | none => { s with failure := some (raised "max_messages must be >= 1") }
  | some _ =>
    let offered := s.offered ++ [traj.replayTools.map MeshTool.name]
    match traj.modelTurns[s.used]? with
    | none =>
      { s with
        offered := offered
        failure := some (exhausted (s.used + 1) traj.modelTurns.length) }
    | some turn =>
      { s with used := s.used + 1, offered := offered, turn := some (t.complete l turn.toReply) }

/-- `_canned`, and what the loop does with the text. -/
def answer (s : ReplaySession) (t : Turn Unit) (tc : ToolCall) : ReplaySession :=
  match s.remaining tc.name with
  | [] =>
    { s with turn := some (t.finished tc (.value (.str (unrecordedMark ++ ": " ++ tc.name)))) }
  | content :: rest =>
    { s with
      remaining := Function.update s.remaining tc.name rest
      turn := some (t.finished tc (.value (.str content))) }

/-- One action. -/
def step [PyText] {T : Type} (l : Loop Unit) (s : ReplaySession) :
    ReplayAction T → Option ReplaySession
  | .next =>
    match s.failure, s.turn, s.todo with
    | none, none, text :: todo =>
      some <|
        let messages := addUser s.messages text
        let s' := { s with todo := todo, messages := messages, recorder := s.recorder.user text }
        match l.start () messages with
        | some t => { s' with turn := some t }
        | none => { s' with failure := some (raised "max_steps must be >= 1") }
    | _, _, _ => none
  | .complete =>
    match s.failure, s.turn with
    | none, some t =>
      match t.outbox, t.phase with
      | [], .completing => some (s.complete traj l t)
      | _, _ => none
    | _, _ => none
  | .canned =>
    match s.failure, s.turn with
    | none, some t =>
      match t.outbox, t.phase with
      | [], .calling tc => some (s.answer t tc)
      | _, _ => none
    | _, _ => none
  | .turn a =>
    match s.failure, s.turn, a with
    | none, some _, .reply _ | none, some _, .result _ => none
    | none, some t, .deliver =>
      (t.step l a).map fun t' =>
        { s with turn := some t', recorder := t.outbox.head?.elim s.recorder s.recorder.observe }
    | none, some t, a => (t.step l a).map fun t' => { s with turn := some t' }
    | _, _, _ => none
  | .finish =>
    match s.failure, s.turn with
    | none, some t =>
      match t.outbox, t.phase with
      | [], .ended => some { s with turn := none, messages := t.messages }
      | _, _ => none
    | _, _ => none

/-- The replay is over. -/
def Done (s : ReplaySession) : Prop := s.failure.isSome = true ∨ s.turn = none ∧ s.todo = []

/-- `replayed`. -/
def replayed (s : ReplaySession) : Trajectory :=
  { s.recorder.build traj.system with modelTurns := traj.modelTurns }

end ReplaySession

/-! ### What is not as it was recorded -/

section Diff

variable [PyText]

/-- A list of texts in an f-string. -/
def namesText (names : List String) : String := PyText.str (.arr (names.map Json.str))

/-- `repr` of a message. -/
def messageText (message : Option String) : String :=
  match message with
  | some s => PyText.repr s
  | none => "None"

/-- `tool calls changed`. -/
def diffNames (expected actual : Trajectory) : List String :=
  if expected.toolNames = actual.toolNames then []
  else
    ["tool calls changed: recorded " ++ namesText expected.toolNames ++ ", replayed " ++
      namesText actual.toolNames]

/-- `arguments changed`. -/
def diffArguments [PyEq] (expected actual : Trajectory) : List String :=
  (expected.tools.zip actual.tools).zipIdx.flatMap fun x =>
    if x.1.1.name = x.1.2.name && !PyEq.eq x.1.1.arguments x.1.2.arguments then
      ["call " ++ Nat.repr (x.2 + 1) ++ " to " ++ x.1.1.name ++ ": arguments changed, recorded " ++
        PyText.str x.1.1.arguments ++ ", replayed " ++ PyText.str x.1.2.arguments]
    else []

omit [PyText] in
/-- `was called more often than it was recorded`. -/
def diffUnrecorded (actual : Trajectory) : List String :=
  (actual.tools.filter fun o => isUnrecorded o.content).map fun o =>
    o.name ++ " was called more often than it was recorded"

/-- `final message changed`. -/
def diffMessage (compareText : Bool) (expected actual : Trajectory) : List String :=
  if compareText && decide (expected.finalMessage ≠ actual.finalMessage) then
    ["final message changed: recorded " ++ messageText expected.finalMessage ++ ", replayed " ++
      messageText actual.finalMessage]
  else []

/-- `tools no longer offered`. -/
def diffOffered (expected : Trajectory) (offered : List (List String)) : List String :=
  (expected.modelTurns.zip offered).zipIdx.flatMap fun x =>
    let missing := x.1.1.toolsOffered.filter fun name => decide (name ∉ x.1.2)
    if missing.isEmpty then []
    else ["turn " ++ Nat.repr (x.2 + 1) ++ ": tools no longer offered: " ++ namesText missing]

omit [PyText] in
/-- `approval requests changed`. -/
def diffApprovals (expected actual : Trajectory) : List String :=
  if expected.requested.length = actual.requested.length then []
  else
    ["approval requests changed: recorded " ++ Nat.repr expected.requested.length ++
      ", replayed " ++ Nat.repr actual.requested.length]

/-- `_diff`. -/
def trajectoryDiff [PyEq] (expected actual : Trajectory) (offered : List (List String))
    (compareText : Bool) : List String :=
  diffNames expected actual ++ diffArguments expected actual ++ diffUnrecorded actual ++
    diffMessage compareText expected actual ++ diffOffered expected offered ++
    diffApprovals expected actual

/-- `diff` of the result of `replay`. -/
def ReplaySession.diff [PyEq] (traj : Trajectory) (compareText : Bool) (s : ReplaySession) :
    List String :=
  s.failure.toList ++ trajectoryDiff traj (s.replayed traj) s.offered compareText

end Diff

end Istos
