import Istos.Agent.Multi

/-!
# Driving a durable channel

`drive_channel` and `drive_agents` reload the log of a conversation and run one turn for each
message of the peer.  A `Session` is one run of a driver; a `Conversation` is the sessions that the
peer holds one after another under one id, which share nothing but the log.
-/

namespace Istos

/-- A driver. -/
structure Driver (A : Type) where
  loop : Loop A
  /-- the prompt that stands in the chat log -/
  system : Option String
  entry : A
  /-- `registry.get(name)` -/
  registry : String → Option A
  sendEvents : Bool

/-- `_active_from_history`, one frame. -/
def restoreActive {A : Type} (registry : String → Option A) (active : A) (turn : ChannelFrame) :
    A :=
  if turn.dir ≠ "out" then active
  else if turn.data.hasKind "handoff" then
    match turn.data.get? "name" with
    | some (.str name) => (registry name).getD active
    | _ => active
  else active

/-- `_active_from_history`. -/
def activeFromHistory {A : Type} (registry : String → Option A) (entry : A)
    (history : List ChannelFrame) : A :=
  history.foldl (restoreActive registry) entry

/-- `history()` of a session: the newest entries of the log, oldest first. -/
def channelHistory (log : List ChannelFrame) : List ChannelFrame := (log.reverse.take 1000).reverse

/-- Puts the prompt in front of a chat log that has none. -/
def insertSystem (messages : List Message) (system : Option String) : List Message :=
  if messages.any Message.isSystem then messages else systemMessages system ++ messages

/-- Where a session stands. -/
inductive SessionPhase (A : Type)
  /-- before the next message of the peer -/
  | listening
  | turning (t : Turn A)
  /-- an exception has left the driver -/
  | over

/-- One run of a driver. -/
structure Session (A : Type) where
  log : List ChannelFrame
  /-- the chat log between two turns -/
  messages : List Message
  active : A
  phase : SessionPhase A

/-- What can happen next. -/
inductive SessionAction (T : Type)
  | receive (data : Json)
  | turn (a : TurnAction T)
  /-- the loop is at its end -/
  | finish

namespace Session

variable {A : Type}

/-- The session that a driver opens on a log; `none` where the history cannot be read. -/
def connect [PyText] (d : Driver A) (log : List ChannelFrame) : Option (Session A) :=
  (historyToMessages (channelHistory log) d.system true).map fun messages =>
    { log := log
      messages := insertSystem messages d.system
      active := activeFromHistory d.registry d.entry (channelHistory log)
      phase := .listening }

/-- The frame that is sent for an event. -/
def frame? (d : Driver A) (e : AgentEvent) : Option Json :=
  if e.kind = .done then none
  else if d.sendEvents then some e.frame
  else if e.kind = .message then e.content.map Json.str
  else none

/-- The active agent after an event. -/
def follow (d : Driver A) (active : A) (e : AgentEvent) : A :=
  if e.kind = .handoff then ((e.name.bind d.registry).getD active) else active

/-- The driver takes an event. -/
def take (d : Driver A) (s : Session A) (e : AgentEvent) : Session A :=
  { s with
    active := follow d s.active e
    log := s.log ++ match frame? d e with
      | some data => [⟨"out", data⟩]
      | none => [] }

/-- A message of the peer, and the turn that it starts. -/
def receive [PyText] (d : Driver A) (s : Session A) (data : Json) : Session A :=
  let messages := s.messages ++ [.user (userText data)]
  { s with
    log := s.log ++ [⟨"in", data⟩]
    messages := messages
    phase := match d.loop.start s.active messages with
      | some t => .turning t
      | none => .over }

/-- What the driver makes of an action of its turn. -/
def follows {T : Type} (d : Driver A) (s : Session A) (t : Turn A) : TurnAction T → Session A
  | .deliver =>
    match t.outbox with
    | e :: _ => s.take d e
    | [] => s
  | _ => s

/-- One action. -/
def step [PyText] {T : Type} (d : Driver A) (s : Session A) : SessionAction T → Option (Session A)
  | .receive data =>
    match s.phase with
    | .listening => some (s.receive d data)
    | _ => none
  | .turn a =>
    match s.phase with
    | .turning t => (t.step d.loop a).map fun t' => { s.follows d t a with phase := .turning t' }
    | _ => none
  | .finish =>
    match s.phase with
    | .turning t =>
      match t.outbox, t.phase with
      | [], .ended => some { s with messages := t.messages, phase := .listening }
      | _, _ => none
    | _ => none

end Session

/-- The sessions of one conversation. -/
inductive Conversation (A : Type)
  /-- no session is open; `last` was active at the end of the last one -/
  | apart (log : List ChannelFrame) (last : A)
  | held (s : Session A)

/-- What can happen next. -/
inductive ConversationAction (T : Type)
  /-- the peer connects -/
  | connect
  | session (a : SessionAction T)
  /-- the session ends: the peer hangs up, or an exception leaves the driver -/
  | drop
  /-- the session ends in the send of an event, before the frame is in the log -/
  | lose

/-- One action of a conversation. -/
def Conversation.step [PyText] {A T : Type} (d : Driver A) :
    Conversation A → ConversationAction T → Option (Conversation A)
  | .apart log _, .connect => (Session.connect d log).map .held
  | .held s, .session a => (s.step d a).map .held
  | .held s, .drop => some (.apart s.log s.active)
  | .held s, .lose =>
    match s.phase with
    | .turning t =>
      match t.outbox with
      | e :: _ => some (.apart s.log (Session.follow d s.active e))
      | [] => none
    | _ => none
  | _, _ => none

/-- `drive_channel`. -/
def driveChannel (tools : List MeshTool) (system : Option String) (maxSteps : ℕ)
    (maxMessages : Option ℕ) (sendEvents approvals : Bool) : Driver Unit where
  loop := runAgent tools maxSteps maxMessages approvals
  system := system
  entry := ()
  registry _ := none
  sendEvents := sendEvents

/-- `drive_agents`. -/
def driveAgents {A : Type} [Fintype A] (agents : A → Agent A) (entry : A) (maxSteps : ℕ)
    (maxMessages : Option ℕ) (sendEvents approvals : Bool) : Driver A where
  loop := runMultiAgent agents maxSteps maxMessages approvals
  system := none
  entry := entry
  registry := registered agents (buildRegistry agents entry)
  sendEvents := sendEvents

end Istos
