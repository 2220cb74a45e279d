import Istos.Agent.Message

/-!
# The chat log of a conversation

The list of messages for the model has four writers: `historyToMessages` rebuilds it from the
durable log of a channel, and the loop appends the assistant's message, the results of its tools and
the answers to its handoffs.  `trimMessages` cuts it, and `withSystem` puts a prompt in front.
-/

namespace Istos

/-- One entry of a durable channel log. -/
structure ChannelFrame where
  dir : String
  data : Json

section

variable [PyText]

/-- The first text that is not empty under one of the keys. -/
def firstText (data : Json) : List String → Option String
  | [] => none
  | key :: keys =>
    match data.get? key with
    | some (.str s) => if s = "" then firstText data keys else some s
    | _ => firstText data keys

/-- `user_text`. -/
def userText (msg : Json) : String :=
  match msg with
  | .str s => s
  | .obj fields => (firstText (.obj fields) ["text", "content", "message", "prompt"]).getD msg.dumps
  | j => PyText.str j

/-- `_tool_call_message`, for a frame whose call id is text. -/
def toolCallMessage (frame : Json) (tid : String) : Message :=
  .assistant none
    [⟨tid, (frame.get? "name").getD .null, Json.dumpsOrEmpty (frame.get? "arguments")⟩]

/-- One entry read into `results_by_id`, the newest first; `none` where its id is no key of a
dictionary. -/
def noteResult (results : List (String × Json)) (turn : ChannelFrame) :
    Option (List (String × Json)) :=
  if turn.dir ≠ "out" then some results
  else if turn.data.hasKind "tool_result" then
    match turn.data.get? "tool_call_id" with
    | some (.str tid) => some ((tid, turn.data) :: results)
    | some (.arr _) => none
    | some (.obj _) => none
    -- `None` is skipped, and no text is equal to another key
    | _ => some results
  else some results

/-- `results_by_id`, or `none` where it raises. -/
def resultsById (history : List ChannelFrame) : Option (List (String × Json)) :=
  history.foldlM noteResult []

/-- `str(result.get("content") or "")`. -/
def resultContent (result : Json) : String :=
  match result.get? "content" with
  | some j => if j.truthy then PyText.str j else ""
  | none => ""

/-- The assistant's message for a text, unless it is empty. -/
def saying (text : String) : List Message :=
  if text = "" then [] else [.assistant (some text) []]

/-- The messages of a `tool_call` frame. -/
def callMessages (results : List (String × Json)) (data : Json) : List Message :=
  match data.get? "tool_call_id" with
  | some (.str tid) =>
    match results.lookup tid with
    | some result => [toolCallMessage data tid, .tool tid (resultContent result)]
    | none => []
  | _ => []

/-- The messages of one frame that the channel has sent. -/
def sentMessages (includeTools : Bool) (results : List (String × Json)) (data : Json) :
    List Message :=
  match data with
  | .obj _ =>
    if data.hasKind "tool_call" then if includeTools then callMessages results data else []
    else if data.hasKind "tool_result" || data.hasKind "done" || data.hasKind "handoff" then []
    else if data.hasKind "message" then
      match data.get? "content" with
      | some j => if j.truthy then [.assistant (some (PyText.str j)) []] else []
      | none => []
    else saying (userText data)
  | _ => saying (userText data)

/-- The messages of one entry of the log. -/
def entryMessages (includeTools : Bool) (results : List (String × Json)) (turn : ChannelFrame) :
    List Message :=
  if turn.dir = "in" then [.user (userText turn.data)]
  else if turn.dir = "out" then sentMessages includeTools results turn.data
  else []

/-- The prompt as a message, where there is one. -/
def systemMessages (system : Option String) : List Message :=
  match system with
  | some s => if s = "" then [] else [.system s]
  | none => []

/-- `history_to_messages`, or `none` where it raises. -/
def historyToMessages (history : List ChannelFrame) (system : Option String) (includeTools : Bool) :
    Option (List Message) :=
  (if includeTools then resultsById history else some []).map fun results =>
    systemMessages system ++ history.flatMap (entryMessages includeTools results)

end

/-- `_trim_messages`; `none` where it raises, and `0` stands for every bound below `1`. -/
def trimMessages (messages : List Message) (maxMessages : ℕ) : Option (List Message) :=
  if maxMessages < 1 then none
  else
    let system := messages.takeWhile Message.isSystem
    let body := messages.dropWhile Message.isSystem
    if body.length ≤ maxMessages then some messages
    else some (system ++ (body.drop (body.length - maxMessages)).dropWhile Message.isTool)

/-- `_with_system`: the prompt of the active agent, in the place of any other. -/
def withSystem (messages : List Message) (system : Option String) : List Message :=
  systemMessages system ++ messages.filter fun m => !m.isSystem

end Istos
