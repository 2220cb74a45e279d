import Istos.Agent.Equiv.Transcript
import Mathlib.Algebra.Order.BigOperators.Group.List
import Mathlib.Algebra.Order.Group.Nat

/-!
# What a reconnecting agent sees

The log of a session is one encoding of its conversation, the chat log another.  Both are made of
the same `Piece`s: what the peer said, the calls and their answers, and how each turn ended.

* `context_restored`: rebuilding the chat log from the durable log that a session wrote gives the
  live one, up to `split`, just when every step is `Kept`.
-/

namespace Istos

/-! ### The two sides of the round trip -/

/-- Reads one message: what is written so far, and the calls that wait for their answer. -/
def splitMessage (st : List Message × List FunctionCall) (m : Message) :
    List Message × List FunctionCall :=
  match m, st.2 with
  | .tool id content, call :: calls => (st.1 ++ [.assistant none [call], .tool id content], calls)
  | .assistant _ (call :: calls), _ => (st.1, call :: calls)
  | m, _ => (st.1 ++ [m], [])

/-- A chat log with one message for each tool call, without the text that came with the calls. -/
def split (ms : List Message) : List Message := (ms.foldl splitMessage ([], [])).1

/-- How a call is answered, where the step answers one without a gate. -/
def Turn.answerOf [PyText] {A T : Type} (l : Loop A) (t : Turn A) :
    TurnAction T → Option (String × String)
  | .invoke =>
    match t.phase with
    | .ready tc _ _ =>
      match byName (l.tools t.active) tc.name with
      | none => some (tc.id, "unknown tool: " ++ PyText.repr tc.name)
      | some _ => none
    | _ => none
  | .result o =>
    match t.phase with
    | .calling tc => some (tc.id, o.result.1)
    | _ => none
  | _ => none

/-- What a step of a turn must not do: an empty reply, a request for an approval, a call in the last
step, or another answer under an id that was answered before. -/
def Turn.Kept [PyText] {A T : Type} (l : Loop A) (t : Turn A) : TurnAction T → Prop
  | .reply r => r.toolCalls = [] → r.content ≠ none ∧ r.content ≠ some ""
  | .file _ => False
  | .next => t.todo = [] → t.steps < l.maxSteps
  | a => ∀ id content earlier, t.answerOf l a = some (id, content) → .tool id earlier ∈ t.messages →
      earlier = content

/-- A step of a session after which the log still says what the chat log says. -/
def Session.Kept [PyText] {A T : Type} (d : Driver A) (s : Session A) : SessionAction T → Prop
  | .turn a =>
    match s.phase with
    | .turning t => t.Kept d.loop a
    | _ => True
  | _ => True

/-! ### Frames -/

/-- The entry of an event that was sent. -/
def AgentEvent.entry (e : AgentEvent) : ChannelFrame := ⟨"out", e.frame⟩

section

variable [PyText]

namespace AgentEvent

omit [PyText] in
theorem get?_frame_content (e : AgentEvent) :
    e.frame.get? "content" = some (Json.ofOption e.content) :=
  rfl

omit [PyText] in
theorem get?_frame_name (e : AgentEvent) : e.frame.get? "name" = some (Json.ofOption e.name) := rfl

omit [PyText] in
theorem get?_frame_arguments (e : AgentEvent) :
    e.frame.get? "arguments" = some (e.arguments.getD .null) := rfl

omit [PyText] in
/-- A frame is of the kind of its event and of no other. -/
theorem hasKind_frame (e : AgentEvent) (kind : EventKind) :
    e.frame.hasKind kind.text = decide (e.kind = kind) := by
  show (e.kind.text == kind.text) = _
  cases e.kind <;> cases kind <;> rfl

omit [PyText] in
theorem hasKind_frame_of_eq {e : AgentEvent} {kind : EventKind} (h : e.kind = kind) :
    e.frame.hasKind kind.text = true := by
  rw [hasKind_frame, h]
  exact decide_eq_true rfl

omit [PyText] in
theorem hasKind_frame_of_ne {e : AgentEvent} {kind : EventKind} (h : e.kind ≠ kind) :
    e.frame.hasKind kind.text = false := by
  rw [hasKind_frame]
  exact decide_eq_false h

end AgentEvent

omit [PyText] in
/-- A frame that is no result leaves the results as they are. -/
theorem noteResult_frame {e : AgentEvent} (h : e.kind ≠ .toolResult)
    (results : List (String × Json)) :
    noteResult results e.entry = some results := by
  have hkind : e.frame.hasKind "tool_result" = false := AgentEvent.hasKind_frame_of_ne h
  simp only [noteResult, AgentEvent.entry, ne_eq, not_true_eq_false, if_false, hkind,
    Bool.false_eq_true]

/-- The content of a result frame is read back. -/
theorem resultContent_returned (tc : ToolCall) (content : String) (error : Bool) :
    resultContent (AgentEvent.returned tc content error).frame = content := by
  show (if (Json.str content).truthy then PyText.str (.str content) else "") = content
  rw [PyText.str_str]
  by_cases hempty : content = ""
  · rw [hempty, ite_self]
  · have htruthy : (Json.str content).truthy = true := decide_eq_true hempty
    rw [if_pos htruthy]

omit [PyText] in
/-- The arguments of a call are written alike on both sides. -/
theorem toolCallMessage_called (tc : ToolCall) :
    toolCallMessage (AgentEvent.called tc).frame tc.id = .assistant none [tc.function] := by
  have harguments : Json.dumpsOrEmpty (some (.obj tc.arguments)) =
    (Json.obj tc.arguments).dumps := by
    unfold Json.dumpsOrEmpty
    cases tc.arguments with
    | nil => rfl
    | cons f fs => rfl
  unfold toolCallMessage
  rw [AgentEvent.get?_frame_name, AgentEvent.get?_frame_arguments]
  show Message.assistant none
    [⟨tc.id, .str tc.name, Json.dumpsOrEmpty (some (.obj tc.arguments))⟩] = _
  rw [harguments]
  rfl

/-- A call is rebuilt with the last result under its id. -/
theorem entryMessages_called (tc : ToolCall) {results : List (String × Json)} {result : Json}
    (h : results.lookup tc.id = some result) :
    entryMessages true results (AgentEvent.called tc).entry =
      [.assistant none [tc.function], .tool tc.id (resultContent result)] := by
  have hid : (AgentEvent.called tc).frame.get? "tool_call_id" = some (.str tc.id) := rfl
  show callMessages results (AgentEvent.called tc).frame = _
  simp only [callMessages, hid, h, toolCallMessage_called]

theorem entryMessages_returned (tc : ToolCall) (content : String) (error : Bool)
    (results : List (String × Json)) :
    entryMessages true results (AgentEvent.returned tc content error).entry = [] := rfl

/-- A message frame is rebuilt as what the assistant said. -/
theorem entryMessages_message {e : AgentEvent} (hkind : e.kind = .message) {text : String}
    (hcontent : e.content = some text) (htext : text ≠ "") (results : List (String × Json)) :
    entryMessages true results e.entry = [.assistant (some text) []] := by
  have hkinds : ∀ kind : EventKind, kind ≠ .message → e.frame.hasKind kind.text = false :=
    fun kind hne => AgentEvent.hasKind_frame_of_ne (hkind ▸ hne.symm)
  have hcall : e.frame.hasKind "tool_call" = false := hkinds .toolCall (by decide)
  have hresult : e.frame.hasKind "tool_result" = false := hkinds .toolResult (by decide)
  have hdone : e.frame.hasKind "done" = false := hkinds .done (by decide)
  have hhandoff : e.frame.hasKind "handoff" = false := hkinds .handoff (by decide)
  have hmessage : e.frame.hasKind "message" = true := AgentEvent.hasKind_frame_of_eq hkind
  have htruthy : (Json.str text).truthy = true := decide_eq_true htext
  have hget : e.frame.get? "content" = some (.str text) := by
    rw [AgentEvent.get?_frame_content, hcontent]
    rfl
  show sentMessages true results e.frame = _
  obtain ⟨fields, hfields⟩ : ∃ fields, e.frame = .obj fields := ⟨_, rfl⟩
  rw [hfields] at hcall hresult hdone hhandoff hmessage hget ⊢
  simp only [sentMessages, hcall, hresult, hdone, hhandoff, hmessage, hget, htruthy, Bool.or_self,
    Bool.false_eq_true, if_false, if_true, PyText.str_str]

omit [PyText] in
/-- The text of an object is not empty. -/
theorem dumps_obj_ne (fields : List (String × Json)) : (Json.obj fields).dumps ≠ "" := by
  intro h
  have htoList := congrArg String.toList h
  rw [Json.dumps, String.toList_ofList] at htoList
  cases fields with
  | nil => cases htoList
  | cons f fs => cases htoList

/-- Every object has a text. -/
theorem userText_obj_ne (fields : List (String × Json)) : userText (.obj fields) ≠ "" := by
  have hfirst : ∀ keys text, firstText (.obj fields) keys = some text → text ≠ "" := by
    intro keys text h
    induction keys with
    | nil => cases h
    | cons key keys ih =>
      unfold firstText at h
      split at h
      · next s _ =>
        split at h
        · exact ih h
        · next hne =>
          obtain rfl := Option.some.inj h
          exact hne
      · exact ih h
  cases h : firstText (.obj fields) ["text", "content", "message", "prompt"] with
  | none =>
    simp only [userText, h, Option.getD_none]
    exact dumps_obj_ne fields
  | some text =>
    simp only [userText, h, Option.getD_some]
    exact hfirst _ text h

/-- A frame about an approval is rebuilt as something that the assistant said. -/
theorem entryMessages_approval {e : AgentEvent}
    (hkind : e.kind = .approvalRequest ∨ e.kind = .approvalDecision)
    (results : List (String × Json)) :
    entryMessages true results e.entry = [.assistant (some (userText e.frame)) []] := by
  have hkinds : ∀ kind : EventKind, kind ≠ .approvalRequest → kind ≠ .approvalDecision →
      e.frame.hasKind kind.text = false := by
    intro kind hrequest hdecision
    apply AgentEvent.hasKind_frame_of_ne
    rintro rfl
    rcases hkind with h | h
    · exact hrequest h
    · exact hdecision h
  have hcall : e.frame.hasKind "tool_call" = false := hkinds .toolCall (by decide) (by decide)
  have hresult : e.frame.hasKind "tool_result" = false := hkinds .toolResult (by decide) (by decide)
  have hdone : e.frame.hasKind "done" = false := hkinds .done (by decide) (by decide)
  have hhandoff : e.frame.hasKind "handoff" = false := hkinds .handoff (by decide) (by decide)
  have hmessage : e.frame.hasKind "message" = false := hkinds .message (by decide) (by decide)
  show sentMessages true results e.frame = _
  obtain ⟨fields, hfields⟩ : ∃ fields, e.frame = .obj fields := ⟨_, rfl⟩
  rw [hfields] at hcall hresult hdone hhandoff hmessage ⊢
  simp only [sentMessages, hcall, hresult, hdone, hhandoff, hmessage, Bool.or_self,
      Bool.false_eq_true,
    if_false, saying, if_neg (userText_obj_ne fields)]

/-! ### The pieces of a conversation -/

/-- A piece of a conversation that is over. -/
inductive Piece
  /-- the peer's message -/
  | said (data : Json)
  /-- a call, its answer, and what the driver sent about its approval -/
  | served (tc : ToolCall) (content : String) (error : Bool) (asked : List AgentEvent)
  /-- the reply that ends a turn -/
  | replied (content : Option String)
  /-- the message at the ceiling -/
  | ceiling (text : String)

/-- The event is about an approval. -/
def AgentEvent.IsApproval (e : AgentEvent) : Prop :=
  e.kind = .approvalRequest ∨ e.kind = .approvalDecision

namespace Piece

/-- What the loop makes sure of. -/
def Valid : Piece → Prop
  | served _ _ _ asked => ∀ e ∈ asked, e.IsApproval
  | ceiling text => text ≠ ""
  | _ => True

/-- The entries of the durable log. -/
def log : Piece → List ChannelFrame
  | said data => [⟨"in", data⟩]
  | served tc content error asked =>
    (AgentEvent.called tc).entry :: (asked.map AgentEvent.entry ++
      [(AgentEvent.returned tc content error).entry])
  | replied content => [(AgentEvent.final content).entry]
  | ceiling text => [(AgentEvent.ceiling text).entry]

/-- The messages of the live chat log, one for each call. -/
def live : Piece → List Message
  | said data => [.user (userText data)]
  | served tc content _ _ => [.assistant none [tc.function], .tool tc.id content]
  | replied content => [.assistant content []]
  | ceiling _ => []

/-- The result that `results_by_id` holds. -/
def result : Piece → Option (String × Json)
  | served tc content error _ => some (tc.id, (AgentEvent.returned tc content error).frame)
  | _ => none

/-- The answer of a call. -/
def answer : Piece → Option (String × String)
  | served tc content _ _ => some (tc.id, content)
  | _ => none

/-- The messages that are rebuilt with these results. -/
def rebuilt (results : List (String × Json)) (p : Piece) : List Message :=
  p.log.flatMap (entryMessages true results)

/-- The piece is the same on both sides, but for the results of other calls. -/
def Quiet : Piece → Prop
  | said _ => True
  | served _ _ _ asked => asked = []
  | replied content => content ≠ none ∧ content ≠ some ""
  | ceiling _ => False

end Piece

/-- The results of a conversation, the newest first. -/
def resultsOf (ps : List Piece) : List (String × Json) := (ps.filterMap Piece.result).reverse

omit [PyText] in
/-- One entry read, and the others. -/
theorem foldlM_noteResult_cons {results results' : List (String × Json)} {turn : ChannelFrame}
    (h : noteResult results turn = some results') (history : List ChannelFrame) :
    (turn :: history).foldlM noteResult results = history.foldlM noteResult results' := by
  rw [List.foldlM_cons, h]
  rfl

omit [PyText] in
theorem foldlM_noteResult_approvals {asked : List AgentEvent} (h : ∀ e ∈ asked, e.IsApproval)
    (results : List (String × Json)) :
    (asked.map AgentEvent.entry).foldlM noteResult results = some results := by
  induction asked with
  | nil => rfl
  | cons e asked ih =>
    have hkind : e.kind ≠ .toolResult := by
      intro heq
      rcases h e List.mem_cons_self with hk | hk
      · rw [heq] at hk
        cases hk
      · rw [heq] at hk
        cases hk
    rw [List.map_cons, foldlM_noteResult_cons (noteResult_frame hkind results)]
    exact ih fun e' he' => h e' (List.mem_cons_of_mem e he')

omit [PyText] in
/-- What `results_by_id` reads from a piece. -/
theorem Piece.foldlM_noteResult {p : Piece} (hp : p.Valid) (results : List (String × Json)) :
    p.log.foldlM noteResult results = some (p.result.toList ++ results) := by
  cases p with
  | said data => rfl
  | served tc content error asked =>
    have hcalled : (AgentEvent.called tc).kind ≠ .toolResult := by rintro ⟨⟩
    rw [Piece.log, foldlM_noteResult_cons (noteResult_frame hcalled results), List.foldlM_append,
      foldlM_noteResult_approvals hp]
    rfl
  | replied content =>
    have hfinal : (AgentEvent.final content).kind ≠ .toolResult := by
      rw [AgentEvent.kind_final]
      rintro ⟨⟩
    exact foldlM_noteResult_cons (noteResult_frame hfinal results) []
  | ceiling text =>
    have hceiling : (AgentEvent.ceiling text).kind ≠ .toolResult := by rintro ⟨⟩
    exact foldlM_noteResult_cons (noteResult_frame hceiling results) []

omit [PyText] in
/-- What `results_by_id` reads from a conversation. -/
theorem resultsById_log {ps : List Piece} (h : ∀ p ∈ ps, p.Valid) :
    resultsById (ps.flatMap Piece.log) = some (resultsOf ps) := by
  have hall : ∀ results, (ps.flatMap Piece.log).foldlM noteResult results =
      some ((ps.filterMap Piece.result).reverse ++ results) := by
    intro results
    induction ps generalizing results with
    | nil => rfl
    | cons p ps ih =>
      rw [List.flatMap_cons, List.foldlM_append,
        Piece.foldlM_noteResult (h p List.mem_cons_self)]
      show (ps.flatMap Piece.log).foldlM noteResult _ = _
      rw [ih fun q hq => h q (List.mem_cons_of_mem p hq)]
      cases hresult : p.result with
      | none => simp [hresult]
      | some r => simp [hresult]
  rw [resultsById, hall, List.append_nil, resultsOf]

omit [PyText] in
/-- Every call of a conversation has a result under its id, which is the result of some call. -/
theorem lookup_resultsOf {ps : List Piece} {tc : ToolCall} {content : String} {error : Bool}
    {asked : List AgentEvent} (h : Piece.served tc content error asked ∈ ps) :
    ∃ tc' content' error' asked', Piece.served tc' content' error' asked' ∈ ps ∧ tc'.id = tc.id ∧
      (resultsOf ps).lookup tc.id = some (AgentEvent.returned tc' content' error').frame := by
  have hmem : (tc.id, (AgentEvent.returned tc content error).frame) ∈ resultsOf ps :=
    List.mem_reverse.mpr (List.mem_filterMap.mpr ⟨_, h, rfl⟩)
  cases hlookup : (resultsOf ps).lookup tc.id with
  | none =>
    have hnone := List.lookup_eq_none_iff.mp hlookup _ hmem
    simp at hnone
  | some r =>
    have hr : (tc.id, r) ∈ resultsOf ps := by
      obtain ⟨before, after, heq, -⟩ := List.lookup_eq_some_iff.mp hlookup
      rw [heq]
      simp
    obtain ⟨p, hp, hresult⟩ := List.mem_filterMap.mp (List.mem_reverse.mp hr)
    cases p with
    | served tc' content' error' asked' =>
      obtain ⟨hid, rfl⟩ := Prod.mk.inj (Option.some.inj hresult)
      exact ⟨tc', content', error', asked', hp, hid, rfl⟩
    | _ => cases hresult

/-! ### When the two sides agree -/

omit [PyText] in
/-- Two flattened lists whose parts have lengths in one order are equal just when their parts are.
-/
theorem flatMap_eq_flatMap_iff {α β : Type} {f g : α → List β} {as : List α}
    (h : ∀ a ∈ as, (f a).length ≤ (g a).length) :
    as.flatMap f = as.flatMap g ↔ ∀ a ∈ as, f a = g a := by
  constructor
  · intro heq
    induction as with
    | nil => simp
    | cons a as ih =>
      have htail : ∀ b ∈ as, (f b).length ≤ (g b).length :=
        fun b hb => h b (List.mem_cons_of_mem a hb)
      have hhead : (f a).length ≤ (g a).length := h a List.mem_cons_self
      have hrest : (as.flatMap f).length ≤ (as.flatMap g).length := by
        rw [List.length_flatMap, List.length_flatMap]
        exact List.sum_le_sum fun b hb => htail b hb
      have htotal : (f a).length + (as.flatMap f).length =
        (g a).length + (as.flatMap g).length := by
        have hlen := congrArg List.length heq
        rwa [List.flatMap_cons, List.flatMap_cons, List.length_append, List.length_append] at hlen
      rw [List.flatMap_cons, List.flatMap_cons] at heq
      obtain ⟨hone, hothers⟩ := List.append_inj heq (by omega)
      intro b hb
      rcases List.mem_cons.mp hb with rfl | hb
      · exact hone
      · exact ih htail hothers b hb
  · intro heq
    induction as with
    | nil => rfl
    | cons a as ih =>
      rw [List.flatMap_cons, List.flatMap_cons, heq a List.mem_cons_self,
        ih (fun b hb => h b (List.mem_cons_of_mem a hb)) fun b hb =>
          heq b (List.mem_cons_of_mem a hb)]

namespace Piece

/-- The call of a piece has a result. -/
def Found (results : List (String × Json)) : Piece → Prop
  | served tc _ _ _ => ∃ r, results.lookup tc.id = some r
  | _ => True

/-- The result of the call is its own answer. -/
def Own (results : List (String × Json)) : Piece → Prop
  | served tc content _ _ => ∃ r, results.lookup tc.id = some r ∧ resultContent r = content
  | _ => True

theorem rebuilt_served {tc : ToolCall} {content : String} {error : Bool} {asked : List AgentEvent}
    {results : List (String × Json)} {r : Json} (hasked : ∀ e ∈ asked, e.IsApproval)
    (hlookup : results.lookup tc.id = some r) :
    (served tc content error asked).rebuilt results =
      [.assistant none [tc.function], .tool tc.id (resultContent r)] ++
        asked.map fun e => .assistant (some (userText e.frame)) [] := by
  have happrovals : (asked.map AgentEvent.entry).flatMap (entryMessages true results) =
      asked.map fun e => .assistant (some (userText e.frame)) [] := by
    induction asked with
    | nil => rfl
    | cons e asked ih =>
      rw [List.map_cons, List.flatMap_cons, entryMessages_approval (hasked e List.mem_cons_self),
        ih fun e' he' => hasked e' (List.mem_cons_of_mem e he')]
      rfl
  rw [rebuilt, log, List.flatMap_cons, List.flatMap_append, entryMessages_called tc hlookup,
    happrovals, List.flatMap_singleton, entryMessages_returned, List.append_nil]

/-- The reply that ends a turn is rebuilt as what was sent for it. -/
theorem rebuilt_replied (content : Option String) (results : List (String × Json)) :
    (replied content).rebuilt results =
      [.assistant (if content = none ∨ content = some "" then
        some "The model returned an empty response." else content) []] := by
  have hempty : "The model returned an empty response." ≠ "" := by decide
  have hrebuilt : ∀ text, (AgentEvent.final content).content = some text → text ≠ "" →
      (replied content).rebuilt results = [.assistant (some text) []] := by
    intro text hcontent htext
    rw [rebuilt, log, List.flatMap_singleton,
      entryMessages_message (AgentEvent.kind_final content) hcontent htext]
  cases content with
  | none => exact hrebuilt _ rfl hempty
  | some text =>
    by_cases htext : text = ""
    · rw [if_pos (.inr (by rw [htext]))]
      refine hrebuilt _ ?_ hempty
      simp only [AgentEvent.final, if_pos htext]
    · rw [if_neg (by simp [htext])]
      refine hrebuilt _ ?_ htext
      simp only [AgentEvent.final, if_neg htext]

theorem rebuilt_ceiling {text : String} (h : text ≠ "") (results : List (String × Json)) :
    (ceiling text).rebuilt results = [.assistant (some text) []] := by
  rw [rebuilt, log, List.flatMap_singleton, entryMessages_message rfl rfl h]

/-- Nothing is lost on the way back. -/
theorem length_live_le {p : Piece} {results : List (String × Json)} (hp : p.Valid)
    (hfound : p.Found results) : p.live.length ≤ (p.rebuilt results).length := by
  cases p with
  | said data => exact le_refl 1
  | served tc content error asked =>
    obtain ⟨r, hr⟩ := hfound
    rw [rebuilt_served hp hr]
    simp [live]
  | replied content =>
    rw [rebuilt_replied]
    exact le_refl 1
  | ceiling text => exact Nat.zero_le _

/-- **When one piece is rebuilt as it was.** -/
theorem rebuilt_eq_live_iff {p : Piece} {results : List (String × Json)} (hp : p.Valid)
    (hfound : p.Found results) : p.live = p.rebuilt results ↔ p.Quiet ∧ p.Own results := by
  cases p with
  | said data => exact ⟨fun _ => ⟨trivial, trivial⟩, fun _ => rfl⟩
  | served tc content error asked =>
    obtain ⟨r, hr⟩ := hfound
    rw [rebuilt_served hp hr]
    show [Message.assistant none [tc.function], .tool tc.id content] = _ ↔ asked = [] ∧ ∃ _, _
    constructor
    · intro heq
      simp only [List.cons_append, List.nil_append, List.cons.injEq, Message.tool.injEq,
        true_and] at heq
      exact ⟨List.map_eq_nil_iff.mp heq.2.symm, r, hr, heq.1.symm⟩
    · rintro ⟨rfl, r', hr', rfl⟩
      obtain rfl := Option.some.inj (hr.symm.trans hr')
      rfl
  | replied content =>
    rw [rebuilt_replied]
    show [Message.assistant content []] = _ ↔ (content ≠ none ∧ content ≠ some "") ∧ True
    by_cases hempty : content = none ∨ content = some ""
    · rw [if_pos hempty]
      refine iff_of_false (fun heq => ?_) fun h => hempty.elim h.1.1 h.1.2
      simp only [List.cons.injEq, Message.assistant.injEq, and_true] at heq
      rcases hempty with rfl | rfl
      · cases heq
      · simp at heq
    · rw [if_neg hempty]
      exact iff_of_true rfl ⟨not_or.mp hempty, trivial⟩
  | ceiling text =>
    rw [rebuilt_ceiling hp]
    exact iff_of_false (by rintro ⟨⟩) fun h => h.1

end Piece

/-- Calls with one id have one answer. -/
def Agree (ps : List Piece) : Prop :=
  ∀ id content content', (id, content) ∈ ps.filterMap Piece.answer →
    (id, content') ∈ ps.filterMap Piece.answer → content = content'

omit [PyText] in
theorem mem_answers {ps : List Piece} {id content : String} :
    (id, content) ∈ ps.filterMap Piece.answer ↔
      ∃ tc error asked, Piece.served tc content error asked ∈ ps ∧ tc.id = id := by
  rw [List.mem_filterMap]
  constructor
  · rintro ⟨p, hp, hanswer⟩
    cases p with
    | served tc content' error asked =>
      obtain ⟨rfl, rfl⟩ := Prod.mk.inj (Option.some.inj hanswer)
      exact ⟨tc, error, asked, hp, rfl⟩
    | _ => cases hanswer
  · rintro ⟨tc, error, asked, hp, rfl⟩
    exact ⟨_, hp, rfl⟩

/-- Every call has its own result just when calls with one id have one answer. -/
theorem own_iff_agree {ps : List Piece} : (∀ p ∈ ps, p.Own (resultsOf ps)) ↔ Agree ps := by
  constructor
  · intro h id content content' hmem hmem'
    obtain ⟨tc, error, asked, hp, rfl⟩ := mem_answers.mp hmem
    obtain ⟨tc', error', asked', hp', hid⟩ := mem_answers.mp hmem'
    obtain ⟨r, hr, rfl⟩ := h _ hp
    obtain ⟨r', hr', rfl⟩ := h _ hp'
    rw [hid] at hr'
    rw [Option.some.inj (hr.symm.trans hr')]
  · intro h p hp
    cases p with
    | served tc content error asked =>
      obtain ⟨tc', content', error', asked', hp', hid, hlookup⟩ := lookup_resultsOf hp
      refine ⟨_, hlookup, ?_⟩
      rw [resultContent_returned]
      exact h tc.id _ _ (mem_answers.mpr ⟨tc', error', asked', hp', hid⟩)
        (mem_answers.mpr ⟨tc, error, asked, hp, rfl⟩)
    | _ => trivial

/-- **When a conversation is rebuilt as it was.** -/
theorem rebuilt_iff {ps : List Piece} (hvalid : ∀ p ∈ ps, p.Valid) (system : Option String) :
    historyToMessages (ps.flatMap Piece.log) system true =
        some (systemMessages system ++ ps.flatMap Piece.live) ↔
      (∀ p ∈ ps, p.Quiet) ∧ Agree ps := by
  have hfound : ∀ p ∈ ps, p.Found (resultsOf ps) := by
    intro p hp
    cases p with
    | served tc content error asked =>
      obtain ⟨tc', content', error', asked', -, -, hlookup⟩ := lookup_resultsOf hp
      exact ⟨_, hlookup⟩
    | _ => trivial
  have hhistory : historyToMessages (ps.flatMap Piece.log) system true =
      some (systemMessages system ++ ps.flatMap (Piece.rebuilt (resultsOf ps))) := by
    unfold historyToMessages
    rw [if_pos rfl, resultsById_log hvalid, Option.map_some, List.flatMap_assoc]
    rfl
  rw [hhistory, Option.some.injEq, List.append_cancel_left_eq, eq_comm,
    flatMap_eq_flatMap_iff fun p hp => Piece.length_live_le (hvalid p hp) (hfound p hp)]
  rw [← own_iff_agree]
  constructor
  · intro h
    exact ⟨fun p hp => ((Piece.rebuilt_eq_live_iff (hvalid p hp) (hfound p hp)).mp (h p hp)).1,
      fun p hp => ((Piece.rebuilt_eq_live_iff (hvalid p hp) (hfound p hp)).mp (h p hp)).2⟩
  · rintro ⟨hquiet, hown⟩ p hp
    exact (Piece.rebuilt_eq_live_iff (hvalid p hp) (hfound p hp)).mpr ⟨hquiet p hp, hown p hp⟩

/-! ### The run -/

/-- The answer that a message gives. -/
def Message.answer : Message → Option (String × String)
  | tool id content => some (id, content)
  | _ => none

/-- A chat log holds these pieces, and these calls wait for their answer. -/
structure Holds (system : Option String) (ps : List Piece) (pending : List FunctionCall)
    (ms : List Message) : Prop where
  live : ms.foldl splitMessage ([], []) = (systemMessages system ++ ps.flatMap Piece.live, pending)
  answers : ms.filterMap Message.answer = ps.filterMap Piece.answer
  valid : ∀ p ∈ ps, p.Valid

/-- Every piece is rebuilt as it was, and the current call has asked nobody. -/
def Faithful (ps : List Piece) (asked : List AgentEvent) : Prop :=
  (∀ p ∈ ps, p.Quiet) ∧ Agree ps ∧ asked = []

namespace Holds

variable {system : Option String} {ps : List Piece} {pending : List FunctionCall}
    {ms : List Message}

theorem nil (system : Option String) : Holds system [] [] (systemMessages system) where
  live := by
    unfold systemMessages
    split
    · split
      · rfl
      · rfl
    · rfl
  answers := by
    unfold systemMessages
    split
    · split
      · rfl
      · rfl
    · rfl
  valid := by simp

/-- One more piece, and the messages that it adds. -/
theorem add (h : Holds system ps pending ms) (p : Piece) (hp : p.Valid) {added : List Message}
    {pending' : List FunctionCall}
    (hlive : ∀ out, added.foldl splitMessage (out, pending) = (out ++ p.live, pending'))
    (hanswers : added.filterMap Message.answer = p.answer.toList) :
    Holds system (ps ++ [p]) pending' (ms ++ added) where
  live := by
    rw [List.foldl_append, h.live, hlive, List.flatMap_append, List.flatMap_singleton,
      List.append_assoc]
  answers := by
    rw [List.filterMap_append, List.filterMap_append, h.answers, hanswers]
    cases hanswer : p.answer with
    | none => simp [hanswer]
    | some r => simp [hanswer]
  valid q hq := by
    rcases List.mem_append.mp hq with hq | hq
    · exact h.valid q hq
    · obtain rfl := List.mem_singleton.mp hq
      exact hp

/-- The peer says something. -/
theorem said (h : Holds system ps [] ms) (data : Json) :
    Holds system (ps ++ [.said data]) [] (ms ++ [.user (userText data)]) :=
  h.add (.said data) trivial (fun _ => rfl) rfl

/-- The next call is answered. -/
theorem served {tc : ToolCall} (h : Holds system ps (tc.function :: pending) ms) (content : String)
    (error : Bool) {asked : List AgentEvent} (hasked : ∀ e ∈ asked, e.IsApproval) :
    Holds system (ps ++ [.served tc content error asked]) pending (ms ++ [.tool tc.id content]) :=
  h.add (.served tc content error asked) hasked (fun _ => rfl) rfl

/-- The model ends the turn. -/
theorem replied (h : Holds system ps [] ms) (content : Option String) :
    Holds system (ps ++ [.replied content]) [] (ms ++ [.assistant content []]) :=
  h.add (.replied content) trivial (fun _ => rfl) rfl

/-- The model asks for tools. -/
theorem asks (h : Holds system ps [] ms) (content : Option String) (call : FunctionCall)
    (calls : List FunctionCall) :
    Holds system ps (call :: calls) (ms ++ [.assistant content (call :: calls)]) where
  live := by
    rw [List.foldl_append, h.live]
    rfl
  answers := by
    rw [List.filterMap_append, h.answers]
    exact List.append_nil _
  valid := h.valid

/-- The ceiling is not in the chat log. -/
theorem ceiling (h : Holds system ps [] ms) {text : String} (htext : text ≠ "") :
    Holds system (ps ++ [.ceiling text]) [] ms := by
  have hadd : Holds system (ps ++ [.ceiling text]) [] (ms ++ []) :=
    h.add (.ceiling text) htext (fun out => congrArg (·, []) (List.append_nil out).symm) rfl
  rwa [List.append_nil] at hadd

/-- The answers that are in the chat log. -/
theorem mem_messages (h : Holds system ps pending ms) {id content : String} :
    .tool id content ∈ ms ↔ (id, content) ∈ ps.filterMap Piece.answer := by
  rw [← h.answers, List.mem_filterMap]
  constructor
  · intro hmem
    exact ⟨_, hmem, rfl⟩
  · rintro ⟨m, hm, hanswer⟩
    cases m with
    | tool id' content' =>
      obtain ⟨rfl, rfl⟩ := Prod.mk.inj (Option.some.inj hanswer)
      exact hm
    | _ => cases hanswer

end Holds

omit [PyText] in
/-- A piece that is no call. -/
theorem faithful_add {ps : List Piece} {p : Piece} (hanswer : p.answer = none) :
    Faithful (ps ++ [p]) [] ↔ Faithful ps [] ∧ p.Quiet := by
  have hagree : Agree (ps ++ [p]) ↔ Agree ps := by
    unfold Agree
    simp only [List.filterMap_append, List.filterMap_cons, hanswer, List.filterMap_nil,
      List.append_nil]
  unfold Faithful
  rw [hagree]
  constructor
  · rintro ⟨hquiet, hagrees, -⟩
    exact ⟨⟨fun q hq => hquiet q (List.mem_append_left _ hq), hagrees, rfl⟩,
      hquiet p (List.mem_append_right _ List.mem_cons_self)⟩
  · rintro ⟨⟨hquiet, hagrees, -⟩, hp⟩
    refine ⟨fun q hq => ?_, hagrees, rfl⟩
    rcases List.mem_append.mp hq with hq | hq
    · exact hquiet q hq
    · obtain rfl := List.mem_singleton.mp hq
      exact hp

omit [PyText] in
/-- A call and its answer. -/
theorem faithful_served {ps : List Piece} {tc : ToolCall} {content : String} {error : Bool}
    {asked : List AgentEvent} :
    Faithful (ps ++ [.served tc content error asked]) [] ↔
      Faithful ps asked ∧
        ∀ earlier, (tc.id, earlier) ∈ ps.filterMap Piece.answer → earlier = content := by
  have hmem : ∀ id c,
      (id, c) ∈ (ps ++ [Piece.served tc content error asked]).filterMap Piece.answer ↔
        (id, c) ∈ ps.filterMap Piece.answer ∨ (tc.id = id ∧ content = c) := by
    intro id c
    simp [List.filterMap_append, Piece.answer, eq_comm]
  have hagree : Agree (ps ++ [Piece.served tc content error asked]) ↔
      Agree ps ∧ ∀ earlier, (tc.id, earlier) ∈ ps.filterMap Piece.answer → earlier = content := by
    constructor
    · intro h
      exact ⟨fun id c c' hc hc' => h id c c' ((hmem _ _).mpr (.inl hc)) ((hmem _ _).mpr (.inl hc')),
        fun earlier he => h tc.id _ _ ((hmem _ _).mpr (.inl he)) ((hmem _ _).mpr (.inr ⟨rfl, rfl⟩))⟩
    · rintro ⟨hagrees, hlast⟩ id c c' hc hc'
      rcases (hmem _ _).mp hc with hc | ⟨rfl, rfl⟩
      · rcases (hmem _ _).mp hc' with hc' | ⟨rfl, rfl⟩
        · exact hagrees id c c' hc hc'
        · exact hlast c hc
      · rcases (hmem _ _).mp hc' with hc' | ⟨-, rfl⟩
        · exact (hlast c' hc').symm
        · rfl
  unfold Faithful
  rw [hagree]
  constructor
  · rintro ⟨hquiet, ⟨hagrees, hlast⟩, -⟩
    exact ⟨⟨fun q hq => hquiet q (List.mem_append_left _ hq), hagrees,
      hquiet _ (List.mem_append_right _ List.mem_cons_self)⟩, hlast⟩
  · rintro ⟨⟨hquiet, hagrees, hasked⟩, hlast⟩
    refine ⟨fun q hq => ?_, ⟨hagrees, hlast⟩, rfl⟩
    rcases List.mem_append.mp hq with hq | hq
    · exact hquiet q hq
    · obtain rfl := List.mem_singleton.mp hq
      exact hasked

/-- The entries of the events that wait to be taken. -/
def sentEntries (es : List AgentEvent) : List ChannelFrame :=
  (es.filter fun e => e.kind ≠ .done).map AgentEvent.entry

omit [PyText] in
theorem sentEntries_approvals {es : List AgentEvent} (h : ∀ e ∈ es, e.IsApproval) :
    sentEntries es = es.map AgentEvent.entry := by
  unfold sentEntries
  rw [List.filter_eq_self.mpr]
  intro e he
  rcases h e he with hkind | hkind
  · rw [hkind]
    rfl
  · rw [hkind]
    rfl

namespace Turn

variable {A T : Type}

/-- The calls that the chat log waits for. -/
def pending (t : Turn A) : List FunctionCall :=
  (t.current.toList ++ t.todo).map ToolCall.function

/-- The entries of the current call. -/
def openLog (t : Turn A) (asked : List AgentEvent) : List ChannelFrame :=
  match t.current with
  | some tc => (AgentEvent.called tc).entry :: asked.map AgentEvent.entry
  | none => []

/-- A turn in terms of the pieces that are over; `asked` is what the driver sent about the approval
of the current call. -/
structure Traces (system : Option String) (log : List ChannelFrame) (ps : List Piece)
    (asked : List AgentEvent) (t : Turn A) : Prop where
  log : log ++ sentEntries t.outbox = ps.flatMap Piece.log ++ t.openLog asked
  chat : Holds system ps t.pending t.messages
  waits : ∀ tc id, t.phase = .waiting tc id → asked ≠ []
  closed : t.current = none → asked = []
  asked : ∀ e ∈ asked, e.IsApproval
  batch : t.phase = .completing ∨ t.phase = .ended → t.todo = []

variable {system : Option String} {log : List ChannelFrame} {ps : List Piece}
    {asked : List AgentEvent}
  {t t' : Turn A}

/-- The current call is answered; `evs` is the end of what was sent about its approval. -/
theorem Traces.answered (h : t.Traces system log ps asked) (hout : t.outbox = []) {tc : ToolCall}
    (hcurrent : t.current = some tc) (content : String) (error : Bool) (evs : List AgentEvent)
    (hevs : ∀ e ∈ evs, e.IsApproval) :
    Turn.Traces system log (ps ++ [.served tc content error (asked ++ evs)]) []
      { t.answer tc content with outbox := evs ++ [.returned tc content error] } where
  log := by
    have hlog := h.log
    rw [hout, openLog, hcurrent] at hlog
    have hbefore : log = ps.flatMap Piece.log ++
        (AgentEvent.called tc).entry :: asked.map AgentEvent.entry :=
      (List.append_nil log).symm.trans hlog
    have hsent : sentEntries (evs ++ [.returned tc content error]) =
        evs.map AgentEvent.entry ++ [(AgentEvent.returned tc content error).entry] := by
      have happrovals := sentEntries_approvals hevs
      unfold sentEntries at happrovals ⊢
      rw [List.filter_append, List.map_append, happrovals]
      rfl
    show log ++ sentEntries (evs ++ [.returned tc content error]) =
      (ps ++ [Piece.served tc content error (asked ++ evs)]).flatMap Piece.log ++ []
    rw [hsent, hbefore, List.flatMap_append, List.flatMap_singleton, Piece.log]
    simp only [List.append_assoc, List.cons_append, List.map_append, List.append_nil]
  chat := by
    have hchat := h.chat
    rw [pending, hcurrent] at hchat
    refine hchat.served content error fun e he => ?_
    rcases List.mem_append.mp he with he | he
    · exact h.asked e he
    · exact hevs e he
  waits tc' id hphase := by cases hphase
  closed _ := rfl
  asked := by simp
  batch hphase := by rcases hphase with hphase | hphase <;> cases hphase

/-- An answer keeps the pieces faithful just when it is the answer of every call with the id. -/
theorem Traces.faithful_answered (h : t.Traces system log ps asked) {tc : ToolCall}
    {content : String} {error : Bool} :
    Faithful (ps ++ [.served tc content error (asked ++ [])]) [] ↔
      Faithful ps asked ∧ ∀ earlier, .tool tc.id earlier ∈ t.messages → earlier = content := by
  rw [faithful_served, List.append_nil]
  simp only [h.chat.mem_messages]

/-- The loop of a channel without a bound on its chat log. -/
abbrev channelLoop (tools : List MeshTool) (maxSteps : ℕ) (approvals : Bool) : Loop Unit :=
  runAgent tools maxSteps none approvals

section

variable {tools : List MeshTool} {maxSteps : ℕ} {approvals : Bool} {t : Turn Unit}

/-- The model ends the turn, or asks for tools. -/
theorem Traces.complete (h : t.Traces system log ps asked) (hout : t.outbox = [])
    (hphase : t.phase = .completing) (r : ModelReply) :
    ∃ ps' asked', (t.complete (channelLoop tools maxSteps approvals) r).Traces system
      log ps' asked' ∧
      (Faithful ps' asked' ↔
        Faithful ps asked ∧ (r.toolCalls = [] → r.content ≠ none ∧ r.content ≠ some "")) := by
  have hcurrent : t.current = none := by rw [current, hphase]
  have htodo := h.batch (.inl hphase)
  have hlog := h.log
  rw [hout, openLog, hcurrent] at hlog
  have hbefore : log = ps.flatMap Piece.log :=
    (List.append_nil log).symm.trans (hlog.trans (List.append_nil _))
  have hchat := h.chat
  rw [pending, hcurrent, htodo] at hchat
  obtain rfl := h.closed hcurrent
  obtain ⟨content, calls⟩ := r
  cases calls with
  | nil =>
    refine ⟨ps ++ [.replied content], [], ⟨?_, hchat.replied content, ?_, fun _ => rfl, by simp,
      fun _ => rfl⟩, ?_⟩
    · show log ++ sentEntries [.final content, .finished] =
        (ps ++ [Piece.replied content]).flatMap Piece.log ++ []
      have hsent : sentEntries [.final content, .finished] =
        [(AgentEvent.final content).entry] := by
        simp [sentEntries, AgentEvent.kind_final, AgentEvent.finished]
      rw [hsent, hbefore, List.flatMap_append, List.flatMap_singleton, List.append_nil]
      rfl
    · rintro tc id ⟨⟩
    · rw [faithful_add rfl]
      show _ ∧ (content ≠ none ∧ content ≠ some "") ↔ _
      simp only [forall_const]
  | cons call calls =>
    refine ⟨ps, [], ⟨?_, hchat.asks content call.function (calls.map ToolCall.function), ?_,
      fun _ => rfl, by simp, ?_⟩, ?_⟩
    · show log ++ [] = ps.flatMap Piece.log ++ []
      rw [hbefore]
    · rintro tc id ⟨⟩
    · rintro (hp | hp) <;> cases hp
    · simp

/-- The batch goes on, or is at its end. -/
theorem Traces.advance (h : t.Traces system log ps asked) (hout : t.outbox = [])
    (hphase : t.phase = .dispatching) :
    ∃ ps' asked', (t.advance (channelLoop tools maxSteps approvals)).Traces system log ps' asked' ∧
      (Faithful ps' asked' ↔ Faithful ps asked ∧ (t.todo = [] → t.steps < maxSteps)) := by
  have hcurrent : t.current = none := by rw [current, hphase]
  have hlog := h.log
  rw [hout, openLog, hcurrent] at hlog
  have hbefore : log = ps.flatMap Piece.log :=
    (List.append_nil log).symm.trans (hlog.trans (List.append_nil _))
  have hchat := h.chat
  rw [pending, hcurrent] at hchat
  obtain rfl := h.closed hcurrent
  cases htodo : t.todo with
  | nil =>
    rw [htodo] at hchat
    have hadvance : t.advance (channelLoop tools maxSteps approvals) =
        t.endBatch (channelLoop tools maxSteps approvals) := by simp only [Turn.advance, htodo]
    rw [hadvance, endBatch]
    by_cases hsteps : t.steps < maxSteps
    · rw [if_pos (show t.steps < (channelLoop tools maxSteps approvals).maxSteps from hsteps)]
      refine ⟨ps, [], ⟨?_, ?_, ?_, fun _ => rfl, by simp, fun _ => htodo⟩, ?_⟩
      · show log ++ sentEntries t.outbox = ps.flatMap Piece.log ++ []
        rw [hout, hbefore]
        rfl
      · show Holds system ps (([] ++ t.todo).map ToolCall.function) t.messages
        rw [htodo]
        exact hchat
      · rintro tc id ⟨⟩
      · exact (and_iff_left fun _ => hsteps).symm
    · rw [if_neg (show ¬ t.steps < (channelLoop tools maxSteps approvals).maxSteps from hsteps)]
      have htext : (channelLoop tools maxSteps approvals).stopped maxSteps ≠ "" := by
        intro heq
        have htoList := congrArg String.toList heq
        rw [show (channelLoop tools maxSteps approvals).stopped maxSteps = "Stopped after " ++
          Nat.repr maxSteps ++ " tool steps without a final answer." from rfl,
            String.toList_append] at htoList
        exact absurd (List.append_eq_nil_iff.mp htoList).2 (by decide)
      refine ⟨ps ++ [.ceiling ((channelLoop tools maxSteps approvals).stopped maxSteps)], [],
        ⟨?_, ?_, ?_, fun _ => rfl, by simp, fun _ => htodo⟩, ?_⟩
      · show log ++ [(AgentEvent.ceiling _).entry] =
          (ps ++ [Piece.ceiling _]).flatMap Piece.log ++ []
        rw [hbefore, List.flatMap_append, List.flatMap_singleton, List.append_nil]
        rfl
      · show Holds system _ (([] ++ t.todo).map ToolCall.function) t.messages
        rw [htodo]
        exact hchat.ceiling htext
      · rintro tc id ⟨⟩
      · rw [faithful_add rfl]
        exact iff_of_false (fun hf => hf.2) fun hf => hsteps (hf.2 rfl)
  | cons tc todo =>
    rw [htodo] at hchat
    have hadvance : t.advance (channelLoop tools maxSteps approvals) =
        ({ t with todo := todo, served := t.served + 1 } : Turn Unit).dispatch
          (channelLoop tools maxSteps approvals) tc := by
      simp only [Turn.advance, htodo, runAgent]
    -- the call is filed or it is ready, and either way it is the current one
    have hdispatched : ∀ t' : Turn Unit, t'.current = some tc →
        (∀ tc id, t'.phase ≠ .waiting tc id) →
        t'.todo = todo → t'.messages = t.messages → t'.outbox = [.called tc] →
        t'.Traces system log ps [] := by
      intro t' hnow hwaits htodo' hmessages hout'
      refine ⟨?_, ?_, fun tc' id hp => absurd hp (hwaits tc' id), fun _ => rfl, by simp, ?_⟩
      · rw [hout', openLog, hnow, hbefore]
        rfl
      · rw [pending, hnow, htodo', hmessages]
        exact hchat
      · rintro (hp | hp)
        · rw [current, hp] at hnow
          cases hnow
        · rw [current, hp] at hnow
          cases hnow
    refine ⟨ps, [], ?_, by simp⟩
    rw [hadvance, dispatch]
    cases htool : byName ((channelLoop tools maxSteps approvals).tools t.active) tc.name with
    | none => exact hdispatched _ (by simp only [current]) (by simp) rfl rfl rfl
    | some tool =>
      by_cases hgated : (tool.requiresApproval && approvals) = true
      · exact hdispatched _ (by simp [current, runAgent, hgated]) (by simp [runAgent, hgated]) rfl
          rfl rfl
      · exact hdispatched _ (by simp [current, runAgent, hgated]) (by simp [runAgent, hgated]) rfl
          rfl rfl

end

/-- A step that gives no answer is not held against an earlier one. -/
theorem answers_of_none {l : Loop A} {t : Turn A} {a : TurnAction T} (h : t.answerOf l a = none) :
    ∀ id content earlier, t.answerOf l a = some (id, content) → .tool id earlier ∈ t.messages →
      earlier = content := by
  intro id content earlier hanswer
  rw [h] at hanswer
  cases hanswer

/-- The one answer of a step. -/
theorem answers_iff {l : Loop A} {t : Turn A} {a : TurnAction T} {id content : String}
    (h : t.answerOf l a = some (id, content)) :
    (∀ id' content' earlier, t.answerOf l a = some (id', content') →
        .tool id' earlier ∈ t.messages →
      earlier = content') ↔ ∀ earlier, .tool id earlier ∈ t.messages → earlier = content := by
  constructor
  · exact fun hall earlier => hall id content earlier h
  · intro hone id' content' earlier hanswer
    obtain ⟨rfl, rfl⟩ := Prod.mk.inj (Option.some.inj (h.symm.trans hanswer))
    exact hone earlier

/-- **One step of a turn**: it keeps the pieces faithful just when it is `Kept`. -/
theorem Traces.step {tools : List MeshTool} {maxSteps : ℕ} {approvals : Bool} {t t' : Turn Unit}
    {a : TurnAction T} (h : t.Traces system log ps asked)
    (hmove : Moves (channelLoop tools maxSteps approvals) t a t') (ha : a ≠ .deliver) :
    ∃ ps' asked', t'.Traces system log ps' asked' ∧
      (Faithful ps' asked' ↔ Faithful ps asked ∧
        t.Kept (channelLoop tools maxSteps approvals) a) := by
  cases hmove with
  | deliver hout => exact absurd rfl ha
  | reply hout hphase => exact h.complete hout hphase _
  | next hout hphase => exact h.advance hout hphase
  | @file tc tool id hout hphase =>
    have hcurrent : t.current = some tc := by rw [current, hphase]
    have hlog := h.log
    rw [hout, openLog, hcurrent] at hlog
    have hchat := h.chat
    rw [pending, hcurrent] at hchat
    -- the log gets an entry that the chat log has not
    refine ⟨ps, asked ++ [.asked tc tool id], ⟨?_, hchat, ?_, ?_, ?_, ?_⟩, ?_⟩
    · show log ++ [(AgentEvent.asked tc tool id).entry] = ps.flatMap Piece.log ++
        (AgentEvent.called tc).entry ::
          (asked ++ [AgentEvent.asked tc tool id]).map AgentEvent.entry
      rw [show log = _ from (List.append_nil log).symm.trans hlog]
      simp only [List.append_assoc, List.cons_append, List.map_append, List.map_cons, List.map_nil]
    · intro _ _ _ heq
      simp at heq
    · rintro ⟨⟩
    · intro e he
      rcases List.mem_append.mp he with he | he
      · exact h.asked e he
      · obtain rfl := List.mem_singleton.mp he
        exact .inl rfl
    · rintro (hp | hp) <;> cases hp
    · exact iff_of_false (fun hf => by simp [Faithful] at hf) fun hf => hf.2
  | @verdict tc id v hout hphase =>
    have hcurrent : t.current = some tc := by rw [current, hphase]
    -- the request has been said already, and is not in the chat log
    have hasked : ¬ Faithful ps asked := fun hf => h.waits tc id hphase hf.2.2
    rcases t.decided_cases tc id v with ⟨req, -, heq⟩ | ⟨refusal, -, heq⟩
    · rw [heq]
      have hlog := h.log
      rw [hout, openLog, hcurrent] at hlog
      have hchat := h.chat
      rw [pending, hcurrent] at hchat
      refine ⟨ps, asked ++ [.cleared tc id req], ⟨?_, hchat, ?_, ?_, ?_, ?_⟩, ?_⟩
      · show log ++ [(AgentEvent.cleared tc id req).entry] = ps.flatMap Piece.log ++
          (AgentEvent.called tc).entry ::
            (asked ++ [AgentEvent.cleared tc id req]).map AgentEvent.entry
        rw [show log = _ from (List.append_nil log).symm.trans hlog]
        simp only [List.append_assoc, List.cons_append, List.map_append, List.map_cons,
          List.map_nil]
      · rintro _ _ ⟨⟩
      · rintro ⟨⟩
      · intro e he
        rcases List.mem_append.mp he with he | he
        · exact h.asked e he
        · obtain rfl := List.mem_singleton.mp he
          exact .inr rfl
      · rintro (hp | hp) <;> cases hp
      · exact iff_of_false (fun hf => by simp [Faithful] at hf) fun hf => hasked hf.1
    · rw [heq]
      have hrefused : ∀ e ∈ [AgentEvent.refused tc id refusal], e.IsApproval := by
        intro e he
        obtain rfl := List.mem_singleton.mp he
        exact .inr rfl
      refine ⟨_, _, h.answered hout hcurrent refusal true [.refused tc id refusal] hrefused, ?_⟩
      rw [faithful_served]
      exact iff_of_false (fun hf => by simp [Faithful] at hf) fun hf => hasked hf.1
  | @invoke tc arguments request hout hphase =>
    have hcurrent : t.current = some tc := by rw [current, hphase]
    unfold Turn.invoke
    split
    · next hnone =>
      have hanswer : t.answerOf (channelLoop tools maxSteps approvals) (.invoke : TurnAction T) =
          some (tc.id, "unknown tool: " ++ PyText.repr tc.name) := by
        simp only [answerOf, hphase, hnone]
      have hanswered :=
        h.answered hout hcurrent ("unknown tool: " ++ PyText.repr tc.name) true [] (by simp)
      refine ⟨_, _, hanswered, ?_⟩
      rw [h.faithful_answered]
      exact and_congr_right fun _ => (answers_iff hanswer).symm
    · next tool hsome =>
      have hanswer : t.answerOf (channelLoop tools maxSteps approvals) (.invoke : TurnAction T) =
          none := by simp only [answerOf, hphase, hsome]
      have hlog := h.log
      rw [openLog, hcurrent] at hlog
      have hchat := h.chat
      rw [pending, hcurrent] at hchat
      refine ⟨ps, asked, ⟨hlog, hchat, ?_, ?_, h.asked, ?_⟩, ?_⟩
      · rintro _ _ ⟨⟩
      · rintro ⟨⟩
      · rintro (hp | hp) <;> cases hp
      · exact (and_iff_left (answers_of_none hanswer)).symm
  | @result tc o hout hphase =>
    have hcurrent : t.current = some tc := by rw [current, hphase]
    have hanswer : t.answerOf (channelLoop tools maxSteps approvals) (.result o : TurnAction T) =
        some (tc.id, o.result.1) := by simp only [answerOf, hphase]
    refine ⟨_, _, h.answered hout hcurrent o.result.1 o.result.2 [] (by simp), ?_⟩
    rw [h.faithful_answered]
    exact and_congr_right fun _ => (answers_iff hanswer).symm

end Turn

namespace Session

variable {T : Type} {tools : List MeshTool} {system : Option String} {maxSteps : ℕ}
    {approvals : Bool}

/-- A channel that sends its events and does not cut its chat log. -/
abbrev fullChannel (tools : List MeshTool) (system : Option String) (maxSteps : ℕ)
    (approvals : Bool) :
    Driver Unit :=
  driveChannel tools system maxSteps none true approvals

/-- A session in terms of the pieces that are over. -/
def Traces (system : Option String) (ps : List Piece) (asked : List AgentEvent) (s : Session Unit) :
    Prop :=
  match s.phase with
  | .listening => s.log = ps.flatMap Piece.log ∧ Holds system ps [] s.messages ∧ asked = []
  | .turning t => t.Traces system s.log ps asked
  | .over => True

/-- **One step of a session**: it keeps the pieces faithful just when it is `Kept`. -/
theorem Traces.step {s s' : Session Unit} {a : SessionAction T} {ps : List Piece}
    {asked : List AgentEvent} (h : s.Traces system ps asked)
    (hmove : Moves (fullChannel tools system maxSteps approvals) s a s') :
    ∃ ps' asked', s'.Traces system ps' asked' ∧
      (Faithful ps' asked' ↔
        Faithful ps asked ∧ s.Kept (fullChannel tools system maxSteps approvals) a) := by
  cases hmove with
  | @receive data hphase =>
    rw [Traces, hphase] at h
    obtain ⟨hlog, hchat, rfl⟩ := h
    have hiff : Faithful (ps ++ [.said data]) [] ↔ Faithful ps [] ∧
        s.Kept (fullChannel tools system maxSteps approvals) (.receive data : SessionAction T) :=
      faithful_add rfl
    refine ⟨ps ++ [.said data], [], ?_, hiff⟩
    have hchat' := hchat.said data
    have hlog' : s.log ++ [⟨"in", data⟩] = (ps ++ [Piece.said data]).flatMap Piece.log := by
      rw [hlog, List.flatMap_append, List.flatMap_singleton]
      rfl
    unfold Traces Session.receive
    cases hstart : (fullChannel tools system maxSteps approvals).loop.start s.active
      (s.messages ++ [.user (userText data)]) with
    | none => simp only [hstart]
    | some t =>
      simp only [hstart]
      obtain ⟨-, -, rfl⟩ := Loop.start_eq_some hstart
      refine ⟨?_, hchat', ?_, fun _ => rfl, by simp, fun _ => rfl⟩
      · rw [← hlog']
        rfl
      · rintro tc id ⟨⟩
  | @deliver t e outbox hphase hout =>
    rw [Traces, hphase] at h
    have hkept : s.Kept (fullChannel tools system maxSteps approvals)
        (.turn .deliver : SessionAction T) := by
      simp only [Session.Kept, hphase]
      exact Turn.answers_of_none rfl
    refine ⟨ps, asked, ⟨?_, h.chat, h.waits, h.closed, h.asked, h.batch⟩, (and_iff_left hkept).symm⟩
    have hlog := h.log
    rw [hout] at hlog
    refine Eq.trans ?_ hlog
    show s.log ++ _ ++ sentEntries outbox = s.log ++ sentEntries (e :: outbox)
    unfold frame? sentEntries
    by_cases hdone : e.kind = .done
    · simp [hdone]
    · simp [hdone, driveChannel, AgentEvent.entry]
  | @turn t t' b hphase ha hmove =>
    rw [Traces, hphase] at h
    simp only [Session.Kept, hphase]
    exact h.step hmove ha
  | @finish t hphase hout hended =>
    rw [Traces, hphase] at h
    have hcurrent : t.current = none := by rw [Turn.current, hended]
    have hlog := h.log
    rw [hout, Turn.openLog, hcurrent] at hlog
    have hchat := h.chat
    rw [Turn.pending, hcurrent, h.batch (.inr hended)] at hchat
    obtain rfl := h.closed hcurrent
    refine ⟨ps, [], ⟨?_, hchat, rfl⟩, (and_iff_left trivial).symm⟩
    exact (List.append_nil s.log).symm.trans (hlog.trans (List.append_nil _))

/-- A run of a session. -/
theorem Traces.run {s s' : Session Unit} {as : List (SessionAction T)} {ps : List Piece}
    {asked : List AgentEvent} (h : s.Traces system ps asked)
    (hrun : Steps.run (Session.step (fullChannel tools system maxSteps approvals)) s as = some s') :
    ∃ ps' asked', s'.Traces system ps' asked' ∧
      (Faithful ps' asked' ↔ Faithful ps asked ∧
        Steps.Along (Session.step (fullChannel tools system maxSteps approvals))
          (Session.Kept (fullChannel tools system maxSteps approvals)) s as) := by
  induction as generalizing s ps asked with
  | nil =>
    obtain rfl := Option.some.inj hrun
    exact ⟨ps, asked, h, (and_iff_left trivial).symm⟩
  | cons a as ih =>
    obtain ⟨s₁, hstep, hrest⟩ := Steps.run_cons_eq_some.mp hrun
    obtain ⟨ps₁, asked₁, hone, hiff₁⟩ := h.step (moves hstep)
    obtain ⟨ps', asked', hall, hiff⟩ := ih hone hrest
    refine ⟨ps', asked', hall, hiff.trans ?_⟩
    show _ ↔ _ ∧ _ ∧ (Session.step _ s a).elim True _
    rw [hstep, hiff₁, and_assoc]
    rfl

/-- The session that is opened on an empty log. -/
theorem traces_connect {s : Session Unit}
    (h : connect (fullChannel tools system maxSteps approvals) [] = some s) :
    s.Traces system [] [] := by
  obtain ⟨messages, hmessages, rfl⟩ := Option.map_eq_some_iff.mp h
  obtain rfl : systemMessages system ++ [] = messages := Option.some.inj hmessages
  have hinsert : insertSystem (systemMessages system ++ []) system = systemMessages system ++ [] :=
    insertSystem_of_prompted ⟨[], rfl, by simp⟩
  refine ⟨rfl, ?_, rfl⟩
  show Holds system [] [] (insertSystem (systemMessages system ++ []) system)
  rw [hinsert, List.append_nil]
  exact Holds.nil system

end Session

/-- **When a reconnecting agent sees the context it had live**: in a session that was opened on an
empty log, the chat log that is rebuilt from the log of the run is the live one, with one message
for each call and without the text that came with the calls, just when no reply was empty, no call
asked for an approval, no turn called tools in its last step, and every call was answered as the
earlier calls with its id. -/
theorem context_restored {T : Type} {tools : List MeshTool} {system : Option String} {maxSteps : ℕ}
    {approvals : Bool} {s₀ s : Session Unit} {as : List (SessionAction T)}
    (hconnect :
      Session.connect (driveChannel tools system maxSteps none true approvals) [] = some s₀)
    (hrun :
      Steps.run (Session.step (driveChannel tools system maxSteps none true approvals)) s₀ as =
        some s) (hlistening : s.phase = .listening) :
    historyToMessages s.log system true = some (split s.messages) ↔
      Steps.Along (Session.step (driveChannel tools system maxSteps none true approvals))
        (Session.Kept (driveChannel tools system maxSteps none true approvals)) s₀ as := by
  obtain ⟨ps, asked, htraces, hiff⟩ := Session.Traces.run (Session.traces_connect hconnect) hrun
  rw [Session.Traces, hlistening] at htraces
  obtain ⟨hlog, hchat, rfl⟩ := htraces
  have hempty : Faithful [] [] := ⟨by simp, fun _ _ _ h => by simp at h, rfl⟩
  have hsplit : split s.messages = systemMessages system ++ ps.flatMap Piece.live := by
    rw [split, hchat.live]
  rw [hlog, hsplit, rebuilt_iff hchat.valid]
  constructor
  · rintro ⟨hquiet, hagree⟩
    exact (hiff.mp ⟨hquiet, hagree, rfl⟩).2
  · intro halong
    obtain ⟨hquiet, hagree, -⟩ := hiff.mpr ⟨hempty, halong⟩
    exact ⟨hquiet, hagree⟩

end

/-- One turn with a call and its answer. -/
def answeredCall : List (SessionAction ℕ) := oneCall ++ [.turn .deliver, .turn .deliver, .finish]

theorem context_restored_call :
    let _ := PyText.plain
    ∃ s₀ s,
      Session.connect (driveChannel [⟨"add", .flag false⟩] (some "compute") 8 none true false) [] =
        some s₀ ∧
      Steps.run
        (Session.step (driveChannel [⟨"add", .flag false⟩] (some "compute") 8 none true false))
        s₀ answeredCall = some s ∧
      s.phase = .listening ∧
      split s.messages = [.system "compute", .user "1 + 2",
        .assistant none [⟨"1", .str "add", (Json.obj []).dumps⟩], .tool "1" "3",
        .assistant (some "3") []] ∧
      historyToMessages s.log (some "compute") true = some (split s.messages) := by
  intro _
  refine ⟨_, _, rfl, rfl, rfl, rfl, ?_⟩
  rw [@context_restored _ ℕ [⟨"add", .flag false⟩] (some "compute") 8 false _ _
    answeredCall rfl rfl rfl]
  have hdelivered : ∀ (l : Loop Unit) (t : Turn Unit), ∀ id content earlier,
      t.answerOf l (.deliver : TurnAction ℕ) = some (id, content) → .tool id earlier ∈ t.messages →
        earlier = content :=
    fun l t => Turn.answers_of_none rfl
  refine ⟨trivial, nofun, nofun, hdelivered _ _, Turn.answers_of_none rfl, ?_, hdelivered _ _,
    fun _ => by decide, fun _ => ⟨by simp, by simp⟩, hdelivered _ _, hdelivered _ _,
      trivial, trivial⟩
  -- the first call of its id
  rintro id content earlier hanswer hmem
  rcases hmem with _ | ⟨_, _ | ⟨_, _ | ⟨_, hmem⟩⟩⟩
  cases hmem

/-- One turn in which a human denies a call. -/
def oneRefusal : List (SessionAction ℕ) :=
  [.receive (.str "refund o-1"), .turn (.reply ⟨none, [⟨"1", "refund", []⟩]⟩), .turn .next,
    .turn .deliver, .turn (.file "r"), .turn .deliver,
      .turn (.verdict (.denied "refund was denied")),
    .turn .deliver, .turn .deliver, .turn .next, .turn (.reply ⟨some "sorry", []⟩), .turn .deliver,
    .turn .deliver, .finish]

set_option maxRecDepth 4000 in
/-- The frames about an approval come back as messages of the assistant. -/
theorem context_not_restored :
    let _ := PyText.plain
    ∃ s₀ s, Session.connect (driveChannel [⟨"refund", .flag true⟩] none 8 none true true) [] =
      some s₀ ∧
      Steps.run (Session.step (driveChannel [⟨"refund", .flag true⟩] none 8 none true true)) s₀
        oneRefusal = some s ∧
      s.phase = .listening ∧ historyToMessages s.log none true ≠ some (split s.messages) := by
  intro _
  refine ⟨_, _, rfl, rfl, rfl, fun h => ?_⟩
  have hlength : some 6 = some 4 := congrArg (Option.map List.length) h
  cases hlength

end Istos
