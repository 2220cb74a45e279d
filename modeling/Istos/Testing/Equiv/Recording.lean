import Istos.Agent.Equiv.Loop
import Istos.Data.Segment
import Istos.Data.Steps
import Istos.Testing.Trajectory

/-!
# What a recording holds

The completions of one pass of the loop are a segment: the loop goes on as long as it has steps left
and every reply has calls.  A recording holds the segments of its passes, an outcome for each of
their calls, a request for each call that a human was asked about, and what the last pass said
(`RecordSession.keeps_of_done`).

What a turn owes the recorder is `Watched`; the tools and the gate may answer it with anything.
-/

namespace Istos

/-! ### The recorder -/

/-- What the recorder keeps of a call. -/
def ToolCall.entry (tc : ToolCall) : String × Json := (tc.name, .obj tc.arguments)

namespace TrajectoryRecorder

variable (r : TrajectoryRecorder)

/-- The calls that have an outcome. -/
def calls : List (String × Json) := r.tools.map fun o => (o.name, o.arguments)

/-- The tools that a human was asked about. -/
def requests : List (Option String) :=
  (r.approvals.filter fun a => a.kind = .approvalRequest).map ApprovalRecord.tool

/-- The last message. -/
def said : Option String :=
  (r.events.reverse.find? fun e => e.kind = .message).bind AgentEvent.content

theorem dictOrEmpty_obj (arguments : List (String × Json)) :
    dictOrEmpty (some (.obj arguments)) = .obj arguments := by
  cases arguments <;> rfl

theorem observe_called (tc : ToolCall) :
    r.observe (.called tc) = { r with
      events := r.events ++ [.called tc]
      pending := r.pending.put (tc.id, ⟨tc.name, .obj tc.arguments⟩) } := by
  show { r with
    events := r.events ++ [AgentEvent.called tc]
    pending := r.pending.put (tc.id, ⟨tc.name, dictOrEmpty (some (.obj tc.arguments))⟩) } = _
  rw [dictOrEmpty_obj]

variable {r}

/-- A result makes an outcome of the call that waits under its id. -/
theorem observe_returned {tc : ToolCall}
    (hpending : r.pending.get? tc.id = some (tc.id, ⟨tc.name, .obj tc.arguments⟩))
    (content : String) (error : Bool) :
    r.observe (.returned tc content error) = { r with
      events := r.events ++ [.returned tc content error]
      pending := r.pending.erase tc.id
      tools := r.tools ++ [⟨tc.name, .obj tc.arguments, content, error, some tc.id⟩] } := by
  have houtcome : outcome ((r.pending.get? tc.id).map Prod.snd) (.returned tc content error)
      = ⟨tc.name, .obj tc.arguments, content, error, some tc.id⟩ := by
    rw [hpending]
    unfold outcome
    simp [AgentEvent.returned]
  show { r with
    events := r.events ++ [AgentEvent.returned tc content error]
    pending := r.pending.erase tc.id
    tools := r.tools ++
      [outcome ((r.pending.get? tc.id).map Prod.snd) (.returned tc content error)] } = _
  rw [houtcome]

theorem said_of_message {e : AgentEvent} (he : e.kind = .message) {events : List AgentEvent}
    (hevents : r.events = events ++ [e]) : r.said = e.content := by
  unfold said
  rw [hevents, List.reverse_append, List.reverse_singleton, List.singleton_append,
    List.find?_cons_of_pos (by simpa using he)]
  rfl

theorem said_of_other {r' : TrajectoryRecorder} {e : AgentEvent} (he : e.kind ≠ .message)
    (hevents : r'.events = r.events ++ [e]) : r'.said = r.said := by
  unfold said
  rw [hevents, List.reverse_append, List.reverse_singleton, List.singleton_append,
    List.find?_cons_of_neg (by simpa using he)]

/-- The last two events of a pass. -/
theorem observe_last {e : AgentEvent} (he : e.kind = .message) (r : TrajectoryRecorder) :
    [e, .finished].foldl observe r = { r with events := r.events ++ [e] ++ [.finished] } := by
  have hfirst : r.observe e = { r with events := r.events ++ [e] } := by
    unfold observe note
    rw [he]
  rw [List.foldl_cons, hfirst]
  rfl

theorem said_observe_last {e : AgentEvent} (he : e.kind = .message) (r : TrajectoryRecorder) :
    ([e, .finished].foldl observe r).said = e.content := by
  rw [observe_last he]
  have hdone : ({ r with events := r.events ++ [e] ++ [.finished] } : TrajectoryRecorder).said
      = ({ r with events := r.events ++ [e] } : TrajectoryRecorder).said :=
    said_of_other (e := .finished) (by decide) rfl
  rw [hdone]
  exact said_of_message he rfl

end TrajectoryRecorder

/-! ### The completions of one pass -/

/-- The loop asks for another completion. -/
def AsksOn (n : ℕ) (replies : List ModelReply) : Prop :=
  replies.length < n ∧ ∀ r ∈ replies, r.toolCalls ≠ []

theorem AsksOn.of_isPrefix {n : ℕ} {replies replies' : List ModelReply} (h : replies <+: replies')
    (h' : AsksOn n replies') : AsksOn n replies :=
  ⟨h.length_le.trans_lt h'.1, fun r hr => h'.2 r (h.subset hr)⟩

/-- The calls of some completions. -/
def callsOf (replies : List ModelReply) : List ToolCall := replies.flatMap ModelReply.toolCalls

@[simp] theorem callsOf_append (replies replies' : List ModelReply) :
    callsOf (replies ++ replies') = callsOf replies ++ callsOf replies' := List.flatMap_append

@[simp] theorem callsOf_singleton (r : ModelReply) : callsOf [r] = r.toolCalls :=
  List.flatMap_singleton ModelReply.toolCalls r

/-- The last message of a pass. -/
def lastMessage (l : Loop Unit) (replies : List ModelReply) : Option String :=
  match replies.getLast? with
  | some r =>
    if r.toolCalls.isEmpty then (AgentEvent.final r.content).content
    else some (l.stopped l.maxSteps)
  | none => none

/-- A human is asked about a call. -/
def Loop.gated (l : Loop Unit) (tc : ToolCall) : Bool :=
  (byName (l.tools ()) tc.name).any MeshTool.requiresApproval && l.approvals

/-- The tools that a human is asked about for some calls. -/
def Loop.requests (l : Loop Unit) (calls : List ToolCall) : List (Option String) :=
  (calls.filter l.gated).map fun tc => some tc.name

theorem Loop.requests_append (l : Loop Unit) (calls calls' : List ToolCall) :
    l.requests (calls ++ calls') = l.requests calls ++ l.requests calls' := by
  unfold requests
  rw [List.filter_append, List.map_append]

/-! ### A turn under the eyes of a recorder -/

/-- The call of a turn that has passed the point at which a human is asked. -/
def Turn.past {A : Type} (t : Turn A) : Option ToolCall :=
  match t.phase with
  | .waiting tc _ | .ready tc _ _ | .calling tc => some tc
  | _ => none

/-- Where a turn stands, by the completions that it has had. -/
def Turn.Stands (l : Loop Unit) (replies : List ModelReply) (r : TrajectoryRecorder)
    (t : Turn Unit) : Prop :=
  match t.phase with
  | .completing => AsksOn l.maxSteps replies ∧ t.todo = []
  | .ended => IsSegment (AsksOn l.maxSteps) replies ∧ t.todo = [] ∧ r.said = lastMessage l replies
  | .raised => False
  | _ => ∃ before reply, replies = before ++ [reply] ∧ AsksOn l.maxSteps before ∧
      reply.toolCalls ≠ []

/-- **The invariant** of a turn that has had some completions, after others before it; the recorder
has seen what waits to be taken, too. -/
structure Watched (l : Loop Unit) (before replies : List ModelReply) (r : TrajectoryRecorder)
    (t : Turn Unit) : Prop where
  steps : t.steps = replies.length
  bounded : replies ≠ [] → l.maxMessages ≠ some 0
  stands : t.Stands l replies r
  served : ∃ done, callsOf (before ++ replies) = done ++ t.current.toList ++ t.todo ∧
    r.calls = done.map ToolCall.entry ∧ r.requests = l.requests (done ++ t.past.toList)
  pending : ∀ tc, t.current = some tc →
    r.pending.get? tc.id = some (tc.id, ⟨tc.name, .obj tc.arguments⟩)
  filing : ∀ tc tool, t.phase = .filing tc tool → l.gated tc = true

namespace Watched

variable [PyText] {T : Type} {l : Loop Unit} {before replies : List ModelReply}
  {r : TrajectoryRecorder} {t : Turn Unit}

/-- What comes before a turn: every call has its outcome. -/
structure Rests (l : Loop Unit) (before : List ModelReply) (r : TrajectoryRecorder) : Prop where
  calls : r.calls = (callsOf before).map ToolCall.entry
  requests : r.requests = l.requests (callsOf before)

omit [PyText] in
/-- A turn begins. -/
theorem start {messages : List Message} (h : Rests l before r)
    (hstart : l.start () messages = some t) : Watched l before [] r t := by
  obtain ⟨hpos, -, rfl⟩ := Loop.start_eq_some hstart
  refine ⟨rfl, fun h => absurd rfl h, ⟨⟨hpos, List.forall_mem_nil _⟩, rfl⟩,
    ⟨callsOf before, ?_, h.calls, ?_⟩, ?_, ?_⟩
  · simp [Turn.current]
  · simpa [Turn.past] using h.requests
  · rintro tc ⟨⟩
  · rintro tc tool ⟨⟩

omit [PyText] in
/-- A turn has ended. -/
theorem rests (h : Watched l before replies r t) (hended : t.phase = .ended) :
    Rests l (before ++ replies) r := by
  obtain ⟨done, hcalls, houtcomes, hrequests⟩ := h.served
  have hstands := h.stands
  rw [Turn.Stands, hended] at hstands
  have hcurrent : t.current = none := Turn.current_eq_none (.inr hended)
  have hpast : t.past = none := by rw [Turn.past, hended]
  rw [hcurrent, hstands.2.1, Option.toList_none, List.append_nil, List.append_nil] at hcalls
  rw [hpast, Option.toList_none, List.append_nil] at hrequests
  exact ⟨hcalls ▸ houtcomes, hcalls ▸ hrequests⟩

omit [PyText] in
/-- The recorder may keep something else besides. -/
theorem of_eq {r' : TrajectoryRecorder} (h : Watched l before replies r t)
    (hcalls : r'.calls = r.calls) (hrequests : r'.requests = r.requests) (hsaid : r'.said = r.said)
    (hpending : r'.pending = r.pending) : Watched l before replies r' t := by
  refine ⟨h.steps, h.bounded, ?_, ?_, ?_, h.filing⟩
  · have hstands := h.stands
    unfold Turn.Stands at hstands ⊢
    rwa [hsaid]
  · rw [hcalls, hrequests]
    exact h.served
  · rw [hpending]
    exact h.pending

omit [PyText] in
/-- The model answers. -/
theorem complete (h : Watched l before replies r t) (hphase : t.phase = .completing)
    {messages : List Message} (htrim : l.trimmed t.messages = some messages) (reply : ModelReply) :
    Watched l before (replies ++ [reply])
      ((t.complete l reply).outbox.foldl TrajectoryRecorder.observe r) (t.complete l reply) := by
  have hstands := h.stands
  rw [Turn.Stands, hphase] at hstands
  obtain ⟨hasks, htodo⟩ := hstands
  obtain ⟨done, hcalls, houtcomes, hrequests⟩ := h.served
  have hcurrent : t.current = none := by rw [Turn.current, hphase]
  have hpast : t.past = none := by rw [Turn.past, hphase]
  rw [hcurrent, htodo, Option.toList_none, List.append_nil, List.append_nil] at hcalls
  rw [hpast, Option.toList_none, List.append_nil] at hrequests
  have hbounded : l.maxMessages ≠ some 0 := by
    intro hzero
    rw [Loop.trimmed, hzero] at htrim
    simp [trimMessages] at htrim
  have hlength : (t.steps + 1) = (replies ++ [reply]).length := by
    rw [h.steps, List.length_append, List.length_singleton]
  have hall : callsOf (before ++ (replies ++ [reply])) = done ++ reply.toolCalls := by
    rw [← List.append_assoc, callsOf_append, hcalls, callsOf_singleton]
  unfold Turn.complete
  rw [htrim]
  by_cases hnone : reply.toolCalls = []
  · -- the reply has no calls: it is the last of its pass
    have hempty : reply.toolCalls.isEmpty = true := List.isEmpty_iff.mpr hnone
    have hsegment : IsSegment (AsksOn l.maxSteps) (replies ++ [reply]) :=
      ⟨replies, reply, rfl, hasks, fun hmore => hmore.2 reply (by simp) hnone⟩
    have hlast : lastMessage l (replies ++ [reply]) = (AgentEvent.final reply.content).content := by
      simp only [lastMessage, List.getLast?_concat, hempty, if_true]
    simp only [hempty, if_true]
    refine ⟨hlength, fun _ => hbounded, ⟨hsegment, hnone, ?_⟩, ⟨done, ?_, ?_, ?_⟩, ?_, ?_⟩
    · rw [hlast]
      exact TrajectoryRecorder.said_observe_last (AgentEvent.kind_final _) r
    · rw [hall, hnone]
      simp [Turn.current]
    · rw [TrajectoryRecorder.observe_last (AgentEvent.kind_final _)]
      exact houtcomes
    · rw [TrajectoryRecorder.observe_last (AgentEvent.kind_final _)]
      show r.requests = l.requests (done ++ [])
      rwa [List.append_nil]
    · rintro tc ⟨⟩
    · rintro tc tool ⟨⟩
  · have hempty : reply.toolCalls.isEmpty = false := by
      rw [Bool.eq_false_iff, Ne, List.isEmpty_iff]
      exact hnone
    simp only [hempty, Bool.false_eq_true, if_false]
    refine ⟨hlength, fun _ => hbounded, ⟨replies, reply, rfl, hasks, hnone⟩,
      ⟨done, ?_, houtcomes, ?_⟩, ?_, ?_⟩
    · rw [hall]
      simp [Turn.current]
    · simpa [Turn.past] using hrequests
    · rintro tc ⟨⟩
    · rintro tc tool ⟨⟩

omit [PyText] in
/-- The end of a batch. -/
theorem endBatch (h : Watched l before replies r t) (hout : t.outbox = [])
    (hphase : t.phase = .dispatching) (htodo : t.todo = []) :
    Watched l before replies ((t.endBatch l).outbox.foldl TrajectoryRecorder.observe r)
      (t.endBatch l) := by
  have hstands := h.stands
  rw [Turn.Stands, hphase] at hstands
  obtain ⟨first, reply, rfl, hasks, hcalls⟩ := hstands
  have hserved := h.served
  have hcurrent : t.current = none := by rw [Turn.current, hphase]
  have hpast : t.past = none := by rw [Turn.past, hphase]
  rw [hcurrent, hpast] at hserved
  have hmore : ∀ x ∈ first ++ [reply], x.toolCalls ≠ [] := by
    intro x hx
    rcases List.mem_append.mp hx with hx | hx
    · exact hasks.2 x hx
    · exact List.mem_singleton.mp hx ▸ hcalls
  unfold Turn.endBatch
  by_cases hless : t.steps < l.maxSteps
  · rw [if_pos hless, hout]
    refine ⟨h.steps, h.bounded, ⟨⟨h.steps ▸ hless, hmore⟩, htodo⟩, hserved, ?_, ?_⟩
    · rintro tc ⟨⟩
    · rintro tc tool ⟨⟩
  · -- the steps are used up
    have hsegment : IsSegment (AsksOn l.maxSteps) (first ++ [reply]) :=
      ⟨first, reply, rfl, hasks, fun hon => hless (h.steps ▸ hon.1)⟩
    have hlast : lastMessage l (first ++ [reply]) = some (l.stopped l.maxSteps) := by
      have hempty : reply.toolCalls.isEmpty = false := by
        rw [Bool.eq_false_iff, Ne, List.isEmpty_iff]
        exact hcalls
      simp only [lastMessage, List.getLast?_concat, hempty, Bool.false_eq_true, if_false]
    rw [if_neg hless]
    refine ⟨h.steps, h.bounded, ⟨hsegment, htodo, ?_⟩, ?_, ?_, ?_⟩
    · rw [hlast]
      exact TrajectoryRecorder.said_observe_last (e := .ceiling (l.stopped l.maxSteps)) rfl r
    · rw [TrajectoryRecorder.observe_last (e := .ceiling (l.stopped l.maxSteps)) rfl]
      exact hserved
    · rintro tc ⟨⟩
    · rintro tc tool ⟨⟩

omit [PyText] in
/-- The next call of a batch. -/
theorem dispatch (h : Watched l before replies r t) (hphase : t.phase = .dispatching)
    {tc : ToolCall} {todo : List ToolCall} (htodo : t.todo = tc :: todo) (n : ℕ) :
    Watched l before replies (r.observe (.called tc))
      (({ t with todo := todo, served := n } : Turn Unit).dispatch l tc) := by
  have hstands := h.stands
  rw [Turn.Stands, hphase] at hstands
  obtain ⟨done, hcalls, houtcomes, hrequests⟩ := h.served
  have hcurrent : t.current = none := by rw [Turn.current, hphase]
  have hpast : t.past = none := by rw [Turn.past, hphase]
  rw [hcurrent, htodo, Option.toList_none, List.append_nil] at hcalls
  rw [hpast, Option.toList_none, List.append_nil] at hrequests
  have hall : callsOf (before ++ replies) = done ++ [tc] ++ todo := by
    rw [hcalls, List.append_assoc, List.singleton_append]
  have hpending : ∀ call, some tc = some call →
      (r.observe (.called tc)).pending.get? call.id
        = some (call.id, ⟨call.name, .obj call.arguments⟩) := by
    rintro call ⟨⟩
    rw [TrajectoryRecorder.observe_called]
    exact Table.get?_put_self r.pending (tc.id, _)
  rw [TrajectoryRecorder.observe_called] at hpending ⊢
  rcases Turn.dispatch_cases l ({ t with todo := todo, served := n } : Turn Unit) tc with
    ⟨tool, htool, hgated, happrovals, heq⟩ | ⟨hfree, heq⟩
  · -- a human is asked first
    rw [heq]
    refine ⟨h.steps, h.bounded, hstands, ⟨done, hall, houtcomes, ?_⟩, hpending, ?_⟩
    · show r.requests = l.requests (done ++ [])
      rwa [List.append_nil]
    · rintro call tool' hfiling
      obtain ⟨rfl, rfl⟩ := TurnPhase.filing.inj hfiling
      simp [Loop.gated, htool, hgated, happrovals]
  · rw [heq]
    refine ⟨h.steps, h.bounded, hstands, ⟨done, hall, houtcomes, ?_⟩, hpending, ?_⟩
    · have hnot : l.gated tc = false := by
        unfold Loop.gated
        cases htool : byName (l.tools ()) tc.name with
        | none => rfl
        | some tool =>
          cases hrequires : tool.requiresApproval with
          | false => simp [hrequires]
          | true => simp [hrequires, hfree tool htool hrequires]
      show r.requests = l.requests (done ++ [tc])
      rw [Loop.requests_append, hrequests]
      simp [Loop.requests, hnot]
    · rintro call tool ⟨⟩

omit [PyText] in
/-- A request is filed. -/
theorem file (h : Watched l before replies r t) {tc : ToolCall} {tool : MeshTool}
    (hphase : t.phase = .filing tc tool) (id : String) :
    Watched l before replies (r.observe (.asked tc tool id)) (t.file tc tool id) := by
  have hstands := h.stands
  rw [Turn.Stands, hphase] at hstands
  obtain ⟨done, hcalls, houtcomes, hrequests⟩ := h.served
  have hcurrent : t.current = some tc := by rw [Turn.current, hphase]
  have hpast : t.past = none := by rw [Turn.past, hphase]
  rw [hcurrent] at hcalls
  rw [hpast, Option.toList_none, List.append_nil] at hrequests
  have hasked : (r.observe (.asked tc tool id)).requests = r.requests ++ [some tc.name] := by
    show ((r.approvals ++ [_]).filter _).map _ = _
    rw [List.filter_append, List.map_append]
    rfl
  refine ⟨h.steps, h.bounded, hstands, ⟨done, hcalls, houtcomes, ?_⟩,
    fun call hcall => h.pending call (hcurrent.trans hcall), ?_⟩
  · show _ = l.requests (done ++ [tc])
    rw [hasked, hrequests, Loop.requests_append]
    simp [Loop.requests, h.filing tc tool hphase]
  · rintro call tool' ⟨⟩

omit [PyText] in
/-- A call is answered. -/
theorem answer (h : Watched l before replies r t) {tc : ToolCall} (hcurrent : t.current = some tc)
    (hpast : t.past = some tc) (content : String) (error : Bool) (outbox : List AgentEvent) :
    Watched l before replies (r.observe (.returned tc content error))
      { t.answer tc content with outbox := outbox } := by
  have hstands : ∃ first reply, replies = first ++ [reply] ∧ AsksOn l.maxSteps first ∧
      reply.toolCalls ≠ [] := by
    have hstands := h.stands
    unfold Turn.Stands at hstands
    unfold Turn.past at hpast
    split at hpast <;> simp_all
  obtain ⟨done, hcalls, houtcomes, hrequests⟩ := h.served
  rw [hcurrent, Option.toList_some] at hcalls
  rw [hpast, Option.toList_some] at hrequests
  rw [TrajectoryRecorder.observe_returned (h.pending tc hcurrent)]
  refine ⟨h.steps, h.bounded, hstands, ⟨done ++ [tc], ?_, ?_, ?_⟩, ?_, ?_⟩
  · rw [hcalls]
    exact congrArg (· ++ t.todo) (List.append_nil _).symm
  · show (r.tools ++ [_]).map _ = _
    rw [List.map_append, List.map_append]
    exact congrArg (· ++ [tc.entry]) houtcomes
  · show r.requests = l.requests (done ++ [tc] ++ [])
    rwa [List.append_nil]
  · rintro call ⟨⟩
  · rintro call tool ⟨⟩

/-- The gate has answered. -/
theorem decided (h : Watched l before replies r t) {tc : ToolCall} {id : String}
    (hphase : t.phase = .waiting tc id) (v : Verdict T) :
    Watched l before replies ((t.decided tc id v).outbox.foldl TrajectoryRecorder.observe r)
      (t.decided tc id v) := by
  have hcurrent : t.current = some tc := by rw [Turn.current, hphase]
  have hpast : t.past = some tc := by rw [Turn.past, hphase]
  -- a decision is no request
  have hkept : ∀ e : AgentEvent, e.kind = .approvalDecision →
      (r.observe e).requests = r.requests := by
    intro e he
    unfold TrajectoryRecorder.observe TrajectoryRecorder.note TrajectoryRecorder.requests
    rw [he]
    simp
  rcases Turn.decided_cases t tc id v with ⟨req, -, heq⟩ | ⟨refusal, -, heq⟩
  · rw [heq]
    have hstands := h.stands
    rw [Turn.Stands, hphase] at hstands
    have hserved := h.served
    rw [hcurrent, hpast] at hserved
    obtain ⟨done, hcalls, houtcomes, hrequests⟩ := hserved
    refine ⟨h.steps, h.bounded, hstands, ⟨done, hcalls, houtcomes, ?_⟩,
      fun call hcall => h.pending call (hcurrent.trans hcall), ?_⟩
    · exact (hkept (.cleared tc id req) rfl).trans hrequests
    · rintro call tool ⟨⟩
  · rw [heq]
    have hrefused : Watched l before replies (r.observe (.refused tc id refusal)) t :=
      h.of_eq rfl (hkept (.refused tc id refusal) rfl)
        (TrajectoryRecorder.said_of_other (e := .refused tc id refusal) (by rintro ⟨⟩) rfl) rfl
    exact hrefused.answer hcurrent hpast refusal true _

/-- The loop runs the tool. -/
theorem invoke (h : Watched l before replies r t) (hout : t.outbox = []) {tc : ToolCall}
    {arguments : Json} {request : Option String} (hphase : t.phase = .ready tc arguments request) :
    Watched l before replies
      ((t.invoke l tc arguments request).outbox.foldl TrajectoryRecorder.observe r)
      (t.invoke l tc arguments request) := by
  have hcurrent : t.current = some tc := by rw [Turn.current, hphase]
  have hpast : t.past = some tc := by rw [Turn.past, hphase]
  unfold Turn.invoke
  cases byName (l.tools t.active) tc.name with
  | none => exact h.answer hcurrent hpast _ true _
  | some tool =>
    have hstands := h.stands
    rw [Turn.Stands, hphase] at hstands
    have hserved := h.served
    rw [hcurrent, hpast] at hserved
    rw [hout]
    refine ⟨h.steps, h.bounded, hstands, hserved,
      fun call hcall => h.pending call (hcurrent.trans hcall), ?_⟩
    rintro call tool ⟨⟩

omit [PyText] in
/-- The tool has answered. -/
theorem finished (h : Watched l before replies r t) {tc : ToolCall}
    (hphase : t.phase = .calling tc) (o : ToolEnd) :
    Watched l before replies ((t.finished tc o).outbox.foldl TrajectoryRecorder.observe r)
      (t.finished tc o) := by
  have hcurrent : t.current = some tc := by rw [Turn.current, hphase]
  have hpast : t.past = some tc := by rw [Turn.past, hphase]
  exact h.answer hcurrent hpast o.result.1 o.result.2 _

/-- **Every step but a reply** keeps the invariant. -/
theorem step (htarget : ∀ a name, l.target a name = none)
    (h : Watched l before replies (t.outbox.foldl TrajectoryRecorder.observe r) t) {t' : Turn Unit}
    {a : TurnAction T} (hstep : t.step l a = some t') (ha : ∀ reply, a ≠ .reply reply)
    (tools : List MeshTool) :
    Watched l before replies
      (t'.outbox.foldl TrajectoryRecorder.observe (RecordSession.watch tools r t a)) t' := by
  have hmove := Turn.moves hstep
  cases hmove with
  | deliver hout =>
    rw [hout] at h
    unfold RecordSession.watch
    rw [hout]
    exact ⟨h.steps, h.bounded, h.stands, h.served, h.pending, h.filing⟩
  | reply hout hphase => exact absurd rfl (ha _)
  | next hout hphase =>
    rw [hout] at h
    show Watched l before replies ((t.advance l).outbox.foldl TrajectoryRecorder.observe r) _
    cases htodo : t.todo with
    | nil =>
      have hadvance : t.advance l = t.endBatch l := by
        unfold Turn.advance
        rw [htodo]
      rw [hadvance]
      exact h.endBatch hout hphase htodo
    | cons tc todo =>
      have hadvance : t.advance l
          = ({ t with todo := todo, served := t.served + 1 } : Turn Unit).dispatch l tc := by
        simp only [Turn.advance, htodo, htarget]
      rw [hadvance]
      exact h.dispatch hphase htodo (t.served + 1)
  | file hout hphase =>
    rw [hout] at h
    exact h.file hphase _
  | verdict hout hphase =>
    rw [hout] at h
    exact h.decided hphase _
  | invoke hout hphase =>
    rw [hout] at h
    exact h.invoke hout hphase
  | result hout hphase =>
    rw [hout] at h
    exact h.finished hphase _

end Watched

/-! ### Recording -/

namespace TrajectoryRecorder

@[simp] theorem users_observe (r : TrajectoryRecorder) (e : AgentEvent) :
    (r.observe e).users = r.users := by
  unfold observe note
  split <;> rfl

@[simp] theorem turns_observe (r : TrajectoryRecorder) (e : AgentEvent) :
    (r.observe e).turns = r.turns := by
  unfold observe note
  split <;> rfl

end TrajectoryRecorder

/-- **Between two passes**: what the recorder holds of the passes so far. -/
structure Kept (l : Loop Unit) (scripts : List (List ModelReply)) (r : TrajectoryRecorder) :
    Prop where
  rests : Watched.Rests l scripts.flatten r
  said : r.said = scripts.getLast?.bind (lastMessage l)
  bounded : scripts ≠ [] → l.maxMessages ≠ some 0

theorem Kept.empty (l : Loop Unit) : Kept l [] .empty := ⟨⟨rfl, rfl⟩, rfl, fun h => absurd rfl h⟩

/-- A pass has ended: its completions are a segment, and the recorder holds it like the others. -/
theorem Watched.kept {l : Loop Unit} {scripts : List (List ModelReply)} {replies : List ModelReply}
    {r : TrajectoryRecorder} {t : Turn Unit} (h : Watched l scripts.flatten replies r t)
    (hended : t.phase = .ended) :
    IsSegment (AsksOn l.maxSteps) replies ∧ Kept l (scripts ++ [replies]) r := by
  have hstands := h.stands
  rw [Turn.Stands, hended] at hstands
  refine ⟨hstands.1, ?_, ?_, fun _ => h.bounded hstands.1.ne_nil⟩
  · rw [List.flatten_append, List.flatten_singleton]
    exact h.rests hended
  · rw [List.getLast?_concat]
    exact hstands.2.2

namespace RecordSession

/-- **The invariant** of a recording that has not failed: the passes so far, and the completions of
the one that is on its way. -/
def Keeps (tools : List MeshTool) (l : Loop Unit) (texts : List String) (s : RecordSession) :
    Prop :=
  ∃ scripts replies taken, (∀ R ∈ scripts, IsSegment (AsksOn l.maxSteps) R) ∧
    passes texts = taken ++ s.todo ∧ s.recorder.users = taken.filter (fun text => text ≠ "") ∧
    s.recorder.turns = (scripts.flatten ++ replies).map
      (ModelTurn.fromReply · (tools.map MeshTool.name)) ∧
    match s.turn with
    | none => taken.length = scripts.length ∧ replies = [] ∧ Kept l scripts s.recorder
    | some t => taken.length = scripts.length + 1 ∧ Watched l scripts.flatten replies
        (t.outbox.foldl TrajectoryRecorder.observe s.recorder) t

/-- The loop has raised. -/
def Raised (s : RecordSession) : Prop :=
  ∃ t, s.turn = some t ∧ t.phase = .raised ∧ t.outbox = []

variable [PyText] {T : Type} {tools : List MeshTool} {l : Loop Unit} {texts : List String}
  {s s' : RecordSession}

omit [PyText] in
theorem keeps_init (system : Option String) (texts : List String) (messages : List Message) :
    (init system texts messages).Keeps tools l texts :=
  ⟨[], [], [], List.forall_mem_nil _, rfl, rfl, rfl, rfl, rfl, Kept.empty l⟩

/-- Nothing happens after the loop has raised. -/
theorem not_step_of_raised (h : s.Raised) (a : RecordAction T) : s.step tools l a = none := by
  obtain ⟨t, hturn, hphase, hout⟩ := h
  cases a with
  | next => simp [step, hturn]
  | turn b =>
    have hstuck : t.step l b = none := by cases b <;> simp [Turn.step, hphase, hout]
    simp [step, hturn, hstuck]
  | finish => simp [step, hturn, hphase, hout]

/-- **A step of a recording** keeps the invariant, unless the loop raises. -/
theorem keeps_step (htarget : ∀ a name, l.target a name = none) {a : RecordAction T}
    (hstep : s.step tools l a = some s') (h : s.Keeps tools l texts) :
    s'.Raised ∨ s'.Keeps tools l texts := by
  obtain ⟨scripts, replies, taken, hsegments, htexts, husers, hturns, hstands⟩ := h
  cases a with
  | next =>
    simp only [step] at hstep
    split at hstep
    · next text todo hturn htodo =>
      rw [hturn] at hstands
      obtain ⟨hlength, rfl, hkept⟩ := hstands
      obtain ⟨t, hstart, rfl⟩ := Option.map_eq_some_iff.mp hstep
      have huser : (s.recorder.user text).users
          = (taken ++ [text]).filter fun text => text ≠ "" := by
        rw [List.filter_append, ← husers]
        by_cases htext : text = ""
        · simp [TrajectoryRecorder.user, htext]
        · simp [TrajectoryRecorder.user, htext]
      have hsame : Watched.Rests l scripts.flatten (s.recorder.user text) := by
        unfold TrajectoryRecorder.user
        split
        · exact hkept.rests
        · exact ⟨hkept.rests.calls, hkept.rests.requests⟩
      have hturns' : (s.recorder.user text).turns = s.recorder.turns := by
        unfold TrajectoryRecorder.user
        split <;> rfl
      obtain ⟨-, -, rfl⟩ := Loop.start_eq_some hstart
      refine .inr ⟨scripts, [], taken ++ [text], hsegments, ?_, huser, hturns'.trans hturns, ?_,
        Watched.start hsame hstart⟩
      · rw [htexts, htodo, List.append_assoc, List.singleton_append]
      · rw [List.length_append, hlength, List.length_singleton]
    · cases hstep
  | turn b =>
    simp only [step] at hstep
    split at hstep
    · next t hturn =>
      rw [hturn] at hstands
      obtain ⟨hlength, hwatched⟩ := hstands
      obtain ⟨t', hmoved, rfl⟩ := Option.map_eq_some_iff.mp hstep
      -- the recorder counts the replies of the model; all else leaves users and turns alone
      by_cases hreply : ∃ reply, b = .reply reply
      · obtain ⟨reply, rfl⟩ := hreply
        have hmove := Turn.moves hmoved
        cases hmove with
        | reply hout hphase =>
          rw [hout] at hwatched
          cases htrim : l.trimmed t.messages with
          | none =>
            -- `_trim_messages` raises
            refine .inl ⟨_, rfl, ?_, ?_⟩
            · simp [Turn.complete, htrim]
            · simp [Turn.complete, htrim, hout]
          | some messages =>
            have hnow : Watched l scripts.flatten replies
                (s.recorder.complete reply (tools.map MeshTool.name)) t :=
              hwatched.of_eq rfl rfl rfl rfl
            refine .inr ⟨scripts, replies ++ [reply], taken, hsegments, htexts, husers, ?_, hlength,
              hnow.complete hphase htrim reply⟩
            show s.recorder.turns ++ [_] = _
            simp only [hturns, List.map_append, List.append_assoc, List.map_cons, List.map_nil]
      · have hother : ∀ reply, b ≠ .reply reply := fun reply heq => hreply ⟨reply, heq⟩
        have hsame : ∀ {r : TrajectoryRecorder}, (watch tools r t b).users = r.users ∧
            (watch tools r t b).turns = r.turns := by
          intro r
          unfold watch
          split
          · split <;> simp
          · exact absurd rfl (hother _)
          · exact ⟨rfl, rfl⟩
        exact .inr ⟨scripts, replies, taken, hsegments, htexts, hsame.1.trans husers,
          hsame.2.trans hturns, hlength, hwatched.step htarget hmoved hother tools⟩
    · cases hstep
  | finish =>
    simp only [step] at hstep
    split at hstep
    · next t hturn =>
      split at hstep
      · next hout hended =>
        obtain rfl := Option.some.inj hstep
        rw [hturn] at hstands
        obtain ⟨hlength, hwatched⟩ := hstands
        rw [hout] at hwatched
        obtain ⟨hsegment, hkept⟩ := hwatched.kept hended
        refine .inr ⟨scripts ++ [replies], [], taken, ?_, htexts, husers, ?_, ?_, rfl, hkept⟩
        · intro R hR
          rcases List.mem_append.mp hR with hR | hR
          · exact hsegments R hR
          · exact List.mem_singleton.mp hR ▸ hsegment
        · rw [hturns, List.flatten_append, List.flatten_singleton, List.append_nil]
        · rw [hlength, List.length_append, List.length_singleton]
      · cases hstep
    · cases hstep

/-- **What a recording holds**, whatever the model, the tools and the humans have answered. -/
theorem keeps_of_done (htarget : ∀ a name, l.target a name = none) {system : Option String}
    {messages : List Message} {as : List (RecordAction T)}
    (hrun : Steps.run (step tools l) (init system texts messages) as = some s) (hdone : s.Done) :
    ∃ scripts, (∀ R ∈ scripts, IsSegment (AsksOn l.maxSteps) R) ∧
      scripts.length = (passes texts).length ∧
      s.recorder.users = (passes texts).filter (fun text => text ≠ "") ∧
      s.recorder.turns = scripts.flatten.map (ModelTurn.fromReply · (tools.map MeshTool.name)) ∧
      Kept l scripts s.recorder := by
  have hkeeps : s.Raised ∨ s.Keeps tools l texts := by
    have hpreserved : ∀ (s₁ : RecordSession) (a : RecordAction T) (s₂ : RecordSession),
        step tools l s₁ a = some s₂ → s₁.Raised ∨ s₁.Keeps tools l texts →
          s₂.Raised ∨ s₂.Keeps tools l texts := by
      rintro s₁ a s₂ hstep (hraised | hkeeps)
      · rw [not_step_of_raised hraised] at hstep
        cases hstep
      · exact keeps_step htarget hstep hkeeps
    exact Steps.run_invariant_true hpreserved hrun (.inr (keeps_init system texts messages))
  rcases hkeeps with
    ⟨t, hturn, -⟩ | ⟨scripts, replies, taken, hsegments, htexts, husers, hturns, hstands⟩
  · rw [hdone.1] at hturn
    cases hturn
  · rw [hdone.1] at hstands
    obtain ⟨hlength, rfl, hkept⟩ := hstands
    rw [hdone.2, List.append_nil] at htexts
    rw [List.append_nil] at hturns
    exact ⟨scripts, hsegments, hlength ▸ htexts ▸ rfl, htexts ▸ husers, hturns, hkept⟩

end RecordSession

end Istos
