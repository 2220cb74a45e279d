import Istos.Agent.Equiv.Loop
import Istos.Agent.Equiv.Request
import Istos.Agent.Gated

/-!
# No gated tool runs without its own approval

The calls of a turn are numbered.  `Lawful` says what order the requests and the invocations of a
trace have, `Turn.Ordered` ties it to where the turn stands, and `GatedTurn.Governed` ties both to
what the gate has recorded and to what was decided.

* `gated_tool_approved`: every invocation of a gated tool follows its own request, which is recorded
  as approved; no other request is followed by an invocation; and a turn that waits goes on, except
  where nobody denies the request and the gate has no timeout.
-/

namespace Istos

/-! ### The order of a trace -/

/-- The call that an entry files or invokes. -/
def TurnEntry.call? {A : Type} : TurnEntry A → Option ℕ
  | filed call _ _ => some call
  | invoked call _ _ _ => some call
  | _ => none

/-- A tool of the catalogue needs an approval. -/
def Gated (tools : List MeshTool) (name : String) : Prop :=
  ∃ tool, byName tools name = some tool ∧ tool.requiresApproval = true

/-- What may stand before an invocation: nothing of the same call, and the tool is not gated, or the
one request of the call. -/
def Clears (tools : List MeshTool) (trace : List (TurnEntry Unit)) (call : ℕ) (tool : MeshTool) :
    Option String → Prop
  | none => (∀ e ∈ trace, e.call? ≠ some call) ∧ tool.requiresApproval = false
  | some id => (∃ tc, .filed call id tc ∈ trace ∧ byName tools tc.name = some tool) ∧
      ∀ request tool' arguments, .invoked call request tool' arguments ∉ trace

/-- The traces of a turn. -/
inductive Lawful (tools : List MeshTool) : List (TurnEntry Unit) → Prop
  | nil : Lawful tools []
  | quiet {trace : List (TurnEntry Unit)} {e : TurnEntry Unit} (h : Lawful tools trace)
    (he : e.call? = none) : Lawful tools (trace ++ [e])
  | filed {trace : List (TurnEntry Unit)} {call : ℕ} {id : String} {tc : ToolCall}
    (h : Lawful tools trace) (hnew : ∀ e ∈ trace, e.call? ≠ some call)
      (hgated : Gated tools tc.name) :
    Lawful tools (trace ++ [.filed call id tc])
  | invoked {trace : List (TurnEntry Unit)} {call : ℕ} {request : Option String} {tool : MeshTool}
    {arguments : Json} (h : Lawful tools trace) (hclear : Clears tools trace call tool request) :
    Lawful tools (trace ++ [.invoked call request tool arguments])

namespace Lawful

variable {tools : List MeshTool} {trace : List (TurnEntry Unit)}

/-- Only calls of gated tools are filed. -/
theorem gated (h : Lawful tools trace) {call : ℕ} {id : String} {tc : ToolCall}
    (hmem : .filed call id tc ∈ trace) : Gated tools tc.name := by
  induction h with
  | nil => cases hmem
  | quiet h he ih =>
    rcases List.mem_append.mp hmem with hmem | hmem
    · exact ih hmem
    · obtain rfl := List.mem_singleton.mp hmem
      cases he
  | filed h hnew hgated ih =>
    rcases List.mem_append.mp hmem with hmem | hmem
    · exact ih hmem
    · cases List.mem_singleton.mp hmem
      exact hgated
  | invoked h hclear ih =>
    rcases List.mem_append.mp hmem with hmem | hmem
    · exact ih hmem
    · cases List.mem_singleton.mp hmem

/-- A call is filed once. -/
theorem filed_once (h : Lawful tools trace) {call : ℕ} {id id' : String} {tc tc' : ToolCall}
    (hmem : .filed call id tc ∈ trace) (hmem' : .filed call id' tc' ∈ trace) : id = id' ∧
        tc = tc' := by
  induction h with
  | nil => cases hmem
  | quiet h he ih =>
    rcases List.mem_append.mp hmem with hmem | hmem
    · rcases List.mem_append.mp hmem' with hmem' | hmem'
      · exact ih hmem hmem'
      · obtain rfl := List.mem_singleton.mp hmem'
        cases he
    · obtain rfl := List.mem_singleton.mp hmem
      cases he
  | filed h hnew hgated ih =>
    rcases List.mem_append.mp hmem with hold | hlast
    · rcases List.mem_append.mp hmem' with hold' | hlast'
      · exact ih hold hold'
      · cases List.mem_singleton.mp hlast'
        exact (hnew _ hold rfl).elim
    · cases List.mem_singleton.mp hlast
      rcases List.mem_append.mp hmem' with hold' | hlast'
      · exact (hnew _ hold' rfl).elim
      · cases List.mem_singleton.mp hlast'
        exact ⟨rfl, rfl⟩
  | invoked h hclear ih =>
    rcases List.mem_append.mp hmem with hmem | hmem
    · rcases List.mem_append.mp hmem' with hmem' | hmem'
      · exact ih hmem hmem'
      · cases List.mem_singleton.mp hmem'
    · cases List.mem_singleton.mp hmem

/-- A call that was filed is only invoked under its request. -/
theorem invoked_filed (h : Lawful tools trace) {call : ℕ} {id : String} {tc : ToolCall}
    {request : Option String} {tool : MeshTool} {arguments : Json}
    (hfiled : .filed call id tc ∈ trace)
    (hinvoked : .invoked call request tool arguments ∈ trace) : request = some id := by
  induction h with
  | nil => cases hfiled
  | quiet h he ih =>
    rcases List.mem_append.mp hfiled with hfiled | hfiled
    · rcases List.mem_append.mp hinvoked with hinvoked | hinvoked
      · exact ih hfiled hinvoked
      · obtain rfl := List.mem_singleton.mp hinvoked
        cases he
    · obtain rfl := List.mem_singleton.mp hfiled
      cases he
  | filed h hnew hgated ih =>
    rcases List.mem_append.mp hinvoked with hold | hlast
    · rcases List.mem_append.mp hfiled with hold' | hlast'
      · exact ih hold' hold
      · cases List.mem_singleton.mp hlast'
        exact (hnew _ hold rfl).elim
    · cases List.mem_singleton.mp hlast
  | @invoked trace call' request' tool' arguments' h hclear ih =>
    rcases List.mem_append.mp hfiled with hold | hnew
    · rcases List.mem_append.mp hinvoked with hinvoked | hinvoked
      · exact ih hold hinvoked
      · cases List.mem_singleton.mp hinvoked
        cases request with
        | none => exact (hclear.1 _ hold rfl).elim
        | some id' =>
          obtain ⟨⟨tc', hfiled', -⟩, -⟩ := hclear
          rw [(h.filed_once hold hfiled').1]
    · cases List.mem_singleton.mp hnew

/-- An entry of a longer list is an entry of the list, or the last. -/
theorem split_concat {before pre post : List (TurnEntry Unit)} {e e' : TurnEntry Unit}
    (h : before ++ [e] = pre ++ e' :: post) :
    (∃ post', before = pre ++ e' :: post') ∨ before = pre ∧ e = e' := by
  rcases List.eq_nil_or_concat post with rfl | ⟨post', last, rfl⟩
  · obtain ⟨hpre, he⟩ := List.append_inj' h rfl
    exact .inr ⟨hpre, List.singleton_inj.mp he⟩
  · refine .inl ⟨post', ?_⟩
    have h' : before ++ [e] = (pre ++ e' :: post') ++ [last] := by
      rw [h]
      simp
    exact (List.append_inj' h' rfl).1

/-- Whatever stands before an invocation clears it. -/
theorem clears (h : Lawful tools trace) {pre post : List (TurnEntry Unit)} {call : ℕ}
    {request : Option String} {tool : MeshTool} {arguments : Json}
    (hsplit : trace = pre ++ .invoked call request tool arguments :: post) :
    Clears tools pre call tool request := by
  induction h generalizing post with
  | nil => exact absurd hsplit (by simp)
  | quiet h he ih =>
    rcases split_concat hsplit with ⟨post', hsplit'⟩ | ⟨-, rfl⟩
    · exact ih hsplit'
    · cases he
  | filed h hnew hgated ih =>
    rcases split_concat hsplit with ⟨post', hsplit'⟩ | ⟨-, he⟩
    · exact ih hsplit'
    · cases he
  | invoked h hclear ih =>
    rcases split_concat hsplit with ⟨post', hsplit'⟩ | ⟨rfl, he⟩
    · exact ih hsplit'
    · cases he
      exact hclear

end Lawful

/-! ### The turn -/

/-- Where a turn stands in its trace. -/
structure Turn.Ordered (tools : List MeshTool) (t : Turn Unit) : Prop where
  lawful : Lawful tools t.trace
  bound : ∀ e ∈ t.trace, ∀ call, e.call? = some call → call ≤ t.served
  filing : ∀ tc tool, t.phase = .filing tc tool →
    Gated tools tc.name ∧ ∀ e ∈ t.trace, e.call? ≠ some t.served
  waiting : ∀ tc id, t.phase = .waiting tc id → .filed t.served id tc ∈ t.trace ∧
    ∀ request tool arguments, .invoked t.served request tool arguments ∉ t.trace
  ready : ∀ tc arguments request, t.phase = .ready tc arguments request →
    ∀ tool, byName tools tc.name = some tool → Clears tools t.trace t.served tool request

namespace Turn.Ordered

variable {tools : List MeshTool} {t t' : Turn Unit}

/-- A step that files and invokes nothing, and leaves the call. -/
theorem leave (h : t.Ordered tools) (e : Option (TurnEntry Unit)) (he : ∀ e' ∈ e, e'.call? = none)
    (htrace : t'.trace = t.trace ++ e.toList) (hserved : t'.served = t.served)
    (hphase : t'.phase = .completing ∨ t'.phase = .dispatching ∨ t'.phase = .ended ∨
      t'.phase = .raised) :
    t'.Ordered tools := by
  have hnot : ∀ p : TurnPhase, t'.phase = p →
      p = .completing ∨ p = .dispatching ∨ p = .ended ∨ p = .raised := by
    rintro p rfl
    exact hphase
  refine ⟨?_, fun e' hmem call hcall => ?_, fun tc tool hp => ?_, fun tc id hp => ?_,
    fun tc arguments request hp => ?_⟩
  · rw [htrace]
    cases e with
    | none => simpa using h.lawful
    | some e => exact h.lawful.quiet (he e rfl)
  · rw [htrace] at hmem
    rw [hserved]
    rcases List.mem_append.mp hmem with hmem | hmem
    · exact h.bound e' hmem call hcall
    · rw [he e' (Option.mem_toList.mp hmem)] at hcall
      cases hcall
  · rcases hnot _ hp with ⟨⟨⟩⟩ | ⟨⟨⟩⟩ | ⟨⟨⟩⟩ | ⟨⟨⟩⟩
  · rcases hnot _ hp with ⟨⟨⟩⟩ | ⟨⟨⟩⟩ | ⟨⟨⟩⟩ | ⟨⟨⟩⟩
  · rcases hnot _ hp with ⟨⟨⟩⟩ | ⟨⟨⟩⟩ | ⟨⟨⟩⟩ | ⟨⟨⟩⟩

/-- A call is answered. -/
theorem answer (h : t.Ordered tools) (tc : ToolCall) (content : String) (outbox : List AgentEvent) :
    ({ t.answer tc content with outbox := outbox } : Turn Unit).Ordered tools :=
  h.leave (some (.answered t.served tc content)) (by rintro _ ⟨⟩; rfl) rfl rfl (.inr (.inl rfl))

variable {maxSteps : ℕ} {maxMessages : Option ℕ}

/-- The next call of the batch, or its end. -/
theorem advance (h : t.Ordered tools) :
    (t.advance (runAgent tools maxSteps maxMessages true)).Ordered tools := by
  unfold Turn.advance
  split
  · unfold Turn.endBatch
    split
    · exact h.leave none (by rintro _ ⟨⟩) (List.append_nil _).symm rfl (.inl rfl)
    · exact h.leave none (by rintro _ ⟨⟩) (List.append_nil _).symm rfl (.inr (.inr (.inl rfl)))
  · next tc todo htodo =>
    -- a new call has a new number
    have hnew : ∀ e ∈ t.trace, e.call? ≠ some (t.served + 1) := by
      intro e hmem hcall
      have hle := h.bound e hmem _ hcall
      omega
    have hbound : ∀ e ∈ t.trace, ∀ call, e.call? = some call → call ≤ t.served + 1 :=
      fun e hmem call hcall => Nat.le_succ_of_le (h.bound e hmem call hcall)
    show (Turn.dispatch (runAgent tools maxSteps maxMessages true)
      { t with todo := todo, served := t.served + 1 } tc).Ordered tools
    obtain ⟨tool, htool, hgated, -, hdispatch⟩ | ⟨hfree, hdispatch⟩ := Turn.dispatch_cases
      (runAgent tools maxSteps maxMessages true) { t with todo := todo, served := t.served + 1 } tc
    · rw [hdispatch]
      refine ⟨h.lawful, hbound, ?_, by rintro _ _ ⟨⟩, by rintro _ _ _ ⟨⟩⟩
      rintro _ _ ⟨⟩
      exact ⟨⟨tool, htool, hgated⟩, hnew⟩
    · rw [hdispatch]
      refine ⟨h.lawful, hbound, by rintro _ _ ⟨⟩, by rintro _ _ ⟨⟩, ?_⟩
      rintro _ _ _ ⟨⟩ tool htool
      refine ⟨hnew, Bool.eq_false_iff.mpr fun hgated => ?_⟩
      cases hfree tool htool hgated

/-- The model answers. -/
theorem complete (h : t.Ordered tools) (r : ModelReply) :
    (t.complete (runAgent tools maxSteps maxMessages true) r).Ordered tools := by
  unfold Turn.complete
  split
  · exact h.leave none (by rintro _ ⟨⟩) (List.append_nil _).symm rfl (.inr (.inr (.inr rfl)))
  · next messages hmessages =>
    refine h.leave (some (.completed t.active messages)) (by rintro _ ⟨⟩; rfl) rfl rfl ?_
    show (if r.toolCalls.isEmpty then TurnPhase.ended else .dispatching) = .completing ∨
      (if r.toolCalls.isEmpty then TurnPhase.ended else .dispatching) = .dispatching ∨
        (if r.toolCalls.isEmpty then TurnPhase.ended else .dispatching) = .ended ∨ _
    split
    · exact .inr (.inr (.inl rfl))
    · exact .inr (.inl rfl)

/-- The request of the call is there. -/
theorem file (h : t.Ordered tools) {tc : ToolCall} {tool : MeshTool}
    (hphase : t.phase = .filing tc tool) (id : String) : (t.file tc tool id).Ordered tools := by
  obtain ⟨hgated, hnew⟩ := h.filing tc tool hphase
  refine ⟨h.lawful.filed hnew hgated, fun e hmem call hcall => ?_, by rintro _ _ ⟨⟩, ?_,
    by rintro _ _ _ ⟨⟩⟩
  · rcases List.mem_append.mp hmem with hmem | hmem
    · exact h.bound e hmem call hcall
    · obtain rfl := List.mem_singleton.mp hmem
      exact (Option.some.inj hcall).ge
  · rintro _ _ ⟨⟩
    refine ⟨List.mem_append_right _ (List.mem_singleton.mpr rfl),
      fun request tool' arguments hmem => ?_⟩
    rcases List.mem_append.mp hmem with hold | hlast
    · exact hnew _ hold rfl
    · cases List.mem_singleton.mp hlast

/-- The tool is run, or is not known. -/
theorem invoke [PyText] (h : t.Ordered tools) {tc : ToolCall} {arguments : Json}
    {request : Option String} (hphase : t.phase = .ready tc arguments request) :
    (t.invoke (runAgent tools maxSteps maxMessages true) tc arguments request).Ordered tools := by
  unfold Turn.invoke
  split
  · exact h.answer tc _ _
  · next tool htool =>
    refine ⟨h.lawful.invoked (h.ready tc arguments request hphase tool htool),
        fun e hmem call hcall => ?_,
      by rintro _ _ ⟨⟩, by rintro _ _ ⟨⟩, by rintro _ _ _ ⟨⟩⟩
    rcases List.mem_append.mp hmem with hmem | hmem
    · exact h.bound e hmem call hcall
    · obtain rfl := List.mem_singleton.mp hmem
      exact (Option.some.inj hcall).ge

/-- **One step of a turn.** -/
theorem step [PyText] {T : Type} (h : t.Ordered tools) {a : TurnAction T}
    (hmove : Turn.Moves (runAgent tools maxSteps maxMessages true) t a t') : t'.Ordered tools := by
  cases hmove with
  | deliver hout => exact ⟨h.lawful, h.bound, h.filing, h.waiting, h.ready⟩
  | reply hout hphase => exact h.complete _
  | next hout hphase => exact h.advance
  | file hout hphase => exact h.file hphase _
  | @verdict tc id v hout hphase =>
    obtain ⟨req, -, hdecided⟩ | ⟨refusal, -, hdecided⟩ := Turn.decided_cases t tc id v
    · obtain ⟨hfiled, hnew⟩ := h.waiting tc id hphase
      rw [hdecided]
      refine ⟨h.lawful, h.bound, by rintro _ _ ⟨⟩, by rintro _ _ ⟨⟩, ?_⟩
      rintro _ _ _ ⟨⟩ tool htool
      exact ⟨⟨tc, hfiled, htool⟩, hnew⟩
    · rw [hdecided]
      exact h.answer tc refusal _
  | invoke hout hphase => exact h.invoke hphase
  | result hout hphase => exact h.answer _ _ _

end Turn.Ordered

/-- What a step adds to the trace, and whether it leaves a call that is cleared. -/
theorem Turn.Moves.trace [PyText] {T : Type} {tools : List MeshTool} {maxSteps : ℕ}
    {maxMessages : Option ℕ} {approvals : Bool} {t t' : Turn Unit} {a : TurnAction T}
    (hmove : Turn.Moves (runAgent tools maxSteps maxMessages approvals) t a t')
    (hfile : ∀ id, a ≠ .file id) (hverdict : ∀ v, a ≠ .verdict v) :
    t'.trace = t.trace ∨ ∃ e, t'.trace = t.trace ++ [e] ∧ (e.call? = none ∨
      ∃ tc arguments request tool, t.phase = .ready tc arguments request ∧
        e = .invoked t.served request tool arguments) := by
  cases hmove with
  | deliver hout => exact .inl rfl
  | reply hout hphase =>
    unfold Turn.complete
    split
    · exact .inl rfl
    · exact .inr ⟨_, rfl, .inl rfl⟩
  | next hout hphase =>
    unfold Turn.advance
    split
    · unfold Turn.endBatch
      split <;> exact .inl rfl
    · exact .inl rfl
  | file hout hphase => exact absurd rfl (hfile _)
  | verdict hout hphase => exact absurd rfl (hverdict _)
  | @invoke tc arguments request hout hphase =>
    unfold Turn.invoke
    split
    · exact .inr ⟨_, rfl, .inl rfl⟩
    · next tool htool => exact .inr ⟨_, rfl, .inr ⟨tc, arguments, request, tool, hphase, rfl⟩⟩
  | result hout hphase => exact .inr ⟨_, rfl, .inl rfl⟩

/-- A step of the turn alone leaves a call that is filed or cleared as it is, or goes on with it. -/
theorem Turn.Moves.phase [PyText] {T : Type} {tools : List MeshTool} {maxSteps : ℕ}
    {maxMessages : Option ℕ} {approvals : Bool} {t t' : Turn Unit} {a : TurnAction T}
    (hmove : Turn.Moves (runAgent tools maxSteps maxMessages approvals) t a t')
    (hfile : ∀ id, a ≠ .file id) (hverdict : ∀ v, a ≠ .verdict v) :
    (∃ e, t.outbox = [e] ++ t'.outbox ∧ t'.phase = t.phase) ∨
      t.outbox = [] ∧ (∀ tc tool, t.phase ≠ .filing tc tool) ∧ (∀ tc id, t.phase ≠ .waiting tc id) ∧
        ∀ tc arguments id, t'.phase ≠ .ready tc arguments (some id) := by
  cases hmove with
  | deliver hout => exact .inl ⟨_, hout, rfl⟩
  | reply hout hphase =>
    refine .inr ⟨hout, by rw [hphase]; rintro _ _ ⟨⟩, by rw [hphase]; rintro _ _ ⟨⟩, ?_⟩
    unfold Turn.complete
    split
    · rintro _ _ _ ⟨⟩
    · intro tc arguments id
      show (if _ then TurnPhase.ended else .dispatching) ≠ _
      split <;> rintro ⟨⟩
  | next hout hphase =>
    refine .inr ⟨hout, by rw [hphase]; rintro _ _ ⟨⟩, by rw [hphase]; rintro _ _ ⟨⟩, ?_⟩
    unfold Turn.advance
    split
    · unfold Turn.endBatch
      split <;> rintro _ _ _ ⟨⟩
    · next tc todo htodo =>
      show ∀ _ _ _, (Turn.dispatch (runAgent tools maxSteps maxMessages approvals)
        { t with todo := todo, served := t.served + 1 } tc).phase ≠ _
      obtain ⟨tool, -, -, -, hdispatch⟩ | ⟨-, hdispatch⟩ := Turn.dispatch_cases
        (runAgent tools maxSteps maxMessages approvals)
          { t with todo := todo, served := t.served + 1 } tc
      · rw [hdispatch]
        rintro _ _ _ ⟨⟩
      · rw [hdispatch]
        rintro _ _ _ ⟨⟩
  | file hout hphase => exact absurd rfl (hfile _)
  | verdict hout hphase => exact absurd rfl (hverdict _)
  | invoke hout hphase =>
    refine .inr ⟨hout, by rw [hphase]; rintro _ _ ⟨⟩, by rw [hphase]; rintro _ _ ⟨⟩, ?_⟩
    unfold Turn.invoke
    split <;> rintro _ _ _ ⟨⟩
  | result hout hphase =>
    exact .inr ⟨hout, by rw [hphase]; rintro _ _ ⟨⟩, by rw [hphase]; rintro _ _ ⟨⟩,
      by rintro _ _ _ ⟨⟩⟩

/-! ### The turn and its gate -/

variable {C T : Type}

/-- The coroutine that an action is one of. -/
def ApprovalAction.coroutine : ApprovalAction C T → Option C
  | wait c _ _ => some c
  | wake c => some c
  | timeOut c => some c
  | decide c _ _ _ _ _ => some c
  | written c => some c
  | _ => none

theorem ApprovalAction.coroutine_others (a : ApprovalAction C T) :
    a.others.coroutine ≠ some none := by
  cases a <;> rintro ⟨⟩

/-- The action at the gate of one of the loop's own. -/
def GatedAction.own [One T] [Neg T] (id : String) : GatedAction C T →
    Option (ApprovalAction (Option C) T)
  | wait => some (.wait none id (some (-1)))
  | wake => some (.wake none)
  | timeOut => some (.timeOut none)
  | written => some (.written none)
  | _ => none

/-- What the gate has recorded of the request of a call, and where an approval came from. -/
def Granted (as : List (GatedAction C T)) (g : ApprovalGate (Option C) T) (id : String)
    (tc : ToolCall) : Prop :=
  ∃ req, g.requests id = some req ∧ req.tool = tc.name ∧
    (req.state ≠ .approved → req.arguments = .obj tc.arguments) ∧
    (req.state = .approved → ∃ c by' note arguments,
      .gate (.decide c id true by' note arguments) ∈ as ∧
        req.arguments = arguments.getD (.obj tc.arguments))

/-- A recorded approval with these arguments. -/
def Approved (g : ApprovalGate (Option C) T) (id : String) (arguments : Json) : Prop :=
  ∃ req, g.requests id = some req ∧ req.state = .approved ∧ req.arguments = arguments

/-- What holds in every run of a turn at its gate. -/
structure GatedTurn.Governed (tools : List MeshTool) (timeout : Option T)
    (as : List (GatedAction C T)) (m : GatedTurn Unit C T) : Prop where
  ordered : m.turn.Ordered tools
  grounded : m.gate.Grounded
  limit : m.gate.timeout = timeout
  /-- the request that the loop is about to get is the one of its call -/
  filing : ∀ id, m.filing = some id → (∃ tc tool, m.turn.phase = .filing tc tool ∧
    Granted as m.gate id tc) ∧ m.gate.Attended id ∧ ∀ call tc, .filed call id tc ∉ m.turn.trace
  filed : ∀ call id tc, .filed call id tc ∈ m.turn.trace → Granted as m.gate id tc ∧
    m.gate.Attended id
  unique : ∀ call call' id tc tc', .filed call id tc ∈ m.turn.trace →
    .filed call' id tc' ∈ m.turn.trace → call = call'
  ready : ∀ tc arguments id, m.turn.phase = .ready tc arguments (some id) →
    Approved m.gate id arguments
  invoked : ∀ call id tool arguments, .invoked call (some id) tool arguments ∈ m.turn.trace →
    Approved m.gate id arguments
  /-- the loop is at the gate only for the request that it waits for -/
  own : m.gate.phase none = .idle ∨ ∃ tc id, m.turn.phase = .waiting tc id ∧ m.turn.outbox = [] ∧
    (m.gate.phase none = .expiring id ∨
      ∃ timed, m.gate.phase none = .waiting id timed ∧ (timed = false → timeout = none))

/-- What is granted is granted when more has happened. -/
theorem Granted.mono {as : List (GatedAction C T)} {g : ApprovalGate (Option C) T} {id : String}
    {tc : ToolCall} (h : Granted as g id tc) (a : GatedAction C T) :
    Granted (as ++ [a]) g id tc := by
  obtain ⟨req, hreq, htool, hproposed, hdecided⟩ := h
  refine ⟨req, hreq, htool, hproposed, fun hst => ?_⟩
  obtain ⟨c, by', note, arguments, hmem, harguments⟩ := hdecided hst
  exact ⟨c, by', note, arguments, List.mem_append_left _ hmem, harguments⟩

/-- More has happened. -/
theorem GatedTurn.Governed.mono {tools : List MeshTool} {timeout : Option T}
    {as : List (GatedAction C T)}
    {m : GatedTurn Unit C T} (h : m.Governed tools timeout as) (a : GatedAction C T) :
    m.Governed tools timeout (as ++ [a]) where
  ordered := h.ordered
  grounded := h.grounded
  limit := h.limit
  filing id hid := by
    obtain ⟨⟨tc, tool, hphase, hgranted⟩, hrest⟩ := h.filing id hid
    exact ⟨⟨tc, tool, hphase, hgranted.mono a⟩, hrest⟩
  filed call id tc hmem := ⟨(h.filed call id tc hmem).1.mono a, (h.filed call id tc hmem).2⟩
  unique := h.unique
  ready := h.ready
  invoked := h.invoked
  own := h.own

section

variable [DecidableEq C] [LinearOrder T] [Zero T] [One T] [Neg T] [Add T]

/-- What is granted stays granted. -/
theorem Granted.step {as : List (GatedAction C T)} {g g' : ApprovalGate (Option C) T} {id : String}
    {tc : ToolCall} (h : Granted as g id tc) {a : GatedAction C T} {b : ApprovalAction (Option C) T}
    (hmove : g.Moves b g')
    (hdecide : ∀ c id by' note arguments, b = .decide c id true by' note arguments →
      ∃ c', a = .gate (.decide c' id true by' note arguments)) (hid : g.Keyed) :
    Granted (as ++ [a]) g' id tc := by
  obtain ⟨req, hreq, htool, hproposed, hdecided⟩ := h
  obtain ⟨req', hreq', hbecomes⟩ := hmove.becomes hreq
  refine ⟨req', hreq', ?_⟩
  cases hbecomes with
  | same =>
    refine ⟨htool, hproposed, fun hst => ?_⟩
    obtain ⟨c, by', note, arguments, hmem, harguments⟩ := hdecided hst
    exact ⟨c, by', note, arguments, List.mem_append_left _ hmem, harguments⟩
  | refused hpending htool' harguments hst =>
    refine ⟨htool'.trans htool, fun _ => ?_, fun happroved => ?_⟩
    · rw [harguments]
      refine hproposed ?_
      rw [hpending]
      rintro ⟨⟩
    · rw [happroved] at hst
      obtain (⟨⟨⟩⟩ | ⟨⟨⟩⟩) := hst
  | @approved _ c by' note arguments hpending ha htool' harguments hst =>
    refine ⟨htool'.trans htool, fun hnot => absurd hst hnot, fun _ => ?_⟩
    obtain ⟨c', rfl⟩ := hdecide _ _ _ _ _ ha
    refine ⟨c', by', note, arguments, ?_, ?_⟩
    · rw [hid id req hreq]
      exact List.mem_append_right _ (List.mem_singleton.mpr rfl)
    · rw [harguments, hproposed]
      rw [hpending]
      rintro ⟨⟩

/-- An approval stays as it is. -/
theorem Approved.step {g g' : ApprovalGate (Option C) T} {id : String} {arguments : Json}
    (h : Approved g id arguments) {b : ApprovalAction (Option C) T} (hmove : g.Moves b g') :
    Approved g' id arguments := by
  obtain ⟨req, hreq, hst, harguments⟩ := h
  obtain ⟨req', hreq', hbecomes⟩ := hmove.becomes hreq
  obtain rfl := hbecomes.eq_of_settled (by rw [hst]; rintro ⟨⟩)
  exact ⟨req', hreq', hst, harguments⟩

/-- Nobody else moves the coroutine of the loop. -/
theorem phase_none_of_others {g g' : ApprovalGate (Option C) T} {b : ApprovalAction (Option C) T}
    (hmove : g.Moves b g') (hb : b.coroutine ≠ some none) : g'.phase none = g.phase none := by
  have hphase : ∀ {c : Option C} {p : ApprovalPhase}, b.coroutine = some c →
      Function.update g.phase c p none = g.phase none := by
    rintro c p hc
    refine Function.update_of_ne ?_ _ _
    rintro rfl
    exact hb hc
  cases hmove with
  | tick | request | expire | stale | recover => rfl
  | answer hidle he ha =>
    refine hphase ?_
    obtain (⟨id, timeout, v, rfl, -⟩ | ⟨id, approved, by', note, arguments, r, rfl, -⟩) :=
      ha <;> rfl
  | waits | decide | written => exact hphase rfl
  | lapse hreq hpending ha =>
    refine hphase ?_
    obtain (⟨timeout, rfl, -⟩ | ⟨rfl, -⟩) := ha <;> rfl
  | ended hreq hover hv ha =>
    refine hphase ?_
    obtain (⟨rfl | rfl, -⟩ | ⟨rfl, -⟩) := ha <;> rfl

end

namespace GatedTurn.Governed

variable {tools : List MeshTool} {timeout : Option T} {as : List (GatedAction C T)}
    {m : GatedTurn Unit C T}

/-- What holds at the start. -/
theorem start {maxSteps : ℕ} {maxMessages : Option ℕ} {messages : List Message} {clock : T}
    {m₀ : GatedTurn Unit C T}
    (hstart : GatedTurn.start (runAgent tools maxSteps maxMessages true) () messages clock timeout =
      some m₀) : m₀.Governed tools timeout [] := by
  obtain ⟨t, ht, rfl⟩ := Option.map_eq_some_iff.mp hstart
  obtain ⟨-, -, rfl⟩ := Loop.start_eq_some ht
  refine ⟨⟨.nil, by rintro _ ⟨⟩, by rintro _ _ ⟨⟩, by rintro _ _ ⟨⟩, by rintro _ _ _ ⟨⟩⟩,
    ⟨by rintro _ _ ⟨⟩, by rintro _ ⟨⟩, by rintro _ _ _ ⟨⟩, by rintro _ _ ⟨⟩⟩, rfl, by rintro _ ⟨⟩,
    by rintro _ _ _ ⟨⟩, by rintro _ _ _ _ _ ⟨⟩, by rintro _ _ _ ⟨⟩, by rintro _ _ _ _ ⟨⟩, .inl rfl⟩

/-- The turn goes on without the gate. -/
theorem turn (h : m.Governed tools timeout as) {t : Turn Unit} (hordered : t.Ordered tools)
    (hfiling : ∀ id, m.filing = some id → t.phase = m.turn.phase)
    (hfiled : ∀ call id tc, .filed call id tc ∈ t.trace → .filed call id tc ∈ m.turn.trace)
    (hready : ∀ tc arguments id, t.phase = .ready tc arguments (some id) →
      Approved m.gate id arguments)
    (hinvoked : ∀ call id tool arguments, .invoked call (some id) tool arguments ∈ t.trace →
      Approved m.gate id arguments)
    (hown : m.gate.phase none = .idle) :
    ({ m with turn := t } : GatedTurn Unit C T).Governed tools timeout as where
  ordered := hordered
  grounded := h.grounded
  limit := h.limit
  filing id hid := by
    obtain ⟨⟨tc, tool, hphase, hgranted⟩, hattended, hnew⟩ := h.filing id hid
    exact ⟨⟨tc, tool, (hfiling id hid).trans hphase, hgranted⟩, hattended,
      fun call tc hmem => hnew call tc (hfiled call id tc hmem)⟩
  filed call id tc hmem := h.filed call id tc (hfiled call id tc hmem)
  unique call call' id tc tc' hmem hmem' :=
    h.unique call call' id tc tc' (hfiled call id tc hmem) (hfiled call' id tc' hmem')
  ready := hready
  invoked := hinvoked
  own := .inl hown

section

variable [PyText] {maxSteps : ℕ} {maxMessages : Option ℕ}

/-- An action of the turn alone. -/
theorem step_turn (h : m.Governed tools timeout as) {b : TurnAction T} {t : Turn Unit}
    (hfile : ∀ id, b ≠ .file id) (hverdict : ∀ v, b ≠ .verdict v)
    (hmove : Turn.Moves (runAgent tools maxSteps maxMessages true) m.turn b t) :
    ({ m with turn := t } : GatedTurn Unit C T).Governed tools timeout as := by
  have hordered := h.ordered.step hmove
  have hold : ∀ {call id tc}, .filed call id tc ∈ t.trace → .filed call id tc ∈ m.turn.trace := by
    intro call id tc hmem
    rcases hmove.trace hfile hverdict with htrace | ⟨e, htrace, he⟩
    · rwa [htrace] at hmem
    · rw [htrace] at hmem
      rcases List.mem_append.mp hmem with hmem | hmem
      · exact hmem
      · obtain rfl := List.mem_singleton.mp hmem
        rcases he with ⟨⟨⟩⟩ | ⟨_, _, _, _, -, ⟨⟩⟩
  have hinvoked : ∀ call id tool arguments, .invoked call (some id) tool arguments ∈ t.trace →
      Approved m.gate id arguments := by
    intro call id tool arguments hmem
    rcases hmove.trace hfile hverdict with htrace | ⟨e, htrace, he⟩
    · rw [htrace] at hmem
      exact h.invoked call id tool arguments hmem
    · rw [htrace] at hmem
      rcases List.mem_append.mp hmem with hmem | hmem
      · exact h.invoked call id tool arguments hmem
      · obtain rfl := List.mem_singleton.mp hmem
        rcases he with ⟨⟨⟩⟩ | ⟨tc, arguments', request, tool', hphase, he⟩
        obtain ⟨-, rfl, -, rfl⟩ := TurnEntry.invoked.inj he
        exact h.ready tc arguments id hphase
  rcases hmove.phase hfile hverdict with
    ⟨e, hout, hphase⟩ | ⟨hout, hnotfiling, hnotwaiting, hnotready⟩
  · refine h.turn hordered (fun _ _ => hphase) (fun _ _ _ => hold) ?_ hinvoked ?_
    · rw [hphase]
      exact h.ready
    · refine h.own.resolve_right ?_
      rintro ⟨tc, id, -, hempty, -⟩
      rw [hout] at hempty
      cases hempty
  · refine h.turn hordered (fun id hid => ?_) (fun _ _ _ => hold) ?_ hinvoked ?_
    · obtain ⟨⟨tc, tool, hphase, -⟩, -⟩ := h.filing id hid
      exact absurd hphase (hnotfiling tc tool)
    · intro tc arguments id hready
      exact absurd hready (hnotready tc arguments id)
    · refine h.own.resolve_right ?_
      rintro ⟨tc, id, hphase, -⟩
      exact hnotwaiting tc id hphase

/-- The `wait` of the loop has ended. -/
theorem step_verdict (h : m.Governed tools timeout as) (hidle : m.gate.phase none = .idle)
    {tc : ToolCall} {id : String} (hout : m.turn.outbox = [])
    (hphase : m.turn.phase = .waiting tc id) {v : Verdict T}
    (hv : ∀ req, v = .returned req → m.gate.requests id = some req ∧ req.state = .approved) :
    ({ m with turn := m.turn.decided tc id v } : GatedTurn Unit C T).Governed tools timeout as := by
  have hmove : Turn.Moves (runAgent tools 0 none true) m.turn (.verdict v)
    (m.turn.decided tc id v) :=
    .verdict hout hphase
  have hordered := h.ordered.step hmove
  have hfiling : ∀ t : Turn Unit, ∀ id', m.filing = some id' → t.phase = m.turn.phase := by
    intro t id' hid
    obtain ⟨⟨tc', tool, hfiling, -⟩, -⟩ := h.filing id' hid
    rw [hphase] at hfiling
    cases hfiling
  obtain ⟨req, rfl, hdecided⟩ | ⟨refusal, -, hdecided⟩ := Turn.decided_cases m.turn tc id v
  · rw [hdecided] at hordered ⊢
    refine h.turn hordered (hfiling _) (fun _ _ _ hmem => hmem) ?_ h.invoked hidle
    rintro _ _ _ ⟨⟩
    obtain ⟨hreq, hst⟩ := hv req rfl
    exact ⟨req, hreq, hst, rfl⟩
  · rw [hdecided] at hordered ⊢
    refine h.turn hordered (hfiling _) (fun call id' tc' hmem => ?_) (by rintro _ _ _ ⟨⟩)
      (fun call id' tool arguments hmem => ?_) hidle
    · rcases List.mem_append.mp hmem with hmem | hmem
      · exact hmem
      · cases List.mem_singleton.mp hmem
    · rcases List.mem_append.mp hmem with hmem | hmem
      · exact h.invoked call id' tool arguments hmem
      · cases List.mem_singleton.mp hmem

/-- `approvals.request` returns. -/
theorem step_requested (h : m.Governed tools timeout as) {id : String}
    (hfiling : m.filing = some id) {t : Turn Unit}
    (hmove : Turn.Moves (runAgent tools maxSteps maxMessages true) m.turn
      (.file id : TurnAction T) t) :
    ({ m with turn := t, filing := none } : GatedTurn Unit C T).Governed tools timeout as := by
  have hordered := h.ordered.step hmove
  cases hmove with
  | @file tc tool id hout hphase =>
    obtain ⟨⟨tc', tool', hphase', hgranted⟩, hattended, hnew⟩ := h.filing id hfiling
    obtain ⟨rfl, -⟩ := TurnPhase.filing.inj (hphase.symm.trans hphase')
    have hidle : m.gate.phase none = .idle := by
      refine h.own.resolve_right ?_
      rintro ⟨tc', id', hwaiting, -⟩
      rw [hphase] at hwaiting
      cases hwaiting
    refine ⟨hordered, h.grounded, h.limit, by rintro _ ⟨⟩, fun call id' tc' hmem => ?_,
      fun call call' id' tc' tc'' hmem hmem' => ?_, by rintro _ _ _ ⟨⟩,
      fun call id' tool' arguments hmem => ?_, .inl hidle⟩
    · rcases List.mem_append.mp hmem with hold | hlast
      · exact h.filed call id' tc' hold
      · cases List.mem_singleton.mp hlast
        exact ⟨hgranted, hattended⟩
    · rcases List.mem_append.mp hmem with hold | hlast
      · rcases List.mem_append.mp hmem' with hold' | hlast'
        · exact h.unique call call' id' tc' tc'' hold hold'
        · cases List.mem_singleton.mp hlast'
          exact absurd hold (hnew _ _)
      · cases List.mem_singleton.mp hlast
        rcases List.mem_append.mp hmem' with hold' | hlast'
        · exact absurd hold' (hnew _ _)
        · cases List.mem_singleton.mp hlast'
          rfl
    · rcases List.mem_append.mp hmem with hold | hlast
      · exact h.invoked call id' tool' arguments hold
      · cases List.mem_singleton.mp hlast

end

variable [DecidableEq C] [LinearOrder T] [Zero T] [One T] [Neg T] [Add T]

/-- The gate goes on without the turn. -/
theorem gate (h : m.Governed tools timeout as) {a : GatedAction C T}
    {b : ApprovalAction (Option C) T} {g : ApprovalGate (Option C) T} (hmove : m.gate.Moves b g)
    (hdecide : ∀ c id by' note arguments, b = .decide c id true by' note arguments →
      ∃ c', a = .gate (.decide c' id true by' note arguments))
    (hown : g.phase none = .idle ∨ ∃ tc id, m.turn.phase = .waiting tc id ∧ m.turn.outbox = [] ∧
      (g.phase none = .expiring id ∨
        ∃ timed, g.phase none = .waiting id timed ∧ (timed = false → timeout = none))) :
    ({ m with gate := g } : GatedTurn Unit C T).Governed tools timeout (as ++ [a]) where
  ordered := h.ordered
  grounded := h.grounded.step hmove
  limit := by
    rw [← h.limit]
    cases hmove <;> rfl
  filing id hid := by
    obtain ⟨⟨tc, tool, hphase, hgranted⟩, hattended, hnew⟩ := h.filing id hid
    exact ⟨⟨tc, tool, hphase, hgranted.step hmove hdecide h.grounded.keyed⟩, hattended.step hmove,
      hnew⟩
  filed call id tc hmem := by
    obtain ⟨hgranted, hattended⟩ := h.filed call id tc hmem
    exact ⟨hgranted.step hmove hdecide h.grounded.keyed, hattended.step hmove⟩
  unique := h.unique
  ready tc arguments id hphase := (h.ready tc arguments id hphase).step hmove
  invoked call id tool arguments hmem := (h.invoked call id tool arguments hmem).step hmove
  own := hown

/-- `approvals.request` stores its request. -/
theorem step_request (h : m.Governed tools timeout as) {a : GatedAction C T} {id : String}
    {tc : ToolCall} {tool : MeshTool} (hphase : m.turn.phase = .filing tc tool)
    {g : ApprovalGate (Option C) T}
    (hmove : m.gate.Moves (.request id tc.name (.obj tc.arguments) (some (-1))) g) :
    ({ m with gate := g, filing := some id } : GatedTurn Unit C T).Governed tools timeout
    (as ++ [a]) := by
  have hidle : m.gate.phase none = .idle := by
    refine h.own.resolve_right ?_
    rintro ⟨tc', id', hwaiting, -⟩
    rw [hphase] at hwaiting
    cases hwaiting
  have hnext : ({ m with gate := g } : GatedTurn Unit C T).Governed tools timeout (as ++ [a]) :=
    h.gate hmove (by rintro _ _ _ _ _ ⟨⟩)
      (.inl ((phase_none_of_others hmove (by rintro ⟨⟩)).trans hidle))
  have hattended := h.grounded.attended hmove
  have hgranted : Granted (as ++ [a]) g id tc ∧ ∀ call tc', .filed call id tc' ∉ m.turn.trace := by
    cases hmove with
    | request hnone =>
      refine ⟨⟨_, Function.update_self _ _ _, rfl, fun _ => rfl, by rintro ⟨⟩⟩,
        fun call tc' hmem => ?_⟩
      obtain ⟨⟨req, hreq, -⟩, -⟩ := h.filed call id tc' hmem
      rw [hnone] at hreq
      cases hreq
    | answer hc he ha => obtain (⟨_, _, _, ⟨⟩, -⟩ | ⟨_, _, _, _, _, _, ⟨⟩, -⟩) := ha
    | lapse hreq hpending ha => obtain (⟨_, ⟨⟩, -⟩ | ⟨⟨⟩, -⟩) := ha
    | ended hreq hover hv ha => obtain (⟨⟨⟨⟩⟩ | ⟨⟨⟩⟩, -⟩ | ⟨⟨⟩, -⟩) := ha
  refine ⟨hnext.ordered, hnext.grounded, hnext.limit, ?_, hnext.filed, hnext.unique, hnext.ready,
    hnext.invoked, hnext.own⟩
  rintro _ ⟨⟩
  exact ⟨⟨tc, tool, hphase, hgranted.1⟩, hattended, hgranted.2⟩

/-- Somebody else does something at the gate. -/
theorem step_others (h : m.Governed tools timeout as) {a : ApprovalAction C T}
    {g : ApprovalGate (Option C) T} (hmove : m.gate.Moves a.others g) :
    ({ m with gate := g } : GatedTurn Unit C T).Governed tools timeout (as ++ [.gate a]) := by
  refine h.gate hmove ?_ ?_
  · intro c id by' note arguments ha
    cases a with
    | decide c' id' approved by'' note' arguments' =>
      obtain ⟨-, rfl, rfl, rfl, rfl, rfl⟩ := ApprovalAction.decide.inj ha
      exact ⟨c', rfl⟩
    | _ => cases ha
  · rw [phase_none_of_others hmove a.coroutine_others]
    exact h.own

variable [PyText] {maxSteps : ℕ} {maxMessages : Option ℕ}

/-- **The loop goes on at the gate**: it comes to wait, it comes to its write, or its `wait` ends.
-/
theorem step_own (h : m.Governed tools timeout as) {a : GatedAction C T}
    {b : ApprovalAction (Option C) T}
    (hb : b = .wake none ∨ b = .timeOut none ∨ b = .written none ∨
      ∃ tc id, m.turn.phase = .waiting tc id ∧ m.turn.outbox = [] ∧ b = .wait none id (some (-1)))
    {g : ApprovalGate (Option C) T} (hmove : m.gate.Moves b g) {m' : GatedTurn Unit C T}
    (hresume : m.resume (runAgent tools maxSteps maxMessages true) g = some m') :
    m'.Governed tools timeout (as ++ [a]) := by
  -- where the loop is at the gate, its turn waits
  have hwaits : ∀ {id}, (m.gate.phase none = .expiring id ∨
      ∃ timed, m.gate.phase none = .waiting id timed) →
      ∃ tc, m.turn.phase = .waiting tc id ∧ m.turn.outbox = [] := by
    rintro id hat
    rcases h.own with hidle | ⟨tc, id', hphase, hout, hat'⟩
    · rw [hidle] at hat
      rcases hat with ⟨⟨⟩⟩ | ⟨timed, ⟨⟩⟩
    · refine ⟨tc, ?_, hout⟩
      rcases hat with hat | ⟨timed, hat⟩ <;> rcases hat' with hat' | ⟨timed', hat', -⟩ <;>
        rw [hat] at hat' <;> cases hat' <;> exact hphase
  have hdecide : ∀ c id by' note arguments, b = .decide c id true by' note arguments →
      ∃ c', a = .gate (.decide c' id true by' note arguments) := by
    rintro c id by' note arguments rfl
    obtain (⟨⟨⟩⟩ | ⟨⟨⟩⟩ | ⟨⟨⟩⟩ | ⟨_, _, -, -, ⟨⟩⟩) := hb
  have hended : ∀ {tc id v}, m.turn.phase = .waiting tc id → m.turn.outbox = [] →
      g.phase none = .idle → g.log.getLast? = some (.waited id v) →
      (∀ req, v = .returned req → g.requests id = some req ∧ req.state = .approved) →
        m'.Governed tools timeout (as ++ [a]) := by
    intro tc id v hphase hout hidle hlog hv
    rw [GatedTurn.resume, hidle, hlog] at hresume
    dsimp only at hresume
    rw [Turn.step, hout, hphase] at hresume
    obtain rfl := Option.some.inj hresume
    exact (h.gate hmove hdecide (.inl hidle)).step_verdict hidle hout hphase hv
  have hbusy : ∀ {tc id}, m.turn.phase = .waiting tc id → m.turn.outbox = [] →
      (g.phase none = .expiring id ∨ ∃ timed, g.phase none = .waiting id timed ∧
        (timed = false → timeout = none)) → m'.Governed tools timeout (as ++ [a]) := by
    intro tc id hphase hout hat
    have hne : m.resume (runAgent tools maxSteps maxMessages true) g =
        some { m with gate := g } := by
      unfold GatedTurn.resume
      rcases hat with hat | ⟨timed, hat, -⟩ <;> rw [hat]
    obtain rfl := Option.some.inj (hne.symm.trans hresume)
    exact h.gate hmove hdecide (.inr ⟨tc, id, hphase, hout, hat⟩)
  cases hmove with
  | tick | request | expire | stale | recover | decide =>
    obtain (⟨⟨⟩⟩ | ⟨⟨⟩⟩ | ⟨⟨⟩⟩ | ⟨_, _, -, -, ⟨⟩⟩) := hb
  | @answer _ c e hidle he ha =>
    obtain (⟨id, timeout', v, rfl, rfl⟩ | ⟨_, _, _, _, _, _, rfl, -⟩) := ha
    · obtain (⟨⟨⟩⟩ | ⟨⟨⟩⟩ | ⟨⟨⟩⟩ | ⟨tc, id', hphase, hout, ⟨⟩⟩) := hb
      refine hended hphase hout (m.gate.goto_phase_self none .idle) (List.getLast?_concat) ?_
      rintro req rfl
      exact he id req rfl
    · obtain (⟨⟨⟩⟩ | ⟨⟨⟩⟩ | ⟨⟨⟩⟩ | ⟨_, _, -, -, ⟨⟩⟩) := hb
  | @waits c id timeout' timed hidle htimed =>
    obtain (⟨⟨⟩⟩ | ⟨⟨⟩⟩ | ⟨⟨⟩⟩ | ⟨tc, id', hphase, hout, ⟨⟩⟩) := hb
    refine hbusy hphase hout (.inr ⟨timed, m.gate.goto_phase_self none _, fun hfalse => ?_⟩)
    have hnone := htimed hfalse
    rwa [ApprovalGate.ttl, if_pos rfl, h.limit] at hnone
  | @lapse _ c req hreq hpending ha =>
    have hat : c = none ∧ ∃ tc, m.turn.phase = .waiting tc req.id ∧ m.turn.outbox = [] := by
      obtain (⟨timeout', rfl, hidle⟩ | ⟨rfl, hphase⟩) := ha
      · obtain (⟨⟨⟩⟩ | ⟨⟨⟩⟩ | ⟨⟨⟩⟩ | ⟨tc, id', hphase, hout, ha⟩) := hb
        obtain ⟨rfl, rfl, -⟩ := ApprovalAction.wait.inj ha
        exact ⟨rfl, tc, hphase, hout⟩
      · have hc : c = none := by
          obtain (⟨⟨⟩⟩ | ⟨⟨⟩⟩ | ⟨⟨⟩⟩ | ⟨_, _, -, -, ⟨⟩⟩) := hb
          rfl
        subst hc
        exact ⟨rfl, hwaits (.inr ⟨true, hphase⟩)⟩
    obtain ⟨rfl, tc, hphase, hout⟩ := hat
    exact hbusy hphase hout (.inl ((m.gate.store _).goto_phase_self none _))
  | @ended _ c id req v hreq hover hv ha =>
    have hat : c = none ∧ ∃ tc, m.turn.phase = .waiting tc id ∧ m.turn.outbox = [] := by
      have hc : c = none := by
        obtain (⟨rfl | rfl, -⟩ | ⟨rfl, -⟩) := ha <;>
          obtain (⟨⟨⟩⟩ | ⟨⟨⟩⟩ | ⟨⟨⟩⟩ | ⟨_, _, -, -, ⟨⟩⟩) := hb <;> rfl
      subst hc
      obtain (⟨-, hwaiting⟩ | ⟨-, hexpiring⟩) := ha
      · exact ⟨rfl, hwaits (.inr hwaiting)⟩
      · exact ⟨rfl, hwaits (.inl hexpiring)⟩
    obtain ⟨rfl, tc, hphase, hout⟩ := hat
    refine hended hphase hout (m.gate.goto_phase_self none .idle) (List.getLast?_concat) ?_
    rintro r rfl
    obtain ⟨rfl, hst⟩ := hv r rfl
    exact ⟨hreq, hst⟩
  | @written c id event hphase =>
    obtain (⟨⟨⟩⟩ | ⟨⟨⟩⟩ | ⟨⟨⟩⟩ | ⟨_, _, -, -, ⟨⟩⟩) := hb
    rcases h.own with hidle | ⟨_, _, -, -, hat | ⟨_, hat, -⟩⟩
    · rw [hphase] at hidle
      cases hidle
    · rw [hphase] at hat
      cases hat
    · rw [hphase] at hat
      cases hat

variable [Sub T]

/-- **The step lemma**. -/
theorem step (h : m.Governed tools timeout as) {a : GatedAction C T} {m' : GatedTurn Unit C T}
    (hstep : m.step (runAgent tools maxSteps maxMessages true) a = some m') :
    m'.Governed tools timeout (as ++ [a]) := by
  have hmoves : ∀ {b g}, m.gate.step b = some g → m.gate.Moves b g :=
    fun hgate => ApprovalGate.moves h.grounded.keyed hgate
  have hown : ∀ {b : ApprovalAction (Option C) T},
      (b = .wake none ∨ b = .timeOut none ∨ b = .written none ∨
        ∃ tc id, m.turn.phase = .waiting tc id ∧ m.turn.outbox = [] ∧
            b = .wait none id (some (-1))) →
      (m.gate.step b).bind (m.resume (runAgent tools maxSteps maxMessages true)) = some m' →
        m'.Governed tools timeout (as ++ [a]) := by
    intro b hb hbind
    obtain ⟨g, hgate, hresume⟩ := Option.bind_eq_some_iff.mp hbind
    exact h.step_own hb (hmoves hgate) hresume
  have hturn : ∀ {b : TurnAction T}, (∀ id, b ≠ .file id) → (∀ v, b ≠ .verdict v) →
      ((m.turn.step (runAgent tools maxSteps maxMessages true) b).map
          fun t => { m with turn := t }) = some m' →
        m'.Governed tools timeout (as ++ [a]) := by
    intro b hfile hverdict hmap
    obtain ⟨t, hstep', rfl⟩ := Option.map_eq_some_iff.mp hmap
    exact (h.step_turn hfile hverdict (Turn.moves hstep')).mono a
  cases a with
  | turn b =>
    cases b with
    | file id => cases hstep
    | verdict v => cases hstep
    | deliver => exact hturn (by rintro _ ⟨⟩) (by rintro _ ⟨⟩) hstep
    | reply r => exact hturn (by rintro _ ⟨⟩) (by rintro _ ⟨⟩) hstep
    | next => exact hturn (by rintro _ ⟨⟩) (by rintro _ ⟨⟩) hstep
    | invoke => exact hturn (by rintro _ ⟨⟩) (by rintro _ ⟨⟩) hstep
    | result o => exact hturn (by rintro _ ⟨⟩) (by rintro _ ⟨⟩) hstep
  | request id =>
    simp only [GatedTurn.step] at hstep
    split at hstep
    · next hfiling hout hphase =>
      obtain ⟨g, hgate, rfl⟩ := Option.map_eq_some_iff.mp hstep
      exact h.step_request hphase (hmoves hgate)
    · cases hstep
  | requested =>
    simp only [GatedTurn.step] at hstep
    split at hstep
    · next id hfiling =>
      obtain ⟨t, hstep', rfl⟩ := Option.map_eq_some_iff.mp hstep
      exact (h.step_requested hfiling (Turn.moves hstep')).mono .requested
    · cases hstep
  | wait =>
    simp only [GatedTurn.step] at hstep
    split at hstep
    · next tc id hout hphase =>
      exact hown (.inr (.inr (.inr ⟨tc, id, hphase, hout, rfl⟩))) hstep
    · cases hstep
  | wake => exact hown (.inl rfl) hstep
  | timeOut => exact hown (.inr (.inl rfl)) hstep
  | written => exact hown (.inr (.inr (.inl rfl))) hstep
  | gate b =>
    obtain ⟨g, hgate, rfl⟩ := Option.map_eq_some_iff.mp hstep
    exact h.step_others (hmoves hgate)

/-- **The run lemma**. -/
theorem run {messages : List Message} {clock : T} {m₀ m : GatedTurn Unit C T}
    {as : List (GatedAction C T)}
    (hstart : GatedTurn.start (runAgent tools maxSteps maxMessages true) () messages clock timeout =
      some m₀)
    (hrun : Steps.run (GatedTurn.step (runAgent tools maxSteps maxMessages true)) m₀ as = some m) :
    m.Governed tools timeout as :=
  @Steps.run_invariant_history _ _ _ (fun before m => m.Governed tools timeout before)
    (fun _ _ _ _ hstep hm => hm.step hstep) _ _ [] _ hrun (start hstart)

end GatedTurn.Governed

/-! ### How a wait goes on -/

/-- A step without a decision, a new request or anything else that is not in the way already: an
event is taken, the loop goes on at its gate, or a write ends. -/
def GatedAction.Bare : GatedAction C T → Prop
  | turn .deliver | wait | wake | timeOut | written | gate (.written _) => True
  | _ => False

/-- A settled request that is not approved. -/
theorem refusal_settled [PyText] {req : ApprovalRequest T} (hst : req.state ≠ .approved) :
    ∃ text, req.settled.refusal = some text := by
  unfold ApprovalRequest.settled
  split
  · next happroved => exact absurd happroved hst
  · exact ⟨_, rfl⟩
  · exact ⟨_, rfl⟩

section

variable [PyText] [DecidableEq C] [LinearOrder T] [Zero T] [One T] [Neg T] [Add T] [Sub T]

/-- Bare steps lead to the `tool` message of a call, and the turn goes on with its batch. -/
def GatedTurn.Resolves (l : Loop Unit) (m : GatedTurn Unit C T) (tc : ToolCall) : Prop :=
  ∃ bs m' text, Steps.run (GatedTurn.step l) m bs = some m' ∧ (∀ b ∈ bs, b.Bare) ∧
    m'.turn.phase = .dispatching ∧ m'.turn.messages = m.turn.messages ++ [.tool tc.id text]

namespace GatedTurn.Resolves

variable {l : Loop Unit} {m : GatedTurn Unit C T} {tc : ToolCall} {id : String}

/-- One bare step before. -/
theorem cons {b : GatedAction C T} (hb : b.Bare) {m₁ : GatedTurn Unit C T}
    (hstep : m.step l b = some m₁)
    (hmessages : m₁.turn.messages = m.turn.messages) (h : m₁.Resolves l tc) : m.Resolves l tc := by
  obtain ⟨bs, m', text, hrun, hbare, hphase, hanswer⟩ := h
  refine ⟨b :: bs, m', text, Steps.run_cons_eq_some.mpr ⟨m₁, hstep, hrun⟩, ?_, hphase, ?_⟩
  · intro b' hb'
    rcases List.mem_cons.mp hb' with rfl | hb'
    · exact hb
    · exact hbare b' hb'
  · rw [hanswer, hmessages]

/-- The `wait` of the loop ends with a refusal. -/
theorem of_refusal (hout : m.turn.outbox = []) (hphase : m.turn.phase = .waiting tc id)
    {g : ApprovalGate (Option C) T} (hidle : g.phase none = .idle) {id' : String} {v : Verdict T}
    (hlog : g.log.getLast? = some (.waited id' v)) {text : String} (hv : v.refusal = some text)
    {b : GatedAction C T} (hb : b.Bare) (hstep : m.step l b = m.resume l g) : m.Resolves l tc := by
  have hresume : m.resume l g = some { m with turn := m.turn.decided tc id v, gate := g } := by
    rw [GatedTurn.resume, hidle, hlog]
    dsimp only
    rw [Turn.step, hout, hphase]
    rfl
  obtain ⟨req, rfl, -⟩ | ⟨refusal, hrefusal, hdecided⟩ := Turn.decided_cases m.turn tc id v
  · cases hv
  · refine ⟨[b], _, refusal, Steps.run_cons_eq_some.mpr ⟨_, hstep.trans hresume, rfl⟩, ?_, ?_, ?_⟩
    · intro b' hb'
      obtain rfl := List.mem_singleton.mp hb'
      exact hb
    · show (m.turn.decided tc id v).phase = .dispatching
      rw [hdecided]
      rfl
    · show (m.turn.decided tc id v).messages = _
      rw [hdecided]
      rfl

/-- The loop is at the write of `_expire`. -/
theorem of_expiring (hout : m.turn.outbox = []) (hphase : m.turn.phase = .waiting tc id)
    (hat : m.gate.phase none = .expiring id) {req : ApprovalRequest T}
    (hreq : m.gate.requests id = some req) : m.Resolves l tc := by
  refine of_refusal (b := .written) hout hphase
    (g := m.gate.ended none id (ApprovalGate.undecided req)) (m.gate.goto_phase_self none .idle)
    List.getLast?_concat rfl trivial ?_
  show (m.gate.step (.written none)).bind (m.resume l) = _
  rw [ApprovalGate.step, hat]
  simp only [hreq, Option.map_some, Option.bind_some]

/-- The time of the loop's `wait` is over. -/
theorem of_lapse (hout : m.turn.outbox = []) (hphase : m.turn.phase = .waiting tc id)
    {req : ApprovalRequest T} (hreq : m.gate.requests id = some req) (hid : req.id = id)
    {b : GatedAction C T} (hb : b.Bare) (hstep : m.step l b = m.resume l (m.gate.lapse none req)) :
    m.Resolves l tc := by
  unfold ApprovalGate.lapse at hstep
  split at hstep
  · have hat : ((m.gate.store (m.gate.expired req)).goto none (.expiring req.id)).phase none =
        .expiring req.id := ApprovalGate.goto_phase_self _ _ _
    have hresume : m.resume l ((m.gate.store (m.gate.expired req)).goto none (.expiring req.id)) =
        some { m with
          gate := (m.gate.store (m.gate.expired req)).goto none (.expiring req.id) } := by
      rw [GatedTurn.resume, hat]
    subst hid
    have hexpired : (m.gate.store (m.gate.expired req)).requests req.id =
      some (m.gate.expired req) :=
      Function.update_self _ _ _
    exact cons hb (hstep.trans hresume) rfl (of_expiring hout hphase hat hexpired)
  · exact of_refusal (g := m.gate.ended none req.id (ApprovalGate.undecided req)) hout hphase
      (m.gate.goto_phase_self none .idle) List.getLast?_concat rfl hb hstep

/-- The timer of the loop can fire. -/
theorem of_timed (hout : m.turn.outbox = []) (hphase : m.turn.phase = .waiting tc id)
    (hat : m.gate.phase none = .waiting id true) {req : ApprovalRequest T}
    (hreq : m.gate.requests id = some req) (hid : req.id = id) : m.Resolves l tc := by
  refine of_lapse (b := .timeOut) hout hphase hreq hid trivial ?_
  show (m.gate.step (.timeOut none)).bind _ = _
  rw [ApprovalGate.step, hat]
  simp only [hreq, Option.map_some, Option.bind_some]

/-- The event of the loop is set. -/
theorem of_set (hout : m.turn.outbox = []) (hphase : m.turn.phase = .waiting tc id) {timed : Bool}
    (hat : m.gate.phase none = .waiting id timed) {req : ApprovalRequest T}
    (hreq : m.gate.requests id = some req) (hst : req.state ≠ .approved)
    (hset : m.gate.isSet id = true) :
    m.Resolves l tc := by
  obtain ⟨text, htext⟩ := refusal_settled hst
  refine of_refusal (b := .wake) (g := m.gate.ended none id req.settled) hout hphase
    (m.gate.goto_phase_self none .idle) List.getLast?_concat htext trivial ?_
  show (m.gate.step (.wake none)).bind _ = _
  rw [ApprovalGate.step, hat]
  simp only [hreq, hset, if_true, Option.bind_some]

/-- The event of the loop is about to be set. -/
theorem of_deciding (hout : m.turn.outbox = []) (hphase : m.turn.phase = .waiting tc id)
    {timed : Bool} (hat : m.gate.phase none = .waiting id timed) {req : ApprovalRequest T}
    (hreq : m.gate.requests id = some req) (hst : req.state ≠ .approved) {c : Option C}
    (hc : m.gate.phase c = .deciding id true) : m.Resolves l tc := by
  cases c with
  | none =>
    rw [hat] at hc
    cases hc
  | some c =>
    have hstep : m.step l (.gate (.written c)) = some { m with gate :=
        { m.gate.answer (some c) (.decided id (m.gate.requests id)) with
          isSet := Function.update m.gate.isSet id true } } := by
      show (m.gate.step (.written (some c))).map _ = _
      rw [ApprovalGate.step, hc]
      rfl
    have hat' : (m.gate.goto (some c) .idle).phase none = .waiting id timed :=
      (m.gate.goto_phase_of_ne (by rintro ⟨⟩) _).trans hat
    exact cons (b := .gate (.written c)) trivial hstep rfl
      (of_set hout hphase hat' hreq hst (Function.update_self _ _ _))

/-- The loop calls `wait`, and its request is settled or the gate has a timeout. -/
theorem of_idle (hout : m.turn.outbox = []) (hphase : m.turn.phase = .waiting tc id)
    (hidle : m.gate.phase none = .idle) {req : ApprovalRequest T}
    (hreq : m.gate.requests id = some req) (hid : req.id = id) (hst : req.state ≠ .approved)
    (hlisted : req.state = .pending → m.gate.waiters id = true)
    (hover : req.state = .pending → m.gate.timeout ≠ none) : m.Resolves l tc := by
  have hstep : m.step l .wait = m.resume l (m.gate.wait none id (some (-1))) := by
    rw [GatedTurn.step, hout, hphase]
    simp only [ApprovalGate.step, hidle, Option.bind_some]
  have hbare : (.wait : GatedAction C T).Bare := trivial
  by_cases hpending : req.state = .pending
  · obtain ⟨ttl, httl⟩ := Option.ne_none_iff_exists'.mp (hover hpending)
    have hbudget : ∃ left, m.gate.budget req (some (-1)) = some left := by
      have hown : m.gate.ttl (some (-1)) = some ttl := by rw [ApprovalGate.ttl, if_pos rfl, httl]
      rw [ApprovalGate.budget, hown]
      split
      · exact ⟨_, rfl⟩
      · exact ⟨_, rfl⟩
    obtain ⟨left, hleft⟩ := hbudget
    have hwait : m.gate.wait none id (some (-1)) =
        if left ≤ 0 then m.gate.lapse none req else m.gate.goto none (.waiting id true) := by
      rw [ApprovalGate.wait, hreq]
      simp only [hpending, ne_eq, not_true_eq_false, if_false, hlisted hpending, Bool.true_eq_false,
        hleft]
    rw [hwait] at hstep
    split at hstep
    · exact of_lapse hout hphase hreq hid hbare hstep
    · have hat := m.gate.goto_phase_self none (.waiting id true)
      have hresume : m.resume l (m.gate.goto none (.waiting id true)) =
          some { m with gate := m.gate.goto none (.waiting id true) } := by
        rw [GatedTurn.resume, hat]
      exact cons hbare (hstep.trans hresume) rfl (of_timed hout hphase hat hreq hid)
  · obtain ⟨text, htext⟩ := refusal_settled hst
    have hwait : m.gate.wait none id (some (-1)) = m.gate.answer none (.waited id req.settled) := by
      rw [ApprovalGate.wait, hreq]
      simp only [ne_eq, hpending, not_false_eq_true, if_true]
    rw [hwait] at hstep
    exact of_refusal (g := m.gate.answer none (.waited id req.settled)) hout hphase
      (m.gate.goto_phase_self none .idle) List.getLast?_concat htext hbare hstep

end GatedTurn.Resolves

namespace GatedTurn.Governed

variable {tools : List MeshTool} {timeout : Option T} {as : List (GatedAction C T)}
    {m : GatedTurn Unit C T}
  {l : Loop Unit} {tc : ToolCall} {id : String} {req : ApprovalRequest T}

/-- The events that wait are taken first. -/
theorem resolves_of_delivered
    (h : GatedTurn.Resolves l { m with turn := { m.turn with outbox := [] } } tc) :
    m.Resolves l tc := by
  obtain ⟨turn, gate, filing⟩ := m
  obtain ⟨active, steps, phase, todo, next, messages, served, outbox, trace⟩ := turn
  induction outbox with
  | nil => exact h
  | cons e outbox ih => exact GatedTurn.Resolves.cons (b := .turn .deliver) trivial rfl rfl (ih h)

/-- **A wait that is over can end**: the request is denied, or the gate has a timeout. -/
theorem resolves (h : m.Governed tools timeout as) (hphase : m.turn.phase = .waiting tc id)
    (hreq : m.gate.requests id = some req) (hst : req.state ≠ .approved)
    (hover : req.state = .denied ∨ timeout ≠ none) : m.Resolves l tc := by
  obtain ⟨-, hattended⟩ := h.filed _ id tc (h.ordered.waiting tc id hphase).1
  have hid : req.id = id := h.grounded.keyed id req hreq
  refine resolves_of_delivered ?_
  have hphase' : ({ m with turn := { m.turn with outbox := [] } } : GatedTurn Unit C T).turn.phase =
      .waiting tc id := hphase
  rcases h.own with hidle | ⟨tc', id', hphase'', -, hat⟩
  · refine GatedTurn.Resolves.of_idle rfl hphase' hidle hreq hid hst (hattended.listed req hreq)
      fun hpending => ?_
    show m.gate.timeout ≠ none
    rw [h.limit]
    refine hover.resolve_left ?_
    rw [hpending]
    rintro ⟨⟩
  · obtain ⟨rfl, rfl⟩ := TurnPhase.waiting.inj (hphase.symm.trans hphase'')
    rcases hat with hexpiring | ⟨timed, hwaiting, htimed⟩
    · exact GatedTurn.Resolves.of_expiring rfl hphase' hexpiring hreq
    · cases timed with
      | true => exact GatedTurn.Resolves.of_timed rfl hphase' hwaiting hreq hid
      | false =>
        -- without a timer the request is denied, and its event is set or about to be
        have hdenied : req.state = .denied := hover.resolve_right (not_not.mpr (htimed rfl))
        rcases hattended.heard req hreq (.inr hdenied) with hset | ⟨c, hc⟩
        · exact GatedTurn.Resolves.of_set rfl hphase' hwaiting hreq hst hset
        · exact GatedTurn.Resolves.of_deciding rfl hphase' hwaiting hreq hst hc

/-- What becomes of a turn that waits. -/
theorem waited (hphase : m.turn.phase = .waiting tc id) {maxSteps : ℕ} {maxMessages : Option ℕ}
    {a : GatedAction C T} {m' : GatedTurn Unit C T}
    (hstep : m.step (runAgent tools maxSteps maxMessages true) a = some m') :
    m'.turn.phase = .waiting tc id ∨ (∃ arguments, m'.turn.phase = .ready tc arguments (some id)) ∨
      m'.turn.phase = .dispatching ∧
        ∃ text, m'.turn.messages = m.turn.messages ++ [.tool tc.id text] := by
  -- the gate has gone on: `wait` has ended, or it has not
  have hresume : ∀ {g}, m.resume (runAgent tools maxSteps maxMessages true) g = some m' →
      m'.turn.phase = .waiting tc id ∨
        (∃ arguments, m'.turn.phase = .ready tc arguments (some id)) ∨
        m'.turn.phase = .dispatching ∧
          ∃ text, m'.turn.messages = m.turn.messages ++ [.tool tc.id text] := by
    intro g hresume
    unfold GatedTurn.resume at hresume
    split at hresume
    · next id' v hidle hlog =>
      obtain ⟨t, hstep', rfl⟩ := Option.map_eq_some_iff.mp hresume
      cases Turn.moves hstep' with
      | @verdict tc' id'' v hout hphase' =>
        obtain ⟨rfl, rfl⟩ := TurnPhase.waiting.inj (hphase.symm.trans hphase')
        obtain ⟨req, rfl, hdecided⟩ | ⟨refusal, -, hdecided⟩ := Turn.decided_cases m.turn tc id v
        · refine .inr (.inl ⟨req.arguments, ?_⟩)
          show (m.turn.decided tc id _).phase = _
          rw [hdecided]
        · refine .inr (.inr ?_)
          show (m.turn.decided tc id v).phase = _ ∧ ∃ text, (m.turn.decided tc id v).messages = _
          rw [hdecided]
          exact ⟨rfl, refusal, rfl⟩
    · cases hresume
    · obtain rfl := Option.some.inj hresume
      exact .inl hphase
  have hown : ∀ {b : ApprovalAction (Option C) T},
      (m.gate.step b).bind (m.resume (runAgent tools maxSteps maxMessages true)) = some m' →
        m'.turn.phase = .waiting tc id ∨
          (∃ arguments, m'.turn.phase = .ready tc arguments (some id)) ∨
          m'.turn.phase = .dispatching ∧
            ∃ text, m'.turn.messages = m.turn.messages ++ [.tool tc.id text] := by
    intro b hbind
    obtain ⟨g, -, hg⟩ := Option.bind_eq_some_iff.mp hbind
    exact hresume hg
  -- nothing else takes the loop out of its wait
  have hturn : ∀ {b : TurnAction T}, (∀ id, b ≠ .file id) → (∀ v, b ≠ .verdict v) →
      ((m.turn.step (runAgent tools maxSteps maxMessages true) b).map
          fun t => { m with turn := t }) = some m' →
        m'.turn.phase = .waiting tc id := by
    intro b hfile hverdict hmap
    obtain ⟨t, hstep', rfl⟩ := Option.map_eq_some_iff.mp hmap
    rcases (Turn.moves hstep').phase hfile hverdict with ⟨e, -, hsame⟩ | ⟨-, -, hnot, -⟩
    · exact hsame.trans hphase
    · exact absurd hphase (hnot tc id)
  cases a with
  | turn b =>
    cases b with
    | file id => cases hstep
    | verdict v => cases hstep
    | deliver => exact .inl (hturn (by rintro _ ⟨⟩) (by rintro _ ⟨⟩) hstep)
    | reply r => exact .inl (hturn (by rintro _ ⟨⟩) (by rintro _ ⟨⟩) hstep)
    | next => exact .inl (hturn (by rintro _ ⟨⟩) (by rintro _ ⟨⟩) hstep)
    | invoke => exact .inl (hturn (by rintro _ ⟨⟩) (by rintro _ ⟨⟩) hstep)
    | result o => exact .inl (hturn (by rintro _ ⟨⟩) (by rintro _ ⟨⟩) hstep)
  | request id' =>
    simp only [GatedTurn.step] at hstep
    split at hstep
    · next hfiling hout hphase' =>
      rw [hphase] at hphase'
      cases hphase'
    · cases hstep
  | requested =>
    simp only [GatedTurn.step] at hstep
    split at hstep
    · next id' hfiling =>
      obtain ⟨t, hstep', rfl⟩ := Option.map_eq_some_iff.mp hstep
      cases Turn.moves hstep' with
      | file hout hphase' =>
        rw [hphase] at hphase'
        cases hphase'
    · cases hstep
  | wait =>
    simp only [GatedTurn.step] at hstep
    split at hstep
    · exact hown hstep
    · cases hstep
  | wake => exact hown hstep
  | timeOut => exact hown hstep
  | written => exact hown hstep
  | gate b =>
    obtain ⟨g, -, rfl⟩ := Option.map_eq_some_iff.mp hstep
    exact .inl hphase

end GatedTurn.Governed

/-- What a gate is for, in a state of a turn that was reached by these actions. -/
structure GatedTurn.Safe (l : Loop Unit) (tools : List MeshTool) (timeout : Option T)
    (as : List (GatedAction C T)) (m : GatedTurn Unit C T) : Prop where
  /-- an invocation of a gated tool comes after the request of its call, under which nothing else is
  invoked; the request is recorded as approved by a decision, and the arguments are the approved
  ones -/
  approved : ∀ pre post call request tool arguments,
    m.turn.trace = pre ++ .invoked call request tool arguments :: post →
        tool.requiresApproval = true →
      ∃ id tc req, request = some id ∧ .filed call id tc ∈ pre ∧ byName tools tc.name = some tool ∧
        m.gate.requests id = some req ∧ req.tool = tc.name ∧ req.state = .approved ∧
        req.arguments = arguments ∧
        (∃ c by' note replacement, .gate (.decide c id true by' note replacement) ∈ as ∧
          arguments = replacement.getD (.obj tc.arguments)) ∧
        ∀ call' tool' arguments', .invoked call' (some id) tool' arguments' ∉ pre ++ post
  /-- a call whose request is not recorded as approved is not invoked -/
  refused : ∀ call id tc req, .filed call id tc ∈ m.turn.trace → m.gate.requests id = some req →
    req.state ≠ .approved → ∀ request tool arguments,
      .invoked call request tool arguments ∉ m.turn.trace
  /-- a wait ends with an approval or with the `tool` message of the call -/
  ends : ∀ tc id a m', m.turn.phase = .waiting tc id → m.step l a = some m' →
    m'.turn.phase = .waiting tc id ∨
      (∃ arguments, m'.turn.phase = .ready tc arguments (some id) ∧ Approved m'.gate id arguments) ∨
      m'.turn.phase = .dispatching ∧
        ∃ text, m'.turn.messages = m.turn.messages ++ [.tool tc.id text]
  /-- it ends without a further decision where the request is denied, or where the gate has a
  timeout -/
  resolves : ∀ tc id req, m.turn.phase = .waiting tc id → m.gate.requests id = some req →
    req.state ≠ .approved → req.state = .denied ∨ timeout ≠ none → m.Resolves l tc

/-- **No gated tool runs without its own approval.** -/
theorem gated_tool_approved {tools : List MeshTool} {maxSteps : ℕ} {maxMessages : Option ℕ}
    {messages : List Message} {clock : T} {timeout : Option T} {m₀ m : GatedTurn Unit C T}
    {as : List (GatedAction C T)}
    (hstart : GatedTurn.start (runAgent tools maxSteps maxMessages true) () messages clock timeout =
      some m₀)
    (hrun : Steps.run (GatedTurn.step (runAgent tools maxSteps maxMessages true)) m₀ as = some m) :
    m.Safe (runAgent tools maxSteps maxMessages true) tools timeout as := by
  have h : m.Governed tools timeout as := GatedTurn.Governed.run hstart hrun
  -- a request is filed for one call, so what runs under it is that call
  have hunder : ∀ {call id tc call' tool' arguments'}, .filed call id tc ∈ m.turn.trace →
      .invoked call' (some id) tool' arguments' ∈ m.turn.trace → call' = call := by
    intro call id tc call' tool' arguments' hfiled hinvoked
    obtain ⟨pre, post, hsplit⟩ := List.append_of_mem hinvoked
    obtain ⟨⟨tc', hfiled', -⟩, -⟩ := h.ordered.lawful.clears hsplit
    have hmem : .filed call' id tc' ∈ m.turn.trace := by
      rw [hsplit]
      exact List.mem_append_left _ hfiled'
    exact h.unique call' call id tc' tc hmem hfiled
  refine ⟨fun pre post call request tool arguments hsplit hgated => ?_,
    fun call id tc req hfiled hreq hst request tool arguments hinvoked => ?_,
    fun tc id a m' hphase hstep => ?_, fun tc id req => h.resolves⟩
  · have hclears := h.ordered.lawful.clears hsplit
    cases request with
    | none =>
      rw [hclears.2] at hgated
      cases hgated
    | some id =>
      obtain ⟨⟨tc, hfiled, htool⟩, hfirst⟩ := hclears
      have hmem : .filed call id tc ∈ m.turn.trace := by
        rw [hsplit]
        exact List.mem_append_left _ hfiled
      have hinvoked : .invoked call (some id) tool arguments ∈ m.turn.trace := by
        rw [hsplit]
        exact List.mem_append_right _ List.mem_cons_self
      obtain ⟨req, hreq, hst, harguments⟩ := h.invoked call id tool arguments hinvoked
      obtain ⟨⟨req', hreq', hname, -, hdecided⟩, -⟩ := h.filed call id tc hmem
      obtain rfl := Option.some.inj (hreq.symm.trans hreq')
      obtain ⟨c, by', note, replacement, hdecision, hreplaced⟩ := hdecided hst
      refine ⟨id, tc, req, rfl, hfiled, htool, hreq, hname, hst, harguments,
        ⟨c, by', note, replacement, hdecision, harguments.symm.trans hreplaced⟩, ?_⟩
      intro call' tool' arguments' hagain
      rcases List.mem_append.mp hagain with hbefore | hafter
      · have hmem' : .invoked call' (some id) tool' arguments' ∈ m.turn.trace := by
          rw [hsplit]
          exact List.mem_append_left _ hbefore
        obtain rfl := hunder hmem hmem'
        exact hfirst _ _ _ hbefore
      · have hmem' : .invoked call' (some id) tool' arguments' ∈ m.turn.trace := by
          rw [hsplit]
          exact List.mem_append_right _ (List.mem_cons_of_mem _ hafter)
        obtain rfl := hunder hmem hmem'
        -- the second invocation finds the first before it
        obtain ⟨mid, rest, hpost⟩ := List.append_of_mem hafter
        have hsplit' : m.turn.trace = (pre ++ .invoked call' (some id) tool arguments :: mid) ++
            .invoked call' (some id) tool' arguments' :: rest := by
          rw [hsplit, hpost]
          simp
        exact (h.ordered.lawful.clears hsplit').2 _ _ _ (List.mem_append_right _ List.mem_cons_self)
  -- what was invoked was approved
  · obtain rfl := h.ordered.lawful.invoked_filed hfiled hinvoked
    obtain ⟨req', hreq', happroved, -⟩ := h.invoked call id tool arguments hinvoked
    obtain rfl := Option.some.inj (hreq.symm.trans hreq')
    exact hst happroved
  · rcases GatedTurn.Governed.waited hphase hstep with hwaiting | ⟨arguments, hready⟩ | hanswered
    · exact .inl hwaiting
    · exact .inr (.inl ⟨arguments, hready, (h.step hstep).ready tc arguments id hready⟩)
    · exact .inr (.inr hanswered)

end

/-- The model asks for a refund, and the loop waits for its request. -/
def refundAsked (C : Type) : List (GatedAction C ℤ) :=
  [.turn (.reply ⟨none, [⟨"1", "refund", []⟩]⟩), .turn .next, .turn .deliver, .request "r",
      .requested,
    .turn .deliver, .wait]

/-- An operator approves with other arguments, and the tool runs. -/
def refundApproved : List (GatedAction ℕ ℤ) :=
  refundAsked ℕ ++ [.gate (.decide 0 "r" true (some "amir") none (some (.obj [("amount", .null)]))),
    .gate (.written 0), .wake, .turn .deliver, .turn .invoke]

theorem gated_tool_approved_refund :
    let _ := PyText.plain
    ∃ m₀ m, GatedTurn.start (runAgent [⟨"refund", .flag true⟩] 8 none true) () [] 0 (some 300) =
      some m₀ ∧
      Steps.run (GatedTurn.step (runAgent [⟨"refund", .flag true⟩] 8 none true)) m₀ refundApproved =
        some m ∧
      m.Safe (runAgent [⟨"refund", .flag true⟩] 8 none true) [⟨"refund", .flag true⟩] (some 300)
        refundApproved := by
  intro _
  refine ⟨_, _, rfl, rfl, ?_⟩
  exact @gated_tool_approved ℕ ℤ _ _ _ _ _ _ _ _ [⟨"refund", .flag true⟩] 8 none [] 0 (some 300) _ _
    refundApproved rfl rfl

/-- The loop waits without a timer for a request without a deadline. -/
structure GatedTurn.Stuck (m : GatedTurn Unit Empty ℤ) : Prop where
  turn : m.turn.phase = .waiting ⟨"1", "refund", []⟩ "r" ∧ m.turn.outbox = []
  gate : m.gate.phase none = .waiting "r" false ∧ m.gate.isSet "r" = false
  keyed : m.gate.Keyed
  request : ∃ req, m.gate.requests "r" = some req ∧ req.state = .pending ∧ req.expiresAt = 0

namespace GatedTurn.Stuck

variable {m m' : GatedTurn Unit Empty ℤ}

/-- Another request is stored. -/
theorem store (h : m.Stuck) {req : ApprovalRequest ℤ} (hne : "r" ≠ req.id) :
    ({ m with gate := m.gate.store req } : GatedTurn Unit Empty ℤ).Stuck := by
  obtain ⟨r, hr, hrest⟩ := h.request
  exact ⟨h.turn, h.gate, h.keyed.store req, r, (Function.update_of_ne hne _ _).trans hr, hrest⟩

/-- Nobody is there who could decide. -/
theorem others (h : m.Stuck) {b : ApprovalAction Empty ℤ} {g : ApprovalGate (Option Empty) ℤ}
    (hstep : m.gate.step b.others = some g) :
    GatedTurn.Stuck { m with gate := g } := by
  obtain ⟨r, hr, hpending, hnever⟩ := h.request
  cases b with
  | tick t =>
    simp only [ApprovalAction.others, ApprovalGate.step] at hstep
    split at hstep
    · obtain rfl := Option.some.inj hstep
      exact ⟨h.turn, h.gate, h.keyed, h.request⟩
    · cases hstep
  | request id tool arguments timeout =>
    simp only [ApprovalAction.others, ApprovalGate.step] at hstep
    split at hstep
    · cases hstep
    · next hnone =>
      obtain rfl := Option.some.inj hstep
      have hne : "r" ≠ id := by
        rintro rfl
        rw [hnone] at hr
        cases hr
      have hstored : ({ m with gate := m.gate.store ⟨id, tool, arguments, .pending,
          m.gate.deadline timeout, none, 0, none⟩ } : GatedTurn Unit Empty ℤ).Stuck := h.store hne
      exact ⟨hstored.turn, hstored.gate, hstored.keyed, hstored.request⟩
  | expire id =>
    simp only [ApprovalAction.others, ApprovalGate.step] at hstep
    split at hstep
    · next req hreq =>
      split at hstep
      · next hexpired =>
        obtain rfl := Option.some.inj hstep
        split
        · have hid : req.id = id := h.keyed id req hreq
          have hne : "r" ≠ (m.gate.expired req).id := by
            intro heq
            rw [← hid, ← show "r" = req.id from heq, hr] at hreq
            obtain rfl := Option.some.inj hreq
            -- a request without a deadline does not expire
            simp [ApprovalGate.isExpired, hnever] at hexpired
          exact h.store hne
        · exact h
      · cases hstep
    · cases hstep
  | recover req =>
    simp only [ApprovalAction.others, ApprovalGate.step] at hstep
    split at hstep
    · cases hstep
    · next hnone =>
      obtain rfl := Option.some.inj hstep
      refine h.store ?_
      intro heq
      rw [heq, hnone] at hr
      cases hr
  | wait c _ _ | wake c | timeOut c | decide c _ _ _ _ _ | written c => exact c.elim

variable [PyText]

/-- **No step gets the turn on.** -/
theorem step (h : m.Stuck) {a : GatedAction Empty ℤ}
    (hstep : m.step (runAgent [⟨"refund", .flag true⟩] 8 none true) a = some m') : m'.Stuck := by
  obtain ⟨hphase, hout⟩ := h.turn
  have hturn : ∀ {b : TurnAction ℤ}, (∀ id, b ≠ .file id) → (∀ v, b ≠ .verdict v) →
      ((m.turn.step (runAgent [⟨"refund", .flag true⟩] 8 none true) b).map
          fun t => { m with turn := t }) = some m' → False := by
    intro b hfile hverdict hmap
    obtain ⟨t, ht, -⟩ := Option.map_eq_some_iff.mp hmap
    rcases (Turn.moves ht).phase hfile hverdict with ⟨e, houtbox, -⟩ | ⟨-, -, hnot, -⟩
    · rw [hout] at houtbox
      cases houtbox
    · exact hnot _ _ hphase
  cases a with
  | turn b =>
    cases b with
    | file id => cases hstep
    | verdict v => cases hstep
    | deliver => exact (hturn (by rintro _ ⟨⟩) (by rintro _ ⟨⟩) hstep).elim
    | reply r => exact (hturn (by rintro _ ⟨⟩) (by rintro _ ⟨⟩) hstep).elim
    | next => exact (hturn (by rintro _ ⟨⟩) (by rintro _ ⟨⟩) hstep).elim
    | invoke => exact (hturn (by rintro _ ⟨⟩) (by rintro _ ⟨⟩) hstep).elim
    | result o => exact (hturn (by rintro _ ⟨⟩) (by rintro _ ⟨⟩) hstep).elim
  | request id =>
    simp only [GatedTurn.step, hout, hphase] at hstep
    split at hstep
    · next hfiling => cases hfiling
    · cases hstep
  | requested =>
    simp only [GatedTurn.step] at hstep
    split at hstep
    · simp only [Turn.step, hout, hphase] at hstep
      cases hstep
    · cases hstep
  | wait => simp [GatedTurn.step, ApprovalGate.step, hout, hphase, h.gate.1] at hstep
  | wake =>
    obtain ⟨r, hr, -⟩ := h.request
    simp [GatedTurn.step, ApprovalGate.step, h.gate.1, h.gate.2, hr] at hstep
  | timeOut => simp [GatedTurn.step, ApprovalGate.step, h.gate.1] at hstep
  | written => simp [GatedTurn.step, ApprovalGate.step, h.gate.1] at hstep
  | gate b =>
    obtain ⟨g, hgate, rfl⟩ := Option.map_eq_some_iff.mp hstep
    exact h.others hgate

end GatedTurn.Stuck

/-- Without a timeout, a request that nobody answers holds its turn. -/
theorem unanswered_turn_waits :
    let _ := PyText.plain
    ∃ m₀ m, GatedTurn.start (runAgent [⟨"refund", .flag true⟩] 8 none true) () [] 0 none = some m₀ ∧
      Steps.run (GatedTurn.step (runAgent [⟨"refund", .flag true⟩] 8 none true)) m₀
        (refundAsked Empty) =
        some m ∧
      ∀ bs m', Steps.run (GatedTurn.step (runAgent [⟨"refund",
          .flag true⟩] 8 none true)) m bs = some m' →
        m'.turn.phase = .waiting ⟨"1", "refund", []⟩ "r" := by
  intro _
  have hreached : ∃ m₀ m, GatedTurn.start (runAgent [⟨"refund",
      .flag true⟩] 8 none true) () [] 0 none =
        some m₀ ∧
      Steps.run (GatedTurn.step (runAgent [⟨"refund", .flag true⟩] 8 none true)) m₀
        (refundAsked Empty) =
        some m ∧
      (m.turn.phase = .waiting ⟨"1", "refund", []⟩ "r" ∧ m.turn.outbox = []) ∧
      (m.gate.phase none = .waiting "r" false ∧ m.gate.isSet "r" = false) ∧
      ∃ req, m.gate.requests "r" = some req ∧ req.state = .pending ∧ req.expiresAt = 0 :=
    ⟨_, _, rfl, rfl, ⟨rfl, rfl⟩, ⟨rfl, rfl⟩, _, rfl, rfl, rfl⟩
  obtain ⟨m₀, m, hstart, hrun, hturn, hgate, hrequest⟩ := hreached
  have hstuck : m.Stuck :=
    ⟨hturn, hgate, (GatedTurn.Governed.run hstart hrun).grounded.keyed, hrequest⟩
  refine ⟨m₀, m, hstart, hrun, fun bs m' hrun' => ?_⟩
  exact (Steps.run_invariant_true (fun s a s' hstep hs => GatedTurn.Stuck.step hs hstep)
    hrun' hstuck).turn.1

end Istos
