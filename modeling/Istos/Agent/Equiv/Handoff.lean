import Istos.Agent.Equiv.Loop
import Istos.Data.Steps
import Mathlib.Logic.Relation

/-!
# A missing gate

Without a gate `run_multi_agent` lets every tool run, so all depends on the check up front.  That
check walks the handoffs from the entry and enters each name once; the loop follows the agents
themselves.

* `mem_buildRegistry`: where no two agents that can be reached share a name, the walk meets all of
  them.
* `missing_gate_iff`: no run invokes a tool that needs an approval just when the walk meets such a
  tool, or no agent that the loop can get to in its steps offers one.
-/

namespace Istos

variable {A T : Type} (agents : A → Agent A)

/-- A transfer of the loop leads from one agent to another. -/
def Transfers (a b : A) : Prop := ∃ name, handoffByTool agents a name = some b

/-- A number of transfers leads from one agent to another. -/
inductive TransfersIn (a : A) : ℕ → A → Prop
  | zero : TransfersIn a 0 a
  | succ {n : ℕ} {b c : A} (hb : TransfersIn a n b) (hc : Transfers agents b c) :
      TransfersIn a (n + 1) c

/-- The model of an agent can have a tool called: it is the last of its name, and the name is not
the name of a transfer. -/
def Offers (a : A) (tool : MeshTool) : Prop :=
  ∃ name, byName (agents a).tools name = some tool ∧ handoffByTool agents a name = none

/-- The handoffs that can be followed in any number of steps. -/
def Reachable : A → A → Prop := Relation.ReflTransGen fun a b => b ∈ (agents a).handoffs

/-- No two agents that can be reached have one name. -/
def DistinctNames (entry : A) : Prop :=
  ∀ a b, Reachable agents entry a → Reachable agents entry b → (agents a).name = (agents b).name →
    a = b

/-- No run of the loop without a gate invokes a tool that needs an approval. -/
def HoldsBack [PyText] (T : Type) (l : Loop A) (entry : A) : Prop :=
  ∀ messages t₀, l.start entry messages = some t₀ →
    ∀ (as : List (TurnAction T)) t, Steps.run (Turn.step l) t₀ as = some t →
      ∀ call request tool arguments, .invoked call request tool arguments ∈ t.trace →
        tool.requiresApproval = false

/-! ### The walk of the registry -/

section

variable [Fintype A]

/-- What is registered stays, and everything else that is registered is on the stack or is handed
off to by something that is registered. -/
theorem mem_walk_of_mem {stack registry : List A} {a : A} (h : a ∈ registry) :
    a ∈ walk agents stack registry := by
  fun_induction walk agents stack registry with
  | case1 registry => exact h
  | case2 registry agent stack b hsome ih => exact ih h
  | case3 registry agent stack hnone ih => exact ih (List.mem_cons_of_mem agent h)

variable {agents}

omit [Fintype A] in
theorem registered_spec {registry : List A} {name : String} {a : A}
    (h : registered agents registry name = some a) : a ∈ registry ∧ (agents a).name = name :=
  ⟨List.mem_of_find?_eq_some h, by simpa using List.find?_some h⟩

/-- The walk only registers agents that can be reached. -/
theorem walk_reachable {entry : A} {stack registry : List A}
    (hstack : ∀ a ∈ stack, Reachable agents entry a)
    (hregistry : ∀ a ∈ registry, Reachable agents entry a) :
    ∀ a ∈ walk agents stack registry, Reachable agents entry a := by
  fun_induction walk agents stack registry with
  | case1 registry => exact hregistry
  | case2 registry agent stack b hsome ih =>
    exact ih (fun a ha => hstack a (List.mem_cons_of_mem agent ha)) hregistry
  | case3 registry agent stack hnone ih =>
    have hagent : Reachable agents entry agent := hstack agent List.mem_cons_self
    refine ih (fun a ha => ?_) fun a ha => ?_
    · rcases List.mem_append.mp ha with ha | ha
      · exact hagent.tail (List.mem_reverse.mp ha)
      · exact hstack a (List.mem_cons_of_mem agent ha)
    · rcases List.mem_cons.mp ha with rfl | ha
      · exact hagent
      · exact hregistry a ha

/-- **The walk**, where names are distinct: everything on the stack ends up registered, and so does
everything that a registered agent hands off to. -/
theorem walk_closed {entry : A} (hnames : DistinctNames agents entry) {stack registry : List A}
    (hstack : ∀ a ∈ stack, Reachable agents entry a)
    (hregistry : ∀ a ∈ registry, Reachable agents entry a)
    (hclosed : ∀ a ∈ registry, ∀ b ∈ (agents a).handoffs, b ∈ registry ∨ b ∈ stack) :
    (∀ a ∈ stack, a ∈ walk agents stack registry) ∧
      ∀ a ∈ walk agents stack registry, ∀ b ∈ (agents a).handoffs,
          b ∈ walk agents stack registry := by
  fun_induction walk agents stack registry with
  | case1 registry =>
    refine ⟨by simp, fun a ha b hb => ?_⟩
    exact (hclosed a ha b hb).resolve_right List.not_mem_nil
  | case2 registry agent stack b hsome ih =>
    obtain ⟨hb, hname⟩ := registered_spec hsome
    -- the agent of that name is this one
    obtain rfl := hnames b agent (hregistry b hb) (hstack agent List.mem_cons_self) hname
    have hclosed' : ∀ a ∈ registry, ∀ c ∈ (agents a).handoffs, c ∈ registry ∨ c ∈ stack := by
      intro a ha c hc
      rcases hclosed a ha c hc with hc | hc
      · exact .inl hc
      · rcases List.mem_cons.mp hc with rfl | hc
        · exact .inl hb
        · exact .inr hc
    obtain ⟨hall, hdone⟩ := ih (fun a ha => hstack a (List.mem_cons_of_mem b ha)) hregistry hclosed'
    refine ⟨fun a ha => ?_, hdone⟩
    rcases List.mem_cons.mp ha with rfl | ha
    · exact mem_walk_of_mem agents hb
    · exact hall a ha
  | case3 registry agent stack hnone ih =>
    have hagent : Reachable agents entry agent := hstack agent List.mem_cons_self
    have hstack' : ∀ a ∈ (agents agent).handoffs.reverse ++ stack, Reachable agents entry a := by
      intro a ha
      rcases List.mem_append.mp ha with ha | ha
      · exact hagent.tail (List.mem_reverse.mp ha)
      · exact hstack a (List.mem_cons_of_mem agent ha)
    have hregistry' : ∀ a ∈ agent :: registry, Reachable agents entry a := by
      intro a ha
      rcases List.mem_cons.mp ha with rfl | ha
      · exact hagent
      · exact hregistry a ha
    have hclosed' : ∀ a ∈ agent :: registry, ∀ b ∈ (agents a).handoffs,
        b ∈ agent :: registry ∨ b ∈ (agents agent).handoffs.reverse ++ stack := by
      intro a ha b hb
      rcases List.mem_cons.mp ha with rfl | ha
      · exact .inr (List.mem_append_left _ (List.mem_reverse.mpr hb))
      · rcases hclosed a ha b hb with hb | hb
        · exact .inl (List.mem_cons_of_mem agent hb)
        · rcases List.mem_cons.mp hb with rfl | hb
          · exact .inl List.mem_cons_self
          · exact .inr (List.mem_append_right _ hb)
    obtain ⟨hall, hdone⟩ := ih hstack' hregistry' hclosed'
    refine ⟨fun a ha => ?_, hdone⟩
    rcases List.mem_cons.mp ha with rfl | ha
    · exact mem_walk_of_mem agents List.mem_cons_self
    · exact hall a (List.mem_append_right _ ha)

/-- **The registry holds the agents that can be reached**, where no two of them share a name. -/
theorem mem_buildRegistry {entry : A} (hnames : DistinctNames agents entry) {a : A} :
    a ∈ buildRegistry agents entry ↔ Reachable agents entry a := by
  have hentry : ∀ b ∈ [entry], Reachable agents entry b := by
    intro b hb
    obtain rfl := List.mem_singleton.mp hb
    exact Relation.ReflTransGen.refl
  have hempty : ∀ b ∈ ([] : List A), Reachable agents entry b := by simp
  obtain ⟨hall, hdone⟩ := walk_closed hnames hentry hempty (by simp)
  constructor
  · exact walk_reachable hentry hempty a
  · intro h
    clear hentry
    unfold buildRegistry
    induction h with
    | refl => exact hall entry List.mem_cons_self
    | tail hab hbc ih => exact hdone _ ih _ hbc

end

/-! ### What the loop can get to -/

variable {agents}

theorem Transfers.mem {a b : A} (h : Transfers agents a b) : b ∈ (agents a).handoffs := by
  obtain ⟨name, hname⟩ := h
  exact List.mem_reverse.mp (List.mem_of_find?_eq_some hname)

theorem TransfersIn.reachable {a b : A} {n : ℕ} (h : TransfersIn agents a n b) :
    Reachable agents a b := by
  induction h with
  | zero => exact Relation.ReflTransGen.refl
  | succ hb hc ih => exact ih.tail hc.mem

/-- A tool that is offered is one of the agent's tools. -/
theorem Offers.mem {a : A} {tool : MeshTool} (h : Offers agents a tool) :
    tool ∈ (agents a).tools := by
  obtain ⟨name, hname, -⟩ := h
  exact List.mem_reverse.mp (List.mem_of_find?_eq_some hname)

/-- A turn has only got to agents that its transfers lead to, and has only invoked what they offer.
-/
structure Turn.Within (agents : A → Agent A) (entry : A) (maxSteps : ℕ) (t : Turn A) : Prop where
  completing : t.phase = .completing →
    t.steps < maxSteps ∧ ∃ n ≤ t.steps, TransfersIn agents entry n t.active
  busy : t.phase = .dispatching ∨ t.current ≠ none → t.steps ≤ maxSteps ∧
    (∃ n < t.steps, TransfersIn agents entry n t.active) ∧
      ∃ n ≤ t.steps, TransfersIn agents entry n t.next
  tool : ∀ tc, t.current = some tc → handoffByTool agents t.active tc.name = none
  invoked : ∀ call request tool arguments, .invoked call request tool arguments ∈ t.trace →
    ∃ n a, n < maxSteps ∧ TransfersIn agents entry n a ∧ Offers agents a tool

namespace Turn.Within

variable {entry : A} {maxSteps : ℕ} {t t' : Turn A}

/-- A step inside a batch that gets nowhere and invokes nothing. -/
theorem keep (h : t.Within agents entry maxSteps)
    (hbusy : t.phase = .dispatching ∨ t.current ≠ none)
    (hphase : t'.phase ≠ .completing) (hcurrent : ∀ tc, t'.current = some tc → t.current = some tc)
    (hactive : t'.active = t.active) (hnext : t'.next = t.next) (hsteps : t'.steps = t.steps)
    (htrace : ∀ call request tool arguments, .invoked call request tool arguments ∈ t'.trace →
      .invoked call request tool arguments ∈ t.trace) : t'.Within agents entry maxSteps where
  completing hp := absurd hp hphase
  busy _ := by
    rw [hactive, hnext, hsteps]
    exact h.busy hbusy
  tool tc htc := by
    rw [hactive]
    exact h.tool tc (hcurrent tc htc)
  invoked call request tool arguments hmem := h.invoked _ _ _ _ (htrace _ _ _ _ hmem)

/-- A call is answered. -/
theorem answer (h : t.Within agents entry maxSteps)
    (hbusy : t.phase = .dispatching ∨ t.current ≠ none)
    (tc : ToolCall) (content : String) (outbox : List AgentEvent) :
    ({ t.answer tc content with outbox := outbox } : Turn A).Within agents entry maxSteps := by
  refine h.keep hbusy (by rintro ⟨⟩) (by rintro _ ⟨⟩) rfl rfl rfl ?_
  intro call request tool arguments hmem
  rcases List.mem_append.mp hmem with hmem | hmem
  · exact hmem
  · cases List.mem_singleton.mp hmem

variable [Fintype A] {maxMessages : Option ℕ} {approvals : Bool}

/-- A completion. -/
theorem complete (h : t.Within agents entry maxSteps) (hphase : t.phase = .completing)
    (r : ModelReply) :
    (t.complete (runMultiAgent agents maxSteps maxMessages approvals) r).Within agents
      entry maxSteps := by
  obtain ⟨hsteps, n, hn, hactive⟩ := h.completing hphase
  unfold Turn.complete
  split
  · exact ⟨(by rintro ⟨⟩), (by rintro (⟨⟨⟩⟩ | hc); exact absurd rfl hc), (by rintro _ ⟨⟩),
      h.invoked⟩
  · have hphase' : (if r.toolCalls.isEmpty then TurnPhase.ended else .dispatching) ≠
      .completing := by
      split <;> rintro ⟨⟩
    refine ⟨fun hp => absurd hp hphase',
      fun _ => ⟨hsteps, ⟨n, Nat.lt_succ_of_le hn, hactive⟩, n, Nat.le_succ_of_le hn, hactive⟩,
      ?_, ?_⟩
    · intro tc htc
      rw [Turn.current_eq_none] at htc
      · cases htc
      · cases r.toolCalls.isEmpty
        · exact .inl rfl
        · exact .inr rfl
    · intro call request tool arguments hmem
      rcases List.mem_append.mp hmem with hmem | hmem
      · exact h.invoked _ _ _ _ hmem
      · cases List.mem_singleton.mp hmem

/-- The end of a batch. -/
theorem endBatch (h : t.Within agents entry maxSteps) (hphase : t.phase = .dispatching) :
    (t.endBatch (runMultiAgent agents maxSteps maxMessages approvals)).Within agents
      entry maxSteps := by
  obtain ⟨hle, -, hnext⟩ := h.busy (.inl hphase)
  unfold Turn.endBatch
  split
  · next hlt =>
    refine ⟨fun _ => ⟨hlt, hnext⟩, ?_, ?_, h.invoked⟩
    · rintro (⟨⟨⟩⟩ | hc)
      exact absurd rfl hc
    · rintro _ ⟨⟩
  · refine ⟨by rintro ⟨⟩, ?_, by rintro _ ⟨⟩, h.invoked⟩
    rintro (⟨⟨⟩⟩ | hc)
    exact absurd rfl hc

omit [Fintype A] in
/-- A transfer is followed. -/
theorem transfer (h : t.Within agents entry maxSteps) (hphase : t.phase = .dispatching)
    {tc : ToolCall} {target : A} (htarget : handoffByTool agents t.active tc.name = some target)
    (content : String) (outbox : List AgentEvent) (todo : List ToolCall) (served : ℕ) :
    ({ ({ t with todo := todo, served := served } : Turn A).answer tc content with
      next := target, outbox := outbox } : Turn A).Within agents entry maxSteps := by
  obtain ⟨hle, ⟨n, hn, hactive⟩, -⟩ := h.busy (.inl hphase)
  refine ⟨by rintro ⟨⟩, fun _ => ⟨hle, ⟨n, hn, hactive⟩, n + 1, hn, hactive.succ ⟨_, htarget⟩⟩,
    by rintro _ ⟨⟩, ?_⟩
  intro call request tool arguments hmem
  rcases List.mem_append.mp hmem with hmem | hmem
  · exact h.invoked _ _ _ _ hmem
  · cases List.mem_singleton.mp hmem

/-- The next call of the batch, or its end. -/
theorem advance (h : t.Within agents entry maxSteps) (hphase : t.phase = .dispatching) :
    (t.advance (runMultiAgent agents maxSteps maxMessages approvals)).Within agents
      entry maxSteps := by
  unfold Turn.advance
  split
  · exact h.endBatch hphase
  · next tc todo htodo =>
    split
    · next target htarget => exact h.transfer hphase htarget _ _ _ _
    · next hnone =>
      obtain ⟨tool, -, -, -, hdispatch⟩ | ⟨-, hdispatch⟩ := Turn.dispatch_cases
        (runMultiAgent agents maxSteps maxMessages approvals)
        { t with todo := todo, served := t.served + 1 } tc
      · rw [hdispatch]
        refine ⟨by rintro ⟨⟩, fun _ => h.busy (.inl hphase), ?_, h.invoked⟩
        rintro _ ⟨⟩
        exact hnone
      · rw [hdispatch]
        refine ⟨by rintro ⟨⟩, fun _ => h.busy (.inl hphase), ?_, h.invoked⟩
        rintro _ ⟨⟩
        exact hnone

/-- The tool is run, or is not known. -/
theorem invoke [PyText] (h : t.Within agents entry maxSteps) {tc : ToolCall} {arguments : Json}
    {request : Option String} (hphase : t.phase = .ready tc arguments request) :
    (t.invoke (runMultiAgent agents maxSteps maxMessages approvals) tc arguments request).Within
      agents entry maxSteps := by
  have hcurrent : t.current = some tc := by rw [Turn.current, hphase]
  have hbusy : t.phase = .dispatching ∨ t.current ≠ none := .inr (by rw [hcurrent]; rintro ⟨⟩)
  unfold Turn.invoke
  split
  · exact h.answer hbusy tc _ _
  · next tool htool =>
    obtain ⟨hle, ⟨n, hn, hactive⟩, hnext⟩ := h.busy hbusy
    refine ⟨by rintro ⟨⟩, fun _ => ⟨hle, ⟨n, hn, hactive⟩, hnext⟩, ?_, ?_⟩
    · intro tc' htc'
      obtain rfl := Option.some.inj htc'
      exact h.tool tc hcurrent
    · intro call request' tool' arguments' hmem
      rcases List.mem_append.mp hmem with hmem | hmem
      · exact h.invoked _ _ _ _ hmem
      · cases List.mem_singleton.mp hmem
        exact ⟨n, t.active, Nat.lt_of_lt_of_le hn hle, hactive, tc.name, htool, h.tool tc hcurrent⟩

/-- **The step lemma**: a turn only gets to where its transfers lead. -/
theorem step [PyText] (h : t.Within agents entry maxSteps) {a : TurnAction T}
    (hstep : t.step (runMultiAgent agents maxSteps maxMessages approvals) a = some t') :
    t'.Within agents entry maxSteps := by
  cases Turn.moves hstep with
  | deliver hout => exact ⟨h.completing, h.busy, h.tool, h.invoked⟩
  | reply hout hphase => exact h.complete hphase _
  | next hout hphase => exact h.advance hphase
  | @file tc tool id hout hphase =>
    have hcurrent : t.current = some tc := by rw [Turn.current, hphase]
    refine h.keep (.inr (by rw [hcurrent]; rintro ⟨⟩)) (by rintro ⟨⟩) ?_ rfl rfl rfl ?_
    · intro tc' htc'
      rw [hcurrent]
      exact htc'
    · intro call request tool' arguments hmem
      rcases List.mem_append.mp hmem with hmem | hmem
      · exact hmem
      · cases List.mem_singleton.mp hmem
  | @verdict tc id v hout hphase =>
    have hcurrent : t.current = some tc := by rw [Turn.current, hphase]
    have hbusy : t.phase = .dispatching ∨ t.current ≠ none := .inr (by rw [hcurrent]; rintro ⟨⟩)
    obtain ⟨req, -, hdecided⟩ | ⟨refusal, -, hdecided⟩ := Turn.decided_cases t tc id v
    · rw [hdecided]
      refine h.keep hbusy (by rintro ⟨⟩) ?_ rfl rfl rfl fun _ _ _ _ hmem => hmem
      intro tc' htc'
      rw [hcurrent]
      exact htc'
    · rw [hdecided]
      exact h.answer hbusy tc refusal _
  | invoke hout hphase => exact h.invoke hphase
  | @result tc o hout hphase =>
    have hcurrent : t.current = some tc := by rw [Turn.current, hphase]
    exact h.answer (.inr (by rw [hcurrent]; rintro ⟨⟩)) tc _ _

/-- **The run lemma**. -/
theorem run [PyText] {as : List (TurnAction T)} {messages : List Message} {t₀ : Turn A}
    (hstart : (runMultiAgent agents maxSteps maxMessages approvals).start entry messages = some t₀)
    (hrun :
      Steps.run (Turn.step (runMultiAgent agents maxSteps maxMessages approvals)) t₀ as = some t) :
    t.Within agents entry maxSteps := by
  refine Steps.run_invariant_true (fun s a s' hstep hs => hs.step hstep) hrun ?_
  obtain ⟨hpos, -, rfl⟩ := Loop.start_eq_some hstart
  refine ⟨fun _ => ⟨hpos, 0, le_rfl, .zero⟩, ?_, by rintro _ ⟨⟩, by simp⟩
  rintro (⟨⟨⟩⟩ | hc)
  exact absurd rfl hc

end Turn.Within

/-! ### What the loop does get to -/

section

/-- A bound that is no bound of `0` does not raise. -/
theorem Loop.exists_trimmed {l : Loop A} (h : l.maxMessages ≠ some 0) (messages : List Message) :
    ∃ messages', l.trimmed messages = some messages' := by
  unfold trimmed
  split
  · next n hn =>
    unfold trimMessages
    have hpos : ¬ n < 1 := by
      intro hlt
      rw [Nat.lt_one_iff.mp hlt] at hn
      exact h hn
    rw [if_neg hpos]
    dsimp only
    split
    · exact ⟨_, rfl⟩
    · exact ⟨_, rfl⟩
  · exact ⟨_, rfl⟩

variable [PyText] [Fintype A] {entry : A} {maxSteps : ℕ} {maxMessages : Option ℕ} {approvals : Bool}

omit [Fintype A] in
/-- A reply with one call, up to the call. -/
theorem Turn.run_reply {l : Loop A} (hmax : l.maxMessages ≠ some 0) {t : Turn A}
    (hout : t.outbox = []) (hphase : t.phase = .completing) (tc : ToolCall) :
    ∃ t', Steps.run (Turn.step (T := T) l) t [.reply ⟨none, [tc]⟩] = some t' ∧ t'.outbox = [] ∧
      t'.phase = .dispatching ∧ t'.todo = [tc] ∧ t'.active = t.active ∧ t'.steps = t.steps + 1 := by
  obtain ⟨messages, hmessages⟩ := Loop.exists_trimmed hmax t.messages
  refine ⟨_, Steps.run_cons_eq_some.mpr ⟨t.complete l ⟨none, [tc]⟩, ?_, rfl⟩, ?_⟩
  · rw [Turn.step, hout, hphase]
  · rw [Turn.complete, hmessages]
    exact ⟨rfl, rfl, rfl, rfl, rfl⟩

omit [Fintype A] in
/-- An event that waits can be taken. -/
theorem Turn.step_deliver {l : Loop A} {t : Turn A} {e : AgentEvent} (hout : t.outbox = [e]) :
    t.step (T := T) l .deliver = some { t with outbox := [] } := by
  rw [Turn.step, hout]

omit [Fintype A] in
/-- A transfer is one step. -/
theorem Turn.step_transfer {l : Loop A} {t : Turn A} (hout : t.outbox = [])
    (hphase : t.phase = .dispatching) {tc : ToolCall} {todo : List ToolCall}
    (htodo : t.todo = tc :: todo) {target : A} (htarget : l.target t.active tc.name = some target) :
    ∃ t' e, t.step (T := T) l .next = some t' ∧ t'.outbox = [e] ∧ t'.phase = .dispatching ∧
      t'.todo = todo ∧ t'.next = target ∧ t'.steps = t.steps := by
  refine ⟨t.advance l, .handedOff tc (l.agentName t.active) (l.agentName target), ?_, ?_⟩
  · rw [Turn.step, hout, hphase]
  · rw [Turn.advance, htodo]
    dsimp only
    rw [htarget]
    exact ⟨rfl, rfl, rfl, rfl, rfl⟩

omit [Fintype A] in
/-- At the end of a batch the loop goes on, while steps are left. -/
theorem Turn.step_endBatch {l : Loop A} {t : Turn A} (hout : t.outbox = [])
    (hphase : t.phase = .dispatching) (htodo : t.todo = []) (hsteps : t.steps < l.maxSteps) :
    t.step (T := T) l .next = some { t with active := t.next, phase := .completing } := by
  rcases t with ⟨active, steps, phase, todo, next, messages, served, outbox, trace⟩
  dsimp only at hout hphase htodo hsteps
  subst hout hphase htodo
  exact congrArg some (if_pos hsteps)

omit [Fintype A] in
/-- Where no gate was passed, a call that is no transfer is cleared at once. -/
theorem Turn.step_dispatch {l : Loop A} (happrovals : l.approvals = false) {t : Turn A}
    (hout : t.outbox = []) (hphase : t.phase = .dispatching) {tc : ToolCall} {todo : List ToolCall}
    (htodo : t.todo = tc :: todo) (htarget : l.target t.active tc.name = none) :
    ∃ t' e, t.step (T := T) l .next = some t' ∧ t'.outbox = [e] ∧
      t'.phase = .ready tc (.obj tc.arguments) none ∧ t'.active = t.active := by
  refine ⟨t.advance l, .called tc, ?_, ?_⟩
  · rw [Turn.step, hout, hphase]
  · rw [Turn.advance, htodo]
    simp only [htarget]
    obtain ⟨tool, -, -, htrue, -⟩ | ⟨-, hdispatch⟩ := Turn.dispatch_cases l
      { t with todo := todo, served := t.served + 1 } tc
    · rw [happrovals] at htrue
      cases htrue
    · rw [hdispatch]
      exact ⟨rfl, rfl, rfl⟩

omit [Fintype A] in
/-- A call that is cleared enters its tool. -/
theorem Turn.step_invoke {l : Loop A} {t : Turn A} {tc : ToolCall} {arguments : Json}
    {request : Option String} {tool : MeshTool} (hout : t.outbox = [])
    (hphase : t.phase = .ready tc arguments request)
    (htool : byName (l.tools t.active) tc.name = some tool) :
    ∃ t', t.step (T := T) l .invoke = some t' ∧
      t'.trace = t.trace ++ [.invoked t.served request tool arguments] := by
  refine ⟨t.invoke l tc arguments request, ?_, ?_⟩
  · rw [Turn.step, hout, hphase]
  · simp only [Turn.invoke, htool]

/-- **A hop**: where steps are left, the loop follows a transfer. -/
theorem Turn.run_transfer (hmax : maxMessages ≠ some 0) {t : Turn A} (hout : t.outbox = [])
    (hphase : t.phase = .completing) (hsteps : t.steps + 1 < maxSteps) {b : A}
    (hb : Transfers agents t.active b) :
    ∃ as t',
      Steps.run (Turn.step (T := T) (runMultiAgent agents maxSteps maxMessages approvals)) t as =
        some t' ∧
      t'.outbox = [] ∧ t'.phase = .completing ∧ t'.active = b ∧ t'.steps = t.steps + 1 := by
  obtain ⟨name, hname⟩ := hb
  obtain ⟨t₁, hrun₁, hout₁, hphase₁, htodo₁, hactive₁, hsteps₁⟩ :=
    Turn.run_reply (T := T) (l := runMultiAgent agents maxSteps maxMessages approvals)
      hmax hout hphase ⟨"", name, []⟩
  have htarget : (runMultiAgent agents maxSteps maxMessages approvals).target t₁.active name =
    some b := by
    rw [hactive₁]
    exact hname
  obtain ⟨t₂, e, hnext, hout₂, hphase₂, htodo₂, rfl, hsteps₂⟩ :=
    Turn.step_transfer (T := T) hout₁ hphase₁ htodo₁ htarget
  have hlt : t₂.steps < maxSteps := by omega
  refine ⟨[.reply ⟨none, [⟨"", name, []⟩]⟩] ++ [.next, .deliver, .next],
    { t₂ with outbox := [], active := t₂.next, phase := .completing }, ?_, rfl, rfl, rfl, ?_⟩
  · refine Steps.run_append_eq_some hrun₁ (Steps.run_cons_eq_some.mpr ⟨t₂, hnext, ?_⟩)
    refine Steps.run_cons_eq_some.mpr ⟨_, Turn.step_deliver hout₂, ?_⟩
    exact Steps.run_cons_eq_some.mpr ⟨_, Turn.step_endBatch rfl hphase₂ htodo₂ hlt, rfl⟩
  · rw [← hsteps₁]
    exact hsteps₂

/-- **The loop gets to whatever its transfers lead to**, while steps are left. -/
theorem TransfersIn.exists_run (hmax : maxMessages ≠ some 0) {t₀ : Turn A} (hout : t₀.outbox = [])
    (hphase : t₀.phase = .completing) (hsteps : t₀.steps = 0) {n : ℕ} {b : A}
    (h : TransfersIn agents t₀.active n b) (hn : n < maxSteps) :
    ∃ as t,
      Steps.run (Turn.step (T := T) (runMultiAgent agents maxSteps maxMessages approvals)) t₀ as =
        some t ∧
      t.outbox = [] ∧ t.phase = .completing ∧ t.active = b ∧ t.steps = n := by
  induction h with
  | zero => exact ⟨[], t₀, rfl, hout, hphase, rfl, hsteps⟩
  | @succ n b c hb hc ih =>
    obtain ⟨as, t, hrun, hout', hphase', rfl, rfl⟩ := ih (by omega)
    obtain ⟨as', t', hrun', hout'', hphase'', hactive, hsteps'⟩ :=
      @Turn.run_transfer _ T _ _ _ _ _ approvals hmax _ hout' hphase' hn _ hc
    exact ⟨as ++ as', t', Steps.run_append_eq_some hrun hrun', hout'', hphase'', hactive, hsteps'⟩

/-- Without a gate, a tool that the active agent offers can be run. -/
theorem Offers.exists_run (hmax : maxMessages ≠ some 0) {t : Turn A} (hout : t.outbox = [])
    (hphase : t.phase = .completing) {tool : MeshTool} (h : Offers agents t.active tool) :
    ∃ as t', Steps.run (Turn.step (T := T) (runMultiAgent agents maxSteps maxMessages false)) t as =
        some t' ∧
      ∃ call request arguments, .invoked call request tool arguments ∈ t'.trace := by
  obtain ⟨name, hname, hnone⟩ := h
  obtain ⟨t₁, hrun₁, hout₁, hphase₁, htodo₁, hactive₁, hsteps₁⟩ :=
    Turn.run_reply (T := T) (l := runMultiAgent agents maxSteps maxMessages false) hmax hout hphase
      ⟨"", name, []⟩
  have htarget : (runMultiAgent agents maxSteps maxMessages false).target t₁.active name =
    none := by
    rw [hactive₁]
    exact hnone
  obtain ⟨t₂, e, hnext, hout₂, hphase₂, hactive₂⟩ :=
    Turn.step_dispatch (T := T) rfl hout₁ hphase₁ htodo₁ htarget
  have htool : byName ((runMultiAgent agents maxSteps maxMessages false).tools t₂.active) name =
      some tool := by
    rw [hactive₂, hactive₁]
    exact hname
  obtain ⟨t₃, hinvoke, htrace⟩ := Turn.step_invoke (T := T)
    (l := runMultiAgent agents maxSteps maxMessages false) (t := { t₂ with outbox := [] })
    rfl hphase₂ htool
  refine ⟨[.reply ⟨none, [⟨"", name, []⟩]⟩] ++ [.next, .deliver, .invoke], t₃, ?_, t₂.served, none,
    .obj [], ?_⟩
  · refine Steps.run_append_eq_some hrun₁ (Steps.run_cons_eq_some.mpr ⟨t₂, hnext, ?_⟩)
    exact Steps.run_cons_eq_some.mpr ⟨_, Turn.step_deliver hout₂,
      Steps.run_cons_eq_some.mpr ⟨t₃, hinvoke, rfl⟩⟩
  · rw [htrace]
    exact List.mem_append_right _ (List.mem_singleton.mpr rfl)

/-- What the loop gets to without a gate, it can run. -/
theorem not_holdsBack (hmax : maxMessages ≠ some 0)
    (hneeds : (runMultiAgent agents maxSteps maxMessages false).needsGate entry = false) {n : ℕ}
    {a : A} (ha : TransfersIn agents entry n a) (hn : n < maxSteps) {tool : MeshTool}
    (htool : Offers agents a tool) (hgated : tool.requiresApproval = true) :
    ¬ HoldsBack T (runMultiAgent agents maxSteps maxMessages false) entry := by
  intro h
  have hpos : ¬ maxSteps < 1 := by omega
  have hstart : (runMultiAgent agents maxSteps maxMessages false).start entry [] =
      some ⟨entry, 0, .completing, [], entry, [], 0, [], []⟩ := by
    show (if maxSteps < 1 then none else _) = _
    rw [if_neg hpos, hneeds]
    rfl
  obtain ⟨as, t, hrun, hout, hphase, rfl, -⟩ := @TransfersIn.exists_run _ T _ _ _ _ _ false hmax
    ⟨entry, 0, .completing, [], entry, [], 0, [], []⟩ rfl rfl rfl _ _ ha hn
  obtain ⟨as', t', hrun', call, request, arguments, hmem⟩ :=
    Offers.exists_run (T := T) hmax hout hphase htool
  have hfree := h [] _ hstart _ t' (Steps.run_append_eq_some hrun hrun') call request
    tool arguments hmem
  rw [hgated] at hfree
  cases hfree

end

/-! ### The result -/

section

variable [PyText] [Fintype A] {entry : A} {maxSteps : ℕ} {maxMessages : Option ℕ}

/-- A turn whose messages cannot be cut makes no completion. -/
structure Turn.Halted (t : Turn A) : Prop where
  phase : t.phase = .completing ∨ t.phase = .raised
  outbox : t.outbox = []
  trace : t.trace = []

omit [Fintype A] in
theorem Turn.Halted.step {l : Loop A} (hmax : l.maxMessages = some 0) {t t' : Turn A} (h : t.Halted)
    {a : TurnAction T} (hstep : t.step l a = some t') : t'.Halted := by
  have hnot : ∀ p : TurnPhase, t.phase = p → p ≠ .completing → p ≠ .raised → False := by
    intro p hp hc hr
    rcases h.phase with hphase | hphase
    · exact hc (hp.symm.trans hphase)
    · exact hr (hp.symm.trans hphase)
  cases Turn.moves hstep with
  | deliver hout =>
    rw [h.outbox] at hout
    cases hout
  | reply hout hphase =>
    have hnone : l.trimmed t.messages = none := by
      rw [Loop.trimmed, hmax]
      rfl
    rw [Turn.complete, hnone]
    exact ⟨.inr rfl, h.outbox, h.trace⟩
  | next hout hphase => exact (hnot _ hphase (by rintro ⟨⟩) (by rintro ⟨⟩)).elim
  | file hout hphase => exact (hnot _ hphase (by rintro ⟨⟩) (by rintro ⟨⟩)).elim
  | verdict hout hphase => exact (hnot _ hphase (by rintro ⟨⟩) (by rintro ⟨⟩)).elim
  | invoke hout hphase => exact (hnot _ hphase (by rintro ⟨⟩) (by rintro ⟨⟩)).elim
  | result hout hphase => exact (hnot _ hphase (by rintro ⟨⟩) (by rintro ⟨⟩)).elim

/-- Where a gate is missing, no run of the loop invokes a tool that needs one just when the bound on
the messages is wrong, the check finds such a tool, or none of the agents at fewer than `max_steps`
transfers offers one. -/
theorem holdsBack_iff :
    HoldsBack T (runMultiAgent agents maxSteps maxMessages false) entry ↔
      maxMessages = some 0 ∨ (∃ a ∈ buildRegistry agents entry, ∃ tool ∈ (agents a).tools,
          tool.requiresApproval = true) ∨
        ∀ n < maxSteps, ∀ a tool, TransfersIn agents entry n a → Offers agents a tool →
          tool.requiresApproval = false := by
  have hneeds : (runMultiAgent agents maxSteps maxMessages false).needsGate entry = true ↔
      ∃ a ∈ buildRegistry agents entry, ∃ tool ∈ (agents a).tools,
          tool.requiresApproval = true := by
    show ((buildRegistry agents entry).any
      fun b => (agents b).tools.any MeshTool.requiresApproval) = true ↔ _
    simp only [List.any_eq_true]
  constructor
  · intro h
    by_contra hno
    push Not at hno
    obtain ⟨hmax, hcheck, n, hn, a, tool, ha, htool, hgated⟩ := hno
    refine not_holdsBack hmax ?_ ha hn htool (Bool.eq_true_of_not_eq_false hgated) h
    refine Bool.eq_false_iff.mpr fun htrue => ?_
    obtain ⟨a, ha, tool, htool, hgated⟩ := hneeds.mp htrue
    exact hcheck a ha tool htool hgated
  · rintro h messages t₀ hstart as t hrun call request tool arguments hmem
    obtain ⟨-, hchecked, ht₀⟩ := Loop.start_eq_some hstart
    rcases h with hmax | hfound | hnone
    · have hhalted : t.Halted := by
        refine Steps.run_invariant_true (fun s a s' hstep hs => hs.step hmax hstep) hrun ?_
        rw [ht₀]
        exact ⟨.inl rfl, rfl, rfl⟩
      rw [hhalted.trace] at hmem
      cases hmem
    · rw [hneeds.mpr hfound] at hchecked
      rcases hchecked with happrovals | hfalse
      · cases happrovals
      · cases hfalse
    · obtain ⟨n, a, hn, ha, htool⟩ := (Turn.Within.run hstart hrun).invoked _ _ _ _ hmem
      exact hnone n hn a tool ha htool

/-- **A missing gate**.  `run_multi_agent` without a gate never invokes a tool that needs an
approval, just when the bound on the messages is wrong, or the registry that the check walks holds
an agent with such a tool, or no agent at fewer than `max_steps` transfers offers one.  Where no two
agents that can be reached share a name it never does: it raises at once, or no agent that can be
reached has such a tool. -/
theorem missing_gate_iff (agents : A → Agent A) (entry : A) (maxSteps : ℕ)
    (maxMessages : Option ℕ) :
    (HoldsBack T (runMultiAgent agents maxSteps maxMessages false) entry ↔
      maxMessages = some 0 ∨ (∃ a ∈ buildRegistry agents entry, ∃ tool ∈ (agents a).tools,
          tool.requiresApproval = true) ∨
        ∀ n < maxSteps, ∀ a tool, TransfersIn agents entry n a → Offers agents a tool →
          tool.requiresApproval = false) ∧
      (DistinctNames agents entry →
        HoldsBack T (runMultiAgent agents maxSteps maxMessages false) entry ∧
          ((∀ messages,
              (runMultiAgent agents maxSteps maxMessages false).start entry messages = none) ∨
            ∀ a, Reachable agents entry a → ∀ tool ∈ (agents a).tools,
                tool.requiresApproval = false)) := by
  refine ⟨holdsBack_iff, fun hnames => ?_⟩
  by_cases hfound : ∃ a ∈ buildRegistry agents entry, ∃ tool ∈ (agents a).tools,
      tool.requiresApproval = true
  -- no turn starts where a tool of the registry needs an approval
  · refine ⟨holdsBack_iff.mpr (.inr (.inl hfound)), .inl fun messages => ?_⟩
    cases hstart : (runMultiAgent agents maxSteps maxMessages false).start entry messages with
    | none => rfl
    | some t₀ =>
      have hfalse : ((buildRegistry agents entry).any fun b =>
          (agents b).tools.any MeshTool.requiresApproval) = false :=
        (Loop.start_eq_some hstart).2.1.resolve_left (by rintro ⟨⟩)
      obtain ⟨a, ha, tool, htool, hgated⟩ := hfound
      have hfree := List.any_eq_false.mp hfalse a ha
      exact absurd (List.any_eq_true.mpr ⟨tool, htool, hgated⟩) hfree
  · -- the registry holds all agents that can be reached
    have hfree : ∀ a, Reachable agents entry a → ∀ tool ∈ (agents a).tools,
        tool.requiresApproval = false := by
      intro a ha tool htool
      refine Bool.eq_false_iff.mpr fun hgated => ?_
      exact hfound ⟨a, (mem_buildRegistry hnames).mpr ha, tool, htool, hgated⟩
    refine ⟨holdsBack_iff.mpr (.inr (.inr fun n _ a tool ha htool => ?_)), .inr hfree⟩
    exact hfree a ha.reachable tool htool.mem

end

/-- Two agents of one name: the second has a tool that needs an approval. -/
def namesakes : Bool → Agent Bool
  | false => ⟨"support", [], none, [true]⟩
  | true => ⟨"support", [⟨"refund", .flag true⟩], none, []⟩

/-- The check up front misses an agent of a name that is registered, and the loop runs its tool. -/
theorem missing_gate_passes :
    let _ := PyText.plain
    ¬ HoldsBack Unit (runMultiAgent namesakes 8 none false) false := by
  intro _
  have hregistry : buildRegistry namesakes false = [false] := by
    rw [buildRegistry, walk_of_new _ rfl]
    show walk namesakes [true] [false] = [false]
    rw [walk_of_registered (b := false) _ rfl, walk_nil]
  have hhop : TransfersIn namesakes false 1 true := by
    refine .succ .zero ⟨transferToolName "support", ?_⟩
    rfl
  have htool : Offers namesakes true ⟨"refund", .flag true⟩ := ⟨"refund", rfl, rfl⟩
  refine not_holdsBack (by rintro ⟨⟩) ?_ hhop (by omega) htool rfl
  show ((buildRegistry namesakes false).any
    fun b => (namesakes b).tools.any MeshTool.requiresApproval) = false
  rw [hregistry]
  rfl

end Istos
