import Istos.Agent.Equiv.Loop
import Istos.Data.Steps
import Mathlib.Data.List.TakeWhile

/-!
# Every list that the model is given is well formed

`serve` reads a chat log and keeps the ids of the tool calls that still wait for their answer; a log
is `WellFormed` where it can be read to its end and nothing waits.

* `wellFormed_trim`: cutting a well formed log leaves one.
* `wellFormed_history`: what is rebuilt from a durable log is well formed, whatever the log holds.
* `transcript_wellFormed`: the model of either driver is only ever given well formed lists, with the
  prompt of the active agent in front.
-/

namespace Istos

/-! ### Reading a chat log -/

/-- Reads one message; `due` are the calls of the last assistant message that are not answered yet.
-/
def serve (due : List String) (m : Message) : Option (List String) :=
  match due, m with
  | id :: due, .tool answered _ => if answered = id then some due else none
  | [], .assistant _ calls => some (calls.map FunctionCall.id)
  | [], .user _ => some []
  | [], .system _ => some []
  | _, _ => none

/-- Each assistant message with tool calls is followed by one `tool` message per call, in their
order and under their ids, and no `tool` message is elsewhere. -/
def WellFormed (ms : List Message) : Prop := ms.foldlM serve [] = some []

instance (ms : List Message) : Decidable (WellFormed ms) :=
  inferInstanceAs (Decidable (ms.foldlM serve [] = some []))

/-- The prompt, if there is one, is the first message, and no other message is a prompt. -/
def Prompted (system : Option String) (ms : List Message) : Prop :=
  ∃ body, ms = systemMessages system ++ body ∧ ∀ m ∈ body, m.isSystem = false

/-- A prompt and what follows it. -/
theorem foldlM_serve_append {due due' : List String} {ms : List Message} (ms' : List Message)
    (h : ms.foldlM serve due = some due') :
    (ms ++ ms').foldlM serve due = ms'.foldlM serve due' := by
  rw [List.foldlM_append, h]
  rfl

/-- Only answers can be read while calls wait. -/
theorem serve_isTool {id : String} {due due' : List String} {m : Message}
    (h : serve (id :: due) m = some due') : m.isTool = true ∧ due' = due := by
  cases m with
  | tool answered content =>
    simp only [serve] at h
    split at h
    · exact ⟨rfl, (Option.some.inj h).symm⟩
    · cases h
  | system _ => cases h
  | user _ => cases h
  | assistant _ _ => cases h

/-- No answer can be read where no call waits. -/
theorem serve_nil_isTool {due : List String} {m : Message} (h : serve [] m = some due) :
    m.isTool = false := by
  cases m with
  | tool _ _ => cases h
  | _ => rfl

/-- Dropping the answers in front of a log drops what was due. -/
theorem foldlM_serve_dropWhile {due : List String} {ms : List Message}
    (h : ms.foldlM serve due = some []) : WellFormed (ms.dropWhile Message.isTool) := by
  induction ms generalizing due with
  | nil => rfl
  | cons m ms ih =>
    rw [List.foldlM_cons] at h
    obtain ⟨due', hserve, hrest⟩ := Option.bind_eq_some_iff.mp h
    cases due with
    | nil =>
      have htool : m.isTool = false := serve_nil_isTool hserve
      rw [List.dropWhile_cons_of_neg (by rw [htool]; exact Bool.false_ne_true)]
      exact h
    | cons id due =>
      obtain ⟨htool, rfl⟩ := serve_isTool hserve
      rw [List.dropWhile_cons_of_pos htool]
      exact ih hrest

/-- The end of a log can be read from what is due there. -/
theorem foldlM_serve_drop {due due' : List String} {ms : List Message} (k : ℕ)
    (h : ms.foldlM serve due = some due') :
    ∃ due'', (ms.drop k).foldlM serve due'' = some due' := by
  rw [← List.take_append_drop k ms, List.foldlM_append] at h
  obtain ⟨due'', -, hrest⟩ := Option.bind_eq_some_iff.mp h
  exact ⟨due'', hrest⟩

theorem foldlM_serve_system {ms : List Message} (h : ∀ m ∈ ms, m.isSystem = true) :
    WellFormed ms := by
  induction ms with
  | nil => rfl
  | cons m ms ih =>
    have hrest : WellFormed ms := ih fun m' hm' => h m' (List.mem_cons_of_mem m hm')
    cases m with
    | system content => exact hrest
    | _ => cases h _ List.mem_cons_self

/-- Two well formed logs, one after the other. -/
theorem WellFormed.append {ms ms' : List Message} (h : WellFormed ms) (h' : WellFormed ms') :
    WellFormed (ms ++ ms') :=
  (foldlM_serve_append ms' h).trans h'

theorem wellFormed_flatMap {α : Type} {f : α → List Message} (hf : ∀ a, WellFormed (f a))
    (as : List α) :
    WellFormed (as.flatMap f) := by
  induction as with
  | nil => rfl
  | cons a as ih =>
    rw [List.flatMap_cons]
    exact (hf a).append ih

/-! ### The writers of the log -/

theorem isSystem_systemMessages {system : Option String} :
    ∀ m ∈ systemMessages system, m.isSystem = true := by
  unfold systemMessages
  split
  · split
    · simp
    · simp [Message.isSystem]
  · simp

/-- **Cutting a log**. -/
theorem wellFormed_trim {ms ms' : List Message} {n : ℕ} (h : WellFormed ms)
    (htrim : trimMessages ms n = some ms') : WellFormed ms' := by
  unfold trimMessages at htrim
  split at htrim
  · cases htrim
  · simp only at htrim
    split at htrim
    · obtain rfl := Option.some.inj htrim
      exact h
    · obtain rfl := Option.some.inj htrim
      -- the prompts in front are read on their own
      have hsystem : WellFormed (ms.takeWhile Message.isSystem) :=
        foldlM_serve_system fun m hm => List.mem_takeWhile_imp hm
      have hbody : WellFormed (ms.dropWhile Message.isSystem) := by
        have hall : WellFormed (ms.takeWhile Message.isSystem ++
          ms.dropWhile Message.isSystem) := by
          rw [List.takeWhile_append_dropWhile]
          exact h
        exact (foldlM_serve_append _ hsystem).symm.trans hall
      obtain ⟨due, hdrop⟩ := foldlM_serve_drop _ hbody
      exact hsystem.append (foldlM_serve_dropWhile hdrop)

/-- Cutting a log keeps its prompt. -/
theorem prompted_trim {system : Option String} {ms ms' : List Message} {n : ℕ}
    (h : Prompted system ms) (htrim : trimMessages ms n = some ms') : Prompted system ms' := by
  obtain ⟨body, rfl, hbody⟩ := h
  have htake : (systemMessages system ++ body).takeWhile Message.isSystem =
    systemMessages system := by
    rw [List.takeWhile_append_of_pos isSystem_systemMessages, List.takeWhile_eq_nil_iff.mpr,
      List.append_nil]
    intro hlen
    rw [hbody _ (List.get_mem body ⟨0, hlen⟩)]
    exact Bool.false_ne_true
  have hdrop : (systemMessages system ++ body).dropWhile Message.isSystem = body := by
    have hall := List.takeWhile_append_dropWhile (p := Message.isSystem)
      (l := systemMessages system ++ body)
    rw [htake] at hall
    exact List.append_cancel_left hall
  unfold trimMessages at htrim
  split at htrim
  · cases htrim
  · simp only [htake, hdrop] at htrim
    split at htrim
    · obtain rfl := Option.some.inj htrim
      exact ⟨body, rfl, hbody⟩
    · obtain rfl := Option.some.inj htrim
      refine ⟨_, rfl, fun m hm => hbody m ?_⟩
      exact List.mem_of_mem_drop ((List.dropWhile_sublist _).subset hm)

/-- The prompt of the active agent, in front of a log without one. -/
theorem withSystem_spec {ms : List Message} (h : WellFormed ms) (hnone : Prompted none ms)
    (system : Option String) :
    WellFormed (withSystem ms system) ∧ Prompted system (withSystem ms system) := by
  obtain ⟨body, hms, hbody⟩ := hnone
  rw [show ms = body from hms] at h ⊢
  have hfilter : body.filter (fun m => !m.isSystem) = body := by
    rw [List.filter_eq_self]
    intro m hm
    rw [hbody m hm]
    rfl
  refine ⟨?_, body, ?_, hbody⟩
  · show WellFormed (systemMessages system ++ body.filter _)
    rw [hfilter]
    exact (foldlM_serve_system isSystem_systemMessages).append h
  · show systemMessages system ++ body.filter _ = _
    rw [hfilter]

section

variable [PyText]

/-- **What a frame of the log becomes**, whatever it holds. -/
theorem entryMessages_spec (includeTools : Bool) (results : List (String × Json))
    (turn : ChannelFrame) :
    WellFormed (entryMessages includeTools results turn) ∧
      ∀ m ∈ entryMessages includeTools results turn, m.isSystem = false := by
  have hsaying : ∀ text, WellFormed (saying text) ∧ ∀ m ∈ saying text, m.isSystem = false := by
    intro text
    unfold saying
    split
    · exact ⟨rfl, by simp⟩
    · exact ⟨rfl, by simp [Message.isSystem]⟩
  have hnil : WellFormed [] ∧ ∀ m ∈ ([] : List Message), m.isSystem = false := ⟨rfl, by simp⟩
  have hcall : ∀ data, WellFormed (callMessages results data) ∧
      ∀ m ∈ callMessages results data, m.isSystem = false := by
    intro data
    unfold callMessages
    split
    · split
      · next tid _ result _ =>
        refine ⟨?_, by simp [toolCallMessage, Message.isSystem]⟩
        simp [WellFormed, toolCallMessage, serve]
      · exact hnil
    · exact hnil
  unfold entryMessages
  split
  · exact ⟨rfl, by simp [Message.isSystem]⟩
  · split
    · unfold sentMessages
      split
      · split
        · split
          · exact hcall _
          · exact hnil
        · split
          · exact hnil
          · split
            · split
              · split
                · exact ⟨rfl, by simp [Message.isSystem]⟩
                · exact hnil
              · exact hnil
            · exact hsaying _
      · exact hsaying _
    · exact hnil

/-- **What is rebuilt from a durable log**. -/
theorem wellFormed_history {history : List ChannelFrame} {system : Option String}
    {includeTools : Bool}
    {ms : List Message} (h : historyToMessages history system includeTools = some ms) :
    WellFormed ms ∧ Prompted system ms := by
  obtain ⟨results, -, rfl⟩ := Option.map_eq_some_iff.mp h
  constructor
  · exact (foldlM_serve_system isSystem_systemMessages).append
      (wellFormed_flatMap (fun turn => (entryMessages_spec includeTools results turn).1) history)
  · refine ⟨_, rfl, fun m hm => ?_⟩
    obtain ⟨turn, -, hturn⟩ := List.mem_flatMap.mp hm
    exact (entryMessages_spec includeTools results turn).2 m hturn

omit [PyText] in
/-- Messages after a log with its prompt. -/
theorem Prompted.append {system : Option String} {ms ms' : List Message}
    (h : Prompted system ms) (h' : ∀ m ∈ ms', m.isSystem = false) :
    Prompted system (ms ++ ms') := by
  obtain ⟨body, rfl, hbody⟩ := h
  refine ⟨body ++ ms', List.append_assoc _ _ _, fun m hm => ?_⟩
  rcases List.mem_append.mp hm with hm | hm
  · exact hbody m hm
  · exact h' m hm

/-! ### The turns -/

namespace Turn

variable {A T : Type}

/-- The ids of the calls that wait for their answer. -/
def due (m : Turn A) : List String :=
  match m.phase with
  | .completing | .ended | .raised => []
  | .dispatching => m.todo.map ToolCall.id
  | .filing tc _ | .waiting tc _ | .ready tc _ _ | .calling tc => tc.id :: m.todo.map ToolCall.id

/-- The chat log of a turn. -/
structure Coherent (system : Option String) (prompt : A → Option String) (m : Turn A) : Prop where
  served : m.phase ≠ .raised → m.messages.foldlM serve [] = some m.due
  prompted : Prompted system m.messages
  shown : ∀ a ms, .completed a ms ∈ m.trace → WellFormed ms ∧ Prompted (prompt a) ms

/-- A loop shows a well formed log with the prompt of the agent, made of one with the stored prompt.
-/
def Presents (l : Loop A) (system : Option String) (prompt : A → Option String) : Prop :=
  ∀ a ms, WellFormed ms → Prompted system ms →
    WellFormed (l.present a ms) ∧ Prompted (prompt a) (l.present a ms)

variable {l : Loop A} {system : Option String} {prompt : A → Option String} {m m' : Turn A}

omit [PyText] in
/-- The next call of the batch is answered. -/
theorem coherent_answer {tc : ToolCall}
    (hdue : m.messages.foldlM serve [] = some (tc.id :: m.todo.map ToolCall.id))
    (hprompted : Prompted system m.messages)
    (hshown : ∀ a ms, .completed a ms ∈ m.trace → WellFormed ms ∧ Prompted (prompt a) ms)
    (content : String) : (m.answer tc content).Coherent system prompt where
  served _ := by
    have hone : [Message.tool tc.id content].foldlM serve (tc.id :: m.todo.map ToolCall.id) =
        some (m.todo.map ToolCall.id) := by simp [serve]
    exact (foldlM_serve_append _ hdue).trans hone
  prompted := hprompted.append (by simp [Message.isSystem])
  shown a ms hms := by
    rcases List.mem_append.mp hms with hms | hms
    · exact hshown a ms hms
    · cases List.mem_singleton.mp hms

omit [PyText] in
/-- A completion: the list that the model is given, and the reply to it. -/
theorem Coherent.complete (hl : Presents l system prompt) (h : m.Coherent system prompt)
    (hphase : m.phase = .completing) (r : ModelReply) :
    (m.complete l r).Coherent system prompt := by
  have hserved : WellFormed m.messages := by
    have hall := h.served (by rw [hphase]; rintro ⟨⟩)
    rwa [due, hphase] at hall
  unfold Turn.complete
  split
  · exact ⟨fun hraised => absurd rfl hraised, h.prompted, h.shown⟩
  · next messages htrimmed =>
    have hmessages : WellFormed messages ∧ Prompted system messages := by
      unfold Loop.trimmed at htrimmed
      split at htrimmed
      · exact ⟨wellFormed_trim hserved htrimmed, prompted_trim h.prompted htrimmed⟩
      · obtain rfl := Option.some.inj htrimmed
        exact ⟨hserved, h.prompted⟩
    refine ⟨fun _ => ?_, hmessages.2.append (by simp [assistantMessage, Message.isSystem]), ?_⟩
    · have hread : [assistantMessage r].foldlM serve [] = some (r.toolCalls.map ToolCall.id) := by
        simp [assistantMessage, serve, ToolCall.function, Function.comp_def]
      refine (foldlM_serve_append _ hmessages.1).trans (hread.trans ?_)
      cases hcalls : r.toolCalls with
      | nil => simp [due]
      | cons tc calls => simp [due]
    · intro a ms hms
      rcases List.mem_append.mp hms with hms | hms
      · exact h.shown a ms hms
      · obtain ⟨rfl, rfl⟩ := TurnEntry.completed.inj (List.mem_singleton.mp hms)
        exact hl _ _ hmessages.1 hmessages.2

omit [PyText] in
/-- The batch goes on. -/
theorem Coherent.advance (h : m.Coherent system prompt) (hphase : m.phase = .dispatching) :
    (m.advance l).Coherent system prompt := by
  have hserved : m.messages.foldlM serve [] = some (m.todo.map ToolCall.id) := by
    have hall := h.served (by rw [hphase]; rintro ⟨⟩)
    rwa [due, hphase] at hall
  unfold Turn.advance
  split
  · next htodo =>
    rw [htodo] at hserved
    unfold endBatch
    split
    · exact ⟨fun _ => hserved, h.prompted, h.shown⟩
    · exact ⟨fun _ => hserved, h.prompted, h.shown⟩
  · next tc todo htodo =>
    rw [htodo] at hserved
    split
    · next target _ =>
      have hanswer := coherent_answer (m := { m with todo := todo, served := m.served + 1 }) hserved
        h.prompted h.shown ("Transferred to " ++ l.agentName target ++ ".")
      exact ⟨hanswer.served, hanswer.prompted, hanswer.shown⟩
    · unfold dispatch
      refine ⟨fun _ => hserved.trans ?_, h.prompted, h.shown⟩
      cases byName (l.tools m.active) tc.name with
      | none => rfl
      | some tool =>
        show some _ = some (due { m with phase := if _ then _ else _, todo := todo })
        split <;> rfl

/-- **One step of a turn.** -/
theorem Coherent.step (hl : Presents l system prompt) {a : TurnAction T} (hmove : Moves l m a m')
    (h : m.Coherent system prompt) : m'.Coherent system prompt := by
  have hdue : ∀ tc : ToolCall, m.due = tc.id :: m.todo.map ToolCall.id → m.phase ≠ .raised →
      m.messages.foldlM serve [] = some (tc.id :: m.todo.map ToolCall.id) := by
    intro tc hids hraised
    rw [← hids]
    exact h.served hraised
  cases hmove with
  | deliver hout => exact ⟨h.served, h.prompted, h.shown⟩
  | reply hout hphase => exact h.complete hl hphase _
  | next hout hphase => exact h.advance hphase
  | @file tc tool id hout hphase =>
    refine ⟨fun _ => hdue tc (by rw [due, hphase]) (by rw [hphase]; rintro ⟨⟩), h.prompted, ?_⟩
    intro a ms hms
    rcases List.mem_append.mp hms with hms | hms
    · exact h.shown a ms hms
    · cases List.mem_singleton.mp hms
  | @verdict tc id v hout hphase =>
    have hids := hdue tc (by rw [due, hphase]) (by rw [hphase]; rintro ⟨⟩)
    rcases m.decided_cases tc id v with ⟨req, -, heq⟩ | ⟨refusal, -, heq⟩
    · rw [heq]
      exact ⟨fun _ => hids, h.prompted, h.shown⟩
    · rw [heq]
      have hanswer := coherent_answer hids h.prompted h.shown refusal
      exact ⟨hanswer.served, hanswer.prompted, hanswer.shown⟩
  | @invoke tc arguments request hout hphase =>
    have hids := hdue tc (by rw [due, hphase]) (by rw [hphase]; rintro ⟨⟩)
    unfold Turn.invoke
    split
    · have hanswer := coherent_answer hids h.prompted h.shown
        ("unknown tool: " ++ PyText.repr tc.name)
      exact ⟨hanswer.served, hanswer.prompted, hanswer.shown⟩
    · refine ⟨fun _ => hids, h.prompted, ?_⟩
      intro a ms hms
      rcases List.mem_append.mp hms with hms | hms
      · exact h.shown a ms hms
      · cases List.mem_singleton.mp hms
  | @result tc o hout hphase =>
    have hids := hdue tc (by rw [due, hphase]) (by rw [hphase]; rintro ⟨⟩)
    have hanswer := coherent_answer hids h.prompted h.shown o.result.1
    exact ⟨hanswer.served, hanswer.prompted, hanswer.shown⟩

end Turn

/-! ### The sessions -/

namespace Session

variable {A T : Type}

/-- The chat log of a session. -/
def Coherent (system : Option String) (prompt : A → Option String) (s : Session A) : Prop :=
  match s.phase with
  | .listening => WellFormed s.messages ∧ Prompted system s.messages
  | .turning t => t.Coherent system prompt
  | .over => True

omit [PyText] in
/-- A log with its prompt needs no other. -/
theorem insertSystem_of_prompted {system : Option String} {ms : List Message}
    (h : Prompted system ms) :
    insertSystem ms system = ms := by
  obtain ⟨body, rfl, hbody⟩ := h
  unfold insertSystem
  split
  · rfl
  · next hany =>
    have hnil : systemMessages system = [] := by
      rw [List.eq_nil_iff_forall_not_mem]
      intro m hm
      exact hany (List.any_eq_true.mpr ⟨m, List.mem_append_left _ hm, isSystem_systemMessages m hm⟩)
    rw [hnil, List.nil_append]

theorem coherent_connect {d : Driver A} {prompt : A → Option String} {log : List ChannelFrame}
    {s : Session A} (h : connect d log = some s) : s.Coherent d.system prompt := by
  obtain ⟨messages, hmessages, rfl⟩ := Option.map_eq_some_iff.mp h
  have hspec := wellFormed_history hmessages
  show WellFormed (insertSystem messages d.system) ∧
    Prompted d.system (insertSystem messages d.system)
  rw [insertSystem_of_prompted hspec.2]
  exact hspec

omit [PyText] in
/-- A turn that starts. -/
theorem coherent_start {l : Loop A} {system : Option String} {prompt : A → Option String}
    {active : A} {ms : List Message} {t : Turn A} (hms : WellFormed ms)
    (hprompted : Prompted system ms)
    (h : l.start active ms = some t) : t.Coherent system prompt := by
  obtain ⟨-, -, rfl⟩ := Loop.start_eq_some h
  exact ⟨fun _ => hms, hprompted, fun a shown hmem => by cases hmem⟩

/-- **One step of a session.** -/
theorem Coherent.step {d : Driver A} {prompt : A → Option String}
    (hl : Turn.Presents d.loop d.system prompt) {s s' : Session A} {a : SessionAction T}
    (hmove : Moves d s a s') (h : s.Coherent d.system prompt) : s'.Coherent d.system prompt := by
  cases hmove with
  | @receive data hphase =>
    rw [Coherent, hphase] at h
    obtain ⟨hms, hprompted⟩ := h
    have hms' : WellFormed (s.messages ++ [.user (userText data)]) := hms.append rfl
    have hprompted' : Prompted d.system (s.messages ++ [.user (userText data)]) :=
      hprompted.append (by simp [Message.isSystem])
    unfold Coherent receive
    cases hstart : d.loop.start s.active (s.messages ++ [.user (userText data)]) with
    | none => simp only [hstart]
    | some t =>
      simp only [hstart]
      exact coherent_start hms' hprompted' hstart
  | deliver hphase hout =>
    rw [Coherent, hphase] at h
    exact ⟨h.served, h.prompted, h.shown⟩
  | turn hphase ha hmove =>
    rw [Coherent, hphase] at h
    exact Turn.Coherent.step hl hmove h
  | finish hphase hout hended =>
    rw [Coherent, hphase] at h
    have hserved := h.served (by rw [hended]; rintro ⟨⟩)
    rw [Turn.due, hended] at hserved
    exact ⟨hserved, h.prompted⟩

/-- **A run of a driver**: what its loop shows is well formed. -/
theorem wellFormed_shown {d : Driver A} {prompt : A → Option String}
    (hl : Turn.Presents d.loop d.system prompt) {log : List ChannelFrame} {s₀ s : Session A}
    {as : List (SessionAction T)} (hconnect : connect d log = some s₀)
    (hrun : Steps.run (step d) s₀ as = some s) {t : Turn A} (hphase : s.phase = .turning t) {a : A}
    {shown : List Message} (hshown : .completed a shown ∈ t.trace) :
    WellFormed shown ∧ Prompted (prompt a) shown := by
  have hs : s.Coherent d.system prompt :=
    Steps.run_invariant_true (fun _ _ _ hstep => Coherent.step hl (moves hstep)) hrun
      (coherent_connect hconnect)
  rw [Coherent, hphase] at hs
  exact hs.shown a shown hshown

end Session

/-- **The transcript is always well formed**: in every run of either driver over any durable log,
each list that a model is given answers every tool call where it belongs and begins with the prompt
of the active agent. -/
theorem transcript_wellFormed (T : Type) :
    (∀ (tools : List MeshTool) (system : Option String) (maxSteps : ℕ) (maxMessages : Option ℕ)
      (sendEvents approvals : Bool) (log : List ChannelFrame) (s₀ s : Session Unit)
      (as : List (SessionAction T)) (t : Turn Unit) (a : Unit) (shown : List Message),
      Session.connect (driveChannel tools system maxSteps maxMessages sendEvents approvals) log =
        some s₀ →
      Steps.run (Session.step (driveChannel tools system maxSteps maxMessages sendEvents approvals))
        s₀ as = some s →
      s.phase = .turning t → .completed a shown ∈ t.trace →
      WellFormed shown ∧ Prompted system shown) ∧
    ∀ (A : Type) [Fintype A] (agents : A → Agent A) (entry : A) (maxSteps : ℕ)
      (maxMessages : Option ℕ) (sendEvents approvals : Bool) (log : List ChannelFrame)
      (s₀ s : Session A) (as : List (SessionAction T)) (t : Turn A) (a : A) (shown : List Message),
      Session.connect (driveAgents agents entry maxSteps maxMessages sendEvents approvals) log =
        some s₀ →
      Steps.run (Session.step (driveAgents agents entry maxSteps maxMessages sendEvents approvals))
        s₀ as = some s →
      s.phase = .turning t → .completed a shown ∈ t.trace →
      WellFormed shown ∧ Prompted (agents a).system shown := by
  constructor
  · intro tools system maxSteps maxMessages sendEvents approvals log s₀ s as t a shown hconnect hrun
      hphase hshown
    have hl : Turn.Presents (runAgent tools maxSteps maxMessages approvals) system
      fun _ => system :=
      fun _ _ hms hprompted => ⟨hms, hprompted⟩
    exact Session.wellFormed_shown hl hconnect hrun hphase hshown
  · intro A _ agents entry maxSteps maxMessages sendEvents approvals log s₀ s as t a
      shown hconnect hrun hphase hshown
    have hl : Turn.Presents (runMultiAgent agents maxSteps maxMessages approvals) none
        fun a => (agents a).system :=
      fun a _ hms hprompted => withSystem_spec hms hprompted (agents a).system
    exact Session.wellFormed_shown hl hconnect hrun hphase hshown

end

/-- One turn with a call, and the actions that serve it. -/
def oneCall : List (SessionAction ℕ) :=
  [.receive (.str "1 + 2"), .turn (.reply ⟨none, [⟨"1", "add", []⟩]⟩), .turn .next, .turn .deliver,
    .turn .invoke, .turn (.result (.value (.num 3))), .turn .deliver, .turn .next,
    .turn (.reply ⟨some "3", []⟩)]

/-- A router and the agent that it hands off to. -/
def routed : Bool → Agent Bool
  | false => ⟨"router", [], some "route", [true]⟩
  | true => ⟨"math", [⟨"add", .flag false⟩], some "compute", [false]⟩

/-- One turn with a handoff, and the actions that serve it. -/
def oneHandoff : List (SessionAction ℕ) :=
  [.receive (.str "1 + 2"), .turn (.reply ⟨none, [⟨"1", "transfer_to_math", []⟩]⟩),
    .turn .next, .turn .deliver, .turn .next, .turn (.reply ⟨some "3", []⟩)]

/-- What the model is shown after the call, with room for two messages. -/
def shownAfterCall : List Message :=
  [.system "compute", .assistant none [⟨"1", .str "add", (Json.obj []).dumps⟩], .tool "1" "3"]

/-- What the second agent is shown after the handoff. -/
def shownAfterHandoff : List Message :=
  [.system "compute", .user "1 + 2",
    .assistant none [⟨"1", .str "transfer_to_math", (Json.obj []).dumps⟩],
    .tool "1" "Transferred to math."]

theorem transcript_wellFormed_runs :
    let _ := PyText.plain
    (∃ s₀ s t,
      Session.connect
        (driveChannel [⟨"add", .flag false⟩] (some "compute") 8 (some 2) true false) [] = some s₀ ∧
      Steps.run (Session.step
        (driveChannel [⟨"add", .flag false⟩] (some "compute") 8 (some 2) true false)) s₀ oneCall =
        some s ∧
      s.phase = .turning t ∧ .completed () shownAfterCall ∈ t.trace ∧
      WellFormed shownAfterCall ∧ Prompted (some "compute") shownAfterCall) ∧
    ∃ s₀ s t,
      Session.connect (driveAgents routed false 8 none true true) [] = some s₀ ∧
      Steps.run (Session.step (driveAgents routed false 8 none true true)) s₀ oneHandoff = some s ∧
      s.phase = .turning t ∧ .completed true shownAfterHandoff ∈ t.trace ∧
      WellFormed shownAfterHandoff ∧ Prompted (some "compute") shownAfterHandoff := by
  intro _
  constructor
  · refine ⟨_, _, _, rfl, rfl, rfl, List.Mem.tail _ (List.Mem.tail _ (List.Mem.tail _
      (List.Mem.head _))), ?_⟩
    exact (transcript_wellFormed ℕ).1 [⟨"add", .flag false⟩] (some "compute") 8
      (some 2) true false [] _ _ oneCall _ _ _ rfl rfl rfl
      (List.Mem.tail _ (List.Mem.tail _ (List.Mem.tail _ (List.Mem.head _))))
  · refine ⟨_, _, _, rfl, rfl, rfl, List.Mem.tail _ (List.Mem.tail _ (List.Mem.head _)), ?_⟩
    exact (transcript_wellFormed ℕ).2 Bool routed false 8 none true true [] _ _
      oneHandoff _ _ _ rfl rfl
      rfl (List.Mem.tail _ (List.Mem.tail _ (List.Mem.head _)))

end Istos
