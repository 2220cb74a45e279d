import Istos.Agent.Equiv.Transcript
import Istos.Agent.Multi
import Mathlib.Data.List.Infix

/-!
# What a bound on the chat log hides

`_trim_messages` keeps the last messages of the log and drops the answers that they begin with.  The
answers of a batch stand at the end of the log, after the message that asks for them, so a batch
with as many calls as the bound, or more, is cut to its answers, and all of them are dropped.

`trimming_iff`: in a run of either loop every completion is shown the batch that it follows, and
some message that is no prompt, just when each batch with a completion after it has fewer calls than
the bound, and the log of the caller can be cut.
-/

namespace Istos

/-! ### Cutting a log -/

/-- The answer to a call. -/
def Answers (call : FunctionCall) (m : Message) : Prop := ∃ text, m = .tool call.id text

/-- An assistant message with tool calls, and the answers to all of them. -/
def IsBatch (calls : List FunctionCall) (ms : List Message) : Prop :=
  calls ≠ [] ∧ ∃ content results, ms = .assistant content calls :: results ∧
    List.Forall₂ Answers calls results

/-- What a model that is shown a part of a log can still see. -/
structure Intact (log shown : List Message) : Prop where
  /-- the batch at the end of the log, with its answers -/
  batch : ∀ calls batch, IsBatch calls batch → batch <:+ log → batch <:+ shown
  /-- some message that is no prompt -/
  spoken : (∃ m ∈ log, m.isSystem = false) → ∃ m ∈ shown, m.isSystem = false

/-- A bound leaves enough of a log: the batch at its end has fewer calls, and the last messages
are not just answers with prompts after them. -/
structure Fits (n : ℕ) (log : List Message) : Prop where
  calls : ∀ calls batch, IsBatch calls batch → batch <:+ log → calls.length < n
  spoken : n < (log.dropWhile Message.isSystem).length → ¬ ∃ answers prompts,
    log.drop (log.length - n) = answers ++ prompts ∧ (∀ m ∈ answers, m.isTool = true) ∧
      ∀ m ∈ prompts, m.isSystem = true

namespace IsBatch

variable {calls : List FunctionCall} {batch log : List Message}

theorem length (h : IsBatch calls batch) : batch.length = calls.length + 1 := by
  obtain ⟨-, content, results, rfl, hresults⟩ := h
  rw [List.length_cons, hresults.length_eq]

theorem isTool_of_mem {results : List Message} (h : List.Forall₂ Answers calls results) :
    ∀ m ∈ results, m.isTool = true := by
  induction h with
  | nil => exact nofun
  | cons hanswer _ ih =>
    obtain ⟨text, rfl⟩ := hanswer
    exact List.forall_mem_cons.mpr ⟨rfl, ih⟩

/-- No message of a batch is a prompt. -/
theorem isSystem (h : IsBatch calls batch) : ∀ m ∈ batch, m.isSystem = false := by
  obtain ⟨-, content, results, rfl, hresults⟩ := h
  refine List.forall_mem_cons.mpr ⟨rfl, fun m hm => ?_⟩
  have htool := isTool_of_mem hresults m hm
  cases m with
  | tool _ _ => rfl
  | _ => cases htool

/-- Of the last messages of a batch only the answers are fewer than all. -/
theorem isTool_of_suffix (h : IsBatch calls batch) {w : List Message} (hw : w <:+ batch)
    (hlen : w.length < batch.length) : ∀ m ∈ w, m.isTool = true := by
  obtain ⟨-, content, results, rfl, hresults⟩ := h
  have hsuffix : w <:+ results := by
    refine (List.suffix_cons_iff.mp hw).resolve_left ?_
    rintro rfl
    exact lt_irrefl _ hlen
  exact fun m hm => isTool_of_mem hresults m (hsuffix.subset hm)

/-- A log ends with one batch at most. -/
theorem unique {calls' : List FunctionCall} {batch' : List Message} (h : IsBatch calls batch)
    (h' : IsBatch calls' batch') (hlog : batch <:+ log) (hlog' : batch' <:+ log) :
    calls = calls' := by
  have hhead : ∀ {calls batch}, IsBatch calls batch → ∃ m ∈ batch, m.isTool = false := by
    rintro calls _ ⟨-, content, results, rfl, -⟩
    exact ⟨_, List.mem_cons_self, rfl⟩
  rcases lt_trichotomy batch.length batch'.length with hlt | heq | hlt
  · obtain ⟨m, hm, htool⟩ := hhead h
    have hsuffix := List.suffix_of_suffix_length_le hlog hlog' (le_of_lt hlt)
    rw [h'.isTool_of_suffix hsuffix hlt m hm] at htool
    cases htool
  · have hsame := (List.suffix_of_suffix_length_le hlog hlog' (le_of_eq heq)).eq_of_length heq
    obtain ⟨-, content, results, rfl, -⟩ := h
    obtain ⟨-, content', results', rfl, -⟩ := h'
    injection hsame with hmessage
    injection hmessage
  · obtain ⟨m, hm, htool⟩ := hhead h'
    have hsuffix := List.suffix_of_suffix_length_le hlog' hlog (le_of_lt hlt)
    rw [h.isTool_of_suffix hsuffix hlt m hm] at htool
    cases htool

/-- A batch is no part of what is dropped in front of it. -/
theorem suffix_dropWhile (h : IsBatch calls batch) (hlog : batch <:+ log) {p : Message → Bool}
    (hp : ∀ content calls, p (.assistant content calls) = false) : batch <:+ log.dropWhile p := by
  obtain ⟨before, rfl⟩ := hlog
  obtain ⟨-, content, results, rfl, -⟩ := h
  rw [List.dropWhile_append]
  split
  · rw [List.dropWhile_cons_of_neg (by rw [hp]; exact Bool.false_ne_true)]
  · exact List.suffix_append ..

end IsBatch

/-- The prompts in front of a log are no part of its last messages. -/
theorem drop_dropWhile_isSystem {log : List Message} {n : ℕ}
    (hlen : n < (log.dropWhile Message.isSystem).length) :
    (log.dropWhile Message.isSystem).drop ((log.dropWhile Message.isSystem).length - n) =
      log.drop (log.length - n) := by
  have hle : (log.dropWhile Message.isSystem).length ≤ log.length :=
    (List.dropWhile_suffix _).length_le
  have hsuffix := (List.drop_suffix ((log.dropWhile Message.isSystem).length - n) _).trans
    (List.dropWhile_suffix (l := log) Message.isSystem)
  have hlength : ((log.dropWhile Message.isSystem).drop
      ((log.dropWhile Message.isSystem).length - n)).length =
        (log.drop (log.length - n)).length := by
    rw [List.length_drop, List.length_drop]
    omega
  have hle := List.suffix_of_suffix_length_le hsuffix (List.drop_suffix _ _) (le_of_eq hlength)
  exact hle.eq_of_length hlength

/-- A log that is not longer than the bound is kept; of another one its prompts and its last
messages are kept, without the answers that these begin with. -/
theorem trimMessages_cases {log kept : List Message} {n : ℕ} (h : trimMessages log n = some kept) :
    (log.dropWhile Message.isSystem).length ≤ n ∧ kept = log ∨
      n < (log.dropWhile Message.isSystem).length ∧
        kept = log.takeWhile Message.isSystem ++
          (log.drop (log.length - n)).dropWhile Message.isTool := by
  unfold trimMessages at h
  split at h
  · cases h
  · dsimp only at h
    split at h
    · next hle => exact .inl ⟨hle, (Option.some.inj h).symm⟩
    · next hlt =>
      rw [drop_dropWhile_isSystem (not_le.mp hlt)] at h
      exact .inr ⟨not_le.mp hlt, (Option.some.inj h).symm⟩

/-! ### What a completion is shown -/

/-- A loop shows the end of its log, with no other messages than prompts taken from it or put to it.
-/
structure Loop.Keeps {A : Type} (l : Loop A) : Prop where
  suffix : ∀ a kept batch, (∀ m ∈ batch, m.isSystem = false) → batch <:+ kept →
    batch <:+ l.present a kept
  mem : ∀ a kept m, m.isSystem = false → (m ∈ l.present a kept ↔ m ∈ kept)

theorem runAgent_keeps (tools : List MeshTool) (maxSteps : ℕ) (maxMessages : Option ℕ)
    (approvals : Bool) : (runAgent tools maxSteps maxMessages approvals).Keeps where
  suffix _ _ _ _ h := h
  mem _ _ _ _ := Iff.rfl

theorem runMultiAgent_keeps {A : Type} [Fintype A] (agents : A → Agent A) (maxSteps : ℕ)
    (maxMessages : Option ℕ) (approvals : Bool) :
    (runMultiAgent agents maxSteps maxMessages approvals).Keeps where
  suffix a kept batch hbatch h := by
    obtain ⟨before, rfl⟩ := h
    have hfilter : batch.filter (fun m => !m.isSystem) = batch :=
      List.filter_eq_self.mpr fun m hm => by rw [hbatch m hm, Bool.not_false]
    show batch <:+ withSystem (before ++ batch) (agents a).system
    rw [withSystem, List.filter_append, hfilter, ← List.append_assoc]
    exact List.suffix_append ..
  mem a kept m hm := by
    show m ∈ withSystem kept (agents a).system ↔ m ∈ kept
    rw [withSystem, List.mem_append, List.mem_filter, hm, Bool.not_false, and_iff_left rfl]
    refine or_iff_right fun hprompt => ?_
    rw [isSystem_systemMessages m hprompt] at hm
    cases hm

section

variable {A : Type} {l : Loop A} {log kept : List Message} {n : ℕ}

/-- **One completion**: what a cut log shows is intact just when the bound leaves enough of it. -/
theorem intact_iff (hl : l.Keeps) (h : trimMessages log n = some kept) (a : A) :
    Intact log (l.present a kept) ↔ Fits n log := by
  have hwindow : n < (log.dropWhile Message.isSystem).length →
      (log.drop (log.length - n)).length = n := by
    intro hlt
    have hle : (log.dropWhile Message.isSystem).length ≤ log.length :=
      (List.dropWhile_suffix _).length_le
    rw [List.length_drop]
    omega
  have hprompts : ∀ m ∈ log.takeWhile Message.isSystem, m.isSystem = true :=
    fun m hm => List.mem_takeWhile_imp hm
  constructor
  · intro hintact
    constructor
    · intro calls batch hbatch hlog
      by_contra hlong
      have hlen := hbatch.length
      have hbody := (hbatch.suffix_dropWhile hlog (p := Message.isSystem) fun _ _ => rfl).length_le
      obtain ⟨hle, -⟩ | ⟨hlt, rfl⟩ := trimMessages_cases h
      · omega
      · -- the last messages are answers of this batch
        have hw := hwindow hlt
        have hsuffix := List.suffix_of_suffix_length_le (List.drop_suffix (log.length - n) log) hlog
          (by omega)
        have htool := hbatch.isTool_of_suffix hsuffix (by omega)
        have hnone : (log.drop (log.length - n)).dropWhile Message.isTool = [] :=
          List.dropWhile_eq_nil_iff.mpr htool
        rw [hnone, List.append_nil] at hintact
        have hshown := hintact.batch calls batch hbatch hlog
        have hsystem := hbatch.isSystem
        obtain ⟨-, content, results, rfl, -⟩ := hbatch
        have hmem := (hl.mem a _ _ rfl).mp (hshown.subset List.mem_cons_self)
        cases hprompts _ hmem
    · rintro hlt ⟨answers, prompts, hsplit, hanswers, hsystem⟩
      obtain ⟨hle, -⟩ | ⟨-, rfl⟩ := trimMessages_cases h
      · omega
      · rw [hsplit, List.dropWhile_append_of_pos hanswers] at hintact
        -- the answers at the front are dropped, and so nothing is left that anyone said
        have hspoken : ∃ m ∈ log, m.isSystem = false := by
          have hne : log.dropWhile Message.isSystem ≠ [] :=
            List.ne_nil_of_length_pos (lt_of_le_of_lt n.zero_le hlt)
          exact ⟨_, (List.dropWhile_suffix _).subset (List.head_mem hne),
            List.head_dropWhile_not Message.isSystem hne⟩
        obtain ⟨m, hm, hspoken⟩ := hintact.spoken hspoken
        rcases List.mem_append.mp ((hl.mem a _ m hspoken).mp hm) with hm | hm
        · rw [hprompts m hm] at hspoken
          cases hspoken
        · rw [hsystem m ((List.dropWhile_suffix _).subset hm)] at hspoken
          cases hspoken
  · intro hfits
    obtain ⟨-, rfl⟩ | ⟨hlt, rfl⟩ := trimMessages_cases h
    · refine ⟨fun calls batch hbatch hlog => hl.suffix a _ _ hbatch.isSystem hlog, ?_⟩
      rintro ⟨m, hm, hspoken⟩
      exact ⟨m, (hl.mem a _ m hspoken).mpr hm, hspoken⟩
    · have hw := hwindow hlt
      constructor
      · intro calls batch hbatch hlog
        have hlen := hbatch.length
        have hcalls := hfits.calls calls batch hbatch hlog
        have hsuffix := List.suffix_of_suffix_length_le hlog (List.drop_suffix (log.length - n) log)
          (by omega)
        have hkept := hbatch.suffix_dropWhile hsuffix (p := Message.isTool) fun _ _ => rfl
        exact hl.suffix a _ _ hbatch.isSystem (hkept.trans (List.suffix_append ..))
      · intro _
        by_contra hno
        push Not at hno
        refine hfits.spoken hlt ⟨_, _, (List.takeWhile_append_dropWhile (p := Message.isTool)).symm,
          fun m hm => List.mem_takeWhile_imp hm, fun m hm => ?_⟩
        by_contra hsystem
        rw [Bool.not_eq_true] at hsystem
        exact hno m ((hl.mem a _ m hsystem).mpr (List.mem_append_right _ hm)) hsystem

/-- A log that ends with a batch fits just when the batch has fewer calls than the bound. -/
theorem fits_iff {calls : List FunctionCall} {batch : List Message} (hbatch : IsBatch calls batch)
    (hlog : batch <:+ log) : Fits n log ↔ calls.length < n := by
  refine ⟨fun hfits => hfits.calls calls batch hbatch hlog, fun hcalls => ⟨?_, ?_⟩⟩
  · intro calls' batch' hbatch' hlog'
    rwa [hbatch'.unique hbatch hlog' hlog]
  · rintro hlt ⟨answers, prompts, hsplit, hanswers, hprompts⟩
    have hlen := hbatch.length
    have hle : (log.dropWhile Message.isSystem).length ≤ log.length :=
      (List.dropWhile_suffix _).length_le
    have hsuffix := List.suffix_of_suffix_length_le hlog (List.drop_suffix (log.length - n) log)
      (by rw [List.length_drop]; omega)
    obtain ⟨-, content, results, rfl, -⟩ := hbatch
    -- the message that asks for the calls is neither an answer nor a prompt
    have hmem := hsuffix.subset List.mem_cons_self
    rw [hsplit] at hmem
    rcases List.mem_append.mp hmem with hm | hm
    · cases hanswers _ hm
    · cases hprompts _ hm

/-- Nothing is cut of a log within the bound. -/
theorem fits_of_length_le (h : log.length ≤ n) : Fits n log where
  calls calls batch hbatch hlog := by
    have hlen := hbatch.length
    have hle := hlog.length_le
    omega
  spoken hlt := by
    have hle : (log.dropWhile Message.isSystem).length ≤ log.length :=
      (List.dropWhile_suffix _).length_le
    omega

end

/-! ### The batches of a turn -/

/-- The model answers. -/
def TurnAction.reply? {T : Type} : TurnAction T → Option ModelReply
  | reply r => some r
  | _ => none

namespace Turn

variable {A T : Type}

/-- The log ends with a reply and the answers to its first calls; `rest` are its other calls. -/
def Served (r : ModelReply) (log : List Message) (rest : List ToolCall) : Prop :=
  ∃ before served results, log = before ++ assistantMessage r :: results ∧
    List.Forall₂ Answers (served.map ToolCall.function) results ∧ r.toolCalls = served ++ rest

/-- The calls of the last reply that are not answered. -/
def rest (m : Turn A) : List ToolCall := m.current.toList ++ m.todo

/-- What a turn has come to since its last reply. -/
structure Serving (m : Turn A) (r : ModelReply) : Prop where
  served : Served r m.messages m.rest
  asked : m.phase = .ended ∨ r.toolCalls ≠ []
  through : m.phase = .completing → m.todo = []

/-- What a turn has come to since its last reply, or since it began with a log. -/
def Since (log : List Message) (m : Turn A) : Option ModelReply → Prop
  | none => m.messages = log ∧ m.phase = .completing
  | some r => m.Serving r

variable {l : Loop A} {m m' : Turn A} {r : ModelReply}

/-- An answer to the next call. -/
theorem Served.answer {log : List Message} {tc : ToolCall} {rest : List ToolCall}
    (h : Served r log (tc :: rest)) (content : String) :
    Served r (log ++ [.tool tc.id content]) rest := by
  obtain ⟨before, served, results, rfl, hresults, hcalls⟩ := h
  refine ⟨before, served ++ [tc], results ++ [.tool tc.id content], ?_, ?_, ?_⟩
  · rw [List.append_assoc, List.cons_append]
  · rw [List.map_append]
    exact List.rel_append hresults (.cons ⟨content, rfl⟩ .nil)
  · rw [hcalls, List.append_assoc, List.singleton_append]

/-- Before a completion the log ends with the whole batch. -/
theorem Serving.exists_batch (h : m.Serving r) (hphase : m.phase = .completing) :
    ∃ calls batch, IsBatch calls batch ∧ batch <:+ m.messages ∧
      calls.length = r.toolCalls.length := by
  obtain ⟨before, served, results, hlog, hresults, hcalls⟩ := h.served
  have hrest : m.rest = [] := by
    rw [rest, current, hphase, h.through hphase]
    rfl
  rw [hrest, List.append_nil] at hcalls
  have hne : r.toolCalls ≠ [] := h.asked.resolve_left (by rw [hphase]; exact TurnPhase.noConfusion)
  refine ⟨r.toolCalls.map ToolCall.function, assistantMessage r :: results, ⟨?_, ?_⟩, ?_, ?_⟩
  · rwa [ne_eq, List.map_eq_nil_iff]
  · exact ⟨r.content, results, rfl, hcalls ▸ hresults⟩
  · exact ⟨before, hlog.symm⟩
  · exact List.length_map ..

/-- The call that is served is answered. -/
theorem serving_answer {tc : ToolCall} (h : Served r m.messages (tc :: m.todo))
    (hasked : r.toolCalls ≠ []) (content : String) : (m.answer tc content).Serving r where
  served := h.answer content
  asked := .inr hasked
  through hphase := TurnPhase.noConfusion hphase

/-- A completion begins a batch. -/
theorem serving_complete (hn : ∃ kept, l.trimmed m.messages = some kept) (r : ModelReply) :
    (m.complete l r).Serving r := by
  obtain ⟨kept, hkept⟩ := hn
  have hserved : Served r (kept ++ [assistantMessage r]) r.toolCalls :=
    ⟨kept, [], [], rfl, .nil, rfl⟩
  unfold complete
  rw [hkept]
  cases hcalls : r.toolCalls with
  | nil =>
    rw [hcalls] at hserved
    exact ⟨hserved, .inl rfl, TurnPhase.noConfusion⟩
  | cons tc todo =>
    have hne : r.toolCalls ≠ [] := hcalls ▸ List.cons_ne_nil tc todo
    rw [hcalls] at hserved
    exact ⟨hserved, .inr hne, TurnPhase.noConfusion⟩

/-- The batch goes on, or ends. -/
theorem Serving.advance (h : m.Serving r) (hphase : m.phase = .dispatching) :
    (m.advance l).Serving r := by
  have hcurrent : m.current = none := current_eq_none (.inl hphase)
  have hasked : r.toolCalls ≠ [] :=
    h.asked.resolve_left (by rw [hphase]; exact TurnPhase.noConfusion)
  have hserved := h.served
  rw [rest, hcurrent, Option.toList_none, List.nil_append] at hserved
  unfold Turn.advance
  split
  · next htodo =>
    rw [htodo] at hserved
    unfold endBatch
    split
    · exact ⟨by rw [rest, htodo]; exact hserved, .inr hasked, fun _ => htodo⟩
    · exact ⟨by rw [rest, htodo]; exact hserved, .inr hasked, TurnPhase.noConfusion⟩
  · next tc todo htodo =>
    rw [htodo] at hserved
    split
    · next target _ =>
      have hanswer := serving_answer (m := { m with todo := todo, served := m.served + 1 }) hserved
        hasked ("Transferred to " ++ l.agentName target ++ ".")
      exact ⟨hanswer.served, hanswer.asked, hanswer.through⟩
    · rcases dispatch_cases l { m with todo := todo, served := m.served + 1 } tc with
        ⟨tool, -, -, -, heq⟩ | ⟨-, heq⟩
      · rw [heq]
        exact ⟨hserved, .inr hasked, TurnPhase.noConfusion⟩
      · rw [heq]
        exact ⟨hserved, .inr hasked, TurnPhase.noConfusion⟩

variable [PyText]

/-- **One step of a turn** between two replies. -/
theorem Serving.step (h : m.Serving r) {a : TurnAction T} (hmove : Moves l m a m')
    (ha : a.reply? = none) : m'.Serving r := by
  have hcurrent : ∀ tc : ToolCall, m.current = some tc → Served r m.messages (tc :: m.todo) := by
    intro tc htc
    have hserved := h.served
    rwa [rest, htc, Option.toList_some, List.singleton_append] at hserved
  have hasked : m.phase ≠ .ended → r.toolCalls ≠ [] := fun hne => h.asked.resolve_left hne
  cases hmove with
  | deliver hout => exact ⟨h.served, h.asked, h.through⟩
  | reply hout hphase => cases ha
  | next hout hphase => exact h.advance hphase
  | @file tc tool id hout hphase =>
    exact ⟨hcurrent tc (by rw [current, hphase]),
      .inr (hasked (by rw [hphase]; exact TurnPhase.noConfusion)), TurnPhase.noConfusion⟩
  | @verdict tc id v hout hphase =>
    have hserved := hcurrent tc (by rw [current, hphase])
    have hne := hasked (by rw [hphase]; exact TurnPhase.noConfusion)
    rcases m.decided_cases tc id v with ⟨req, -, heq⟩ | ⟨refusal, -, heq⟩
    · rw [heq]
      exact ⟨hserved, .inr hne, TurnPhase.noConfusion⟩
    · rw [heq]
      have hanswer := serving_answer hserved hne refusal
      exact ⟨hanswer.served, hanswer.asked, hanswer.through⟩
  | @invoke tc arguments request hout hphase =>
    have hserved := hcurrent tc (by rw [current, hphase])
    have hne := hasked (by rw [hphase]; exact TurnPhase.noConfusion)
    unfold Turn.invoke
    split
    · have hanswer := serving_answer hserved hne ("unknown tool: " ++ PyText.repr tc.name)
      exact ⟨hanswer.served, hanswer.asked, hanswer.through⟩
    · exact ⟨hserved, .inr hne, TurnPhase.noConfusion⟩
  | @result tc o hout hphase =>
    have hserved := hcurrent tc (by rw [current, hphase])
    have hanswer := serving_answer hserved
      (hasked (by rw [hphase]; exact TurnPhase.noConfusion)) o.result.1
    exact ⟨hanswer.served, hanswer.asked, hanswer.through⟩

/-- One step of a turn between two completions. -/
theorem Since.step {log : List Message} {last : Option ModelReply} (h : m.Since log last)
    {a : TurnAction T} (hmove : Moves l m a m') (ha : a.reply? = none) : m'.Since log last := by
  cases last with
  | some r => exact Serving.step h hmove ha
  | none =>
    obtain ⟨hlog, hphase⟩ := h
    cases hmove with
    | deliver hout => exact ⟨hlog, hphase⟩
    | reply hout hp => cases ha
    | next hout hp => cases hphase.symm.trans hp
    | file hout hp => cases hphase.symm.trans hp
    | verdict hout hp => cases hphase.symm.trans hp
    | invoke hout hp => cases hphase.symm.trans hp
    | result hout hp => cases hphase.symm.trans hp

variable (l) in
/-- Where the model answers, it was shown an intact log. -/
def ShownIntact (m : Turn A) (a : TurnAction T) : Prop :=
  ∀ m' shown, m.step l a = some m' → a.reply?.isSome = true →
    m'.trace = m.trace ++ [.completed m.active shown] → Intact m.messages shown

variable {n : ℕ}

omit [PyText] in
theorem trimmed_eq_some (hmax : l.maxMessages = some n) (hn : 1 ≤ n) (log : List Message) :
    ∃ kept, l.trimmed log = some kept ∧ trimMessages log n = some kept := by
  rw [Loop.trimmed, hmax]
  cases htrim : trimMessages log n with
  | some kept => exact ⟨kept, htrim, rfl⟩
  | none =>
    unfold trimMessages at htrim
    rw [if_neg (not_lt.mpr hn)] at htrim
    dsimp only at htrim
    split at htrim
    · cases htrim
    · cases htrim

/-- What a model is shown is intact just when the bound leaves enough of the log. -/
theorem shownIntact_iff (hl : l.Keeps) (hmax : l.maxMessages = some n) (hn : 1 ≤ n)
    (hstep : m.step l (.reply r : TurnAction T) = some m') :
    m.ShownIntact l (.reply r : TurnAction T) ↔ Fits n m.messages := by
  obtain ⟨kept, hkept, htrim⟩ := trimmed_eq_some hmax hn m.messages
  have hmove := Turn.moves hstep
  cases hmove with
  | reply hout hphase =>
    have htrace : (m.complete l r).trace =
        m.trace ++ [.completed m.active (l.present m.active kept)] := by
      unfold complete
      rw [hkept]
    rw [← intact_iff hl htrim m.active]
    constructor
    · intro hshown
      exact hshown _ _ hstep rfl htrace
    · intro hintact m'' shown hstep'' _ htrace''
      obtain rfl := Option.some.inj (hstep.symm.trans hstep'')
      have hentry := List.append_cancel_left (htrace.symm.trans htrace'')
      injection hentry with hentry
      injection hentry with _ hshown
      exact hshown ▸ hintact

/-- The bound leaves enough of the log of the caller, or of the batch of the last reply. -/
def FitsSince (n : ℕ) (log : List Message) : Option ModelReply → Prop
  | none => Fits n log
  | some r => r.toolCalls.length < n

/-- **A run of a turn**: the completions are shown intact logs just when the bound leaves enough of
the first one and of each batch with a completion after it. -/
theorem along_shownIntact_iff (hl : l.Keeps) (hmax : l.maxMessages = some n) (hn : 1 ≤ n)
    {log : List Message} {last : Option ModelReply} (h : m.Since log last)
    {as : List (TurnAction T)} (hrun : Steps.run (step l) m as = some m') :
    Steps.Along (step l) (ShownIntact l) m as ↔
      (as.filterMap TurnAction.reply? ≠ [] → FitsSince n log last) ∧
        ∀ r ∈ (as.filterMap TurnAction.reply?).dropLast, r.toolCalls.length < n := by
  induction as generalizing m last with
  | nil => exact iff_of_true trivial ⟨fun hne => absurd rfl hne, List.forall_mem_nil _⟩
  | cons a as ih =>
    obtain ⟨m₁, hstep, hrest⟩ := Steps.run_cons_eq_some.mp hrun
    have halong : Steps.Along (step l) (ShownIntact l) m (a :: as) ↔
        m.ShownIntact l a ∧ Steps.Along (step l) (ShownIntact l) m₁ as := by
      show _ ∧ (m.step l a).elim True _ ↔ _
      rw [hstep]
      rfl
    rw [halong]
    cases ha : a.reply? with
    | none =>
      rw [List.filterMap_cons_none ha, ih (h.step (Turn.moves hstep) ha) hrest]
      refine and_iff_right fun m'' shown _ hreply => ?_
      rw [ha] at hreply
      cases hreply
    | some r =>
      obtain rfl : a = .reply r := by
        cases a with
        | reply r' => rw [Option.some.inj ha]
        | _ => cases ha
      have hnow : m.ShownIntact l (.reply r : TurnAction T) ↔ FitsSince n log last := by
        rw [shownIntact_iff hl hmax hn hstep]
        have hmove := Turn.moves hstep
        cases hmove with
        | reply hout hphase =>
          cases last with
          | none => rw [h.1, FitsSince]
          | some r₀ =>
            obtain ⟨calls, batch, hbatch, hsuffix, hlen⟩ := Serving.exists_batch h hphase
            rw [fits_iff hbatch hsuffix, hlen, FitsSince]
      have hlater : m₁.Since log (some r) := by
        have hmove := Turn.moves hstep
        cases hmove with
        | reply hout hphase =>
          obtain ⟨kept, hkept, -⟩ := trimmed_eq_some hmax hn m.messages
          exact serving_complete ⟨kept, hkept⟩ r
      rw [List.filterMap_cons_some ha, hnow, ih hlater hrest]
      cases hreplies : as.filterMap TurnAction.reply? with
      | nil => simp
      | cons r' rs => simp [FitsSince]

end Turn

/-- **What a bound hides**: in every run of either loop with a bound, each completion is shown the
batch that it follows and a message that is no prompt, just when the bound leaves enough of the log
of the caller and is greater than each batch that a completion follows. -/
theorem trimming_iff [PyText] (T : Type) :
    (∀ (tools : List MeshTool) (maxSteps n : ℕ) (approvals : Bool) (log : List Message)
      (m₀ m : Turn Unit) (as : List (TurnAction T)), 1 ≤ n →
      (runAgent tools maxSteps (some n) approvals).start () log = some m₀ →
      Steps.run (Turn.step (runAgent tools maxSteps (some n) approvals)) m₀ as = some m →
      (Steps.Along (Turn.step (runAgent tools maxSteps (some n) approvals))
          (Turn.ShownIntact (runAgent tools maxSteps (some n) approvals)) m₀ as ↔
        (as.filterMap TurnAction.reply? ≠ [] → Fits n log) ∧
          ∀ r ∈ (as.filterMap TurnAction.reply?).dropLast, r.toolCalls.length < n)) ∧
    ∀ (A : Type) [Fintype A] (agents : A → Agent A) (active : A) (maxSteps n : ℕ)
      (approvals : Bool) (log : List Message) (m₀ m : Turn A) (as : List (TurnAction T)), 1 ≤ n →
      (runMultiAgent agents maxSteps (some n) approvals).start active log = some m₀ →
      Steps.run (Turn.step (runMultiAgent agents maxSteps (some n) approvals)) m₀ as = some m →
      (Steps.Along (Turn.step (runMultiAgent agents maxSteps (some n) approvals))
          (Turn.ShownIntact (runMultiAgent agents maxSteps (some n) approvals)) m₀ as ↔
        (as.filterMap TurnAction.reply? ≠ [] → Fits n log) ∧
          ∀ r ∈ (as.filterMap TurnAction.reply?).dropLast, r.toolCalls.length < n) := by
  constructor
  · intro tools maxSteps n approvals log m₀ m as hn hstart hrun
    obtain ⟨-, -, rfl⟩ := Loop.start_eq_some hstart
    exact Turn.along_shownIntact_iff (runAgent_keeps _ _ _ _) rfl hn
      (show Turn.Since log _ none from ⟨rfl, rfl⟩) hrun
  · intro A _ agents active maxSteps n approvals log m₀ m as hn hstart hrun
    obtain ⟨-, -, rfl⟩ := Loop.start_eq_some hstart
    exact Turn.along_shownIntact_iff (runMultiAgent_keeps _ _ _ _) rfl hn
      (show Turn.Since log _ none from ⟨rfl, rfl⟩) hrun

/-- A batch of these calls, served, and the answer of the model to it. -/
def sums (calls : List ToolCall) : List (TurnAction ℕ) :=
  .reply ⟨none, calls⟩ ::
    (calls.flatMap (fun _ => [.next, .deliver, .invoke, .result (.value (.num 3)), .deliver]) ++
      [.next, .reply ⟨some "3", []⟩])

/-- A transfer, and the answer of the model to it. -/
def transfer : List (TurnAction ℕ) :=
  [.reply ⟨none, [⟨"1", "transfer_to_math", []⟩]⟩, .next, .deliver, .next, .reply ⟨some "3", []⟩]

/-- A batch of one call fits into a bound of two messages. -/
theorem trimming_iff_one_call :
    let _ := PyText.plain
    (∃ m₀ m, (runAgent [⟨"add", .flag false⟩] 8 (some 2) false).start () [.user "1 + 2"] = some m₀ ∧
      Steps.run (Turn.step (runAgent [⟨"add", .flag false⟩] 8 (some 2) false)) m₀
        (sums [⟨"1", "add", []⟩]) = some m ∧
      Steps.Along (Turn.step (runAgent [⟨"add", .flag false⟩] 8 (some 2) false))
        (Turn.ShownIntact (runAgent [⟨"add", .flag false⟩] 8 (some 2) false)) m₀
        (sums [⟨"1", "add", []⟩])) ∧
    ∃ m₀ m, (runMultiAgent routed 8 (some 2) true).start false [.user "1 + 2"] = some m₀ ∧
      Steps.run (Turn.step (runMultiAgent routed 8 (some 2) true)) m₀ transfer = some m ∧
      Steps.Along (Turn.step (runMultiAgent routed 8 (some 2) true))
        (Turn.ShownIntact (runMultiAgent routed 8 (some 2) true)) m₀ transfer := by
  intro _
  have hfits : Fits 2 [.user "1 + 2"] := fits_of_length_le (by decide)
  constructor
  · refine ⟨_, _, rfl, rfl, ?_⟩
    refine ((trimming_iff ℕ).1 [⟨"add", .flag false⟩] 8 2 false [.user "1 + 2"] _ _ _
      (by decide) rfl
      rfl).mpr ⟨fun _ => hfits, ?_⟩
    exact List.forall_mem_singleton.mpr (by decide)
  · refine ⟨_, _, rfl, rfl, ?_⟩
    refine ((trimming_iff ℕ).2 Bool routed false 8 2 true [.user "1 + 2"] _ _ _ (by decide) rfl
      rfl).mpr ⟨fun _ => hfits, ?_⟩
    exact List.forall_mem_singleton.mpr (by decide)

/-- The answers to two calls are hidden by a bound of two messages. -/
theorem trimming_hides_two_calls :
    let _ := PyText.plain
    ¬ ∀ (tools : List MeshTool) (maxSteps n : ℕ) (approvals : Bool) (log : List Message)
      (m₀ m : Turn Unit) (as : List (TurnAction ℕ)), 1 ≤ n →
      (runAgent tools maxSteps (some n) approvals).start () log = some m₀ →
      Steps.run (Turn.step (runAgent tools maxSteps (some n) approvals)) m₀ as = some m →
      Steps.Along (Turn.step (runAgent tools maxSteps (some n) approvals))
        (Turn.ShownIntact (runAgent tools maxSteps (some n) approvals)) m₀ as := by
  intro _ h
  have halong := h [⟨"add", .flag false⟩] 8 2 false [.system "be brief", .user "1 + 2, 2 + 1"] _ _
    (sums [⟨"1", "add", []⟩, ⟨"2", "add", []⟩]) (by decide) rfl rfl
  have hcalls := ((Turn.along_shownIntact_iff (runAgent_keeps _ _ _ _) rfl (by decide)
    (show Turn.Since _ _ none from ⟨rfl, rfl⟩) rfl).mp halong).2 _ List.mem_cons_self
  exact absurd hcalls (by decide)

end Istos
