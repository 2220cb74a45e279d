import Istos.Agent.Equiv.Loop
import Istos.Data.Steps

/-!
# The agent that is active

The loop follows the agents themselves, the driver follows the names of the handoff events, and a
reconnect follows the names in the last entries of the log.

* `active_restored`: the three agree in every run in which a transfer goes to the agent that is
  registered under its name, a handoff that is still of account is in the window of the history, and
  no session ends in the send of a handoff.
-/

namespace Istos

variable {A T : Type}

/-- An entry of the log that names the active agent. -/
def Driver.Restores (d : Driver A) (turn : ChannelFrame) : Prop :=
  turn.dir = "out" ∧ turn.data.hasKind "handoff" = true ∧
    ∃ name a, turn.data.get? "name" = some (.str name) ∧ d.registry name = some a

/-- What the three must agree on: a reconnect selects the agent that was active at the end of the
last session, and the next turn is driven by the agent that the loop ended on. -/
def Conversation.Keeps (d : Driver A) : Conversation A → ConversationAction T → Prop
  | .apart log last, .connect => activeFromHistory d.registry d.entry (channelHistory log) = last
  | .held s, .session .finish =>
    ∀ t, s.phase = .turning t → t.outbox = [] → t.phase = .ended → s.active = t.active
  | _, _ => True

/-- A step that names do not mislead. -/
def Conversation.Tracked (d : Driver A) : Conversation A → ConversationAction T → Prop
  | .apart log last, .connect => last = d.entry ∨ ∃ turn ∈ channelHistory log, d.Restores turn
  | .held s, .session (.turn .next) => ∀ t tc todo target, s.phase = .turning t →
      t.todo = tc :: todo → d.loop.target t.active tc.name = some target →
      d.registry (d.loop.agentName target) = some target
  | .held s, .lose => ∀ t e outbox, s.phase = .turning t → t.outbox = e :: outbox →
    e.kind ≠ .handoff
  | _, _ => True

/-! ### Reading the log -/

/-- An entry that names the active agent does so whatever was active. -/
theorem Driver.Restores.restoreActive_eq {d : Driver A} {turn : ChannelFrame} (h : d.Restores turn)
    (a a' : A) : restoreActive d.registry a turn = restoreActive d.registry a' turn := by
  obtain ⟨hdir, hkind, name, b, hname, hb⟩ := h
  simp only [restoreActive, hdir, hkind, hname, hb, ne_eq, not_true_eq_false, if_false, if_true,
    Option.getD_some]

/-- Other entries leave the active agent as it is. -/
theorem Driver.restoreActive_of_not {d : Driver A} {turn : ChannelFrame} (h : ¬ d.Restores turn)
    (a : A) : restoreActive d.registry a turn = a := by
  unfold restoreActive
  split
  · rfl
  · next hdir =>
    split
    · next hkind =>
      split
      · next name hname =>
        cases hregistry : d.registry name with
        | none => rfl
        | some b => exact absurd ⟨not_not.mp hdir, hkind, name, b, hname, hregistry⟩ h
      · rfl
    · rfl

theorem Driver.activeFromHistory_of_not {d : Driver A} {history : List ChannelFrame}
    (h : ∀ turn ∈ history, ¬ d.Restores turn) (a : A) :
    activeFromHistory d.registry a history = a := by
  induction history generalizing a with
  | nil => rfl
  | cons turn history ih =>
    show activeFromHistory d.registry (restoreActive d.registry a turn) history = a
    rw [restoreActive_of_not (h turn List.mem_cons_self)]
    exact ih (fun turn' hmem => h turn' (List.mem_cons_of_mem turn hmem)) a

/-- A history with an entry that names the active agent says the same whatever was active before. -/
theorem Driver.activeFromHistory_congr {d : Driver A} {history : List ChannelFrame}
    (h : ∃ turn ∈ history, d.Restores turn) (a a' : A) :
    activeFromHistory d.registry a history = activeFromHistory d.registry a' history := by
  induction history generalizing a a' with
  | nil =>
    obtain ⟨turn, hmem, -⟩ := h
    cases hmem
  | cons turn history ih =>
    show activeFromHistory d.registry (restoreActive d.registry a turn) history =
      activeFromHistory d.registry (restoreActive d.registry a' turn) history
    obtain ⟨turn', hmem, hrestores⟩ := h
    rcases List.mem_cons.mp hmem with rfl | hmem
    · rw [hrestores.restoreActive_eq a a']
    · exact ih ⟨turn', hmem, hrestores⟩ _ _

/-- **The window of the history**: it is as good as the whole log where the last agent is the entry
or the window names an agent. -/
theorem Driver.activeFromHistory_window {d : Driver A} {log : List ChannelFrame} {last : A}
    (hlog : activeFromHistory d.registry d.entry log = last)
    (h : last = d.entry ∨ ∃ turn ∈ channelHistory log, d.Restores turn) :
    activeFromHistory d.registry d.entry (channelHistory log) = last := by
  have hsplit : (log.reverse.drop 1000).reverse ++ channelHistory log = log := by
    rw [channelHistory, ← List.reverse_append, List.take_append_drop, List.reverse_reverse]
  have hwhole : activeFromHistory d.registry
      (activeFromHistory d.registry d.entry (log.reverse.drop 1000).reverse) (channelHistory log) =
        last := by
    rw [← hlog]
    exact List.foldl_append.symm.trans (congrArg (List.foldl _ d.entry) hsplit)
  by_cases hwindow : ∃ turn ∈ channelHistory log, d.Restores turn
  · rw [← hwhole]
    exact activeFromHistory_congr hwindow _ _
  · have hnone : ∀ turn ∈ channelHistory log, ¬ d.Restores turn :=
      fun turn hmem hrestores => hwindow ⟨turn, hmem, hrestores⟩
    rw [activeFromHistory_of_not hnone]
    exact (h.resolve_right hwindow).symm

/-- The entry of an event says what the driver makes of it. -/
theorem restoreActive_frame (d : Driver A) (a : A) (e : AgentEvent) :
    restoreActive d.registry a ⟨"out", e.frame⟩ = Session.follow d a e := by
  have hkind : e.frame.hasKind "handoff" = decide (e.kind = .handoff) := by
    show (e.kind.text == EventKind.text .handoff) = _
    cases e.kind <;> rfl
  have hname : e.frame.get? "name" = some (Json.ofOption e.name) := rfl
  unfold restoreActive Session.follow
  simp only [ne_eq, not_true_eq_false, if_false, hkind, decide_eq_true_eq, hname]
  split
  · cases e.name <;> rfl
  · rfl

/-! ### The invariant -/

/-- The driver is where its events lead it. -/
structure Turn.Leads (d : Driver A) (active : A) (t : Turn A) : Prop where
  follows : t.outbox.foldl (Session.follow d) active = t.next
  settled : t.phase = .completing ∨ t.phase = .ended → t.active = t.next

/-- Every agent that is active is the one that the log names. -/
def Conversation.Active (d : Driver A) : Conversation A → Prop
  | .apart log last => activeFromHistory d.registry d.entry log = last
  | .held s => activeFromHistory d.registry d.entry s.log = s.active ∧
      match s.phase with
      | .turning t => t.Leads d s.active
      | _ => True

theorem foldl_follow {d : Driver A} {es : List AgentEvent} (h : ∀ e ∈ es, e.kind ≠ .handoff)
    (a : A) :
    es.foldl (Session.follow d) a = a := by
  induction es generalizing a with
  | nil => rfl
  | cons e es ih =>
    have hone : Session.follow d a e = a := if_neg (h e List.mem_cons_self)
    rw [List.foldl_cons, hone]
    exact ih (fun e' he' => h e' (List.mem_cons_of_mem e he')) a

section

variable [PyText] {d : Driver A} {active : A} {t t' : Turn A}

omit [PyText] in
/-- Events that are no handoffs, in a turn whose next agent stays. -/
theorem Turn.Leads.emit (h : t.Leads d active) (hout : t.outbox = [])
    (hquiet : ∀ e ∈ t'.outbox, e.kind ≠ .handoff) (hnext : t'.next = t.next)
    (hsettled : t'.phase = .completing ∨ t'.phase = .ended → t'.active = t'.next) :
    t'.Leads d active := by
  have hfollows := h.follows
  rw [hout] at hfollows
  refine ⟨?_, hsettled⟩
  rw [foldl_follow hquiet, hnext]
  exact hfollows

omit [PyText] in
/-- The batch goes on, or is at its end. -/
theorem Turn.Leads.advance (h : t.Leads d active) (hout : t.outbox = [])
    (htracked : ∀ tc todo target, t.todo = tc :: todo →
        d.loop.target t.active tc.name = some target →
      d.registry (d.loop.agentName target) = some target) : (t.advance d.loop).Leads d active := by
  unfold Turn.advance
  split
  · unfold Turn.endBatch
    split
    · exact h.emit hout (by simp [hout]) rfl fun _ => rfl
    · exact h.emit hout (by simp [AgentEvent.ceiling, AgentEvent.finished]) rfl fun _ => rfl
  · next tc todo htodo =>
    split
    · next target htarget =>
      refine ⟨?_, by rintro (hp | hp) <;> cases hp⟩
      show Session.follow d active (.handedOff tc _ (d.loop.agentName target)) = target
      have hregistry := htracked tc todo target htodo htarget
      simp only [Session.follow, AgentEvent.handedOff, if_true, Option.bind_some, hregistry,
        Option.getD_some]
    · refine h.emit hout (by simp [Turn.dispatch, AgentEvent.called]) rfl ?_
      unfold Turn.dispatch
      intro hphase
      exfalso
      revert hphase
      cases byName (d.loop.tools t.active) tc.name with
      | none => rintro (hp | hp) <;> cases hp
      | some tool =>
        show ((if _ then _ else _) = TurnPhase.completing) ∨
          ((if _ then _ else _) = TurnPhase.ended) → _
        split
        · rintro (hp | hp) <;> cases hp
        · rintro (hp | hp) <;> cases hp

/-- **One step of a turn.** -/
theorem Turn.Leads.step {a : TurnAction T} (h : t.Leads d active) (hmove : Turn.Moves d.loop t a t')
    (ha : a ≠ .deliver)
    (htracked : a = .next → ∀ tc todo target, t.todo = tc :: todo →
      d.loop.target t.active tc.name = some target →
      d.registry (d.loop.agentName target) = some target) : t'.Leads d active := by
  cases hmove with
  | deliver hout => exact absurd rfl ha
  | @reply r hout hphase =>
    have hsettled := h.settled (.inl hphase)
    unfold Turn.complete
    split
    · exact h.emit hout (by simp [hout]) rfl (by rintro (hp | hp) <;> cases hp)
    · refine h.emit hout ?_ hsettled fun _ => rfl
      show ∀ e ∈
        (if r.toolCalls.isEmpty = true then [AgentEvent.final r.content, .finished] else []), _
      split
      · simp [AgentEvent.finished]
      · simp
  | next hout hphase => exact h.advance hout (htracked rfl)
  | file hout hphase =>
    exact h.emit hout (by simp [Turn.file, AgentEvent.asked]) rfl (by rintro (hp | hp) <;> cases hp)
  | @verdict tc id v hout hphase =>
    rcases t.decided_cases tc id v with ⟨req, -, heq⟩ | ⟨refusal, -, heq⟩
    · rw [heq]
      exact h.emit hout (by simp [AgentEvent.cleared]) rfl (by rintro (hp | hp) <;> cases hp)
    · rw [heq]
      exact h.emit hout (by simp [AgentEvent.refused, AgentEvent.returned]) rfl
        (by rintro (hp | hp) <;> cases hp)
  | invoke hout hphase =>
    unfold Turn.invoke
    split
    · exact h.emit hout (by simp [AgentEvent.returned]) rfl (by rintro (hp | hp) <;> cases hp)
    · exact h.emit hout (by simp [hout]) rfl (by rintro (hp | hp) <;> cases hp)
  | result hout hphase =>
    exact h.emit hout (by simp [Turn.finished, AgentEvent.returned]) rfl
      (by rintro (hp | hp) <;> cases hp)

/-- The session that a driver opens. -/
theorem Session.connect_spec {log : List ChannelFrame} {s : Session A}
    (h : connect d log = some s) :
    s.log = log ∧ s.active = activeFromHistory d.registry d.entry (channelHistory log) ∧
      s.phase = .listening := by
  obtain ⟨messages, -, rfl⟩ := Option.map_eq_some_iff.mp h
  exact ⟨rfl, rfl, rfl⟩

omit [PyText] in
/-- The driver takes an event. -/
theorem Session.active_take (hevents : d.sendEvents = true) {s : Session A}
    (h : activeFromHistory d.registry d.entry s.log = s.active) (e : AgentEvent) :
    activeFromHistory d.registry d.entry (s.take d e).log = (s.take d e).active := by
  show activeFromHistory d.registry d.entry (s.log ++ _) = follow d s.active e
  by_cases hdone : e.kind = .done
  · have hfollow : follow d s.active e = s.active := if_neg (by rw [hdone]; decide)
    have hframe : frame? d e = none := if_pos hdone
    rw [hframe, hfollow, List.append_nil]
    exact h
  · have hframe : frame? d e = some e.frame := by
      rw [frame?, if_neg hdone, if_pos hevents]
    rw [hframe, activeFromHistory, List.foldl_append]
    show restoreActive d.registry (activeFromHistory d.registry d.entry s.log) ⟨"out", e.frame⟩ = _
    rw [h, restoreActive_frame]

/-- **One step of a session.** -/
theorem Session.active_step (hevents : d.sendEvents = true) {s s' : Session A} {a : SessionAction T}
    (hmove : Session.Moves d s a s') (htracked : (Conversation.held s).Tracked d (.session a))
    (h : (Conversation.held s).Active d) : (Conversation.held s').Active d := by
  obtain ⟨hlog, hturn⟩ := h
  cases hmove with
  | @receive data hphase =>
    refine ⟨?_, ?_⟩
    · show activeFromHistory d.registry d.entry (s.log ++ [⟨"in", data⟩]) = s.active
      rw [activeFromHistory, List.foldl_append]
      exact hlog
    · unfold Session.receive
      cases hstart : d.loop.start s.active (s.messages ++ [.user (userText data)]) with
      | none => simp only [hstart]
      | some t =>
        simp only [hstart]
        obtain ⟨-, -, rfl⟩ := Loop.start_eq_some hstart
        exact ⟨rfl, fun _ => rfl⟩
  | @deliver t e outbox hphase hout =>
    rw [hphase] at hturn
    have hfollows := hturn.follows
    rw [hout] at hfollows
    exact ⟨active_take hevents hlog e, hfollows, hturn.settled⟩
  | @turn t t' b hphase ha hmove =>
    rw [hphase] at hturn
    refine ⟨hlog, hturn.step hmove ha ?_⟩
    rintro rfl tc todo target htodo htarget
    exact htracked t tc todo target hphase htodo htarget
  | finish hphase hout hended => exact ⟨hlog, trivial⟩

/-- **One step of a conversation.** -/
theorem Conversation.active_step (hevents : d.sendEvents = true) {c c' : Conversation A}
    {a : ConversationAction T} (hstep : c.step d a = some c') (htracked : c.Tracked d a)
    (h : c.Active d) : c'.Active d := by
  cases c with
  | apart log last =>
    cases a with
    | connect =>
      have hwindow : activeFromHistory d.registry d.entry (channelHistory log) = last :=
        Driver.activeFromHistory_window h htracked
      have hconnected : (Session.connect d log).map Conversation.held = some c' := hstep
      obtain ⟨s, hconnect, rfl⟩ := Option.map_eq_some_iff.mp hconnected
      obtain ⟨hlog, hactive, hphase⟩ := Session.connect_spec hconnect
      refine ⟨?_, by rw [hphase]; trivial⟩
      rw [hlog, hactive, hwindow]
      exact h
    | session b => cases hstep
    | drop => cases hstep
    | lose => cases hstep
  | held s =>
    cases a with
    | connect => cases hstep
    | session b =>
      obtain ⟨s', hs, rfl⟩ := Option.map_eq_some_iff.mp hstep
      exact Session.active_step hevents (Session.moves hs) htracked h
    | drop =>
      obtain rfl := Option.some.inj hstep
      exact h.1
    | lose =>
      simp only [Conversation.step] at hstep
      split at hstep
      · next t hphase =>
        split at hstep
        · next e outbox hout =>
          obtain rfl := Option.some.inj hstep
          have hfollow : Session.follow d s.active e = s.active :=
            if_neg (htracked t e outbox hphase hout)
          exact h.1.trans hfollow.symm
        · cases hstep
      · cases hstep

omit [PyText] in
/-- What the invariant says of a step. -/
theorem Conversation.keeps_of_active {c : Conversation A} {a : ConversationAction T}
    (htracked : c.Tracked d a) (h : c.Active d) : c.Keeps d a := by
  cases c with
  | apart log last =>
    cases a with
    | connect => exact Driver.activeFromHistory_window h htracked
    | _ => trivial
  | held s =>
    cases a with
    | session b =>
      cases b with
      | finish =>
        intro t hphase hout hended
        obtain ⟨-, hturn⟩ := h
        rw [hphase] at hturn
        have hfollows := hturn.follows
        rw [hout] at hfollows
        exact hfollows.trans (hturn.settled (.inr hended)).symm
      | _ => trivial
    | _ => trivial

/-- A run of a conversation. -/
theorem Conversation.along_keeps (hevents : d.sendEvents = true) {c : Conversation A}
    {as : List (ConversationAction T)} (h : c.Active d)
    (htracked : Steps.Along (Conversation.step d) (Conversation.Tracked d) c as) :
    Steps.Along (Conversation.step d) (Conversation.Keeps d) c as := by
  induction as generalizing c with
  | nil => trivial
  | cons a as ih =>
    obtain ⟨hnow, hlater⟩ := htracked
    refine ⟨keeps_of_active hnow h, ?_⟩
    cases hstep : c.step d a with
    | none => trivial
    | some c' =>
      rw [hstep] at hlater
      exact ih (active_step hevents hstep hnow h) hlater

/-- **The active agent is restored**: in every conversation in which each transfer goes to the agent
that is registered under its name, each reconnect finds the last handoff in the window of the
history (or the entry agent was active), and no session ends in the send of a handoff, a reconnect
selects the agent that was active and the next turn is driven by the agent that the loop ended on.
-/
theorem active_restored [Fintype A] {agents : A → Agent A} {entry : A} {maxSteps : ℕ}
    {maxMessages : Option ℕ} {approvals : Bool} {as : List (ConversationAction T)}
    (htracked : Steps.Along
      (Conversation.step (driveAgents agents entry maxSteps maxMessages true approvals))
      (Conversation.Tracked (driveAgents agents entry maxSteps maxMessages true approvals))
      (.apart [] entry) as) :
    Steps.Along (Conversation.step (driveAgents agents entry maxSteps maxMessages true approvals))
      (Conversation.Keeps (driveAgents agents entry maxSteps maxMessages true approvals))
      (.apart [] entry) as :=
  Conversation.along_keeps rfl rfl htracked

end

/-- Two agents of two names. -/
def desks : Bool → Agent Bool
  | false => ⟨"router", [], none, [true]⟩
  | true => ⟨"refunds", [], none, []⟩

theorem registered_desks : registered desks (buildRegistry desks false) "refunds" = some true := by
  have htwo : buildRegistry desks false = [true, false] := by
    rw [buildRegistry, walk_of_new desks rfl,
      show (desks false).handoffs.reverse ++ [] = [true] from rfl,
      walk_of_new desks rfl, show (desks true).handoffs.reverse ++ [] = [] from rfl, walk_nil]
  rw [htwo]
  rfl

/-- One handoff, a hang-up in the middle of the turn, and a reconnect. -/
def deskHandoff : List (ConversationAction ℕ) :=
  [.connect, .session (.receive (.str "refund")),
    .session (.turn (.reply ⟨none, [⟨"1", "transfer_to_refunds", []⟩]⟩)), .session (.turn .next),
    .session (.turn .deliver), .drop, .connect]

theorem active_restored_desks :
    let _ := PyText.plain
    Steps.Along (Conversation.step (driveAgents desks false 8 none true true))
      (Conversation.Keeps (driveAgents desks false 8 none true true))
          (.apart [] false) deskHandoff := by
  intro _
  refine active_restored ⟨.inl rfl, trivial, trivial, ?_, trivial, trivial, ?_, trivial⟩
  · rintro t tc todo target hphase htodo htarget
    obtain rfl := SessionPhase.turning.inj hphase
    obtain ⟨rfl, rfl⟩ := List.cons.inj htodo
    obtain rfl := Option.some.inj htarget
    exact registered_desks
  · refine .inr ⟨_, List.Mem.tail _ (List.Mem.head _), rfl, rfl, "refunds", true, rfl, ?_⟩
    exact registered_desks

/-- Two agents of one name. -/
def twins : Bool → Agent Bool
  | false => ⟨"billing", [], none, [true]⟩
  | true => ⟨"billing", [], none, []⟩

/-- One turn in which the first twin hands off to the second. -/
def twinHandoff : List (ConversationAction ℕ) :=
  [.connect, .session (.receive (.str "refund")),
    .session (.turn (.reply ⟨none, [⟨"1", "transfer_to_billing", []⟩]⟩)), .session (.turn .next),
    .session (.turn .deliver), .session (.turn .next), .session (.turn (.reply ⟨some "done", []⟩)),
    .session (.turn .deliver), .session (.turn .deliver)]

theorem registered_twins : registered twins (buildRegistry twins false) "billing" = some false := by
  have hone : buildRegistry twins false = [false] := by
    rw [buildRegistry, walk_of_new twins rfl,
      show (twins false).handoffs.reverse ++ [] = [true] from rfl,
      walk_of_registered twins (b := false) rfl, walk_nil]
  rw [hone]
  rfl

/-- The loop ends on the second twin, and the driver takes the first one for it. -/
theorem active_not_restored :
    let _ := PyText.plain
    ∃ s t, Steps.run (Conversation.step (driveAgents twins false 8 none true true))
      (.apart [] false)
        twinHandoff = some (.held s) ∧
      s.phase = .turning t ∧ t.phase = .ended ∧ t.outbox = [] ∧ s.active ≠ t.active := by
  intro _
  refine ⟨_, _, rfl, rfl, rfl, rfl, ?_⟩
  show (registered twins (buildRegistry twins false) "billing").getD false ≠ true
  rw [registered_twins]
  decide

end Istos
