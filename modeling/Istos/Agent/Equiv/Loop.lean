import Istos.Agent.Drive

/-!
# What a step of the agent loop can do

The steps of a turn, of a session and of a conversation as relations, one constructor for each thing
that can happen.  Every invariant below is a case analysis on them.
-/

namespace Istos

/-- The last message of a turn is a message. -/
@[simp]
theorem AgentEvent.kind_final (content : Option String) : (final content).kind = .message := by
  unfold final
  split
  · split <;> rfl
  · rfl

/-- The call that a turn serves. -/
def Turn.current {A : Type} (t : Turn A) : Option ToolCall :=
  match t.phase with
  | .filing tc _ | .waiting tc _ | .ready tc _ _ | .calling tc => some tc
  | _ => none

/-- Between the calls no call is served. -/
theorem Turn.current_eq_none {A : Type} {t : Turn A}
    (h : t.phase = .dispatching ∨ t.phase = .ended) :
    t.current = none := by
  obtain h | h := h <;> rw [Turn.current, h]

/-- A call that is no transfer waits for the gate, or for its tool if no gate stands before it. -/
theorem Turn.dispatch_cases {A : Type} (l : Loop A) (m : Turn A) (tc : ToolCall) :
    (∃ tool, byName (l.tools m.active) tc.name = some tool ∧ tool.requiresApproval = true ∧
        l.approvals = true ∧
        m.dispatch l tc = { m with outbox := [.called tc], phase := .filing tc tool }) ∨
      ((∀ tool, byName (l.tools m.active) tc.name = some tool →
          tool.requiresApproval = true → l.approvals = false) ∧
        m.dispatch l tc =
          { m with outbox := [.called tc], phase := .ready tc (.obj tc.arguments) none }) := by
  unfold Turn.dispatch
  cases htool : byName (l.tools m.active) tc.name with
  | none => exact .inr ⟨by simp, rfl⟩
  | some tool =>
    cases hgated : tool.requiresApproval with
    | false => exact .inr ⟨by simp [hgated], by simp [hgated]⟩
    | true =>
      cases happrovals : l.approvals with
      | false => exact .inr ⟨by simp, by simp⟩
      | true => exact .inl ⟨tool, rfl, hgated, rfl, by simp [hgated]⟩

/-- What a turn starts with. -/
theorem Loop.start_eq_some {A : Type} {l : Loop A} {active : A} {messages : List Message}
    {t : Turn A} (h : l.start active messages = some t) :
    1 ≤ l.maxSteps ∧ (l.approvals = true ∨ l.needsGate active = false) ∧
      t = ⟨active, 0, .completing, [], active, messages, 0, [], []⟩ := by
  unfold start at h
  split at h
  · cases h
  · next hpos =>
    split at h
    · cases h
    · next hchecked =>
      refine ⟨not_lt.mp hpos, ?_, (Option.some.inj h).symm⟩
      cases happrovals : l.approvals with
      | true => exact .inl rfl
      | false =>
        rw [happrovals] at hchecked
        exact .inr (Bool.eq_false_iff.mpr hchecked)

variable [PyText] {A T : Type}

/-- The steps of a turn. -/
inductive Turn.Moves (l : Loop A) (m : Turn A) : TurnAction T → Turn A → Prop
  | deliver {e : AgentEvent} {outbox : List AgentEvent} (hout : m.outbox = e :: outbox) :
    Moves l m .deliver { m with outbox := outbox }
  | reply {r : ModelReply} (hout : m.outbox = []) (hphase : m.phase = .completing) :
    Moves l m (.reply r) (m.complete l r)
  | next (hout : m.outbox = []) (hphase : m.phase = .dispatching) : Moves l m .next (m.advance l)
  | file {tc : ToolCall} {tool : MeshTool} {id : String} (hout : m.outbox = [])
    (hphase : m.phase = .filing tc tool) : Moves l m (.file id) (m.file tc tool id)
  | verdict {tc : ToolCall} {id : String} {v : Verdict T} (hout : m.outbox = [])
    (hphase : m.phase = .waiting tc id) : Moves l m (.verdict v) (m.decided tc id v)
  | invoke {tc : ToolCall} {arguments : Json} {request : Option String} (hout : m.outbox = [])
    (hphase : m.phase = .ready tc arguments request) :
    Moves l m .invoke (m.invoke l tc arguments request)
  | result {tc : ToolCall} {o : ToolEnd} (hout : m.outbox = []) (hphase : m.phase = .calling tc) :
    Moves l m (.result o) (m.finished tc o)

/-- A step of a turn is one of these. -/
theorem Turn.moves {l : Loop A} {m m' : Turn A} {a : TurnAction T} (h : m.step l a = some m') :
    Turn.Moves l m a m' := by
  cases a with
  | deliver =>
    simp only [Turn.step] at h
    split at h
    · cases h
    · next hout =>
      obtain rfl := Option.some.inj h
      exact .deliver hout
  | reply r =>
    simp only [Turn.step] at h
    split at h
    · next hout hphase =>
      obtain rfl := Option.some.inj h
      exact .reply hout hphase
    · cases h
  | next =>
    simp only [Turn.step] at h
    split at h
    · next hout hphase =>
      obtain rfl := Option.some.inj h
      exact .next hout hphase
    · cases h
  | file id =>
    simp only [Turn.step] at h
    split at h
    · next hout hphase =>
      obtain rfl := Option.some.inj h
      exact .file hout hphase
    · cases h
  | verdict v =>
    simp only [Turn.step] at h
    split at h
    · next hout hphase =>
      obtain rfl := Option.some.inj h
      exact .verdict hout hphase
    · cases h
  | invoke =>
    simp only [Turn.step] at h
    split at h
    · next hout hphase =>
      obtain rfl := Option.some.inj h
      exact .invoke hout hphase
    · cases h
  | result o =>
    simp only [Turn.step] at h
    split at h
    · next hout hphase =>
      obtain rfl := Option.some.inj h
      exact .result hout hphase
    · cases h

/-- What `wait` leaves of a turn: the call is cleared, or it is answered with the refusal. -/
theorem Turn.decided_cases (m : Turn A) (tc : ToolCall) (id : String) (v : Verdict T) :
    (∃ req, v = .returned req ∧ m.decided tc id v =
      { m with phase := .ready tc req.arguments (some id), outbox := [.cleared tc id req] }) ∨
    ∃ refusal, v.refusal = some refusal ∧ m.decided tc id v =
      { m.answer tc refusal with outbox := [.refused tc id refusal,
          .returned tc refusal true] } := by
  cases v with
  | returned req => exact .inl ⟨req, rfl, rfl⟩
  | denied message => exact .inr ⟨_, rfl, rfl⟩
  | timedOut message => exact .inr ⟨_, rfl, rfl⟩
  | notFound id' => exact .inr ⟨_, rfl, rfl⟩

/-- The steps of a session. -/
inductive Session.Moves (d : Driver A) (s : Session A) : SessionAction T → Session A → Prop
  | receive {data : Json} (hphase : s.phase = .listening) :
      Moves d s (.receive data) (s.receive d data)
  | deliver {t : Turn A} {e : AgentEvent} {outbox : List AgentEvent} (hphase : s.phase = .turning t)
    (hout : t.outbox = e :: outbox) :
    Moves d s (.turn .deliver) { s.take d e with phase := .turning { t with outbox := outbox } }
  | turn {t t' : Turn A} {a : TurnAction T} (hphase : s.phase = .turning t) (ha : a ≠ .deliver)
    (hmove : Turn.Moves d.loop t a t') : Moves d s (.turn a) { s with phase := .turning t' }
  | finish {t : Turn A} (hphase : s.phase = .turning t) (hout : t.outbox = [])
    (hended : t.phase = .ended) :
    Moves d s .finish { s with messages := t.messages, phase := .listening }

/-- A step of a session is one of these. -/
theorem Session.moves {d : Driver A} {s s' : Session A} {a : SessionAction T}
    (h : s.step d a = some s') : Session.Moves d s a s' := by
  cases a with
  | receive data =>
    simp only [Session.step] at h
    split at h
    · next hphase =>
      obtain rfl := Option.some.inj h
      exact .receive hphase
    · cases h
  | turn b =>
    simp only [Session.step] at h
    split at h
    · next t hphase =>
      obtain ⟨t', hstep, rfl⟩ := Option.map_eq_some_iff.mp h
      have hmove := Turn.moves hstep
      cases hmove with
      | @deliver e outbox hout =>
        have hfollows : s.follows d t (.deliver : TurnAction T) = s.take d e := by
          simp only [Session.follows, hout]
        rw [hfollows]
        exact .deliver hphase hout
      | reply hout hp => exact .turn hphase (by rintro ⟨⟩) (.reply hout hp)
      | next hout hp => exact .turn hphase (by rintro ⟨⟩) (.next hout hp)
      | file hout hp => exact .turn hphase (by rintro ⟨⟩) (.file hout hp)
      | verdict hout hp => exact .turn hphase (by rintro ⟨⟩) (.verdict hout hp)
      | invoke hout hp => exact .turn hphase (by rintro ⟨⟩) (.invoke hout hp)
      | result hout hp => exact .turn hphase (by rintro ⟨⟩) (.result hout hp)
    · cases h
  | finish =>
    simp only [Session.step] at h
    split at h
    · next t hphase =>
      split at h
      · next hout hended =>
        obtain rfl := Option.some.inj h
        exact .finish hphase hout hended
      · cases h
    · cases h

end Istos
