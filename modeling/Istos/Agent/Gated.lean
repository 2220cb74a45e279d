import Istos.Agent.Loop

/-!
# A turn and its gate

One turn of the agent loop together with the gate that it was passed.  The loop is one of the
coroutines of the gate, `none`.  Everybody else may use the gate at any time: other loops may file
their own requests and wait for any, and operators may decide.
-/

namespace Istos

/-- What can happen next. -/
inductive GatedAction (C T : Type)
  /-- the loop, its model, its tools, or whoever takes its events -/
  | turn (a : TurnAction T)
  /-- `approvals.request` of the loop stores its request -/
  | request (id : String)
  /-- and returns it -/
  | requested
  /-- the loop calls `approvals.wait` -/
  | wait
  /-- the event of the loop is set, and its `wait` goes on -/
  | wake
  /-- the timer of the loop fires, and its `wait` goes on -/
  | timeOut
  /-- the write in the `wait` of the loop ends -/
  | written
  /-- somebody else at the gate -/
  | gate (a : ApprovalAction C T)

/-- The action of another coroutine than the loop. -/
def ApprovalAction.others {C T : Type} : ApprovalAction C T → ApprovalAction (Option C) T
  | tick t => .tick t
  | request id tool arguments timeout => .request id tool arguments timeout
  | wait c id timeout => .wait (some c) id timeout
  | wake c => .wake (some c)
  | timeOut c => .timeOut (some c)
  | decide c id approved by' note arguments => .decide (some c) id approved by' note arguments
  | written c => .written (some c)
  | expire id => .expire id
  | recover req => .recover req

/-- A turn and its gate. -/
structure GatedTurn (A C T : Type) where
  turn : Turn A
  gate : ApprovalGate (Option C) T
  /-- the request that `approvals.request` has stored for the loop and not returned yet -/
  filing : Option String

namespace GatedTurn

variable {A C T : Type}

/-- A turn that begins at a gate that nobody has used yet. -/
def start (l : Loop A) (active : A) (messages : List Message) (clock : T) (timeout : Option T) :
    Option (GatedTurn A C T) :=
  (l.start active messages).map fun t => ⟨t, .init clock timeout, none⟩

variable [PyText] [DecidableEq C] [LinearOrder T] [Zero T] [One T] [Neg T] [Add T] [Sub T]

/-- The gate has gone on with the `wait` of the loop.  Where it has ended, so has the `await`. -/
def resume (l : Loop A) (m : GatedTurn A C T) (g : ApprovalGate (Option C) T) :
    Option (GatedTurn A C T) :=
  match g.phase none, g.log.getLast? with
  | .idle, some (.waited _ v) =>
    (m.turn.step l (.verdict v)).map fun t => { m with turn := t, gate := g }
  | .idle, _ => none
  | _, _ => some { m with gate := g }

/-- One action. -/
def step (l : Loop A) (m : GatedTurn A C T) : GatedAction C T → Option (GatedTurn A C T)
  -- what the gate answers comes from the gate
  | .turn (.file _) => none
  | .turn (.verdict _) => none
  | .turn a => (m.turn.step l a).map fun t => { m with turn := t }
  | .request id =>
    match m.filing, m.turn.outbox, m.turn.phase with
    | none, [], .filing tc _ =>
      (m.gate.step (.request id tc.name (.obj tc.arguments) (some (-1)))).map fun g =>
        { m with gate := g, filing := some id }
    | _, _, _ => none
  | .requested =>
    match m.filing with
    | some id =>
      (m.turn.step l (.file id : TurnAction T)).map fun t => { m with turn := t, filing := none }
    | none => none
  | .wait =>
    match m.turn.outbox, m.turn.phase with
    | [], .waiting _ id => (m.gate.step (.wait none id (some (-1)))).bind (m.resume l)
    | _, _ => none
  | .wake => (m.gate.step (.wake none)).bind (m.resume l)
  | .timeOut => (m.gate.step (.timeOut none)).bind (m.resume l)
  | .written => (m.gate.step (.written none)).bind (m.resume l)
  | .gate a => (m.gate.step a.others).map fun g => { m with gate := g }

end GatedTurn

end Istos
