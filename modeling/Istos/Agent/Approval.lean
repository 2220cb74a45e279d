import Istos.Codec.Json
import Istos.Data.Steps
import Mathlib.Order.Lattice

/-!
# The approval gate

`ApprovalGate` is the gate of one node: its requests, the events that their waiters wait for, and
the coroutines that wait, decide or settle what is stale.  Every locked section runs to its end
without a suspension, so a coroutine is suspended only at `event.wait()` and at a storage write.  A
write may take any time, and it may fail: the failure is logged and nothing else.

The first call of `request`, `decide`, `get` or `pending` also loads what an earlier run has left in
the storage; `load` takes no lock, and stores one request after the other.

The timer of `wait` runs on the clock of the event loop, so it may fire at any time; when it fires
in the same turn in which the event is set, the waiter sees the timeout.
-/

namespace Istos

/-- `ApprovalState`. -/
inductive ApprovalState
  /-- filed, waiting on a human -/
  | pending
  /-- cleared to run -/
  | approved
  /-- a human said no -/
  | denied
  /-- nobody decided in time -/
  | expired
  deriving DecidableEq

/-- `ApprovalRequest`, without what only its readers use. -/
structure ApprovalRequest (T : Type) where
  id : String
  tool : String
  arguments : Json
  state : ApprovalState
  /-- `0`: no deadline -/
  expiresAt : T
  decidedBy : Option String
  decidedAt : T
  /-- the human's comment -/
  note : Option String

/-- How `wait` ends. -/
inductive Verdict (T : Type)
  | returned (req : ApprovalRequest T)
  /-- `ApprovalDenied` -/
  | denied (message : String)
  /-- `ApprovalTimeout` -/
  | timedOut (message : String)
  /-- `NotFoundError` -/
  | notFound (id : String)

/-- Where a coroutine stands. -/
inductive ApprovalPhase
  | idle
  /-- `wait`, at its event; `timed` says whether it has a timer -/
  | waiting (id : String) (timed : Bool)
  /-- `wait` after its timeout, at the write of `_expire` -/
  | expiring (id : String)
  /-- `decide`, at its write; `event` says whether it has found the event -/
  | deciding (id : String) (event : Bool)
  deriving DecidableEq

/-- What a coroutine was answered. -/
inductive ApprovalEvent (T : Type)
  | waited (id : String) (v : Verdict T)
  | decided (id : String) (answer : Option (ApprovalRequest T))

/-- What can happen next. -/
inductive ApprovalAction (C T : Type)
  /-- time passes -/
  | tick (t : T)
  /-- `request`, up to its return -/
  | request (id : String) (tool : String) (arguments : Json) (timeout : Option T)
  /-- a coroutine calls `wait` -/
  | wait (c : C) (id : String) (timeout : Option T)
  /-- the event of a waiter is set, and the waiter goes on -/
  | wake (c : C)
  /-- the timer of a waiter fires, and the waiter goes on -/
  | timeOut (c : C)
  /-- a coroutine calls `decide` -/
  | decide (c : C) (id : String) (approved : Bool) (by' note : Option String)
      (arguments : Option Json)
  /-- the write of a coroutine ends, and the coroutine goes on -/
  | written (c : C)
  /-- `_expire` of a stale request that `pending` has found -/
  | expire (id : String)
  /-- `load` stores a request of an earlier run, which has no event -/
  | recover (req : ApprovalRequest T)

/-- The gate, its coroutines and the clock. -/
structure ApprovalGate (C T : Type) where
  clock : T
  /-- the gate's own timeout; `none`: no deadline -/
  timeout : Option T
  requests : String → Option (ApprovalRequest T)
  /-- the ids in `_waiters` -/
  waiters : String → Bool
  /-- the ids whose event is set -/
  isSet : String → Bool
  phase : C → ApprovalPhase
  log : List (ApprovalEvent T)

/-- What `_settled` makes of a request. -/
def ApprovalRequest.settled {T : Type} (req : ApprovalRequest T) : Verdict T :=
  match req.state with
  | .approved => .returned req
  | .denied =>
    .denied (req.tool ++ " was denied" ++ match req.note with
      | some note => if note = "" then "" else ": " ++ note
      | none => "")
  | _ => .timedOut ("Approval " ++ req.id ++ " expired; " ++ req.tool ++ " did not run")

namespace ApprovalGate

variable {C T : Type}

/-- A gate that nobody has used. -/
def init (clock : T) (timeout : Option T) : ApprovalGate C T :=
  ⟨clock, timeout, fun _ => none, fun _ => false, fun _ => false, fun _ => .idle, []⟩

variable [DecidableEq C]

/-- A coroutine gets to a phase. -/
def goto (m : ApprovalGate C T) (c : C) (p : ApprovalPhase) : ApprovalGate C T :=
  { m with phase := Function.update m.phase c p }

/-- A coroutine is answered. -/
def answer (m : ApprovalGate C T) (c : C) (e : ApprovalEvent T) : ApprovalGate C T :=
  { m.goto c .idle with log := m.log ++ [e] }

/-- `wait` ends: it removes its event. -/
def ended (m : ApprovalGate C T) (c : C) (id : String) (v : Verdict T) : ApprovalGate C T :=
  { m.answer c (.waited id v) with waiters := Function.update m.waiters id false }

/-- Stores a request. -/
def store (m : ApprovalGate C T) (req : ApprovalRequest T) : ApprovalGate C T :=
  { m with requests := Function.update m.requests req.id (some req) }

/-- The `ApprovalTimeout` of a waiter whose time is over. -/
def undecided (req : ApprovalRequest T) : Verdict T :=
  .timedOut ("Nobody decided approval " ++ req.id ++ " in time; " ++ req.tool ++ " did not run")

/-- A request that nobody decided in time. -/
def expired (m : ApprovalGate C T) (req : ApprovalRequest T) : ApprovalRequest T :=
  { req with state := .expired, decidedAt := m.clock }

/-- The time of `wait` is over: `_expire`, and its write where it changes the request. -/
def lapse (m : ApprovalGate C T) (c : C) (req : ApprovalRequest T) : ApprovalGate C T :=
  if req.state = .pending then (m.store (m.expired req)).goto c (.expiring req.id)
  else m.ended c req.id (undecided req)

variable [LinearOrder T] [Zero T] [One T] [Neg T] [Add T] [Sub T]

/-- `is_expired`. -/
def isExpired (m : ApprovalGate C T) (req : ApprovalRequest T) : Bool :=
  0 < req.expiresAt ∧ req.expiresAt ≤ m.clock

/-- The timeout of a call; `-1` stands for the gate's own. -/
def ttl (m : ApprovalGate C T) (timeout : Option T) : Option T :=
  if timeout = some (-1) then m.timeout else timeout

/-- The deadline of a new request. -/
def deadline (m : ApprovalGate C T) (timeout : Option T) : T :=
  match m.ttl timeout with
  | some ttl => if ttl = 0 then 0 else m.clock + ttl
  | none => 0

/-- How long a call of `wait` may wait. -/
def budget (m : ApprovalGate C T) (req : ApprovalRequest T) (timeout : Option T) : Option T :=
  if req.expiresAt = 0 then m.ttl timeout
  else match m.ttl timeout with
    | some ttl => some (min ttl (req.expiresAt - m.clock))
    | none => some (req.expiresAt - m.clock)

/-- `wait`, up to its suspension. -/
def wait (m : ApprovalGate C T) (c : C) (id : String) (timeout : Option T) : ApprovalGate C T :=
  match m.requests id with
  | none => m.answer c (.waited id (.notFound id))
  | some req =>
    if req.state ≠ .pending then m.answer c (.waited id req.settled)
    else if m.waiters id = false then
      m.answer c (.waited id (.timedOut
        ("Approval " ++ id ++ " was filed by an earlier run of this node")))
    else
      match m.budget req timeout with
      | some left => if left ≤ 0 then m.lapse c req else m.goto c (.waiting id true)
      | none => m.goto c (.waiting id false)

/-- The request that a decision makes of a pending one. -/
def verdict (m : ApprovalGate C T) (req : ApprovalRequest T) (approved : Bool)
    (by' note : Option String) (arguments : Option Json) : ApprovalRequest T :=
  { req with
    state := if m.isExpired req then .expired else if approved then .approved else .denied
    arguments :=
      if m.isExpired req then req.arguments
      else if approved then arguments.getD req.arguments else req.arguments
    decidedBy := by'
    note := note
    decidedAt := m.clock }

/-- `decide`, up to its suspension. -/
def decide (m : ApprovalGate C T) (c : C) (id : String) (approved : Bool) (by' note : Option String)
    (arguments : Option Json) : ApprovalGate C T :=
  match m.requests id with
  | none => m.answer c (.decided id none)
  | some req =>
    if req.state ≠ .pending then m.answer c (.decided id (some req))
    else (m.store (m.verdict req approved by' note arguments)).goto c (.deciding id (m.waiters id))

/-- One action. -/
def step (m : ApprovalGate C T) : ApprovalAction C T → Option (ApprovalGate C T)
  | .tick t => if m.clock ≤ t then some { m with clock := t } else none
  | .request id tool arguments timeout =>
    match m.requests id with
    | some _ => none
    | none =>
      some { m.store ⟨id, tool, arguments, .pending, m.deadline timeout, none, 0, none⟩ with
        waiters := Function.update m.waiters id true }
  | .wait c id timeout =>
    match m.phase c with
    | .idle => some (m.wait c id timeout)
    | _ => none
  | .wake c =>
    match m.phase c with
    | .waiting id _ =>
      match m.requests id with
      | some req => if m.isSet id then some (m.ended c id req.settled) else none
      | none => none
    | _ => none
  | .timeOut c =>
    match m.phase c with
    | .waiting id true => (m.requests id).map (m.lapse c)
    | _ => none
  | .decide c id approved by' note arguments =>
    match m.phase c with
    | .idle => some (m.decide c id approved by' note arguments)
    | _ => none
  | .written c =>
    match m.phase c with
    | .expiring id => (m.requests id).map fun req => m.ended c id (undecided req)
    | .deciding id event =>
      some { m.answer c (.decided id (m.requests id)) with
        isSet := if event then Function.update m.isSet id true else m.isSet }
    | _ => none
  | .expire id =>
    match m.requests id with
    | some req =>
      if m.isExpired req then
        some (if req.state = .pending then m.store (m.expired req) else m)
      else none
    | none => none
  | .recover req =>
    match m.requests req.id with
    | some _ => none
    | none => some (m.store req)

end ApprovalGate

end Istos
