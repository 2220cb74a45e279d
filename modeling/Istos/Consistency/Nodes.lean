import Istos.Consistency.Sql
import Istos.Data.Steps
import Istos.Data.Tenure

/-!
# Nodes that share a database

Any number of nodes, with any number of coroutines each, call one database.  A call is a sequence of
statements, the database carries out one statement at a time, and in between anybody else may have a
statement carried out.  `claim_processed` reads the clock before its insertion and uses this reading
up to its last statement.

`Nodes.step` is one action: time passes, a call begins, or a call goes on.  The log lists what the
statements did.
-/

namespace Istos

open Lease

/-- Where a coroutine stands. -/
inductive SqlPhase (T : Type)
  | idle
  /-- `claim_processed`, at the head of its loop with so many attempts left -/
  | attempt (key : String) (lease : T) (attempts : ℕ)
  /-- before the insertion -/
  | insert (key : String) (lease : T) (attempts : ℕ) (now : T)
  /-- before the lookup -/
  | select (key : String) (lease : T) (attempts : ℕ) (now : T)
  /-- before the update of a lapsed lease -/
  | takeOver (key : String) (lease : T) (now : T)
  /-- `mark_processed`, before its update -/
  | complete (key : String) (result : Value) (now : T)
  /-- before the insertion of a result without a claim -/
  | record (key : String) (result : Value) (now : T)
  /-- `release_claim`, before its deletion -/
  | delete (key : String)

/-- What a statement did under its key. -/
inductive SqlEvent (T : Type)
  /-- the call is answered `CLAIMED`, at `now` under a lease until `until'` -/
  | claimed (now until' : T)
  /-- the call is answered `IN_FLIGHT` -/
  | inFlight
  /-- the call is answered `DONE` -/
  | done (result : Value)
  /-- the deletion found a pending row -/
  | released
  /-- the update of `mark_processed`; `took` says whether it found a pending row -/
  | marked (result : Value) (took : Bool)
  /-- the insertion of a result; `took` says whether there was no row -/
  | recorded (result : Value) (took : Bool)

/-- What can happen next. -/
inductive NodesAction (C T : Type)
  /-- time passes -/
  | tick (t : T)
  /-- a coroutine calls `claim_processed` -/
  | claim (c : C) (key : String) (lease : T)
  /-- a coroutine calls `mark_processed` -/
  | mark (c : C) (key : String) (result : Value)
  /-- a coroutine calls `release_claim` -/
  | release (c : C) (key : String)
  /-- the call of a coroutine goes on: it reads the clock or has its next statement carried out -/
  | proceed (c : C)

/-- The nodes, their clock and the database. -/
structure Nodes (C T : Type) where
  clock : T
  db : SqlDb T
  phase : C → SqlPhase T
  log : List (String × SqlEvent T)
  /-- the grants under a key that their holders have neither released nor completed, last first -/
  standing : String → List (C × WithTop T)

namespace Nodes

variable {C T : Type} [DecidableEq C]

/-- Nodes that have not called an empty database. -/
def init (clock : T) : Nodes C T := ⟨clock, .init, fun _ => .idle, [], fun _ => []⟩

/-- The coroutine gets to this phase. -/
def goto (m : Nodes C T) (c : C) (p : SqlPhase T) : Nodes C T :=
  { m with phase := Function.update m.phase c p }

theorem phase_goto (m : Nodes C T) (c : C) (p : SqlPhase T) (c' : C) :
    (m.goto c p).phase c' = if c' = c then p else m.phase c' :=
  Function.update_apply m.phase c p c'

/-- The coroutine got its answer. -/
def answer (m : Nodes C T) (c : C) (key : String) (e : SqlEvent T) : Nodes C T :=
  { m.goto c .idle with log := m.log ++ [(key, e)] }

/-- A claim is granted. -/
def grant (m : Nodes C T) (db : SqlDb T) (c : C) (key : String) (u : T) : Nodes C T :=
  { m.answer c key (.claimed m.clock u) with
    db := db
    standing := Function.update m.standing key ((c, (u : WithTop T)) :: m.standing key) }

/-- A holder gives its grant back. -/
def giveBack (m : Nodes C T) (c : C) (key : String) : Nodes C T :=
  { m with standing := Function.update m.standing key (leave c (m.standing key)) }

variable [LinearOrder T] [Add T] [Rounding]

/-- The next thing that a call does. -/
def proceed (m : Nodes C T) (c : C) : Option (Nodes C T) :=
  match m.phase c with
  | .idle => none
  -- both attempts are over
  | .attempt key _ 0 => some (m.answer c key .inFlight)
  | .attempt key lease (n + 1) => some (m.goto c (.insert key lease n m.clock))
  | .insert key lease n now =>
    match m.db.insertClaim key lease now with
    | some db => some (m.grant db c key (now + lease))
    -- `IntegrityError`: find out in what state the key is
    | none => some (m.goto c (.select key lease n now))
  | .select key lease n now =>
    match m.db.selectIdempotency key with
    -- released in the meantime
    | none => some (m.goto c (.attempt key lease n))
    | some row =>
      if ¬ SqlDb.pending row then some (m.answer c key (.done (SqlStorage.deserialize row.result)))
      else if row.leaseExpiresAt.any (fun t => decide (now < t))
        then some (m.answer c key .inFlight)
      else some (m.goto c (.takeOver key lease now))
  | .takeOver key lease now =>
    match m.db.takeOver key lease now with
    | some db => some (m.grant db c key (now + lease))
    -- another node has taken it over
    | none => some (m.answer c key .inFlight)
  | .complete key result now =>
    match m.db.complete key (SqlStorage.serialize result) now with
    | some db => some (({ m.answer c key (.marked result true) with db := db }).giveBack c key)
    -- no pending row is left to complete
    | none =>
      some (({ m with log := m.log ++ [(key, SqlEvent.marked result false)] }.goto c
        (.record key result now)).giveBack c key)
  | .record key result now =>
    match m.db.insertDone key (SqlStorage.serialize result) now with
    | some db => some { m.answer c key (.recorded result true) with db := db }
    | none => some (m.answer c key (.recorded result false))
  | .delete key =>
    if (m.db.selectIdempotency key).any SqlDb.pending then
      some (({ m.answer c key .released with db := m.db.deletePending key }).giveBack c key)
    else some (({ m.goto c .idle with db := m.db.deletePending key }).giveBack c key)

/-- One action. -/
def step (m : Nodes C T) : NodesAction C T → Option (Nodes C T)
  | .tick t => if m.clock ≤ t then some { m with clock := t } else none
  | .claim c key lease =>
    match m.phase c with
    | .idle => some (m.goto c (.attempt key lease 2))
    | _ => none
  | .mark c key result =>
    match m.phase c with
    | .idle => some (m.goto c (.complete key result m.clock))
    | _ => none
  | .release c key =>
    match m.phase c with
    | .idle => some (m.goto c (.delete key))
    | _ => none
  | .proceed c => m.proceed c

end Nodes

end Istos
