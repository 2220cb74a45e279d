import Istos.Data.Steps
import Istos.Queue.Run

/-!
# Calls that wait for the lock

Several coroutines call one store at the same time.  Each call takes the lock, and `asyncio.Lock`
serves its waiters in the order they came.  While a call holds the lock it may be suspended at a
storage call, and the others come to the lock in the meantime.

`claim` and `sweep` read the clock when they are called, before they wait; `add`, `ack` and `nack`
read it when they have the lock.  `LockState.enter` puts the readings together accordingly.
-/

namespace Istos

/-- A call as the caller makes it. -/
inductive Call (T : Type)
  | add (job : NewJob T) (id : String)
  | claim (lease : T)
  | ack (id : String) (result : Option Bytes) (attempt : Option ℤ)
  | nack (id : String) (error : Option String) (retryDelay : T) (attempt : Option ℤ)
  | sweep
  deriving DecidableEq

/-- The call with its clock readings: `arrived` was read before the lock was waited for, the others
under the lock. -/
def Call.op {T : Type} (arrived t₁ t₂ t₃ : T) : Call T → Op T
  | .add job id => .add job id t₁ t₂ t₃
  | .claim lease => .claim arrived lease
  | .ack id res attempt => .ack id res attempt t₁
  | .nack id error delay attempt => .nack id error delay attempt t₁ t₂
  | .sweep => .sweep arrived

/-- The store, the lock and the clock. -/
structure LockState (T : Type) [LinearOrder T] where
  clock : T
  store : QueueStore T
  /-- What the store will be at the next suspensions of the call that holds the lock and at its
  end; `none` when the lock is free. -/
  holder : Option (List (QueueStore T))
  /-- The calls that wait, first come first, each with the clock at its arrival. -/
  waiting : List (T × Call T)

/-- What can happen next. -/
inductive LockAction (T : Type)
  /-- time passes -/
  | tick (t : T)
  /-- a coroutine calls the store and comes to the lock -/
  | arrive (call : Call T)
  /-- the first waiter takes the free lock and runs up to its first suspension -/
  | enter (t₁ t₂ t₃ : T)
  /-- the storage call of the holder returns, and the holder runs up to its next suspension -/
  | resume
  /-- the holder returns -/
  | leave
  deriving DecidableEq

namespace LockState

variable {T : Type} [LinearOrder T]

/-- A fresh store that nobody has called. -/
def init (clock : T) : LockState T := ⟨clock, .init, none, []⟩

/-- The store at each suspension of a call and at its end. -/
def stages {α : Type} (o : Outcome T α) : List (QueueStore T) :=
    o.awaits.map Await.store ++ [o.store]

/-- One step. -/
def step [Zero T] [Add T] (c : QueueConfig T) (m : LockState T) : LockAction T →
    Option (LockState T)
  | .tick t => if m.clock ≤ t then some { m with clock := t } else none
  | .arrive call => some { m with waiting := m.waiting ++ [(m.clock, call)] }
  | .enter t₁ t₂ t₃ =>
    match m.holder, m.waiting with
    | none, (arrived, call) :: waiting =>
      if m.clock ≤ t₁ ∧ t₁ ≤ t₂ ∧ t₂ ≤ t₃ then
        match stages (m.store.perform c (call.op arrived t₁ t₂ t₃)) with
        | [] => none
        | s :: rest => some { clock := t₃, store := s, holder := some rest, waiting := waiting }
      else none
    | _, _ => none
  | .resume =>
    match m.holder with
    | some (s :: rest) => some { m with store := s, holder := some rest }
    | _ => none
  | .leave =>
    match m.holder with
    | some [] => some { m with holder := none }
    | _ => none

end LockState

end Istos
