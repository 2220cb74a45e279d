import Istos.Queue.Store

/-!
# Runs of the queue store

`Op` is a call of the store with its clock readings, `QueueStore.perform` carries it out, and
`QueueStore.run` and `QueueStore.history` carry out a sequence of calls, one after the other, and
record what each answered.
-/

namespace Istos

/-- A call of the store, with the clock readings it takes. -/
inductive Op (T : Type)
  | add (job : NewJob T) (id : String) (tNotBefore tEnqueued tOffer : T)
  | claim (now lease : T)
  | ack (id : String) (result : Option Bytes) (attempt : Option ℤ) (now : T)
  | nack (id : String) (error : Option String) (retryDelay : T) (attempt : Option ℤ)
      (tSet tOffer : T)
  | sweep (now : T)
  deriving DecidableEq

/-- What a call answers. -/
inductive Answer (T : Type)
  | added (id : String)
  | claimed (r : Option (JobRecord T))
  | acked (ok : Bool)
  | nacked (d : Option Disposition)
  | swept (n : ℕ)
  deriving DecidableEq

/-- A call with its answer. -/
abbrev Event (T : Type) := Op T × Answer T

/-- The id a call adds, if it adds one. -/
def Op.addedId? {T : Type} : Op T → Option String
  | .add _ id _ _ _ => some id
  | _ => none

/-- The ids a sequence of calls adds, in order. -/
def addedIds {T : Type} (ops : List (Op T)) : List String := ops.filterMap Op.addedId?

variable {T : Type} [LinearOrder T] [Zero T] [Add T]

namespace QueueStore

/-- Carries out one call. -/
def perform (c : QueueConfig T) (s : QueueStore T) : Op T → Outcome T (Answer T)
  | .add job id t₁ t₂ t₃ =>
    let o := s.add c job id t₁ t₂ t₃
    ⟨o.store, o.awaits, .added o.answer⟩
  | .claim now lease =>
    let o := s.claim now lease
    ⟨o.store, o.awaits, .claimed o.answer⟩
  | .ack id res attempt now =>
    let o := s.ack c id res attempt now
    ⟨o.store, o.awaits, .acked o.answer⟩
  | .nack id error delay attempt t₁ t₂ =>
    let o := s.nack id error delay attempt t₁ t₂
    ⟨o.store, o.awaits, .nacked o.answer⟩
  | .sweep now =>
    let o := s.sweep c now
    ⟨o.store, o.awaits, .swept o.answer⟩

/-- The store after a sequence of calls. -/
def run (c : QueueConfig T) (s : QueueStore T) : List (Op T) → QueueStore T
  | [] => s
  | op :: ops => run c (s.perform c op).store ops

/-- The calls with their answers. -/
def history (c : QueueConfig T) (s : QueueStore T) : List (Op T) → List (Event T)
  | [] => []
  | op :: ops => (op, (s.perform c op).answer) :: history c (s.perform c op).store ops

end QueueStore

end Istos
