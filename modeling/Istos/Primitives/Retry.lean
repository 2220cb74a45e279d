import Mathlib.Algebra.Group.Defs
import Mathlib.Order.Lattice

/-!
# Retries

`RetryPolicy.after` is what `execute_with_retry` does when an attempt raises: it waits and tries
again, or it raises.  The back-off is computed in floats, and a power of floats that is too large
raises.
-/

namespace Istos

/-- An exception, as far as anybody looks at it. -/
structure PyError where
  text : String
  /-- whether it is an `Exception`, and not just a `BaseException` -/
  exception : Bool
  /-- of an `IstosError`, its `retryable` and its `status` -/
  istos : Option (Option Bool × ℤ)
  deriving DecidableEq

namespace PyError

/-- `asyncio.CancelledError`. -/
def cancelled : PyError := ⟨"CancelledError", false, none⟩

/-- `OverflowError`. -/
def overflow : PyError := ⟨"OverflowError", true, none⟩

/-- `is_retryable`. -/
def isRetryable (e : PyError) : Bool :=
  match e.istos with
  | none => true
  | some (some explicit, _) => explicit
  | some (none, status) =>
    if status = 409 ∨ status = 429 then true else ¬ (400 ≤ status ∧ status < 500)

end PyError

/-- `**` of a float and an attempt. -/
class FloatPow (F : Type) where
  /-- `none` where it raises `OverflowError`. -/
  pow : F → ℕ → Option F

/-- `RetryPolicy`. -/
structure RetryPolicy (F : Type) where
  maxRetries : ℕ
  delay : F
  backoffFactor : F
  maxDelay : F
  jitter : F
  /-- `on_failure`, with what it raises, if it raises -/
  onFailure : Option (PyError → Option PyError)

/-- What follows an attempt that raised. -/
inductive Retry (F : Type)
  | again (wait : F)
  | fail (e : PyError)

namespace RetryPolicy

variable {F : Type} [LinearOrder F] [Zero F] [One F] [Add F] [Mul F] [FloatPow F]

/-- The wait after attempt `n`, with what `random.uniform` drew. -/
def wait (p : RetryPolicy F) (n : ℕ) (draw : F) : Option F :=
  (FloatPow.pow p.backoffFactor n).map fun power =>
    let wait := p.delay * power
    let wait := if 0 < p.maxDelay then min wait p.maxDelay else wait
    let wait := if p.jitter ≠ 0 then wait * (1 + draw) else wait
    max 0 wait

omit [LinearOrder F] [Zero F] [One F] [Add F] [Mul F] [FloatPow F] in
/-- What is raised when no attempt is left. -/
def failed (p : RetryPolicy F) (e : PyError) : PyError :=
  match p.onFailure with
  | some hook => (hook e).getD e
  | none => e

/-- What `execute_with_retry` does when attempt `n` raises. -/
def after (p : RetryPolicy F) (n : ℕ) (e : PyError) (draw : F) : Retry F :=
  if e.exception = false then .fail e
  else if e.isRetryable = false then .fail (p.failed e)
  else if n < p.maxRetries then
    match p.wait n draw with
    | some wait => .again wait
    | none => .fail .overflow
  else .fail (p.failed e)

end RetryPolicy

end Istos
