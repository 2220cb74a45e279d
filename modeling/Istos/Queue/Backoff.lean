import Istos.Queue.Role
import Mathlib.Algebra.Order.Ring.Defs

/-!
# Retry delays

`_on_nack` computes how long a failed job has to wait from the attempt number in the query, and
hands that delay to the store.  Times are exact.
-/

namespace Istos

variable {K : Type} [CommRing K] [LinearOrder K]

/-- The retry settings of a `QueueRole`. -/
structure QueueRetry (K : Type) where
  retryBackoff : K
  retryBackoffMax : K
  retryJitter : K

/-- `_backoff`.  `draw` is what `random.uniform(-jitter, jitter)` returned. -/
def QueueRetry.delay (p : QueueRetry K) (attempts : ℤ) (draw : K) : K :=
  if p.retryBackoff ≤ 0 then 0
  else
    let delay := min (p.retryBackoff * 2 ^ (max 0 (attempts - 1)).toNat) p.retryBackoffMax
    let delay := if p.retryJitter ≠ 0 then delay * (1 + draw) else delay
    max 0 delay

/-- The exponential delay before the cap and the draw. -/
def QueueRetry.exponential (p : QueueRetry K) (attempts : ℤ) : K :=
  p.retryBackoff * 2 ^ (max 0 (attempts - 1)).toNat

/-- The delay that `_on_nack` asks for. -/
def QueueRetry.asked (p : QueueRetry K) (params : Params) (draw : K) : K :=
  p.delay (asInt params "attempt" 1) draw

/-- `_on_nack`, as far as what it asks of the store. -/
def QueueRole.onNack (role : QueueRole K) (p : QueueRetry K) (f : FloatText K) (params : Params)
    (payload : Bytes) (draw : K) (x : Readings K) : Option (Op K) :=
  role.op f .nack params payload { x with retryDelay := p.asked params draw }

end Istos
