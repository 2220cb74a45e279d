import Istos.Wire.Selector

/-!
# Opening a channel

A client opens a channel over the fabric, with the parameters in a selector, or over a WebSocket,
with the parameters in the query of the URL.  Either way a conversation id goes with them, and the
server hands both to `wrapper.run`.
-/

namespace Istos

/-- The parameters and the conversation id of a session. -/
structure Opening where
  params : Params
  conversationId : Option String

end Istos
