import Istos.Data.AsyncQueue
import Istos.Data.Steps

/-!
# The two ends of a channel

`ChannelSession` and `ChannelClient` keep the messages that arrive in a queue; the mark of the end
is put into the same queue, and back into it by every `receive` that takes it.  A message arrives in
a thread of the transport, which schedules a callback; only that of a session looks whether it is
closed.

What a step of the event loop does between two awaits is one event.
-/

namespace Istos

/-- Which end. -/
inductive ChannelSide
  /-- `ChannelSession` -/
  | session
  /-- `ChannelClient` -/
  | client
  deriving DecidableEq

/-- How a `receive` ends, before the message is deserialized. -/
inductive Received (M : Type)
  | message (m : M)
  /-- `ChannelClosed` -/
  | closed
  deriving DecidableEq

/-- The message. -/
def Received.message? {M : Type} : Received M → Option M
  | message m => some m
  | closed => none

/-- An end of a channel; the mark `_CLOSE` is `none`.  Nobody stores `queued` and `log`: the
messages that were put into the queue before the close, and how the calls of `receive` ended. -/
structure ChannelEnd (M C : Type) where
  /-- `_inbound` -/
  inbound : AsyncQueue (Option M) C
  /-- `_closed` -/
  closed : Bool
  /-- the callbacks that `call_soon_threadsafe` has scheduled -/
  scheduled : List M
  queued : List M
  log : List (C × Received M)

/-- What can happen at an end; `c` names a call of `receive`. -/
inductive InboxEvent (M C : Type)
  /-- a message arrives in the thread of the transport -/
  | arrives (m : M)
  /-- the oldest callback runs -/
  | callback
  | receive (c : C)
  /-- a call that was woken goes on -/
  | resumes (c : C)
  /-- a call that waits is cancelled -/
  | cancelled (c : C)
  | close
  deriving DecidableEq

namespace ChannelEnd

variable {M C : Type}

def init (M C : Type) : ChannelEnd M C := ⟨.empty, false, [], [], []⟩

/-- `_inbound.put_nowait`. -/
def putNowait (s : ChannelEnd M C) (m : M) : ChannelEnd M C :=
  { s with
    inbound := s.inbound.put (some m)
    queued := if s.closed then s.queued else s.queued ++ [m] }

/-- `ChannelSession.feed`. -/
def feed (s : ChannelEnd M C) (m : M) : ChannelEnd M C := if s.closed then s else s.putNowait m

/-- What the transport schedules for a message. -/
def onMessage : ChannelSide → ChannelEnd M C → M → ChannelEnd M C
  | .session => feed
  | .client => putNowait

/-- `close`. -/
def close (s : ChannelEnd M C) : ChannelEnd M C :=
  if s.closed then s else { s with closed := true, inbound := s.inbound.put none }

/-- `receive` of `c`, with what it gets from the queue, if it does not wait. -/
def take (s : ChannelEnd M C) (c : C) :
    Option (Option M) × AsyncQueue (Option M) C → ChannelEnd M C
  | (none, inbound) => { s with inbound }
  | (some none, inbound) => { s with inbound := inbound.put none, log := s.log ++ [(c, .closed)] }
  | (some (some m), inbound) => { s with inbound, log := s.log ++ [(c, .message m)] }

variable [DecidableEq C]

/-- One event; `none` where it cannot happen. -/
def step (side : ChannelSide) (s : ChannelEnd M C) : InboxEvent M C → Option (ChannelEnd M C)
  | .arrives m => some { s with scheduled := s.scheduled ++ [m] }
  | .callback =>
    match s.scheduled with
    | [] => none
    | m :: rest => some (onMessage side { s with scheduled := rest } m)
  | .receive c => if s.inbound.Pending c then none else some (s.take c (s.inbound.get c))
  | .resumes c => if c ∈ s.inbound.woken then some (s.take c (s.inbound.resume c)) else none
  | .cancelled c =>
    if s.inbound.Pending c then some { s with inbound := s.inbound.cancel c } else none
  | .close => some s.close

end ChannelEnd

end Istos
