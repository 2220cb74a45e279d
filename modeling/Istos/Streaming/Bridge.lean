import Mathlib.Data.List.Basic

/-!
# The bridge of `stream_query`

The replies to a streaming query come in a thread of their own, the pump, and go through a bounded
queue to the generator that the caller reads.  `Bridge.step` is one operation of one of the threads
on what they share: the queue and the flag `stop`.  A put into a full queue times out, and is tried
again until there is room or `stop` is set; a get waits until there is an item.

A caller that is cancelled in a get leaves the thread of that get behind.
-/

namespace Istos

variable {R E D F : Type}

/-- What goes through the bridge. -/
inductive BridgeItem (R E : Type)
  /-- the payload of a reply -/
  | chunk (r : R)
  /-- what `session.get` raised -/
  | failure (e : E)
  /-- `_END` -/
  | sentinel

/-- Where `_pump` stands. -/
inductive PumpPhase (R E : Type)
  /-- at the next reply -/
  | reading
  /-- in `_offer`, at `bridge.put` -/
  | offering (item : BridgeItem R E)
  /-- in `_offer`, after `Full` -/
  | refused (item : BridgeItem R E)
  /-- in `_offer` of `_END`, at `get_nowait` -/
  | evicting
  /-- in `_offer` of `_END`, at `put_nowait` -/
  | refilling
  | ended

/-- How the generator ends. -/
inductive StreamEnding (E F : Type)
  /-- after the last chunk -/
  | returned
  /-- raising what `session.get` raised -/
  | failed (e : E)
  /-- raising what a chunk was read as -/
  | refused (f : F)
  /-- closed or cancelled by the caller -/
  | closed

/-- Where the generator stands. -/
inductive ReaderPhase
  /-- in `bridge.get` -/
  | getting
  /-- at `yield` -/
  | yielding
  /-- emptying the queue -/
  | draining
  /-- before the last `put_nowait` -/
  | closing
  /-- in `thread.join` -/
  | joining
  | left

/-- The threads of a `stream_query` and what they share. -/
structure Bridge (R E D F : Type) where
  /-- the replies that are still to come -/
  replies : List R
  /-- what `session.get` raises after them -/
  failure : Option E
  pump : PumpPhase R E
  queue : List (BridgeItem R E)
  stop : Bool
  reader : ReaderPhase
  /-- what the caller has been given -/
  yielded : List D
  ending : Option (StreamEnding E F)
  /-- a thread was left behind in `bridge.get` -/
  orphan : Bool

/-- One operation of one thread. -/
inductive BridgeAction (E : Type)
  /-- the pump goes to the next reply, or to the end of the replies -/
  | read
  /-- `session.get` ends since its token was cancelled; it may raise -/
  | cut (failure : Option E)
  /-- `bridge.put` returns -/
  | offer
  /-- `bridge.put` times out -/
  | full
  /-- the pump looks at `stop` -/
  | check
  | evict
  | refill
  /-- `bridge.get` of the generator returns -/
  | take
  /-- the caller asks for the next chunk -/
  | next
  /-- the caller closes the generator, or is cancelled -/
  | close
  /-- one round of the loop that empties the queue -/
  | drain
  /-- the last `put_nowait` -/
  | finish
  /-- `thread.join` returns: the pump has ended, or five seconds are over -/
  | join
  /-- a `bridge.get` that was left behind returns -/
  | orphan

/-- Whether a put timed out. -/
def BridgeAction.isFull : BridgeAction E → Bool
  | full => true
  | _ => false

/-- `maxsize` of the queue. -/
def bridgeSize : ℕ := 32

namespace Bridge

/-- The start of the threads. -/
def init (replies : List R) (failure : Option E) : Bridge R E D F :=
  ⟨replies, failure, .reading, [], false, .getting, [], none, false⟩

variable (cap : ℕ) (read : R → Except F D)

/-- The generator goes to its `finally`, which sets `stop`. -/
def leave (s : Bridge R E D F) (ending : StreamEnding E F) : Bridge R E D F :=
  { s with stop := true, reader := .draining, ending := some ending }

/-- `_pump`, from one reply to the next; `_END` is offered in any case. -/
def readNext (s : Bridge R E D F) : Bridge R E D F :=
  match s.replies with
  | r :: replies => { s with replies := replies, pump := .offering (.chunk r) }
  | [] =>
    match s.failure with
    | some e => { s with failure := none, pump := .offering (.failure e) }
    | none => { s with pump := .offering .sentinel }

/-- Where `_pump` goes when `_offer` is over. -/
def offered : BridgeItem R E → PumpPhase R E
  | .sentinel => .ended
  | _ => .reading

/-- `_offer` after `Full`. -/
def checkStop (s : Bridge R E D F) (item : BridgeItem R E) : Bridge R E D F :=
  if s.stop = false then { s with pump := .offering item }
  else
    match item with
    | .sentinel => { s with pump := .evicting }
    | item => { s with pump := offered item }

/-- What the generator does with an item. -/
def receive (s : Bridge R E D F) : BridgeItem R E → Bridge R E D F
  | .sentinel => s.leave .returned
  | .failure e => s.leave (.failed e)
  | .chunk r =>
    match read r with
    | .ok d => { s with yielded := s.yielded ++ [d], reader := .yielding }
    | .error f => s.leave (.refused f)

/-- One operation; `none` where the thread waits or stands elsewhere. -/
def step (s : Bridge R E D F) : BridgeAction E → Option (Bridge R E D F)
  | .read =>
    match s.pump with
    | .reading => some s.readNext
    | _ => none
  | .cut failure =>
    match s.pump, s.replies with
    | .reading, _ :: _ =>
      -- the token is cancelled after `stop` is set
      if s.stop = true then some { s with replies := [], failure := failure } else none
    | _, _ => none
  | .offer =>
    match s.pump with
    | .offering item =>
      if s.queue.length < cap then some { s with queue := s.queue ++ [item], pump := offered item }
      else none
    | _ => none
  | .full =>
    match s.pump with
    | .offering item => if s.queue.length < cap then none else some { s with pump := .refused item }
    | _ => none
  | .check =>
    match s.pump with
    | .refused item => some (s.checkStop item)
    | _ => none
  | .evict =>
    match s.pump with
    | .evicting => some { s with queue := s.queue.tail, pump := .refilling }
    | _ => none
  | .refill =>
    match s.pump with
    | .refilling =>
      if s.queue.length < cap then some { s with queue := s.queue ++ [.sentinel], pump := .ended }
      --  _ => none|full again: the sentinel is given up
      else some { s with pump := .ended }
    | _ => none
  | .take =>
    match s.reader, s.queue with
    | .getting, item :: queue => some ({ s with queue := queue }.receive read item)
    | _, _ => none
  | .next =>
    match s.reader with
    | .yielding => some { s with reader := .getting }
    | _ => none
  | .close =>
    match s.reader with
    | .yielding => some (s.leave .closed)
    -- a thread cannot be cancelled: its `get` may still take an item
    | .getting => some { s.leave .closed with orphan := true }
    | _ => none
  | .drain =>
    match s.reader, s.queue with
    | .draining, _ :: queue => some { s with queue := queue }
    | .draining, [] => some { s with reader := .closing }
    | _, _ => none
  | .finish =>
    match s.reader with
    | .closing =>
      if s.queue.length < cap then
        some { s with queue := s.queue ++ [.sentinel], reader := .joining }
      -- `Full` is passed over
      else some { s with reader := .joining }
    | _ => none
  | .join =>
    match s.reader with
    | .joining => some { s with reader := .left }
    | _ => none
  | .orphan =>
    match s.orphan, s.queue with
    | true, _ :: queue => some { s with queue := queue, orphan := false }
    | _, _ => none

end Bridge

end Istos
