import Istos.Data.Steps
import Istos.Data.Table

/-!
# The server of a channel

`FabricChannelServer` opens a session for every handshake that its authorizer admits, runs the
handler of each in a task, and tears a session down when its handler ends, when the liveliness token
of its client drops, or when the server is unbound.  Each of the three looks the session up by the
id that the client chose.

A session is named by its number, in the order in which they were opened; the server itself knows
none. What a step of the event loop does between two awaits is one event.
-/

namespace Istos

/-- `_ServerSession`, with its task. -/
structure ServerSession where
  sid : String
  /-- `session.closed` -/
  closed : Bool
  /-- the up-subscriber is declared -/
  subscribed : Bool
  /-- `_run` has begun -/
  started : Bool
  /-- `task.cancel()` was called -/
  cancelled : Bool
  /-- a call of `task.cancel` is scheduled -/
  timer : Bool
  /-- `task.done()` -/
  done : Bool
  deriving DecidableEq

/-- A session that `_open` has opened. -/
def ServerSession.opened (sid : String) : ServerSession :=
  ⟨sid, false, true, false, false, false, false⟩

/-- What `_teardown` does to the session it finds; `current` when it is called from the task of that
session, `graceful` when the grace is positive. -/
def ServerSession.release (graceful current : Bool) (x : ServerSession) : ServerSession :=
  let x := { x with closed := true, subscribed := false }
  if x.done || current then x
  else if graceful then { x with timer := true } else { x with cancelled := true }

/-- `FabricChannelServer`. -/
structure FabricChannelServer where
  /-- `_sessions`, with the number of each session -/
  sessions : Table (Prod.fst : String × ℕ → String)
  /-- all sessions that were opened -/
  all : List ServerSession
  /-- the session ids of the calls of `_open` that await the authorizer -/
  opening : List String
  /-- `unbind` was called -/
  unbound : Bool

/-- What can happen at a server. -/
inductive ChannelEvent
  /-- a query for an open handshake arrives -/
  | request (sid : String)
  /-- `_open` goes on: the authorizer has let it through -/
  | accept (i : ℕ)
  /-- `_open` is over: the authorizer has refused, or something has raised -/
  | deny (i : ℕ)
  /-- `_run` begins -/
  | starts (n : ℕ)
  /-- the handler returns, raises or is cancelled, and `_run` is over -/
  | ends (n : ℕ)
  /-- the token of the session's client drops, and the teardown it asks for runs -/
  | drop (n : ℕ)
  /-- the grace of a session is over -/
  | timer (n : ℕ)
  | unbind
  deriving DecidableEq

/-- The session that an event belongs to, where one is to be torn down or cancelled. -/
def ChannelEvent.session? : ChannelEvent → Option ℕ
  | ends n => some n
  | drop n => some n
  | timer n => some n
  | _ => none

namespace FabricChannelServer

def init : FabricChannelServer := ⟨∅, [], [], false⟩

/-- Changes one session. -/
def modify (s : FabricChannelServer) (n : ℕ) (f : ServerSession → ServerSession) :
    FabricChannelServer :=
  { s with all := s.all.modify n f }

/-- `_teardown`; `current` is the session whose task calls it, if one does. -/
def teardown (graceful : Bool) (current : Option ℕ) (s : FabricChannelServer) (sid : String) :
    FabricChannelServer :=
  match s.sessions.get? sid with
  | none => s
  | some (_, n) =>
    { s with sessions := s.sessions.erase sid }.modify n (.release graceful (current = some n))

/-- One event; `none` where it cannot happen.  `graceful` is `cancel_grace_s > 0`. -/
def step (graceful : Bool) (s : FabricChannelServer) : ChannelEvent → Option FabricChannelServer
  | .request sid =>
    if s.unbound then none else some { s with opening := s.opening ++ [sid] }
  | .accept i =>
    -- an id that is in use is overwritten
    s.opening[i]?.map fun sid =>
      { s with
        opening := s.opening.eraseIdx i
        sessions := s.sessions.put (sid, s.all.length)
        all := s.all ++ [.opened sid] }
  | .deny i => s.opening[i]?.map fun _ => { s with opening := s.opening.eraseIdx i }
  | .starts n =>
    match s.all[n]? with
    | none => none
    | some x =>
      -- a task that is cancelled before its first step never takes it
      if x.started || x.cancelled || x.done then none
      else some (s.modify n fun x => { x with started := true })
  | .ends n =>
    match s.all[n]? with
    | none => none
    | some x =>
      if x.done then none
      else if x.started then
        some ((s.teardown graceful (some n) x.sid).modify n fun x => { x with done := true })
      -- no first step, no `finally`
      else if x.cancelled then some (s.modify n fun x => { x with done := true })
      else none
  | .drop n => s.all[n]?.map fun x => s.teardown graceful none x.sid
  | .timer n =>
    match s.all[n]? with
    | none => none
    | some x =>
      if x.timer then
        some (s.modify n fun x => { x with timer := false, cancelled := x.cancelled || !x.done })
      else none
  | .unbind =>
    -- `grace_s=0.0`; an `_open` under way goes on
    some { s.sessions.keys.foldl (fun s sid => s.teardown false none sid) s with unbound := true }

end FabricChannelServer

end Istos
