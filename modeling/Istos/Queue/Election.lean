import Istos.Data.Steps
import Mathlib.Data.Finset.Max

/-!
# The election of a queue's owner

With `ha=True` the replicas of a queue elect a leader by their liveliness tokens: each has a view of
the tokens that are there, and the one with the least id serves.  A replica is changed under its
lock, which it also holds while it loads its store; what reaches it meanwhile waits.

Tokens appear and vanish for all subscribers in one order.  A role is bound once, as its id is drawn
for it.
-/

namespace Istos

/-- What a subscriber is told of a token. -/
inductive LiveEvent (I : Type)
  | put (i : I)
  | delete (i : I)
  deriving DecidableEq

/-- `_on_membership`, on the members. -/
def LiveEvent.apply {I : Type} [DecidableEq I] (members : Finset I) : LiveEvent I → Finset I
  | put i => insert i members
  | delete i => members.erase i

/-- What a role went through. -/
inductive RoleStatus
  | new
  /-- it has a session, a token and a subscriber -/
  | bound
  /-- `unbind` was called -/
  | unbound
  /-- its process ended -/
  | dead
  deriving DecidableEq

/-- `QueueRole`, as far as the election goes. -/
structure OwnerReplica (I : Type) where
  status : RoleStatus
  members : Finset I
  active : Bool
  /-- the queryables are declared -/
  serving : Bool
  /-- `_sweeper` runs -/
  sweeping : Bool
  /-- the lock is held, in `_activate` at `store.load` -/
  loading : Bool
  /-- what it was told and has not handled -/
  pending : List (LiveEvent I)

namespace OwnerReplica

variable {I : Type}

/-- `__init__`. -/
def fresh : OwnerReplica I := ⟨.new, ∅, false, false, false, false, []⟩

/-- The role is told of a token, if it has a subscriber. -/
def tell (r : OwnerReplica I) (e : LiveEvent I) : OwnerReplica I :=
  if r.status = .bound then { r with pending := r.pending ++ [e] } else r

/-- `_activate`, up to `store.load`; without a session it raises. -/
def activate (r : OwnerReplica I) : OwnerReplica I :=
  if r.status = .bound then { r with loading := true } else r

/-- `_activate`, after `store.load`. -/
def activated (r : OwnerReplica I) : OwnerReplica I :=
  { r with loading := false, serving := true, sweeping := true, active := true }

/-- `_deactivate`. -/
def deactivate (r : OwnerReplica I) : OwnerReplica I :=
  { r with sweeping := false, serving := false, active := false }

/-- `unbind`. -/
def unbind (r : OwnerReplica I) : OwnerReplica I :=
  { r with status := .unbound, sweeping := false, serving := false, active := false }

/-- The process of the role ends. -/
def kill (r : OwnerReplica I) : OwnerReplica I := { (fresh : OwnerReplica I) with
  status := .dead
  members := r.members }

variable [LinearOrder I]

/-- `_reconcile`, of the role with this id. -/
def reconcile (r : OwnerReplica I) (i : I) : OwnerReplica I :=
  if r.members.min = i then
    if r.active then r else r.activate
  else if r.active then r.deactivate
  else r

/-- `bind`, up to the end of its own `_reconcile` or `store.load`. -/
def bind (i : I) (history : List I) : OwnerReplica I :=
  { (fresh : OwnerReplica I) with
    status := .bound
    members := {i}
    pending := history.map .put }.reconcile i

end OwnerReplica

/-- The replicas of a queue, and the tokens that are there. -/
structure Election (I : Type) where
  replicas : I → OwnerReplica I
  live : Finset I

/-- What can happen. -/
inductive ElectionAction (I : Type)
  /-- `bind`; the subscriber is told of the tokens that are there, its own among them -/
  | bind (i : I) (history : List I)
  /-- `_on_membership` gets the lock -/
  | handle (i : I)
  /-- `store.load` returns -/
  | loaded (i : I)
  /-- `store.load` raises -/
  | loadFails (i : I)
  | unbind (i : I)
  /-- the process of a replica ends -/
  | crash (i : I)

/-- Whether a load failed. -/
def ElectionAction.isLoadFails {I : Type} : ElectionAction I → Bool
  | loadFails _ => true
  | _ => false

namespace Election

variable {I : Type} [LinearOrder I]

/-- No replica is bound. -/
def init : Election I := ⟨fun _ => .fresh, ∅⟩

/-- A replica changes. -/
def set (m : Election I) (i : I) (r : OwnerReplica I) : Election I :=
  { m with replicas := Function.update m.replicas i r }

/-- A token appears, and the subscribers are told. -/
def declare (m : Election I) (i : I) : Election I :=
  ⟨fun j => (m.replicas j).tell (.put i), insert i m.live⟩

/-- A token vanishes, and the subscribers are told. -/
def undeclare (m : Election I) (i : I) : Election I :=
  ⟨fun j => (m.replicas j).tell (.delete i), m.live.erase i⟩

/-- One action. -/
def step (m : Election I) : ElectionAction I → Option (Election I)
  | .bind i history =>
    if (m.replicas i).status = .new ∧ history.toFinset = insert i m.live then
      some ((m.declare i).set i (.bind i history))
    else none
  | .handle i =>
    let r := m.replicas i
    match r.pending with
    | [] => none
    | e :: pending =>
      -- `_activate` holds the lock while it loads
      if r.loading then none
      else some (m.set i ({ r with members := e.apply r.members, pending := pending }.reconcile i))
  | .loaded i =>
    let r := m.replicas i
    if r.loading then some (m.set i r.activated) else none
  | .loadFails i =>
    let r := m.replicas i
    if r.loading then some (m.set i { r with loading := false }) else none
  | .unbind i =>
    let r := m.replicas i
    -- the subscriber goes before the token
    if r.status = .bound then some ((m.set i r.unbind).undeclare i) else none
  | .crash i =>
    let r := m.replicas i
    match r.status with
    | .bound => some ((m.set i r.kill).undeclare i)
    | .unbound => some (m.set i r.kill)
    | _ => none

/-- A replica goes on with what it has before it. -/
def progress (m : Election I) (i : I) : Option (Election I) :=
  if (m.replicas i).loading then m.step (.loaded i) else m.step (.handle i)

end Election

end Istos
