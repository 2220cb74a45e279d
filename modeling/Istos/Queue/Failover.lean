import Istos.Data.Steps
import Istos.Queue.Storage

/-!
# Replicas of one owner

With `ha=True` several replicas of a queue share one storage, and at most one of them, the leader,
serves the queue.  A replica that is to lead loads the storage into the store it has, one `get`
after the other, and only then becomes active: until then the old leader may still be serving.  One
that steps down keeps its store as it is, and the calls under way in it go on.

Who leads when is left open.  The storage calls of a call are carried out one by one, while the call
holds the lock of its store.
-/

namespace Istos

/-- A `load` that is under way. -/
structure Loading (T : Type) where
  /-- What it has read: the index, and the values of the ids that it is done with. -/
  read : Storage T
  /-- The ids that it has not read yet. -/
  rest : List String

/-- The replicas of a queue, with the storage they share. -/
structure Cluster (ι T : Type) [LinearOrder T] where
  replicas : ι → QueueStore T
  /-- The loads, each in its `_activate`. -/
  loads : ι → Option (Loading T)
  /-- The storage calls that are still to come of the call that holds the lock of the store. -/
  pending : ι → List (StorageCall T)
  /-- The replica that is active, if one is. -/
  leader : Option ι
  /-- The replica that became active last. -/
  owner : Option ι
  storage : Storage T
  /-- The calls that were carried out, with their answers, by whichever replica. -/
  log : List (Event T)

/-- What can happen to the replicas. -/
inductive ClusterAction (ι T : Type)
  /-- `_activate` begins: `load` reads the index -/
  | load (i : ι)
  /-- a load reads the next record; the clock is read in `_offer_ready` -/
  | read (i : ι) (now : T)
  /-- `_activate` ends: the load is over, and the replica is active -/
  | activate (i : ι)
  /-- `_deactivate` of the leader -/
  | deactivate
  /-- a call takes the lock of the store of a replica -/
  | call (i : ι) (op : Op T)
  /-- the storage carries out the next storage call of the call under way -/
  | write (i : ι)

/-- The call of an action, if it is one. -/
def ClusterAction.op? {ι T : Type} : ClusterAction ι T → Option (Op T)
  | .call _ op => some op
  | _ => none

namespace Cluster

variable {ι T : Type} [DecidableEq ι] [LinearOrder T]

/-- Replicas of a queue that was never used. -/
def init : Cluster ι T := ⟨fun _ => .init, fun _ => none, fun _ => [], none, none, .empty, []⟩

/-- A load goes on: the store with what was read, and how far the load is. -/
def progress (m : Cluster ι T) (i : ι) (s : QueueStore T) (l : Loading T) : Cluster ι T :=
  { m with
    replicas := Function.update m.replicas i s
    loads := Function.update m.loads i (some l) }

/-- One action. -/
def step [Zero T] [Add T] (c : QueueConfig T) (m : Cluster ι T) :
    ClusterAction ι T → Option (Cluster ι T)
  | .load i =>
    if m.leader = some i ∨ (m.loads i).isSome then none
    else some (m.progress i (m.replicas i) ⟨⟨m.storage.index, fun _ => none⟩, m.storage.ids⟩)
  | .read i now =>
    match m.loads i with
    | some ⟨read, id :: rest⟩ =>
      let read := { read with records := Function.update read.records id (m.storage.records id) }
      match m.storage.records id with
      | none => some (m.progress i (m.replicas i) ⟨read, rest⟩)
      | some raw =>
        match raw.decode with
        -- the loop is left, and the replica becomes active all the same
        | none => some (m.progress i (m.replicas i) ⟨read, []⟩)
        | some r => some (m.progress i ((m.replicas i).loadRecord c r now) ⟨read, rest⟩)
    | _ => none
  | .activate i =>
    match m.leader, m.loads i with
    | none, some ⟨_, []⟩ =>
      some { m with loads := Function.update m.loads i none, leader := some i, owner := some i }
    | _, _ => none
  | .deactivate =>
    match m.leader with
    | some _ => some { m with leader := none }
    | none => none
  | .call i op =>
    match m.pending i with
    | [] =>
      let o := (m.replicas i).perform c op
      some { m with
        replicas := Function.update m.replicas i o.store
        pending := Function.update m.pending i o.calls
        log := m.log ++ [(op, o.answer)] }
    | _ => none
  | .write i =>
    match m.pending i with
    | [] => none
    | call :: rest =>
      some { m with
        pending := Function.update m.pending i rest
        storage := m.storage.apply call }

end Cluster

end Istos
