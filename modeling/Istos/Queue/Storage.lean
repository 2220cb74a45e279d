import Istos.Queue.Run
import Istos.Queue.Board

/-!
# Storage and recovery

`Storage` is what the storage plugin holds for one queue: the index and one value per job.
`QueueStore.load` rebuilds a store from it, one `get` after the other; a `get` that raises, or a
value that cannot be decoded, ends it, and what was read so far stays.

`Node` is an owner with its storage, restarted between calls.
-/

namespace Istos

/-- A stored value as `get` returns it. -/
inductive Raw (T : Type)
  /-- a dictionary -/
  | dict (d : JobDict T)
  /-- anything else, with the dictionary `json.loads` makes of it, if it makes one -/
  | text (parsed : Option (JobDict T))

/-- `JobRecord.from_dict(raw if isinstance(raw, dict) else json.loads(raw))`; `none` where it
raises. -/
def Raw.decode {T : Type} [Zero T] : Raw T → Option (JobRecord T)
  | dict d => JobRecord.fromDict d
  | text parsed => parsed.bind JobRecord.fromDict

/-- What storage holds for one queue. -/
structure Storage (T : Type) where
  /-- The value under `_index_key()`. -/
  index : Option (List String)
  /-- The values under `_job_key(id)`. -/
  records : String → Option (Raw T)

namespace Storage

variable {T : Type}

/-- Storage that the queue has never written to. -/
def empty : Storage T := ⟨none, fun _ => none⟩

/-- Carries out a storage call. -/
def apply (σ : Storage T) : StorageCall T → Storage T
  | .putJob r => { σ with records := Function.update σ.records r.id (some (.dict r.toDict)) }
  | .putIndex ids => { σ with index := some ids }
  | .deleteJob id => { σ with records := Function.update σ.records id none }

/-- Carries out a list of storage calls. -/
def applyAll (σ : Storage T) (calls : List (StorageCall T)) : Storage T := calls.foldl apply σ

/-- `await get(index_key) or []` -/
def ids (σ : Storage T) : List String := σ.index.getD []

/-- The jobs in storage: the decoded records of the ids in the index. -/
def board [Zero T] (σ : Storage T) : Board T := fun id =>
  if id ∈ σ.ids then (σ.records id).bind Raw.decode else none

end Storage

namespace QueueStore

variable {T : Type} [LinearOrder T]

/-- The body of the loop of `load`, once the record is decoded.  The clock is read in
`_offer_ready`. -/
def loadRecord [Add T] (c : QueueConfig T) (s : QueueStore T) (r : JobRecord T) (now : T) :
    QueueStore T :=
  let s := { s with
    jobs := s.jobs.put r
    ids := if r.id ∈ s.ids then s.ids else s.ids ++ [r.id]
    seq := max s.seq r.seq }
  match r.state with
  | .ready => s.offerReady r now
  | .leased => { s with leases := s.leases.push (.mk r.leaseUntil r.id) }
  | .done => { s with done := s.done.push (.mk (r.completedAt + c.resultTtl) r.id) }
  | .dead => s

/-- The loop of `load`, from the `n`-th `get` on.  `fails n` says whether that `get` raises, and
`clock n` is what the clock shows after it. -/
def loadFrom [Zero T] [Add T] (c : QueueConfig T) (σ : Storage T) (fails : ℕ → Bool)
    (clock : ℕ → T) : ℕ → List String → QueueStore T → QueueStore T
  | _, [], s => s
  | n, id :: ids, s =>
    if fails n then s
    else
      match σ.records id with
      | none => loadFrom c σ fails clock (n + 1) ids s
      | some raw =>
        match raw.decode with
        | none => s
        | some r => loadFrom c σ fails clock (n + 1) ids (s.loadRecord c r (clock n))

/-- `load`.  The first `get` is that of the index. -/
def load [Zero T] [Add T] (c : QueueConfig T) (σ : Storage T) (fails : ℕ → Bool) (clock : ℕ → T)
    (s : QueueStore T) : QueueStore T :=
  if fails 0 then s else loadFrom c σ fails clock 1 σ.ids s

/-- A storage whose operations succeed. -/
def reliable : ℕ → Bool := fun _ => false

end QueueStore

/-! ### An owner and its storage -/

/-- An owner with its storage, and the calls it has answered. -/
structure Node (T : Type) [LinearOrder T] where
  store : QueueStore T
  storage : Storage T
  log : List (Event T)

/-- What can happen to an owner. -/
inductive NodeAction (T : Type)
  /-- a call is carried out, with all its storage calls -/
  | call (op : Op T)
  /-- the process ends, and a fresh store loads the storage -/
  | restart (clock : ℕ → T)

namespace Node

variable {T : Type} [LinearOrder T] [Zero T] [Add T]

/-- An owner of a queue that was never used. -/
def init : Node T := ⟨.init, .empty, []⟩

/-- One action. -/
def step (c : QueueConfig T) (n : Node T) : NodeAction T → Node T
  | .call op =>
    let o := n.store.perform c op
    { store := o.store, storage := n.storage.applyAll o.calls, log := n.log ++ [(op, o.answer)] }
  | .restart clock =>
    { n with store := QueueStore.init.load c n.storage QueueStore.reliable clock }

/-- A sequence of actions. -/
def run (c : QueueConfig T) (n : Node T) (actions : List (NodeAction T)) : Node T :=
  actions.foldl (step c) n

end Node

end Istos
