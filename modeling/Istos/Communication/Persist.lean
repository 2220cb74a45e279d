import Istos.Codec.Padding
import Istos.Codec.Unquote
import Istos.Data.Cursor
import Istos.Data.Steps
import Istos.Wire.Selector

/-!
# The durable log

A `PersistRole` mints an object key for every sample, `<key>/<millis>-<seq>`, and puts the payload
into an object store under it; `app.replay` asks the role for the objects under a path and reads on
after a cursor. Between minting and the moment at which the store has the object other samples may
come, and the store may refuse it.

Replies come in any order.
-/

namespace Istos

/-- `s.startswith(start)`. -/
def startsWith (s start : String) : Bool := start.toList.isPrefixOf s.toList

/-! ### Object stores -/

/-- `InMemoryObjectStore`, or `S3ObjectStore` with its `_prefix`. -/
inductive StoreKind
  | memory
  | s3 (root : String)
  deriving DecidableEq

/-- `_object_key`. -/
def StoreKind.objectKey : StoreKind → String → String
  | memory, key => key
  | s3 root, key => if root = "" then key else root ++ "/" ++ key

/-- An object store and its objects, which are those of the role. -/
structure ObjectStore (B : Type) where
  kind : StoreKind
  objects : Table (Prod.fst : String × B → String)

namespace ObjectStore

variable {B : Type}

/-- `put`. -/
def put (s : ObjectStore B) (key : String) (payload : B) : ObjectStore B :=
  { s with objects := s.objects.put (s.kind.objectKey key, payload) }

/-- `history`. -/
def history (s : ObjectStore B) (path : String) (since : Option String) : List (String × B) :=
  let listing := rstripSlash path ++ "/"
  match s.kind with
  | .memory =>
    let found := s.objects.rows.filter fun x => decide (x.1 = path) || startsWith x.1 listing
    Cursor.sort (match since with
      | none => found
      | some p => found.filter fun x => decide (p < x.1))
  | .s3 root =>
    -- `list_objects_v2` with `Prefix` and `StartAfter`
    let found := s.objects.rows.filter fun x =>
      startsWith x.1 ((StoreKind.s3 root).objectKey listing)
    let listed := match since with
      | none => found
      | some p => found.filter fun x => decide ((StoreKind.s3 root).objectKey p < x.1)
    let strip := if root = "" then 0 else ((StoreKind.s3 root).objectKey "").length
    (Cursor.sort listed).map fun x => (String.ofList (x.1.toList.drop strip), x.2)

end ObjectStore

/-! ### The role -/

/-- A sample for which a role has minted a key. -/
structure Sample (B : Type) where
  key : String
  payload : B
  /-- `int(time.time() * 1000)` -/
  millis : ℤ
  /-- `_seq` -/
  seq : ℕ

/-- `<millis>-<seq>`. -/
def Sample.stamp {B : Type} (x : Sample B) : List Char :=
  Decimal.padded 13 x.millis ++ '-' :: Decimal.padded 12 x.seq

/-- `<key>/<millis>-<seq>`. -/
def Sample.position {B : Type} (x : Sample B) : String :=
  x.key ++ "/" ++ String.ofList x.stamp

/-- A role and its store.  Nobody stores `minted` and `log`: the samples in the order in which they
came, and those that the store has got, with their places there, in the order in which it got them.
-/
structure PersistRole (B : Type) where
  store : ObjectStore B
  seq : ℕ
  minted : List (Sample B)
  log : List (Sample B × ℕ)

/-- What happens to a role. -/
inductive PersistOp (B : Type)
  /-- a sample comes, and `_persist` mints its key -/
  | sample (key : String) (payload : B) (millis : ℤ)
  /-- the store carries out the put of a sample -/
  | stored (i : ℕ)
  /-- another role takes over the store -/
  | restart

namespace PersistRole

variable {B : Type}

/-- A role with an empty store. -/
def init (B : Type) (kind : StoreKind) : PersistRole B := ⟨⟨kind, ∅⟩, 0, [], []⟩

/-- One thing happens; a put is carried out once. -/
def step (r : PersistRole B) : PersistOp B → Option (PersistRole B)
  | .sample key payload millis => some
      { r with seq := r.seq + 1, minted := r.minted ++ [⟨key, payload, millis, r.seq + 1⟩] }
  | .stored i =>
    if i ∈ r.log.map Prod.snd then none
    else r.minted[i]?.map fun x =>
      { r with store := r.store.put x.position x.payload, log := r.log ++ [(x, i)] }
  | .restart => some { r with seq := 0 }

/-- `_read_since`. -/
def readSince (params : Params) : Option String :=
  ((Table.ofList Prod.fst params).get? "_since").map fun x => Percent.unquoteText x.2

/-- `_answer`: the samples that are listed for a history query. -/
def answer (r : PersistRole B) (keyExpr : String) (params : Params) : List (String × B) :=
  let listing := rstripSlash (String.ofList (keyExpr.toList.takeWhile fun c => decide (c ≠ '*')))
  r.store.history listing (readSince params)

/-- The samples that `_answer` replies: `query.reply` raises for a key that does not match the key
expression of the query, and what it raises ends the loop. -/
def replies (z : Zenoh) (r : PersistRole B) (keyExpr : String) (params : Params) :
    List (String × B) :=
  (r.answer keyExpr params).takeWhile fun x => z.intersects keyExpr x.1

end PersistRole

/-! ### Replay -/

/-- The order in which the replies of a query come. -/
structure Arrival (B : Type) where
  order : List (String × B) → List (String × B)
  perm : ∀ replies, (order replies).Perm replies

/-- The selector of `app.replay`. -/
def replaySelector (path : String) (since : Option String) : String :=
  let selector := rstripSlash path ++ "/**"
  match since with
  | none => selector
  | some p => selector ++ "?_since=" ++ Percent.quote p

/-- `app.replay`, before a payload is deserialized; `none` where Zenoh refuses the selector. -/
def PersistRole.replay {B : Type} (r : PersistRole B) (z : Zenoh) (arrival : Arrival B)
    (path : String) (since : Option String) : Option (List (String × B)) :=
  (z.parse (replaySelector path since)).map fun q =>
    Cursor.sort (arrival.order (r.replies z q.1 q.2))

/-- A consumer reads more than once: after some operations it replays from its cursor, stops after a
number of events, and keeps the position of the last. -/
def PersistRole.consume {B : Type} (z : Zenoh) (path : String) :
    PersistRole B → Option String → List (String × B) → List (List (PersistOp B) × Arrival B × ℕ) →
      Option (PersistRole B × Option String × List (String × B))
  | r, cursor, processed, [] => some (r, cursor, processed)
  | r, cursor, processed, (ops, arrival, stop) :: reads => do
    let r' ← Steps.run PersistRole.step r ops
    let events ← r'.replay z arrival path cursor
    let read := events.take stop
    consume z path r' ((read.getLast?.map Prod.fst).or cursor) (processed ++ read) reads

end Istos
