import Istos.Data.Heap
import Istos.Data.Table
import Istos.Queue.Record
import Mathlib.Data.Finset.Card
import Mathlib.Data.Prod.Lex
import Mathlib.Data.String.Basic

/-!
# The queue store

`QueueStore` is the owner's authoritative state of one queue: the job table, the membership set
that is mirrored to storage, four heaps whose entries are validated only when they are popped, and
the chord barriers.  Each operation is a function of the store and of the clock readings it takes,
in the order it takes them; it returns the new store, its answer, and the storage calls it awaits,
each with the store as it stands while the call is pending.  The lock is held throughout, so the
in-memory effect of an operation does not depend on what storage does.
-/

namespace Istos

/-- An entry of `_ready`: `(-priority, seq, id)`. -/
abbrev ReadyEntry := ℤ ×ₗ (ℤ ×ₗ String)

/-- An entry of `_delayed`, `_leases` or `_done`: `(time, id)`. -/
abbrev TimedEntry (T : Type) := T ×ₗ String

namespace ReadyEntry

/-- The id an entry of `_ready` refers to. -/
def id (e : ReadyEntry) : String := (ofLex (ofLex e).2).2

end ReadyEntry

namespace TimedEntry

variable {T : Type}

def mk (time : T) (id : String) : TimedEntry T := toLex (time, id)

/-- The time a timed entry is ordered by. -/
def time (e : TimedEntry T) : T := (ofLex e).1

/-- The id a timed entry refers to. -/
def id (e : TimedEntry T) : String := (ofLex e).2

@[simp] theorem time_mk (t : T) (i : String) : (mk t i).time = t := rfl

@[simp] theorem id_mk (t : T) (i : String) : (mk t i).id = i := rfl

@[simp] theorem mk_inj {t t' : T} {i i' : String} : mk t i = mk t' i' ↔ t = t' ∧ i = i' := by
  simp [mk]

end TimedEntry

/-- The ready-heap entry of a record. -/
def JobRecord.readyEntry {T : Type} (r : JobRecord T) : ReadyEntry :=
  toLex (-r.priority, toLex (r.seq, r.id))

@[simp] theorem JobRecord.id_readyEntry {T : Type} (r : JobRecord T) : r.readyEntry.id = r.id := rfl

/-- The order in which `list(s)` enumerates a set, which Python leaves open. -/
structure SetOrder where
  list : List String → List String
  perm : ∀ l, (list l).Perm l

/-- The constructor arguments of `QueueStore`. -/
structure QueueConfig (T : Type) where
  keepResults : Bool
  resultTtl : T
  /-- `None` keeps dead letters until removed. -/
  deadLetterTtl : Option T
  /-- `None` keeps an unfinished barrier forever. -/
  chordTtl : Option T
  idOrder : SetOrder

/-- A set that is enumerated in the order its members were added. -/
def SetOrder.insertion : SetOrder := ⟨id, fun _ => List.Perm.refl _⟩

/-- The defaults of the constructor, with times in seconds. -/
def QueueConfig.defaults : QueueConfig ℤ where
  keepResults := false
  resultTtl := 3600
  deadLetterTtl := some (7 * 86400)
  chordTtl := some 86400
  idOrder := .insertion

/-- The barrier of one chord. -/
structure Chord (T : Type) where
  size : ℤ
  results : List (Option String)
  reported : Finset ℤ
  fired : Bool
  createdAt : T
  deriving DecidableEq

/-- The job table, `Dict[str, JobRecord]`, every record under its own id. -/
abbrev JobTable (T : Type) := Table (JobRecord.id (T := T))

/-- `QueueStore`: the mutable state. -/
structure QueueStore (T : Type) [LinearOrder T] where
  jobs : JobTable T
  /-- Membership, mirrored to storage. -/
  ids : List String
  ready : Heap ReadyEntry
  delayed : Heap (TimedEntry T)
  leases : Heap (TimedEntry T)
  done : Heap (TimedEntry T)
  chords : Table (Prod.fst : String × Chord T → String)
  seq : ℤ

/-- A call to the storage plugin. -/
inductive StorageCall (T : Type)
  /-- `put(job_key(r.id), r.to_dict())` -/
  | putJob (r : JobRecord T)
  /-- `put(index_key, ids)` -/
  | putIndex (ids : List String)
  /-- `delete(job_key(id))` -/
  | deleteJob (id : String)
  deriving DecidableEq

/-- A storage call that an operation awaits, with the store while it is pending. -/
structure Await (T : Type) [LinearOrder T] where
  store : QueueStore T
  call : StorageCall T

/-- What an operation leaves behind: the store, the storage calls it awaited, its answer. -/
structure Outcome (T : Type) [LinearOrder T] (α : Type) where
  store : QueueStore T
  awaits : List (Await T)
  answer : α

/-- The storage calls of an operation, in order. -/
def Outcome.calls {T α : Type} [LinearOrder T] (o : Outcome T α) : List (StorageCall T) :=
  o.awaits.map Await.call

/-- The arguments of `add`. -/
structure NewJob (T : Type) where
  data : Bytes
  maxAttempts : ℤ
  priority : ℤ
  delay : T
  wf : Option String
  correlationId : Option String
  traceparent : Option String
  deriving DecidableEq

/-- The answers of `nack`. -/
inductive Disposition
  | requeued
  | dead
  deriving DecidableEq, Repr

variable {T : Type}

/-! ### What happens to one record -/

/-- `rec.last_error or "lease expired"`. -/
def orLeaseExpired (e : Option String) : Option String :=
  match e with
  | some s => if s = "" then some "lease expired" else some s
  | none => some "lease expired"

/-- A record whose lease expired: dead when its attempts are used up, else ready again. -/
def JobRecord.lapse [Zero T] (now : T) (r : JobRecord T) : JobRecord T :=
  if r.maxAttempts ≤ r.attempts then
    { r with state := .dead, completedAt := now, lastError := orLeaseExpired r.lastError }
  else { r with state := .ready, leaseUntil := 0, notBefore := 0 }

/-- A record handed to a worker. -/
def JobRecord.lease (leaseUntil : T) (r : JobRecord T) : JobRecord T :=
  { r with state := .leased, attempts := r.attempts + 1, leaseUntil := leaseUntil }

/-- `_holds_lease`: whether an ack or nack comes from the worker that holds the lease now. -/
def JobRecord.holdsLease (r : JobRecord T) (attempt : Option ℤ) : Bool :=
  decide (r.state = .leased) &&
    match attempt with
    | none => true
    | some k => decide (r.attempts = k)

/-- A record as `add` constructs it. -/
def NewJob.record [Zero T] (job : NewJob T) (id : String) (seq : ℤ) (notBefore enqueuedAt : T) :
    JobRecord T where
  id := id
  data := job.data
  state := .ready
  attempts := 0
  maxAttempts := job.maxAttempts
  enqueuedAt := enqueuedAt
  leaseUntil := 0
  notBefore := notBefore
  priority := job.priority
  seq := seq
  lastError := none
  result := none
  completedAt := 0
  wf := job.wf
  correlationId := job.correlationId
  traceparent := job.traceparent

/-- A record whose result is kept. -/
def JobRecord.complete [Zero T] (result : Option Bytes) (now : T) (r : JobRecord T) : JobRecord T :=
  { r with
    state := .done, result := result.map Base64.b64encode, completedAt := now, leaseUntil := 0 }

/-- A record whose last attempt failed. -/
def JobRecord.bury (error : Option String) (now : T) (r : JobRecord T) : JobRecord T :=
  { r with lastError := error, state := .dead, completedAt := now }

/-- A record that is to be tried again from `notBefore` on. -/
def JobRecord.requeue [Zero T] (error : Option String) (notBefore : T) (r : JobRecord T) :
    JobRecord T :=
  { r with lastError := error, state := .ready, leaseUntil := 0, notBefore := notBefore }

variable [LinearOrder T]

/-- `t + delay if delay > 0 else 0.0`. -/
def startTime [Zero T] [Add T] (t delay : T) : T := if 0 < delay then t + delay else 0

/-- A leased record whose lease ran out by `now`. -/
def JobRecord.expired (now : T) (r : JobRecord T) : Bool :=
  decide (r.state = .leased) && decide (r.leaseUntil ≤ now)

/-- A ready record that may be claimed at `now`. -/
def JobRecord.claimable (now : T) (r : JobRecord T) : Bool :=
  decide (r.state = .ready) && decide (r.notBefore ≤ now)

namespace QueueStore

/-- A fresh store. -/
def init : QueueStore T where
  jobs := ∅
  ids := []
  ready := ∅
  delayed := ∅
  leases := ∅
  done := ∅
  chords := ∅
  seq := 0

/-! ### Heap bookkeeping -/

/-- `_offer_ready`. -/
def offerReady (s : QueueStore T) (r : JobRecord T) (now : T) : QueueStore T :=
  if now < r.notBefore then { s with delayed := s.delayed.push (.mk r.notBefore r.id) }
  else { s with ready := s.ready.push r.readyEntry }

/-- The body of the loop of `_mature_delayed`. -/
def matureEntry (now : T) (e : TimedEntry T) (rest : Heap (TimedEntry T)) (s : QueueStore T) :
    QueueStore T :=
  let s := { s with delayed := rest }
  match s.jobs.get? e.id with
  | none => s
  | some r => if r.claimable now then { s with ready := s.ready.push r.readyEntry } else s

/-- `_mature_delayed`. -/
def matureDelayed (s : QueueStore T) (now : T) : QueueStore T :=
  (s.delayed.drainWhile (fun e => decide (e.time ≤ now)) (matureEntry now) s).2

/-- The body of the loop of `_reclaim_leases`; the list is `changed`. -/
def reclaimEntry [Zero T] (now : T) (e : TimedEntry T) (rest : Heap (TimedEntry T))
    (x : QueueStore T × List (JobRecord T)) : QueueStore T × List (JobRecord T) :=
  let s := { x.1 with leases := rest }
  match s.jobs.get? e.id with
  | none => (s, x.2)
  | some r =>
    -- a stale entry: the job was acked, nacked or leased again
    if ¬ r.expired now then (s, x.2)
    else
      let s := { s with jobs := s.jobs.put (r.lapse now) }
      if r.maxAttempts ≤ r.attempts then (s, x.2 ++ [r.lapse now])
      else ({ s with ready := s.ready.push r.readyEntry }, x.2 ++ [r.lapse now])

/-- `_reclaim_leases`. -/
def reclaimLeases [Zero T] (s : QueueStore T) (now : T) : QueueStore T × List (JobRecord T) :=
  (s.leases.drainWhile (fun e => decide (e.time ≤ now)) (reclaimEntry now) (s, [])).2

/-- The awaits of a loop that writes records while the store stands still. -/
def writeJobs (s : QueueStore T) (rs : List (JobRecord T)) : List (Await T) :=
  rs.map fun r => ⟨s, .putJob r⟩

/-- `_forget`: the store without the job, and the two calls that follow. -/
def forget (c : QueueConfig T) (s : QueueStore T) (id : String) : QueueStore T × List (Await T) :=
  let s := { s with jobs := s.jobs.erase id, ids := s.ids.filter fun j => decide (j ≠ id) }
  (s, [⟨s, .deleteJob id⟩, ⟨s, .putIndex (c.idOrder.list s.ids)⟩])

/-! ### Operations -/

variable [Zero T]

/-- `add`.  `id` is what `uuid4().hex` returned; the clock is read for `not_before`, for
`enqueued_at` and in `_offer_ready`. -/
def add [Add T] (c : QueueConfig T) (s : QueueStore T) (job : NewJob T) (id : String)
    (tNotBefore tEnqueued tOffer : T) : Outcome T String :=
  let s := { s with seq := s.seq + 1 }
  let r := job.record id s.seq (startTime tNotBefore job.delay) tEnqueued
  let s := { s with
    jobs := s.jobs.put r
    ids := if r.id ∈ s.ids then s.ids else s.ids ++ [r.id] }
  let s := s.offerReady r tOffer
  { store := s
    awaits := [⟨s, .putJob r⟩, ⟨s, .putIndex (c.idOrder.list s.ids)⟩]
    answer := r.id }

/-- What the loop of `claim` looks for: the entry of a job that is still claimable.  Every other
entry it pops is dropped as a tombstone. -/
def claimEntry (jobs : JobTable T) (now : T) (e : ReadyEntry) : Option (JobRecord T) :=
  (jobs.get? e.id).filter (fun r => r.claimable now)

/-- `claim`.  `now` is read before the lock is taken. -/
def claim [Add T] (s : QueueStore T) (now lease : T) : Outcome T (Option (JobRecord T)) :=
  let s := s.matureDelayed now
  let (s, reclaimed) := s.reclaimLeases now
  let writes := s.writeJobs reclaimed
  match s.ready.popUntil (claimEntry s.jobs now) with
  | (none, rest) => { store := { s with ready := rest }, awaits := writes, answer := none }
  | (some r, rest) =>
    let r := r.lease (now + lease)
    let s := { s with
      ready := rest
      jobs := s.jobs.put r
      leases := s.leases.push (.mk r.leaseUntil r.id) }
    { store := s, awaits := writes ++ [⟨s, .putJob r⟩], answer := JobRecord.fromDict r.toDict }

/-- `ack`. -/
def ack [Add T] (c : QueueConfig T) (s : QueueStore T) (id : String) (result : Option Bytes)
    (attempt : Option ℤ) (now : T) : Outcome T Bool :=
  match (s.jobs.get? id).filter (fun r => r.holdsLease attempt) with
  | none => { store := s, awaits := [], answer := false }
  | some r =>
    if c.keepResults then
      let r := r.complete result now
      let s := { s with
        jobs := s.jobs.put r
        done := s.done.push (.mk (r.completedAt + c.resultTtl) r.id) }
      { store := s, awaits := [⟨s, .putJob r⟩], answer := true }
    else
      let (s, awaits) := forget c s id
      { store := s, awaits := awaits, answer := true }

/-- `nack`.  The clock is read for `completed_at` or `not_before`, then in `_offer_ready`. -/
def nack [Add T] (s : QueueStore T) (id : String) (error : Option String) (retryDelay : T)
    (attempt : Option ℤ) (tSet tOffer : T) : Outcome T (Option Disposition) :=
  match (s.jobs.get? id).filter (fun r => r.holdsLease attempt) with
  | none => { store := s, awaits := [], answer := none }
  | some r =>
    if r.maxAttempts ≤ r.attempts then
      let r := r.bury error tSet
      let s := { s with jobs := s.jobs.put r }
      { store := s, awaits := [⟨s, .putJob r⟩], answer := some .dead }
    else
      let r := r.requeue error (startTime tSet retryDelay)
      let s := ({ s with jobs := s.jobs.put r }).offerReady r tOffer
      { store := s, awaits := [⟨s, .putJob r⟩], answer := some .requeued }

/-- The body of the loop of `sweep` over `_done`. -/
def purgeDoneEntry [Add T] (c : QueueConfig T) (now : T) (e : TimedEntry T)
    (rest : Heap (TimedEntry T)) (x : QueueStore T × List (Await T)) :
    QueueStore T × List (Await T) :=
  let s := { x.1 with done := rest }
  match s.jobs.get? e.id with
  | none => (s, x.2)
  | some r =>
    if r.state = .done ∧ r.completedAt + c.resultTtl ≤ now then
      let (s, awaits) := forget c s e.id
      (s, x.2 ++ awaits)
    else (s, x.2)

/-- The part of `sweep` that purges results past their TTL. -/
def purgeDone [Add T] (c : QueueConfig T) (s : QueueStore T) (now : T) :
    QueueStore T × List (Await T) :=
  (s.done.drainWhile (fun e => decide (e.time ≤ now)) (purgeDoneEntry c now) (s, [])).2

/-- Forgets the listed jobs one after the other. -/
def forgetAll (c : QueueConfig T) (s : QueueStore T) : List String → QueueStore T × List (Await T)
  | [] => (s, [])
  | id :: ids =>
    let (s, first) := forget c s id
    let (s, rest) := forgetAll c s ids
    (s, first ++ rest)

/-- The part of `sweep` that purges dead letters past their TTL; `rec.completed_at` is tested for
being set at all. -/
def purgeDead [Add T] (c : QueueConfig T) (s : QueueStore T) (now : T) :
    QueueStore T × List (Await T) :=
  match c.deadLetterTtl with
  | none => (s, [])
  | some ttl =>
    let expired := s.jobs.filter fun r =>
      decide (r.state = .dead ∧ r.completedAt ≠ 0 ∧ r.completedAt + ttl ≤ now)
    forgetAll c s expired.keys

/-- The part of `sweep` that drops stale barriers. -/
def dropChords [Add T] (c : QueueConfig T) (s : QueueStore T) (now : T) : QueueStore T :=
  match c.chordTtl with
  | none => s
  | some ttl => { s with chords := s.chords.filter fun x => ¬ x.2.createdAt + ttl ≤ now }

/-- `sweep`.  `now` is read before the lock is taken. -/
def sweep [Add T] (c : QueueConfig T) (s : QueueStore T) (now : T) : Outcome T ℕ :=
  let (s, changed) := s.reclaimLeases now
  let writes := s.writeJobs changed
  let (s, purged) := s.purgeDone c now
  let (s, buried) := s.purgeDead c now
  { store := s.dropChords c now, awaits := writes ++ purged ++ buried, answer := changed.length }

omit [Zero T] in
/-- `result`; the state is `none` for "unknown".  Decoding the stored base64 can raise. -/
def result (s : QueueStore T) (id : String) : Option (Option JobState × Option Bytes) :=
  match s.jobs.get? id with
  | none => some (none, none)
  | some r =>
    match r.result with
    | none => some (some r.state, none)
    | some b => (Base64.b64decode b).map fun data => (some r.state, some data)

/-- `dead_letters`. -/
def deadLetters (s : QueueStore T) : List (JobRecord T) :=
  (s.jobs.rows.filter fun r => decide (r.state = .dead)).filterMap fun r =>
    JobRecord.fromDict r.toDict

omit [Zero T] in
/-- `stats`: the number of jobs in a state. -/
def stats (s : QueueStore T) (st : JobState) : ℕ :=
  (s.jobs.rows.filter fun r => decide (r.state = st)).length

omit [Zero T] in
/-- The barrier that a report in `chord_report` meets: the one there is, or a new one. -/
def barrier (s : QueueStore T) (chordId : String) (index size : ℤ) (now : T) :
    Except String (Chord T) :=
  match s.chords.get? chordId with
  | none => .ok {
      size := size, results := List.replicate size.toNat none, reported := ∅, fired := false,
      createdAt := now }
  | some (_, chord) =>
    if chord.size ≤ index then
      .error s!"chord report index {index} is outside size {chord.size}"
    else .ok chord

omit [Zero T] in
/-- `chord_report`.  `Except.error` carries the text of the `ValueError`. -/
def chordReport (s : QueueStore T) (chordId : String) (index size : ℤ) (res : Option String)
    (now : T) : Except String (QueueStore T × Option (List (Option String))) :=
  if size ≤ 0 ∨ index < 0 ∨ size ≤ index then
    .error s!"chord report index {index} is outside size {size}"
  else
    match s.barrier chordId index size now with
    | .error e => .error e
    | .ok chord =>
      -- a new barrier is stored even when the report is not counted
      let s := { s with chords := s.chords.put (chordId, chord) }
      if chord.fired ∨ index ∈ chord.reported then .ok (s, none)
      else
        let chord := { chord with
          reported := insert index chord.reported
          results := chord.results.set index.toNat res }
        if chord.size ≤ chord.reported.card then
          .ok ({ s with chords := s.chords.erase chordId }, some chord.results)
        else .ok ({ s with chords := s.chords.put (chordId, chord) }, none)

end QueueStore

end Istos
