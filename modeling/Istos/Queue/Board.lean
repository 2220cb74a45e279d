import Istos.Queue.Run

/-!
# The life of a job

A `Board` is the job table as a function from ids to records: what the heaps, the membership set
and storage are all there to serve.  `Move` says what one call can do to the record of one job.  It
leaves open which job a claim picks and which expired leases are noticed, so it holds in every
state, whatever the heaps contain and whatever the clock does.
-/

namespace Istos

variable {T : Type} [LinearOrder T]

/-! ### Records -/

section Records

variable [Zero T]

/-- What the passing of time makes of a record. -/
def JobRecord.lapsed (now : T) (r : JobRecord T) : JobRecord T :=
  if r.expired now then r.lapse now else r

omit [LinearOrder T] in
@[simp] theorem JobRecord.id_lapse (now : T) (r : JobRecord T) : (r.lapse now).id = r.id := by
  unfold JobRecord.lapse
  split <;> rfl

@[simp] theorem JobRecord.id_lapsed (now : T) (r : JobRecord T) : (r.lapsed now).id = r.id := by
  unfold JobRecord.lapsed
  split
  · exact r.id_lapse now
  · rfl

omit [LinearOrder T] [Zero T] in
@[simp] theorem JobRecord.id_lease (t : T) (r : JobRecord T) : (r.lease t).id = r.id := rfl

omit [LinearOrder T] [Zero T] in
@[simp] theorem JobRecord.attempts_lease (t : T) (r : JobRecord T) :
    (r.lease t).attempts = r.attempts + 1 := rfl

omit [Zero T] in
theorem JobRecord.expired_iff {now : T} {r : JobRecord T} :
    r.expired now = true ↔ r.state = .leased ∧ r.leaseUntil ≤ now := by
  rw [JobRecord.expired, Bool.and_eq_true, decide_eq_true_eq, decide_eq_true_eq]

omit [Zero T] in
theorem JobRecord.claimable_iff {now : T} {r : JobRecord T} :
    r.claimable now = true ↔ r.state = .ready ∧ r.notBefore ≤ now := by
  rw [JobRecord.claimable, Bool.and_eq_true, decide_eq_true_eq, decide_eq_true_eq]

omit [LinearOrder T] in
theorem JobRecord.state_lapse (now : T) (r : JobRecord T) :
    (r.lapse now).state = if r.maxAttempts ≤ r.attempts then .dead else .ready := by
  unfold JobRecord.lapse
  split <;> rfl

/-- A record that lapsed is not leased any more, so it does not lapse again. -/
theorem JobRecord.expired_lapse (now now' : T) (r : JobRecord T) :
    (r.lapse now).expired now' = false := by
  rw [Bool.eq_false_iff, Ne, JobRecord.expired_iff, JobRecord.state_lapse]
  split <;> simp

end Records

/-- A retained result past its TTL. -/
def JobRecord.stale [Add T] (c : QueueConfig T) (now : T) (r : JobRecord T) : Prop :=
  r.state = .done ∧ r.completedAt + c.resultTtl ≤ now

/-- A dead letter past its TTL. -/
def JobRecord.buried [Zero T] [Add T] (c : QueueConfig T) (now : T) (r : JobRecord T) : Prop :=
  ∃ ttl, c.deadLetterTtl = some ttl ∧ r.state = .dead ∧ r.completedAt ≠ 0 ∧
    r.completedAt + ttl ≤ now

/-- The job table as a function. -/
abbrev Board (T : Type) := String → Option (JobRecord T)

/-- The lookup of a job. -/
def QueueStore.job (s : QueueStore T) : Board T := s.jobs.get?

theorem QueueStore.id_of_job {s : QueueStore T} {id : String} {r : JobRecord T}
    (h : s.job id = some r) : r.id = id := Table.key_of_get? h

/-! ### What a call does to one job -/

/-- What the answer to a call tells about one job. -/
inductive Effect (T : Type)
  | added
  | claimed (r : JobRecord T)
  | acked
  | nacked (d : Disposition)
  deriving DecidableEq

/-- What a call did to a job, as far as its answer shows. -/
def Event.effect (id : String) : Event T → Option (Effect T)
  | (.add _ id' _ _ _, _) => if id' = id then some .added else none
  | (.claim _ _, .claimed (some r)) => if r.id = id then some (.claimed r) else none
  | (.ack id' _ _ _, .acked true) => if id' = id then some .acked else none
  | (.nack id' _ _ _ _ _, .nacked (some d)) => if id' = id then some (.nacked d) else none
  | _ => none

omit [LinearOrder T] in
theorem Event.effect_add {id : String} {ev : Event T} {job : NewJob T} {t₁ t₂ t₃ : T}
    (h : ev.1 = .add job id t₁ t₂ t₃) : ev.effect id = some .added := by
  obtain ⟨op, answer⟩ := ev
  obtain rfl : op = .add job id t₁ t₂ t₃ := h
  exact if_pos rfl

/-- The records that the claims of a history returned for one job, in order. -/
def claims (id : String) (hist : List (Event T)) : List (JobRecord T) :=
  hist.filterMap fun ev =>
    match ev.effect id with
    | some (.claimed r) => some r
    | _ => none

/-- The clock reading of a call that looks for expired leases. -/
def Op.now? : Op T → Option T
  | .claim now _ => some now
  | .sweep now => some now
  | _ => none

/-- The fencing token that an ack or nack carries, if it carries one. -/
def Op.token? : Op T → Option ℤ
  | .ack _ _ attempt _ => attempt
  | .nack _ _ _ attempt _ _ => attempt
  | _ => none

/-- The record is leased, and the token of the call, if it has one, is that of the lease. -/
structure JobRecord.HeldBy (op : Op T) (r : JobRecord T) : Prop where
  leased : r.state = .leased
  token : ∀ k, op.token? = some k → r.attempts = k

/-- By `now` the record may have lapsed. -/
def JobRecord.Aged [Zero T] (now : T) (r r' : JobRecord T) : Prop :=
  r' = r ∨ r.expired now = true ∧ r' = r.lapse now

/-- **The life of a job**: what a call can do to the record under one id. -/
inductive Move [Zero T] [Add T] (c : QueueConfig T) (id : String) (ev : Event T) :
    Option (JobRecord T) → Option (JobRecord T) → Prop
  | stay (r? : Option (JobRecord T)) (quiet : Event.effect id ev = none) : Move c id ev r? r?
  | lapsed {now : T} {r : JobRecord T} (quiet : Event.effect id ev = none)
    (clock : ev.1.now? = some now) (expired : r.expired now = true) :
    Move c id ev (some r) (some (r.lapse now))
  | added (r? : Option (JobRecord T)) {job : NewJob T} {t₁ t₂ t₃ : T} (seq : ℤ)
    (add : ev.1 = .add job id t₁ t₂ t₃) :
    Move c id ev r? (some (job.record id seq (startTime t₁ job.delay) t₂))
  | claimed {now leaseUntil : T} {r r' : JobRecord T} (clock : ev.1.now? = some now)
    (aged : r.Aged now r') (claimable : r'.claimable now = true)
    (effect : Event.effect id ev = some (.claimed (r'.lease leaseUntil))) :
    Move c id ev (some r) (some (r'.lease leaseUntil))
  | completed {r : JobRecord T} (result : Option Bytes) (now : T) (held : r.HeldBy ev.1)
    (effect : Event.effect id ev = some .acked) :
    Move c id ev (some r) (some (r.complete result now))
  | forgotten {r : JobRecord T} (held : r.HeldBy ev.1)
    (effect : Event.effect id ev = some .acked) : Move c id ev (some r) none
  | buried {r : JobRecord T} (error : Option String) (now : T) (held : r.HeldBy ev.1)
    (last : r.maxAttempts ≤ r.attempts) (effect : Event.effect id ev = some (.nacked .dead)) :
    Move c id ev (some r) (some (r.bury error now))
  | requeued {r : JobRecord T} (error : Option String) (notBefore : T) (held : r.HeldBy ev.1)
    (more : r.attempts < r.maxAttempts) (effect : Event.effect id ev = some (.nacked .requeued)) :
    Move c id ev (some r) (some (r.requeue error notBefore))
  | purged {now : T} {r r' : JobRecord T} (sweep : ev.1 = .sweep now) (aged : r.Aged now r')
    (old : r'.stale c now ∨ r'.buried c now) : Move c id ev (some r) none

namespace Board

variable [Zero T]

/-- Some expired leases have been noticed by `now`. -/
def Lapses (now : T) (b b' : Board T) : Prop :=
  ∀ id, b' id = b id ∨ ∃ r, b id = some r ∧ r.expired now = true ∧ b' id = some (r.lapse now)

/-- A call moves every job on its own. -/
def Step [Add T] (c : QueueConfig T) (b : Board T) (ev : Event T) (b' : Board T) : Prop :=
  ∀ id, Move c id ev (b id) (b' id)

/-- A sequence of calls. -/
inductive Run [Add T] (c : QueueConfig T) : Board T → List (Event T) → Board T → Prop
  | nil (b : Board T) : Run c b [] b
  | cons {b b' b'' : Board T} {ev : Event T} {evs : List (Event T)} :
    Step c b ev b' → Run c b' evs b'' → Run c b (ev :: evs) b''

end Board

end Istos
