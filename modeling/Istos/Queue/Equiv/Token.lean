import Istos.Queue.Equiv.Board
import Istos.Queue.Role

/-!
# The token on the wire

`_fence` reads the attempt number of an ack or a nack, and answers a query whose text `int` cannot
read as it answers one without any.  So an unreadable token opens the fence: a query with one is
carried out as soon as its job is leased to anyone (`token_fails_closed_iff`).
-/

namespace Istos

variable {T : Type}

/-! ### What the handlers read -/

theorem fence_eq {params : Params} {text : String} (h : params.lookup "attempt" = some text) :
    fence params = PyInt.parse text.toList := by
  rw [fence, h, Option.bind_some]

/-- The job an ack or a nack is about. -/
def queryJob (params : Params) : String := (params.lookup "job_id").getD ""

/-- The handler, the job and the token of a call that ends a lease. -/
def Op.settles? : Op T → Option (Verb × String × Option ℤ)
  | .ack id _ attempt _ => some (.ack, id, attempt)
  | .nack id _ _ attempt _ _ => some (.nack, id, attempt)
  | _ => none

/-- What an ack or a nack answers when it is refused. -/
def Verb.refused : Verb → Answer T
  | .nack => .nacked none
  | _ => .acked false

theorem settles_of_op [Zero T] {role : QueueRole T} {f : FloatText T} {verb : Verb}
    {params : Params} {payload : Bytes} {x : Readings T} {op : Op T}
    (hverb : verb = .ack ∨ verb = .nack) (h : role.op f verb params payload x = some op) :
    op.settles? = some (verb, queryJob params, fence params) := by
  rcases hverb with rfl | rfl
  · obtain rfl := Option.some.inj h
    rfl
  · obtain ⟨error, -, rfl⟩ := Option.map_eq_some_iff.mp h
    rfl

/-- Only the text of a nack can keep it from the store. -/
theorem op_eq_none_iff [Zero T] {role : QueueRole T} {f : FloatText T} {verb : Verb}
    {params : Params} {payload : Bytes} {x : Readings T} (hverb : verb = .ack ∨ verb = .nack) :
    role.op f verb params payload x = none ↔ verb = .nack ∧ Utf8.decode payload = none := by
  rcases hverb with rfl | rfl
  · exact iff_of_false (Option.some_ne_none _) fun h => by cases h.1
  · rw [QueueRole.op, Option.map_eq_none_iff]
    simp

/-! ### The fence -/

variable [LinearOrder T] [Zero T] [Add T]

/-- A call that does not come from the holder is refused and changes nothing. -/
theorem perform_refused (c : QueueConfig T) {s : QueueStore T} {op : Op T} {verb : Verb}
    {id : String} {attempt : Option ℤ} (hop : op.settles? = some (verb, id, attempt))
    (h : ∀ r, s.job id = some r → r.holdsLease attempt = false) :
    (s.perform c op).store = s ∧ (s.perform c op).answer = verb.refused := by
  cases op with
  | ack id' res attempt' now =>
    obtain ⟨rfl, rfl, rfl⟩ : verb = .ack ∧ id' = id ∧ attempt' = attempt := by
      simpa [Op.settles?, eq_comm] using hop
    rcases ack_cases c s id' res attempt' now with ⟨-, hack⟩ | ⟨r, hr, hold, -⟩
    · simp only [QueueStore.perform, hack]
      exact ⟨trivial, rfl⟩
    · rw [h r hr] at hold
      cases hold
  | nack id' error delay attempt' t₁ t₂ =>
    obtain ⟨rfl, rfl, rfl⟩ : verb = .nack ∧ id' = id ∧ attempt' = attempt := by
      simpa [Op.settles?, eq_comm] using hop
    rcases nack_cases s id' error delay attempt' t₁ t₂ with ⟨-, hnack⟩ | ⟨r, hr, hold, -⟩
    · simp only [QueueStore.perform, hnack]
      exact ⟨trivial, rfl⟩
    · rw [h r hr] at hold
      cases hold
  | _ => cases hop

omit [Zero T] [Add T] in
/-- A record in another state is another record. -/
theorem update_job_ne {s s' : QueueStore T} {id : String} {r : JobRecord T}
    {r? : Option (JobRecord T)} (hr : s.job id = some r)
    (hjob : s'.job = Function.update s.job id r?) (h : ∀ r', r? = some r' → r'.state ≠ r.state) :
    s' ≠ s := by
  rintro rfl
  have hsame : some r = r? := by
    rw [← hr, hjob, Function.update_self]
  exact h r hsame.symm rfl

/-- A call that comes from the holder changes the job, and is not refused. -/
theorem perform_accepted (c : QueueConfig T) {s : QueueStore T} {op : Op T} {verb : Verb}
    {id : String} {attempt : Option ℤ} (hop : op.settles? = some (verb, id, attempt))
    {r : JobRecord T} (hr : s.job id = some r) (hold : r.holdsLease attempt = true) :
    (s.perform c op).store ≠ s ∧ (s.perform c op).answer ≠ verb.refused := by
  have hleased := (JobRecord.holdsLease_iff.mp hold).1
  have hid : r.id = id := QueueStore.id_of_job hr
  cases op with
  | ack id' res attempt' now =>
    obtain ⟨rfl, rfl, rfl⟩ : verb = .ack ∧ id' = id ∧ attempt' = attempt := by
      simpa [Op.settles?, eq_comm] using hop
    rcases ack_cases c s id' res attempt' now with ⟨hnot, -⟩ | ⟨q, hq, -, ⟨-, hack⟩ | ⟨-, hack⟩⟩
    · rw [hnot r hr] at hold
      cases hold
    · obtain rfl := Option.some.inj (hr.symm.trans hq)
      simp only [QueueStore.perform, hack]
      refine ⟨update_job_ne hr (get?_put_eq_update s.jobs (r := r.complete res now) hid) ?_, ?_⟩
      · rintro r' hr'
        obtain rfl := Option.some.inj hr'
        rw [hleased]
        exact fun h => by cases h
      · exact fun h => by cases h
    · simp only [QueueStore.perform, hack]
      refine ⟨update_job_ne hr (get?_erase_eq_update s.jobs id') ?_, fun h => by cases h⟩
      intro r' hr'
      cases hr'
  | nack id' error delay attempt' t₁ t₂ =>
    obtain ⟨rfl, rfl, rfl⟩ : verb = .nack ∧ id' = id ∧ attempt' = attempt := by
      simpa [Op.settles?, eq_comm] using hop
    rcases nack_cases s id' error delay attempt' t₁ t₂ with
      ⟨hnot, -⟩ | ⟨q, hq, -, ⟨-, hnack⟩ | ⟨-, hnack⟩⟩
    · rw [hnot r hr] at hold
      cases hold
    · obtain rfl := Option.some.inj (hr.symm.trans hq)
      simp only [QueueStore.perform, hnack]
      refine ⟨update_job_ne hr (get?_put_eq_update s.jobs (r := r.bury error t₁) hid) ?_, ?_⟩
      · rintro r' hr'
        obtain rfl := Option.some.inj hr'
        rw [hleased]
        exact fun h => by cases h
      · exact fun h => by cases h
    · obtain rfl := Option.some.inj (hr.symm.trans hq)
      have hjob := (job_offerReady
        { s with jobs := s.jobs.put (r.requeue error (startTime t₁ delay)) }
        (r.requeue error (startTime t₁ delay)) t₂).trans
        (get?_put_eq_update s.jobs (r := r.requeue error (startTime t₁ delay)) hid)
      simp only [QueueStore.perform, hnack]
      refine ⟨update_job_ne hr hjob ?_, fun h => by cases h⟩
      rintro r' hr'
      obtain rfl := Option.some.inj hr'
      rw [hleased]
      exact fun h => by cases h
  | _ => cases hop

/-- What the store is after the handler of a query that was let through. -/
def QueueRole.after (role : QueueRole T) (f : FloatText T) (s : QueueStore T) (verb : Verb)
    (params : Params) (payload : Bytes) (x : Readings T) : QueueStore T :=
  match role.op f verb params payload x with
  | none => s
  | some op => (s.perform role.config op).store

/-- **The fence fails closed** for an ack or nack with a token: the store changes only if the token
denotes the attempt number of the lease, and an unreadable one is refused. -/
structure FailsClosed (role : QueueRole T) (f : FloatText T) (s : QueueStore T) (verb : Verb)
    (params : Params) (payload : Bytes) (x : Readings T) (token : String) : Prop where
  denotes : role.after f s verb params payload x ≠ s →
    ∃ r, s.job (queryJob params) = some r ∧ r.state = .leased ∧
      PyInt.parse token.toList = some r.attempts
  refused : PyInt.parse token.toList = none → ∀ op, role.op f verb params payload x = some op →
    (s.perform role.config op).answer = verb.refused

/-- The fence fails closed **exactly when** the token can be read, or the job is not leased at all,
or the handler raises before it asks the store. -/
theorem token_fails_closed_iff (role : QueueRole T) (f : FloatText T)
    (s : QueueStore T) {verb : Verb} (hverb : verb = .ack ∨ verb = .nack) (params : Params)
    (payload : Bytes) (x : Readings T)
    {token : String} (htoken : params.lookup "attempt" = some token) :
    FailsClosed role f s verb params payload x token ↔
      PyInt.parse token.toList ≠ none ∨
        (∀ r, s.job (queryJob params) = some r → r.state ≠ .leased) ∨
        verb = .nack ∧ Utf8.decode payload = none := by
  have hfence := fence_eq htoken
  have hopen : role.op f verb params payload x = none ↔
      verb = .nack ∧ Utf8.decode payload = none := op_eq_none_iff hverb
  constructor
  · rintro ⟨hdenotes, -⟩
    by_contra hno
    simp only [not_or, not_not, not_forall] at hno
    obtain ⟨hnone, ⟨r, hr, hleased⟩, hop⟩ := hno
    rw [← hopen] at hop
    obtain ⟨op, hop⟩ := Option.ne_none_iff_exists'.mp hop
    -- a token that cannot be read counts as no token, and so holds every lease
    have hold : r.holdsLease (fence params) = true := by
      rw [hfence, hnone]
      exact JobRecord.holdsLease_iff.mpr ⟨hleased, fun k hk => by cases hk⟩
    have hafter : role.after f s verb params payload x = (s.perform role.config op).store := by
      rw [QueueRole.after, hop]
    have hchanged := (perform_accepted role.config (settles_of_op hverb hop) hr hold).1
    obtain ⟨q, -, -, hparse⟩ := hdenotes (hafter ▸ hchanged)
    rw [hnone] at hparse
    cases hparse
  · intro h
    refine ⟨fun hchanged => ?_, fun hnone op hop => ?_⟩
    · cases hop : role.op f verb params payload x with
      | none =>
        rw [QueueRole.after, hop] at hchanged
        exact absurd rfl hchanged
      | some op =>
        rw [QueueRole.after, hop] at hchanged
        have hsettles := settles_of_op hverb hop
        -- a change means that some record holds the lease under this token
        by_contra hno
        refine hchanged (perform_refused role.config hsettles fun r hr => ?_).1
        rw [Bool.eq_false_iff]
        intro hold
        rw [hfence, JobRecord.holdsLease_iff] at hold
        obtain ⟨hleased, hattempts⟩ := hold
        cases hparse : PyInt.parse token.toList with
        | some k =>
          refine hno ⟨r, hr, hleased, ?_⟩
          rw [hparse, hattempts k hparse]
        | none =>
          rcases h with hread | hidle | hraise
          · exact hread hparse
          · exact hidle r hr hleased
          · rw [← hopen, hop] at hraise
            cases hraise
    · refine (perform_refused role.config (settles_of_op hverb hop) fun r hr => ?_).2
      rcases h with hread | hidle | hraise
      · exact absurd hnone hread
      · rw [Bool.eq_false_iff]
        exact fun hold => hidle r hr (JobRecord.holdsLease_iff.mp hold).1
      · rw [← hopen, hop] at hraise
        cases hraise

/-! ### A readable and an unreadable token -/

/-- An owner of a queue. -/
def fencedRole : QueueRole ℤ := ⟨"jobs", 10, 3, .defaults⟩

/-- Times as integers. -/
def plainTimes : FloatText ℤ := ⟨intText, fun s => PyInt.parse s.toList⟩

/-- What the owner reads. -/
def fencedReadings : Readings ℤ := ⟨"", 5, 5, 5, 0, none, none⟩

/-- The second delivery of a job is under way. -/
def secondDelivery : QueueStore ℤ :=
  QueueStore.init.run .defaults [.add ⟨[], 3, 0, 0, none, none, none⟩ "a" 0 0 0, .claim 0 2,
    .claim 3 10]

/-- The worker of the first delivery comes back with its token. -/
theorem token_fails_closed_late :
    FailsClosed fencedRole plainTimes secondDelivery .ack [("job_id", "a"), ("attempt", "1")] []
      fencedReadings "1" :=
  (token_fails_closed_iff fencedRole plainTimes secondDelivery (.inl rfl)
    [("job_id", "a"), ("attempt", "1")] [] fencedReadings rfl).mpr (.inl (by decide))

/-- A token that no number can be read from ends the lease of the second worker. -/
theorem token_unreadable_opens :
    ¬ FailsClosed fencedRole plainTimes secondDelivery .ack [("job_id", "a"), ("attempt", "one")] []
      fencedReadings "one" ∧
      (secondDelivery.perform fencedRole.config (.ack "a" none none 5)).answer = .acked true := by
  refine ⟨fun h => ?_, by decide⟩
  have hanswer := h.refused (by decide) (.ack "a" none none 5) (by decide)
  revert hanswer
  decide

end Istos
