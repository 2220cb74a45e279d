import Istos.Queue.Equiv.Loops

/-!
# Every call is a step of the board

`claim_cases` and `sweep_spec` put the loops together into one specification for each of the two
operations that have loops.  `perform_step` then shows that every call moves the job table as
`Board.Step` says, and `run_board` that every sequence of calls is a `Board.Run`.
-/

namespace Istos

variable {T : Type} [LinearOrder T] [Zero T]

/-! ### The prelude of `claim` -/

/-- What `claim` does before it looks for a job: delayed entries mature, expired leases lapse. -/
structure Woken (now : T) (s s' : QueueStore T) (lapsed : List (JobRecord T)) : Prop where
  job : ∀ id, s'.job id = if ∃ e ∈ s.leases, e.time ≤ now ∧ e.id = id
    then (s.job id).map (JobRecord.lapsed now) else s.job id
  changed : ∀ r, r ∈ lapsed ↔ ∃ e ∈ s.leases, e.time ≤ now ∧
    ∃ r₀, s.job e.id = some r₀ ∧ r₀.expired now = true ∧ r = r₀.lapse now
  nodup : (lapsed.map JobRecord.id).Nodup
  ready : ∀ k, k ∈ s'.ready ↔ k ∈ s.ready ∨
    (∃ e ∈ s.delayed, e.time ≤ now ∧
      ∃ r, s.job e.id = some r ∧ r.claimable now = true ∧ k = r.readyEntry) ∨
    ∃ r ∈ lapsed, r.state = .ready ∧ k = r.readyEntry
  delayed : ∀ e, e ∈ s'.delayed ↔ e ∈ s.delayed ∧ now < e.time
  leases : ∀ e, e ∈ s'.leases ↔ e ∈ s.leases ∧ now < e.time
  ids : s'.ids = s.ids
  done : s'.done = s.done
  chords : s'.chords = s.chords
  seq : s'.seq = s.seq

/-- The two loops that open `claim`. -/
def QueueStore.wake (s : QueueStore T) (now : T) : QueueStore T × List (JobRecord T) :=
  (s.matureDelayed now).reclaimLeases now

theorem woken (s : QueueStore T) (now : T) : Woken now s (s.wake now).1 (s.wake now).2 := by
  unfold QueueStore.wake
  obtain ⟨delayed, ready, hs, hready, hdelayed⟩ := matureDelayed_spec s now
  rw [hs]
  obtain ⟨jobs', ready', leases', changed, hs', hjobs, hchanged, hnodup, hready', hleases⟩ :=
    reclaimLeases_spec { s with delayed := delayed, ready := ready } now
  rw [hs']
  exact {
    job := hjobs
    changed := hchanged
    nodup := hnodup
    ready := fun k => by rw [hready' k, hready k, or_assoc]
    delayed := hdelayed
    leases := hleases
    ids := rfl
    done := rfl
    chords := rfl
    seq := rfl }

/-! ### `claim` -/

omit [Zero T] in
theorem claimEntry_eq_some {jobs : JobTable T} {now : T} {k : ReadyEntry} {r : JobRecord T} :
    QueueStore.claimEntry jobs now k = some r ↔
      jobs.get? k.id = some r ∧ r.claimable now = true :=
  Option.filter_eq_some_iff

omit [Zero T] in
theorem claimEntry_eq_none {jobs : JobTable T} {now : T} {k : ReadyEntry} :
    QueueStore.claimEntry jobs now k = none ↔
      ∀ r, jobs.get? k.id = some r → r.claimable now = false := by
  rw [QueueStore.claimEntry, Option.filter_eq_none_iff]
  simp only [Bool.not_eq_true]

/-- The store after a claim that found `r`. -/
def QueueStore.leased [Add T] (s : QueueStore T) (rest : Heap ReadyEntry) (r : JobRecord T) :
    QueueStore T :=
  { s with
    ready := rest
    jobs := s.jobs.put r
    leases := s.leases.push (.mk r.leaseUntil r.id) }

/-- **`claim`**: either no entry of the ready heap was accepted and the heap is empty, or the first
entry that names a claimable job is popped with all before it, and that job is leased. -/
theorem claim_cases [Add T] (s : QueueStore T) (now lease : T) :
    let s' := (s.wake now).1
    let writes := s'.writeJobs (s.wake now).2
    (s.claim now lease = ⟨{ s' with ready := ∅ }, writes, none⟩ ∧
        ∀ k ∈ s'.ready, QueueStore.claimEntry s'.jobs now k = none) ∨
      ∃ pre k rest r, s'.ready.toList = pre ++ k :: rest.toList ∧
        (∀ x ∈ pre, QueueStore.claimEntry s'.jobs now x = none) ∧
        s'.job k.id = some r ∧ r.claimable now = true ∧
        s.claim now lease = ⟨s'.leased rest (r.lease (now + lease)),
          writes ++ [⟨s'.leased rest (r.lease (now + lease)), .putJob (r.lease (now + lease))⟩],
          some (r.lease (now + lease))⟩ := by
  unfold QueueStore.claim QueueStore.wake
  cases hp : ((s.matureDelayed now).reclaimLeases now).1.ready.popUntil
      (QueueStore.claimEntry ((s.matureDelayed now).reclaimLeases now).1.jobs now) with
  | mk found rest =>
    cases found with
    | none =>
      obtain ⟨hnone, rfl⟩ := Heap.popUntil_none hp
      refine Or.inl ⟨?_, hnone⟩
      simp only [hp]
    | some r =>
      obtain ⟨pre, k, hlist, hpre, hk⟩ := Heap.popUntil_some hp
      obtain ⟨hget, hclaim⟩ := claimEntry_eq_some.mp hk
      refine Or.inr ⟨pre, k, rest, r, hlist, hpre, hget, hclaim, ?_⟩
      simp only [hp, JobRecord.fromDict_toDict]
      rfl

/-! ### `ack` and `nack` -/

omit [Zero T] in
theorem holder_or_not (s : QueueStore T) (id : String) (attempt : Option ℤ) :
    ((s.jobs.get? id).filter (fun r => r.holdsLease attempt) = none ∧
        ∀ r, s.job id = some r → r.holdsLease attempt = false) ∨
      ∃ r, (s.jobs.get? id).filter (fun r => r.holdsLease attempt) = some r ∧
        s.job id = some r ∧ r.holdsLease attempt = true := by
  cases h : (s.jobs.get? id).filter (fun r => r.holdsLease attempt) with
  | none =>
    refine Or.inl ⟨rfl, fun r hr => ?_⟩
    exact Bool.not_eq_true _ ▸ Option.filter_eq_none_iff.mp h r hr
  | some r =>
    obtain ⟨hjob, hold⟩ := Option.filter_eq_some_iff.mp h
    exact Or.inr ⟨r, rfl, hjob, hold⟩

/-- The store after an ack that keeps the result. -/
def QueueStore.retained [Add T] (c : QueueConfig T) (s : QueueStore T) (r : JobRecord T) :
    QueueStore T :=
  { s with jobs := s.jobs.put r, done := s.done.push (.mk (r.completedAt + c.resultTtl) r.id) }

/-- **`ack`** is refused unless it comes from the holder; then the result is kept or the job is
forgotten. -/
theorem ack_cases [Add T] (c : QueueConfig T) (s : QueueStore T) (id : String)
    (res : Option Bytes) (attempt : Option ℤ) (now : T) :
    ((∀ r, s.job id = some r → r.holdsLease attempt = false) ∧
        s.ack c id res attempt now = ⟨s, [], false⟩) ∨
      ∃ r, s.job id = some r ∧ r.holdsLease attempt = true ∧
        (c.keepResults = true ∧ s.ack c id res attempt now
            = ⟨s.retained c (r.complete res now),
              [⟨s.retained c (r.complete res now), .putJob (r.complete res now)⟩], true⟩ ∨
          c.keepResults = false ∧ s.ack c id res attempt now
            = ⟨(QueueStore.forget c s id).1, (QueueStore.forget c s id).2, true⟩) := by
  unfold QueueStore.ack
  rcases holder_or_not s id attempt with ⟨hf, hnot⟩ | ⟨r, hf, hjob, hold⟩
  · exact Or.inl ⟨hnot, by rw [hf]⟩
  · refine Or.inr ⟨r, hjob, hold, ?_⟩
    rw [hf]
    by_cases hk : c.keepResults = true
    · refine Or.inl ⟨hk, ?_⟩
      simp only [if_pos hk]
      rfl
    · refine Or.inr ⟨Bool.not_eq_true _ ▸ hk, ?_⟩
      simp only [if_neg hk]

/-- **`nack`** is refused unless it comes from the holder; then the job is dead after its last
attempt and is offered again before. -/
theorem nack_cases [Add T] (s : QueueStore T) (id : String) (error : Option String) (delay : T)
    (attempt : Option ℤ) (t₁ t₂ : T) :
    ((∀ r, s.job id = some r → r.holdsLease attempt = false) ∧
        s.nack id error delay attempt t₁ t₂ = ⟨s, [], none⟩) ∨
      ∃ r, s.job id = some r ∧ r.holdsLease attempt = true ∧
        (r.maxAttempts ≤ r.attempts ∧
            (let s' : QueueStore T := { s with jobs := s.jobs.put (r.bury error t₁) }
            s.nack id error delay attempt t₁ t₂
              = ⟨s', [⟨s', .putJob (r.bury error t₁)⟩], some .dead⟩) ∨
          r.attempts < r.maxAttempts ∧
            (let r' := r.requeue error (startTime t₁ delay)
            let s' := { s with jobs := s.jobs.put r' }.offerReady r' t₂
            s.nack id error delay attempt t₁ t₂
              = ⟨s', [⟨s', .putJob r'⟩], some .requeued⟩)) := by
  unfold QueueStore.nack
  rcases holder_or_not s id attempt with ⟨hf, hnot⟩ | ⟨r, hf, hjob, hold⟩
  · exact Or.inl ⟨hnot, by rw [hf]⟩
  · refine Or.inr ⟨r, hjob, hold, ?_⟩
    rw [hf]
    by_cases hlast : r.maxAttempts ≤ r.attempts
    · refine Or.inl ⟨hlast, ?_⟩
      simp only [if_pos hlast]
    · refine Or.inr ⟨not_le.mp hlast, ?_⟩
      simp only [if_neg hlast]

/-! ### `sweep` -/

/-- What `_reclaim_leases` does on its own, in `sweep`. -/
structure Reclaimed (now : T) (s s' : QueueStore T) (lapsed : List (JobRecord T)) : Prop where
  job : ∀ id, s'.job id = if ∃ e ∈ s.leases, e.time ≤ now ∧ e.id = id
    then (s.job id).map (JobRecord.lapsed now) else s.job id
  changed : ∀ r, r ∈ lapsed ↔ ∃ e ∈ s.leases, e.time ≤ now ∧
    ∃ r₀, s.job e.id = some r₀ ∧ r₀.expired now = true ∧ r = r₀.lapse now
  nodup : (lapsed.map JobRecord.id).Nodup
  ready : ∀ k, k ∈ s'.ready ↔ k ∈ s.ready ∨ ∃ r ∈ lapsed, r.state = .ready ∧ k = r.readyEntry
  delayed : s'.delayed = s.delayed
  leases : ∀ e, e ∈ s'.leases ↔ e ∈ s.leases ∧ now < e.time
  ids : s'.ids = s.ids
  done : s'.done = s.done
  chords : s'.chords = s.chords
  seq : s'.seq = s.seq

theorem reclaimed (s : QueueStore T) (now : T) :
    Reclaimed now s (s.reclaimLeases now).1 (s.reclaimLeases now).2 := by
  obtain ⟨jobs, ready, leases, changed, hs, hjobs, hchanged, hnodup, hready, hleases⟩ :=
    reclaimLeases_spec s now
  rw [hs]
  exact {
    job := hjobs
    changed := hchanged
    nodup := hnodup
    ready := hready
    delayed := rfl
    leases := hleases
    ids := rfl
    done := rfl
    chords := rfl
    seq := rfl }

/-- **`sweep`**: expired leases lapse, then the retained results and the dead letters past their
TTL are forgotten, then stale barriers are dropped. -/
theorem sweep_spec [Add T] (c : QueueConfig T) (s : QueueStore T) (now : T) :
    let s' := (s.reclaimLeases now).1
    let changed := (s.reclaimLeases now).2
    ∃ gone done,
      (∀ id, id ∈ gone ↔ ∃ r, s'.job id = some r ∧
        ((∃ e ∈ s.done, e.time ≤ now ∧ e.id = id) ∧ r.stale c now ∨ r.buried c now)) ∧
      (∀ e, e ∈ done ↔ e ∈ s.done ∧ now < e.time) ∧
      (s.sweep c now).store
        = { (QueueStore.forgetAll c s' gone).1 with done := done }.dropChords c now ∧
      (s.sweep c now).calls
        = changed.map .putJob ++ (QueueStore.forgetAll c s' gone).2.map Await.call ∧
      (s.sweep c now).answer = changed.length := by
  intro s' changed
  have hr := reclaimed s now
  obtain ⟨purged, done, hpurge, hpurgeCalls, hpurged, -, hdone⟩ :=
    purgeDone_spec c (s.reclaimLeases now).1 now
  obtain ⟨jobs₁, ids₁, hf, hjobs₁, -⟩ := forgetAll_spec c (s.reclaimLeases now).1 purged
  obtain ⟨buried, hbury, -, hburied⟩ :=
    purgeDead_spec c ((s.reclaimLeases now).1.purgeDone c now).1 now
  rw [hr.done] at hpurged hdone
  refine ⟨purged ++ buried, done, fun id => ?_, hdone, ?_, ?_, rfl⟩
  · -- a dead letter is not a retained result, so it was still there to be buried
    have hjob : QueueStore.job ((s.reclaimLeases now).1.purgeDone c now).1 id
        = if id ∈ purged then none else (s.reclaimLeases now).1.job id := by
      rw [hpurge, hf]
      exact hjobs₁ id
    rw [List.mem_append, hpurged id, hburied id, hjob]
    constructor
    · rintro (⟨e, he, hle, rfl, r, hr, hst⟩ | ⟨r, hr, hb⟩)
      · exact ⟨r, hr, Or.inl ⟨⟨e, he, hle, rfl⟩, hst⟩⟩
      · split at hr
        · cases hr
        · exact ⟨r, hr, Or.inr hb⟩
    · rintro ⟨r, hr, ⟨⟨e, he, hle, rfl⟩, hst⟩ | hb⟩
      · exact Or.inl ⟨e, he, hle, rfl, r, hr, hst⟩
      · refine Or.inr ⟨r, ?_, hb⟩
        have hnot : id ∉ purged := by
          intro hmem
          obtain ⟨-, -, -, -, r', hr', hst, -⟩ := (hpurged id).mp hmem
          obtain ⟨-, -, hdead, -⟩ := hb
          have hrr : r' = r := Option.some.inj (hr'.symm.trans hr)
          rw [hrr, hdead] at hst
          cases hst
        rw [if_neg hnot]
        exact hr
  · have hstore : (s.sweep c now).store = (((s.reclaimLeases now).1.purgeDone c now).1.purgeDead
        c now).1.dropChords c now := rfl
    rw [hstore, hbury, hpurge, (forgetAll_with_done c _ done buried).1, forgetAll_append]
  · have hcalls : (s.sweep c now).calls = ((s.reclaimLeases now).1.writeJobs
        (s.reclaimLeases now).2 ++ ((s.reclaimLeases now).1.purgeDone c now).2
        ++ (((s.reclaimLeases now).1.purgeDone c now).1.purgeDead c now).2).map Await.call := rfl
    have hwrites : ((s.reclaimLeases now).1.writeJobs (s.reclaimLeases now).2).map Await.call
        = (s.reclaimLeases now).2.map .putJob := by
      rw [QueueStore.writeJobs, List.map_map]
      rfl
    rw [hcalls, List.map_append, List.map_append, hwrites, hpurgeCalls, hbury, hpurge,
      (forgetAll_with_done c _ done buried).2, forgetAll_append, List.map_append, List.append_assoc]

/-! ### The job table -/

omit [Zero T] in
theorem dropChords_spec [Add T] (c : QueueConfig T) (s : QueueStore T) (now : T) :
    ∃ chords, s.dropChords c now = { s with chords := chords } := by
  unfold QueueStore.dropChords
  cases c.chordTtl with
  | none => exact ⟨s.chords, rfl⟩
  | some ttl => exact ⟨_, rfl⟩

omit [Zero T] in
/-- `_offer_ready` pushes one entry, to the one heap or to the other. -/
theorem offerReady_spec (s : QueueStore T) (r : JobRecord T) (now : T) :
    ∃ delayed ready, s.offerReady r now = { s with delayed := delayed, ready := ready } ∧
      (∀ e, e ∈ delayed ↔ e ∈ s.delayed ∨ now < r.notBefore ∧ e = .mk r.notBefore r.id) ∧
      ∀ k, k ∈ ready ↔ k ∈ s.ready ∨ r.notBefore ≤ now ∧ k = r.readyEntry := by
  unfold QueueStore.offerReady
  by_cases h : now < r.notBefore
  · rw [if_pos h]
    refine ⟨s.delayed.push (.mk r.notBefore r.id), s.ready, rfl, fun e => ?_, fun k => ?_⟩
    · simp [h, or_comm]
    · simp [not_le.mpr h]
  · rw [if_neg h]
    refine ⟨s.delayed, s.ready.push r.readyEntry, rfl, fun e => ?_, fun k => ?_⟩
    · simp [h]
    · simp [not_lt.mp h, or_comm]

omit [Zero T] in
theorem job_offerReady (s : QueueStore T) (r : JobRecord T) (now : T) :
    (s.offerReady r now).job = s.job := by
  obtain ⟨delayed, ready, h, -⟩ := offerReady_spec s r now
  rw [h]
  rfl

omit [LinearOrder T] [Zero T] in
theorem get?_put_eq_update (jobs : JobTable T) {r : JobRecord T} {id : String} (h : r.id = id) :
    (jobs.put r).get? = Function.update jobs.get? id (some r) := by
  subst h
  funext j
  rw [Table.get?_put, Function.update_apply]

omit [LinearOrder T] [Zero T] in
theorem get?_erase_eq_update (jobs : JobTable T) (id : String) :
    (jobs.erase id).get? = Function.update jobs.get? id none := by
  funext j
  rw [Table.get?_erase, Function.update_apply]

theorem lapses_of_job {now : T} {b b' : Board T} {p : String → Prop} [DecidablePred p]
    (h : ∀ id, b' id = if p id then (b id).map (JobRecord.lapsed now) else b id) :
    Board.Lapses now b b' := by
  intro id
  rw [h id]
  split
  · cases hr : b id with
    | none => exact Or.inl rfl
    | some r =>
      rw [Option.map_some, JobRecord.lapsed]
      by_cases hx : r.expired now = true
      · rw [if_pos hx]
        exact Or.inr ⟨r, rfl, hx, rfl⟩
      · rw [if_neg hx]
        exact Or.inl rfl
  · exact Or.inl rfl

/-- A job that an event does not mention moves by the clock alone. -/
theorem move_of_lapses [Add T] (c : QueueConfig T) {now : T} {b b' : Board T} {id : String}
    {ev : Event T} (h : Board.Lapses now b b') (clock : ev.1.now? = some now)
    (quiet : ev.effect id = none) : Move c id ev (b id) (b' id) := by
  rcases h id with h | ⟨r, hr, hx, h⟩
  · rw [h]
    exact .stay _ quiet
  · rw [hr, h]
    exact .lapsed quiet clock hx

/-- What a lookup finds after the leases lapsed is what was there before, aged. -/
theorem aged_of_lapses {now : T} {b b' : Board T} {id : String} {r' : JobRecord T}
    (h : Board.Lapses now b b') (hr' : b' id = some r') :
    ∃ r, b id = some r ∧ r.Aged now r' := by
  rcases h id with h | ⟨r, hr, hx, h⟩
  · exact ⟨r', h ▸ hr', Or.inl rfl⟩
  · exact ⟨r, hr, Or.inr ⟨hx, Option.some.inj (hr'.symm.trans h)⟩⟩

/-- A call that writes one record moves that job and no other. -/
theorem step_of_update [Add T] (c : QueueConfig T) {b : Board T} {ev : Event T} {id : String}
    {r? : Option (JobRecord T)} (quiet : ∀ j, j ≠ id → ev.effect j = none)
    (move : Move c id ev (b id) r?) : Board.Step c b ev (Function.update b id r?) := by
  intro j
  by_cases hj : j = id
  · subst hj
    rw [Function.update_self]
    exact move
  · rw [Function.update_of_ne hj]
    exact .stay _ (quiet j hj)

omit [LinearOrder T] [Zero T] in
theorem JobRecord.holdsLease_iff {r : JobRecord T} {attempt : Option ℤ} :
    r.holdsLease attempt = true ↔ r.state = .leased ∧ ∀ k, attempt = some k → r.attempts = k := by
  unfold JobRecord.holdsLease
  cases attempt with
  | none => simp
  | some k => simp

omit [LinearOrder T] [Zero T] in
theorem heldBy_of_holdsLease {op : Op T} {r : JobRecord T} {attempt : Option ℤ}
    (h : r.holdsLease attempt = true) (htoken : op.token? = attempt) : r.HeldBy op := by
  unfold JobRecord.holdsLease at h
  obtain ⟨hstate, hattempt⟩ := Bool.and_eq_true_iff.mp h
  refine ⟨of_decide_eq_true hstate, fun k hk => ?_⟩
  rw [← htoken, hk] at hattempt
  exact of_decide_eq_true hattempt

/-- **One call**: every job moves as `Move` says. -/
theorem perform_step [Add T] (c : QueueConfig T) (s : QueueStore T) (op : Op T) :
    Board.Step c s.job (op, (s.perform c op).answer) (s.perform c op).store.job := by
  classical
  cases op with
  | add job id t₁ t₂ t₃ =>
    have h : (s.add c job id t₁ t₂ t₃).store.job = Function.update s.job id
        (some (job.record id (s.seq + 1) (startTime t₁ job.delay) t₂)) :=
      (job_offerReady _ _ _).trans (get?_put_eq_update s.jobs rfl)
    change Board.Step c s.job (_, .added id) (s.add c job id t₁ t₂ t₃).store.job
    rw [h]
    exact step_of_update c (fun j hj => if_neg (Ne.symm hj)) (.added _ (s.seq + 1) rfl)
  | claim now lease =>
    have hw := woken s now
    rcases claim_cases s now lease with ⟨h, -⟩ | ⟨pre, k, rest, r, -, -, hr, hc, h⟩
    · simp only [QueueStore.perform, h]
      exact fun id => move_of_lapses c (lapses_of_job hw.job) rfl rfl
    · simp only [QueueStore.perform, h]
      have hid : r.id = k.id := QueueStore.id_of_job hr
      have hlapses : Board.Lapses now s.job (s.wake now).1.job := lapses_of_job hw.job
      intro id
      have hjob : ((s.wake now).1.leased rest (r.lease (now + lease))).job id
          = Function.update (s.wake now).1.job r.id (some (r.lease (now + lease))) id :=
        congrFun (get?_put_eq_update (s.wake now).1.jobs rfl) id
      rw [hjob]
      by_cases hk : id = r.id
      · subst hk
        rw [Function.update_self]
        -- before it is claimed, the record may have lapsed in the same call
        obtain ⟨r₀, hr₀, haged⟩ := aged_of_lapses hlapses (hid ▸ hr)
        rw [hr₀]
        exact .claimed rfl haged hc (if_pos rfl)
      · rw [Function.update_of_ne hk]
        exact move_of_lapses c hlapses rfl (if_neg (Ne.symm hk))
  | ack id res attempt now =>
    rcases ack_cases c s id res attempt now with ⟨-, h⟩ | ⟨r, hjob, hold, ⟨-, h⟩ | ⟨-, h⟩⟩
    · simp only [QueueStore.perform, h]
      exact fun j => .stay _ rfl
    · simp only [QueueStore.perform, h]
      have hid : r.id = id := QueueStore.id_of_job hjob
      have hput : (s.retained c (r.complete res now)).job = Function.update s.job id _ :=
        get?_put_eq_update s.jobs hid
      rw [hput]
      refine step_of_update c (fun j hj => if_neg (Ne.symm hj)) ?_
      rw [hjob]
      exact .completed res now (heldBy_of_holdsLease hold rfl) (if_pos rfl)
    · simp only [QueueStore.perform, h]
      have herase : (QueueStore.forget c s id).1.job = Function.update s.job id none :=
        get?_erase_eq_update s.jobs id
      rw [herase]
      refine step_of_update c (fun j hj => if_neg (Ne.symm hj)) ?_
      rw [hjob]
      exact .forgotten (heldBy_of_holdsLease hold rfl) (if_pos rfl)
  | nack id error delay attempt t₁ t₂ =>
    rcases nack_cases s id error delay attempt t₁ t₂ with
      ⟨-, h⟩ | ⟨r, hjob, hold, ⟨hlast, h⟩ | ⟨hmore, h⟩⟩
    · simp only [QueueStore.perform, h]
      exact fun j => .stay _ rfl
    · simp only [QueueStore.perform, h]
      have hid : r.id = id := QueueStore.id_of_job hjob
      have hput : QueueStore.job { s with jobs := s.jobs.put (r.bury error t₁) }
          = Function.update s.job id _ := get?_put_eq_update s.jobs hid
      rw [hput]
      refine step_of_update c (fun j hj => if_neg (Ne.symm hj)) ?_
      rw [hjob]
      exact .buried error t₁ (heldBy_of_holdsLease hold rfl) hlast (if_pos rfl)
    · simp only [QueueStore.perform, h]
      have hid : r.id = id := QueueStore.id_of_job hjob
      have hput : QueueStore.job { s with
          jobs := s.jobs.put (r.requeue error (startTime t₁ delay)) }
          = Function.update s.job id _ := get?_put_eq_update s.jobs hid
      rw [job_offerReady, hput]
      refine step_of_update c (fun j hj => if_neg (Ne.symm hj)) ?_
      rw [hjob]
      exact .requeued error _ (heldBy_of_holdsLease hold rfl) hmore (if_pos rfl)
  | sweep now =>
    have hr := reclaimed s now
    obtain ⟨gone, done, hgone, -, hs, -, -⟩ := sweep_spec c s now
    obtain ⟨chords, hdrop⟩ := dropChords_spec c
      { (QueueStore.forgetAll c (s.reclaimLeases now).1 gone).1 with done := done } now
    obtain ⟨jobs', ids', hf, hjobs', -⟩ := forgetAll_spec c (s.reclaimLeases now).1 gone
    have hlapses : Board.Lapses now s.job (s.reclaimLeases now).1.job := lapses_of_job hr.job
    intro id
    have hjob : (s.sweep c now).store.job id
        = if id ∈ gone then none else (s.reclaimLeases now).1.job id := by
      rw [hs, hdrop, hf]
      exact hjobs' id
    simp only [QueueStore.perform]
    rw [hjob]
    -- the ids that the sweep drops are those of stale and of buried records
    by_cases hid : id ∈ gone
    · obtain ⟨r', hr', hold⟩ := (hgone id).mp hid
      obtain ⟨r, hr, haged⟩ := aged_of_lapses hlapses hr'
      rw [if_pos hid, hr]
      exact .purged rfl haged (hold.imp And.right fun hb => hb)
    · rw [if_neg hid]
      exact move_of_lapses c hlapses rfl rfl

/-- **Every sequence of calls** moves every job step by step. -/
theorem run_board [Add T] (c : QueueConfig T) (s : QueueStore T) (ops : List (Op T)) :
    Board.Run c s.job (s.history c ops) (s.run c ops).job := by
  induction ops generalizing s with
  | nil => exact .nil s.job
  | cons op ops ih => exact .cons (perform_step c s op) (ih _)

/-! ### What no call changes -/

/-- What a job keeps as long as it is there. -/
structure JobRecord.SameJob {T : Type} (r r' : JobRecord T) : Prop where
  id : r'.id = r.id
  data : r'.data = r.data
  maxAttempts : r'.maxAttempts = r.maxAttempts
  priority : r'.priority = r.priority
  seq : r'.seq = r.seq
  wf : r'.wf = r.wf

omit [LinearOrder T] [Zero T] in
theorem JobRecord.SameJob.refl (r : JobRecord T) : r.SameJob r := ⟨rfl, rfl, rfl, rfl, rfl, rfl⟩

omit [LinearOrder T] in
theorem JobRecord.sameJob_lapse (now : T) (r : JobRecord T) : r.SameJob (r.lapse now) := by
  unfold JobRecord.lapse
  split
  · exact ⟨rfl, rfl, rfl, rfl, rfl, rfl⟩
  · exact ⟨rfl, rfl, rfl, rfl, rfl, rfl⟩

/-- A call that does not add the job does not change what it keeps. -/
theorem sameJob_of_move [Add T] {c : QueueConfig T} {id : String} {ev : Event T}
    {r? r?' : Option (JobRecord T)} (h : Move c id ev r? r?') (hne : ev.1.addedId? ≠ some id)
    {r' : JobRecord T} (hr' : r?' = some r') : ∃ r, r? = some r ∧ r.SameJob r' := by
  cases h with
  | stay r? quiet => exact ⟨r', hr', .refl r'⟩
  | @lapsed now r quiet clock expired =>
    obtain rfl := Option.some.inj hr'
    exact ⟨r, rfl, r.sameJob_lapse now⟩
  | added r? seq add =>
    rw [add] at hne
    exact absurd rfl hne
  | @claimed now leaseUntil r q clock aged claimable effect =>
    obtain rfl := Option.some.inj hr'
    obtain rfl | ⟨-, rfl⟩ := aged
    · exact ⟨_, rfl, rfl, rfl, rfl, rfl, rfl, rfl⟩
    · have h := r.sameJob_lapse now
      exact ⟨r, rfl, h.id, h.data, h.maxAttempts, h.priority, h.seq, h.wf⟩
  | completed result now held effect =>
    obtain rfl := Option.some.inj hr'
    exact ⟨_, rfl, rfl, rfl, rfl, rfl, rfl, rfl⟩
  | forgotten held effect => cases hr'
  | buried error now held last effect =>
    obtain rfl := Option.some.inj hr'
    exact ⟨_, rfl, rfl, rfl, rfl, rfl, rfl, rfl⟩
  | requeued error notBefore held more effect =>
    obtain rfl := Option.some.inj hr'
    exact ⟨_, rfl, rfl, rfl, rfl, rfl, rfl, rfl⟩
  | purged sweep aged old => cases hr'

/-- A job keeps it over every run that does not add it again. -/
theorem sameJob_of_run [Add T] {c : QueueConfig T} {s : QueueStore T} {ops : List (Op T)}
    {id : String} (hfresh : id ∉ addedIds ops) {r' : JobRecord T}
    (hr' : (s.run c ops).job id = some r') : ∃ r, s.job id = some r ∧ r.SameJob r' := by
  induction ops generalizing s with
  | nil => exact ⟨r', hr', .refl r'⟩
  | cons op ops ih =>
    have hop : op.addedId? ≠ some id := by
      intro hop
      refine hfresh ?_
      rw [addedIds, List.filterMap_cons_some hop]
      exact List.mem_cons_self
    have hrest : id ∉ addedIds ops := by
      intro hmem
      obtain ⟨op', hop', hid⟩ := List.mem_filterMap.mp hmem
      exact hfresh (List.mem_filterMap.mpr ⟨op', List.mem_cons_of_mem _ hop', hid⟩)
    obtain ⟨r₁, hr₁, h₁⟩ := ih hrest hr'
    obtain ⟨r, hr, h⟩ := sameJob_of_move (perform_step c s op id) hop hr₁
    exact ⟨r, hr, h₁.id.trans h.id, h₁.data.trans h.data, h₁.maxAttempts.trans h.maxAttempts,
      h₁.priority.trans h.priority, h₁.seq.trans h.seq, h₁.wf.trans h.wf⟩

end Istos
