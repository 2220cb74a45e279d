import Istos.Queue.Equiv.Budget
import Istos.Queue.Equiv.Cover

/-!
# What a sweep leaves behind

`sweep` finds expired leases and old results through heaps whose entries may be stale, and its
loops stop at the first entry whose time has not come.  `QueueStore.Noted` says that no lease and no
result goes without an entry under its own time.  Every call keeps it and `load` establishes it
(`run_noted`), whatever the clock does, so a sweep misses nothing: it carries every job on its own
to what `JobRecord.swept` says (`sweep_job`), and `sweep_exact` states what that means.
-/

namespace Istos

variable {T : Type} [LinearOrder T] [Zero T] [Add T] {c : QueueConfig T}

/-! ### The specification -/

omit [Zero T] in
instance (c : QueueConfig T) (now : T) (r : JobRecord T) : Decidable (r.stale c now) := by
  unfold JobRecord.stale
  infer_instance

instance (c : QueueConfig T) (now : T) (r : JobRecord T) : Decidable (r.buried c now) :=
  decidable_of_iff (∃ ttl ∈ c.deadLetterTtl, r.state = .dead ∧ r.completedAt ≠ 0 ∧
    r.completedAt + ttl ≤ now) Iff.rfl

/-- What a sweep makes of a record: an expired lease lapses, a retained result or a dead letter past
its TTL is forgotten, and any other record stays as it is. -/
def JobRecord.swept (c : QueueConfig T) (now : T) (r : JobRecord T) : Option (JobRecord T) :=
  if r.expired now then some (r.lapse now)
  else if r.stale c now ∨ r.buried c now then none
  else some r

/-! ### The entries a sweep relies on -/

/-- A leased record has its entry in `_leases`, a completed one its entry in `_done`. -/
structure JobRecord.Noted (c : QueueConfig T) (s : QueueStore T) (r : JobRecord T) : Prop where
  leased : r.state = .leased → .mk r.leaseUntil r.id ∈ s.leases
  done : r.state = .done → .mk (r.completedAt + c.resultTtl) r.id ∈ s.done

/-- No lease and no result goes without its entry. -/
def QueueStore.Noted (c : QueueConfig T) (s : QueueStore T) : Prop :=
  ∀ id r, s.job id = some r → r.Noted c s

omit [Zero T] in
theorem noted_init (c : QueueConfig T) : QueueStore.init.Noted c := by
  intro id r h
  cases h

omit [Zero T] in
/-- A ready or a dead record needs no entry. -/
theorem JobRecord.noted_of_idle {s : QueueStore T} {r : JobRecord T}
    (h : r.state = .ready ∨ r.state = .dead) : r.Noted c s := by
  refine ⟨fun hl => ?_, fun hd => ?_⟩
  · rw [hl] at h
    simp at h
  · rw [hd] at h
    simp at h

omit [Zero T] in
/-- A call that writes one record, or erases it, and keeps the entries. -/
theorem noted_of_update {s s' : QueueStore T} (hn : s.Noted c) {id : String}
    {r? : Option (JobRecord T)} (hjob : s'.job = Function.update s.job id r?)
    (leases : ∀ e ∈ s.leases, e ∈ s'.leases) (done : ∀ e ∈ s.done, e ∈ s'.done)
    (new : ∀ r, r? = some r → r.Noted c s') : s'.Noted c := by
  intro j r hr
  rw [hjob, Function.update_apply] at hr
  split at hr
  · exact new r hr
  · have hi := hn j r hr
    exact ⟨fun hl => leases _ (hi.leased hl), fun hd => done _ (hi.done hd)⟩

/-- Noticing every due lease leaves the entries of the others. -/
theorem noted_of_due {s s' : QueueStore T} (hn : s.Noted c) {now : T}
    (hjob : ∀ id, s'.job id = if ∃ e ∈ s.leases, e.time ≤ now ∧ e.id = id
      then (s.job id).map (JobRecord.lapsed now) else s.job id)
    (leases : ∀ e, e ∈ s'.leases ↔ e ∈ s.leases ∧ now < e.time) (done : s'.done = s.done) :
    (∀ id, s'.job id = (s.job id).map (JobRecord.lapsed now)) ∧ s'.Noted c := by
  have hlapsed : ∀ id, s'.job id = (s.job id).map (JobRecord.lapsed now) := by
    intro id
    rw [hjob id]
    split
    · rfl
    · rename_i hno
      cases hr : s.job id with
      | none => rfl
      | some r =>
        have hlive : r.expired now = false := by
          rw [Bool.eq_false_iff]
          intro hx
          obtain ⟨hleased, hle⟩ := JobRecord.expired_iff.mp hx
          exact hno ⟨_, (hn id r hr).leased hleased, hle, QueueStore.id_of_job hr⟩
        rw [Option.map_some, JobRecord.lapsed_of_not_expired hlive]
  refine ⟨hlapsed, fun id r' hr' => ?_⟩
  rw [hlapsed, Option.map_eq_some_iff] at hr'
  obtain ⟨r, hr, rfl⟩ := hr'
  cases hx : r.expired now with
  | true =>
    rw [JobRecord.lapsed_of_expired hx]
    apply JobRecord.noted_of_idle
    rw [JobRecord.state_lapse]
    split <;> simp
  | false =>
    rw [JobRecord.lapsed_of_not_expired hx]
    rw [Bool.eq_false_iff, Ne, JobRecord.expired_iff] at hx
    have hi := hn id r hr
    refine ⟨fun hl => ?_, fun hd => done ▸ hi.done hd⟩
    apply (leases _).mpr
    exact ⟨hi.leased hl, not_le.mp fun hle => hx ⟨hl, hle⟩⟩

/-! ### Every call keeps them -/

omit [Zero T] in
/-- `_offer_ready` touches neither `_leases` nor `_done`. -/
theorem offerReady_noted {s : QueueStore T} (hn : s.Noted c) {id : String} {r : JobRecord T}
    (hid : r.id = id) (hstate : r.state = .ready) (now : T) :
    ({ s with jobs := s.jobs.put r }.offerReady r now).Noted c := by
  obtain ⟨delayed, ready, h, -, -⟩ := offerReady_spec { s with jobs := s.jobs.put r } r now
  rw [h]
  refine noted_of_update hn (get?_put_eq_update s.jobs hid) (fun e he => he) (fun e he => he) ?_
  intro q hq
  obtain rfl := Option.some.inj hq
  exact JobRecord.noted_of_idle (Or.inl hstate)

theorem claim_noted {s : QueueStore T} (hn : s.Noted c) (now lease : T) :
    (s.claim now lease).store.Noted c := by
  have hw := woken s now
  obtain ⟨-, hwake⟩ := noted_of_due hn hw.job hw.leases hw.done
  rcases claim_cases s now lease with ⟨h, -⟩ | ⟨pre, k, rest, r, -, -, hr, -, h⟩
  · rw [h]
    intro id r hr
    exact ⟨(hwake id r hr).leased, (hwake id r hr).done⟩
  · rw [h]
    have hid : r.id = k.id := QueueStore.id_of_job hr
    have hpush : ∀ e ∈ (s.wake now).1.leases,
        e ∈ ((s.wake now).1.leased rest (r.lease (now + lease))).leases := by
      intro e he
      exact Heap.mem_push.mpr (Or.inr he)
    refine noted_of_update hwake
      (get?_put_eq_update (s.wake now).1.jobs (r := r.lease (now + lease)) hid) hpush
      (fun e he => he) ?_
    intro q hq
    obtain rfl := Option.some.inj hq
    refine ⟨fun _ => ?_, fun hd => ?_⟩
    · exact Heap.mem_push.mpr (Or.inl rfl)
    · cases hd

/-- In a store where every lease and result is noted, **a sweep treats every job on its own**. -/
theorem sweep_job {s : QueueStore T} (hn : s.Noted c) {now : T}
    (later : ∀ ttl, c.deadLetterTtl = some ttl → now < now + ttl) :
    (∀ id, (s.sweep c now).store.job id = (s.job id).bind (JobRecord.swept c now)) ∧
      (s.sweep c now).store.Noted c := by
  have hw := reclaimed s now
  obtain ⟨hlapsed, hnoted⟩ := noted_of_due hn hw.job hw.leases hw.done
  obtain ⟨gone, done, hgone, hdone, hstore, -, -⟩ := sweep_spec c s now
  obtain ⟨jobs, ids, hf, hjobs, -⟩ := forgetAll_spec c (s.reclaimLeases now).1 gone
  obtain ⟨chords, hd⟩ := dropChords_spec c
    { (s.reclaimLeases now).1 with jobs := jobs, ids := ids, done := done } now
  have hjob : ∀ id, (s.sweep c now).store.job id
      = if id ∈ gone then none else (s.reclaimLeases now).1.job id := by
    intro id
    rw [hstore, hf, hd]
    exact hjobs id
  -- a record that lapsed in this very sweep is not old enough to be forgotten
  have hgone' : ∀ id r, s.job id = some r →
      (id ∈ gone ↔ r.expired now = false ∧ (r.stale c now ∨ r.buried c now)) := by
    intro id r hr
    rw [hgone id, hlapsed id, hr, Option.map_some]
    have hid : r.id = id := QueueStore.id_of_job hr
    cases hx : r.expired now with
    | true =>
      rw [JobRecord.lapsed_of_expired hx]
      apply iff_of_false
      · rintro ⟨q, hq, ⟨-, hst, -⟩ | ⟨ttl, httl, hdead, -, hle⟩⟩
        · obtain rfl := Option.some.inj hq
          rw [JobRecord.state_lapse] at hst
          split at hst <;> cases hst
        · obtain rfl := Option.some.inj hq
          rw [JobRecord.state_lapse] at hdead
          split at hdead
          · rename_i hlast
            rw [JobRecord.lapse, if_pos hlast] at hle
            exact absurd hle (not_le.mpr (later ttl httl))
          · cases hdead
      · rintro ⟨hbad, -⟩
        cases hbad
    | false =>
      rw [JobRecord.lapsed_of_not_expired hx]
      constructor
      · rintro ⟨q, hq, h⟩
        obtain rfl := Option.some.inj hq
        exact ⟨rfl, h.imp_left And.right⟩
      · rintro ⟨-, hst | hb⟩
        · exact ⟨r, rfl, Or.inl ⟨⟨_, (hn id r hr).done hst.1, hst.2, hid⟩, hst⟩⟩
        · exact ⟨r, rfl, Or.inr hb⟩
  have hswept : ∀ id, (s.sweep c now).store.job id
      = (s.job id).bind (JobRecord.swept c now) := by
    intro id
    rw [hjob id, hlapsed id]
    cases hr : s.job id with
    | none =>
      rw [Option.map_none, ite_self, Option.bind_none]
    | some r =>
      rw [Option.map_some, Option.bind_some]
      cases hx : r.expired now with
      | true =>
        have hno : id ∉ gone := by
          rw [hgone' id r hr, hx]
          simp
        rw [if_neg hno, JobRecord.lapsed_of_expired hx, JobRecord.swept, if_pos hx]
      | false =>
        rw [JobRecord.lapsed_of_not_expired hx, JobRecord.swept, hx, if_neg Bool.false_ne_true]
        by_cases hg : r.stale c now ∨ r.buried c now
        · rw [if_pos ((hgone' id r hr).mpr ⟨hx, hg⟩), if_pos hg]
        · rw [if_neg fun hmem => hg ((hgone' id r hr).mp hmem).2, if_neg hg]
  refine ⟨hswept, fun id r' hr' => ?_⟩
  have hkept : id ∉ gone ∧ (s.reclaimLeases now).1.job id = some r' := by
    rw [hjob id] at hr'
    split at hr'
    · cases hr'
    · rename_i hmem
      exact ⟨hmem, hr'⟩
  have hi := hnoted id r' hkept.2
  rw [hstore, hf, hd]
  refine ⟨hi.leased, fun hst => ?_⟩
  apply (hdone _).mpr
  have hentry : .mk (r'.completedAt + c.resultTtl) r'.id ∈ s.done := hw.done ▸ hi.done hst
  refine ⟨hentry, not_le.mp fun hle => hkept.1 ?_⟩
  exact (hgone id).mpr ⟨r', hkept.2,
    Or.inl ⟨⟨_, hentry, hle, QueueStore.id_of_job hkept.2⟩, hst, hle⟩⟩

/-- **One call** keeps every lease and every result noted. -/
theorem perform_noted {s : QueueStore T} (hn : s.Noted c) (op : Op T)
    (later : ∀ now ttl, op = .sweep now → c.deadLetterTtl = some ttl → now < now + ttl) :
    (s.perform c op).store.Noted c := by
  cases op with
  | add job id t₁ t₂ t₃ =>
    let s₁ : QueueStore T :=
      { s with seq := s.seq + 1, ids := if id ∈ s.ids then s.ids else s.ids ++ [id] }
    have hn₁ : s₁.Noted c := fun id r hr => ⟨(hn id r hr).leased, (hn id r hr).done⟩
    exact offerReady_noted (r := job.record id (s.seq + 1) (startTime t₁ job.delay) t₂)
      hn₁ rfl rfl t₃
  | claim now lease => exact claim_noted hn now lease
  | ack id res attempt now =>
    rcases ack_cases c s id res attempt now with ⟨-, h⟩ | ⟨r, hjob, -, ⟨-, h⟩ | ⟨-, h⟩⟩
    · simp only [QueueStore.perform, h]
      exact hn
    · simp only [QueueStore.perform, h]
      have hid : r.id = id := QueueStore.id_of_job hjob
      have hpush : ∀ e ∈ s.done, e ∈ (s.retained c (r.complete res now)).done := by
        intro e he
        exact Heap.mem_push.mpr (Or.inr he)
      refine noted_of_update hn (get?_put_eq_update s.jobs (r := r.complete res now) hid)
        (fun e he => he) hpush ?_
      intro q hq
      obtain rfl := Option.some.inj hq
      refine ⟨fun hl => ?_, fun _ => ?_⟩
      · cases hl
      · exact Heap.mem_push.mpr (Or.inl rfl)
    · simp only [QueueStore.perform, h]
      exact noted_of_update hn (get?_erase_eq_update s.jobs id) (fun e he => he) (fun e he => he)
        fun q hq => by cases hq
  | nack id error delay attempt t₁ t₂ =>
    rcases nack_cases s id error delay attempt t₁ t₂ with ⟨-, h⟩ | ⟨r, hjob, -, ⟨-, h⟩ | ⟨-, h⟩⟩
    · simp only [QueueStore.perform, h]
      exact hn
    · simp only [QueueStore.perform, h]
      have hid : r.id = id := QueueStore.id_of_job hjob
      refine noted_of_update hn (get?_put_eq_update s.jobs (r := r.bury error t₁) hid)
        (fun e he => he) (fun e he => he) ?_
      intro q hq
      obtain rfl := Option.some.inj hq
      exact JobRecord.noted_of_idle (Or.inr rfl)
    · simp only [QueueStore.perform, h]
      have hid : r.id = id := QueueStore.id_of_job hjob
      exact offerReady_noted (r := r.requeue error (startTime t₁ delay)) hn hid rfl t₂
  | sweep now => exact (sweep_job hn fun ttl => later now ttl rfl).2

/-! ### Recovery and runs -/

omit [Zero T] in
/-- `load` gives the leases and results it reads the entries they need. -/
theorem loadRecord_noted {s : QueueStore T} (hn : s.Noted c) (r : JobRecord T) (now : T) :
    (s.loadRecord c r now).Noted c := by
  obtain ⟨hjob, -⟩ := loadRecord_spec c s r now
  unfold QueueStore.loadRecord at hjob ⊢
  dsimp only at hjob ⊢
  cases hstate : r.state with
  | ready =>
    rw [hstate] at hjob
    dsimp only at hjob ⊢
    let s₁ : QueueStore T := { s with
      ids := if r.id ∈ s.ids then s.ids else s.ids ++ [r.id]
      seq := max s.seq r.seq }
    have hn₁ : s₁.Noted c := fun id r hr => ⟨(hn id r hr).leased, (hn id r hr).done⟩
    exact offerReady_noted hn₁ rfl hstate now
  | leased =>
    rw [hstate] at hjob
    refine noted_of_update hn hjob (fun e he => Heap.mem_push.mpr (Or.inr he)) (fun e he => he) ?_
    intro q hq
    obtain rfl := Option.some.inj hq
    refine ⟨fun _ => Heap.mem_push.mpr (Or.inl rfl), fun hd => ?_⟩
    rw [hstate] at hd
    cases hd
  | done =>
    rw [hstate] at hjob
    refine noted_of_update hn hjob (fun e he => he) (fun e he => Heap.mem_push.mpr (Or.inr he)) ?_
    intro q hq
    obtain rfl := Option.some.inj hq
    refine ⟨fun hl => ?_, fun _ => Heap.mem_push.mpr (Or.inl rfl)⟩
    rw [hstate] at hl
    cases hl
  | dead =>
    rw [hstate] at hjob
    refine noted_of_update hn hjob (fun e he => he) (fun e he => he) ?_
    intro q hq
    obtain rfl := Option.some.inj hq
    exact JobRecord.noted_of_idle (Or.inr hstate)

/-- **Every run**, restarts included, keeps every lease and every result noted. -/
theorem run_noted {n : Node T} (hn : n.store.Noted c) (actions : List (NodeAction T))
    (later : ∀ now ttl, .call (.sweep now) ∈ actions → c.deadLetterTtl = some ttl →
      now < now + ttl) :
    (n.run c actions).store.Noted c := by
  induction actions generalizing n with
  | nil => exact hn
  | cons action actions ih =>
    refine ih ?_ fun now ttl hmem => later now ttl (List.mem_cons_of_mem _ hmem)
    cases action with
    | call op =>
      refine perform_noted hn op fun now ttl hop => later now ttl ?_
      rw [hop]
      exact List.mem_cons_self
    | restart clock =>
      exact load_rule (fun _ s => s.Noted c) (fun _ _ r n h => loadRecord_noted h r (clock n))
        (noted_init c)

/-! ### The sweep -/

/-- The leases that have expired. -/
def QueueStore.expiredLeases (s : QueueStore T) (now : T) : List (JobRecord T) :=
  s.jobs.rows.filter (JobRecord.expired now)

omit [Add T] in
/-- `_reclaim_leases` reports every expired lease once. -/
theorem length_reclaimed {s : QueueStore T} (now : T)
    (noted : ∀ id r, s.job id = some r → r.state = .leased → .mk r.leaseUntil r.id ∈ s.leases) :
    (s.reclaimLeases now).2.length = (s.expiredLeases now).length := by
  have hw := reclaimed s now
  have hnodup : ((s.expiredLeases now).map JobRecord.id).Nodup :=
    s.jobs.nodup.sublist ((List.filter_sublist).map _)
  have hperm : ((s.reclaimLeases now).2.map JobRecord.id).Perm
      ((s.expiredLeases now).map JobRecord.id) := by
    apply (List.perm_ext_iff_of_nodup hw.nodup hnodup).mpr
    intro id
    rw [List.mem_map, List.mem_map]
    constructor
    · rintro ⟨r, hr, rfl⟩
      obtain ⟨e, -, -, r₀, hr₀, hx, rfl⟩ := (hw.changed r).mp hr
      refine ⟨r₀, List.mem_filter.mpr ⟨Table.mem_of_get? hr₀, hx⟩, ?_⟩
      rw [JobRecord.id_lapse]
    · rintro ⟨r, hr, rfl⟩
      obtain ⟨hrow, hx⟩ := List.mem_filter.mp hr
      obtain ⟨hleased, hle⟩ := JobRecord.expired_iff.mp hx
      have hjob : s.job r.id = some r := Table.mem_rows_iff.mp hrow
      refine ⟨r.lapse now, (hw.changed _).mpr ?_, r.id_lapse now⟩
      exact ⟨_, noted r.id r hjob hleased, hle, r, hjob, hx, rfl⟩
  rw [← List.length_map JobRecord.id, hperm.length_eq, List.length_map]

/-- **A sweep does all of its work and nothing else.**  In every state that calls and restarts
reach, after a sweep at `now`, provided that at each of the run's sweeps the dead-letter TTL lies
ahead:

* no lease has run out by `now`, no result and no dead letter is past its TTL;
* every lease that had run out is ready, claimable and offered in `_ready` if attempts are left, and
  dead otherwise;
* every other job stands unchanged, unless it was a result or a dead letter past its TTL;
* the answer is the number of leases that had run out. -/
theorem sweep_exact (c : QueueConfig T) (actions : List (NodeAction T)) (now : T) (epoch : 0 ≤ now)
    (positive : ∀ t ttl : T, t = now ∨ .call (.sweep t) ∈ actions → c.deadLetterTtl = some ttl →
      t < t + ttl) :
    let s := (Node.init.run c actions).store
    let o := s.sweep c now
    (∀ id r, o.store.job id = some r →
      ¬ (r.state = .leased ∧ r.leaseUntil ≤ now) ∧
      ¬ (r.state = .done ∧ r.completedAt + c.resultTtl ≤ now) ∧
      ∀ ttl, c.deadLetterTtl = some ttl →
        ¬ (r.state = .dead ∧ r.completedAt ≠ 0 ∧ r.completedAt + ttl ≤ now)) ∧
    (∀ id r, s.job id = some r → r.state = .leased → r.leaseUntil ≤ now →
      ∃ r', o.store.job id = some r' ∧
        (r.attempts < r.maxAttempts →
          r'.state = .ready ∧ r'.claimable now = true ∧ r'.readyEntry ∈ o.store.ready) ∧
        (r.maxAttempts ≤ r.attempts → r'.state = .dead)) ∧
    (∀ id r, s.job id = some r → ¬ (r.state = .leased ∧ r.leaseUntil ≤ now) →
      (o.store.job id = none ↔ r.stale c now ∨ r.buried c now) ∧
      (¬ (r.stale c now ∨ r.buried c now) → o.store.job id = some r)) ∧
    (∀ id, s.job id = none → o.store.job id = none) ∧
    o.answer = (s.expiredLeases now).length := by
  intro s o
  have hn : s.Noted c := by
    apply run_noted (noted_init c) actions
    exact fun t ttl hmem => positive t ttl (Or.inr hmem)
  have hlater : ∀ ttl, c.deadLetterTtl = some ttl → now < now + ttl :=
    fun ttl => positive now ttl (Or.inl rfl)
  obtain ⟨hjob, -⟩ := sweep_job hn hlater
  have hjob : ∀ id, o.store.job id = (s.job id).bind (JobRecord.swept c now) := hjob
  refine ⟨fun id r' hr' => ?_, fun id r hr hleased hle => ?_, fun id r hr hlive => ?_,
    fun id hr => ?_, ?_⟩
  -- a record that is left was lapsed just now, or is none of those that have to go
  · rw [hjob, Option.bind_eq_some_iff] at hr'
    obtain ⟨r, hr, hswept⟩ := hr'
    unfold JobRecord.swept at hswept
    split_ifs at hswept with hx hg
    · obtain rfl := Option.some.inj hswept
      have hstate := JobRecord.state_lapse now r
      refine ⟨?_, ?_, ?_⟩
      · rintro ⟨hl, -⟩
        rw [hstate] at hl
        split at hl <;> cases hl
      · rintro ⟨hd, -⟩
        rw [hstate] at hd
        split at hd <;> cases hd
      · rintro ttl httl ⟨hd, -, hle⟩
        rw [hstate] at hd
        split at hd
        · rename_i hlast
          rw [JobRecord.lapse, if_pos hlast] at hle
          exact absurd hle (not_le.mpr (hlater ttl httl))
        · cases hd
    · obtain rfl := Option.some.inj hswept
      rw [JobRecord.expired_iff] at hx
      rw [not_or] at hg
      exact ⟨hx, hg.1, fun ttl httl hd => hg.2 ⟨ttl, httl, hd⟩⟩
  -- a lapsed lease: the record is offered again, or its attempts are used up
  · have hx : r.expired now = true := JobRecord.expired_iff.mpr ⟨hleased, hle⟩
    have hstate := JobRecord.state_lapse now r
    refine ⟨r.lapse now, ?_, fun hlt => ?_, fun hlast => ?_⟩
    · rw [hjob, hr, Option.bind_some, JobRecord.swept, if_pos hx]
    · rw [if_neg (not_le.mpr hlt)] at hstate
      refine ⟨hstate, ?_, ?_⟩
      · rw [JobRecord.claimable_iff, state_ready_of_lapse hstate]
        exact ⟨hstate, epoch⟩
      · have hw := reclaimed s now
        obtain ⟨gone, done, -, -, hstore, -, -⟩ := sweep_spec c s now
        obtain ⟨jobs, ids, hf, -, -⟩ := forgetAll_spec c (s.reclaimLeases now).1 gone
        obtain ⟨chords, hd⟩ := dropChords_spec c
          { (s.reclaimLeases now).1 with jobs := jobs, ids := ids, done := done } now
        have hready : o.store.ready = (s.reclaimLeases now).1.ready := by
          rw [show o.store = _ from hstore, hf, hd]
        have hid : r.id = id := QueueStore.id_of_job hr
        rw [hready, hw.ready]
        refine Or.inr ⟨r.lapse now, (hw.changed _).mpr ?_, hstate, rfl⟩
        exact ⟨_, (hn id r hr).leased hleased, hle, r, hid ▸ hr, hx, rfl⟩
    · rw [hstate, if_pos hlast]
  -- any other record goes when its time is over, and is not changed before
  · have hx : r.expired now = false := by
      rw [Bool.eq_false_iff, Ne, JobRecord.expired_iff]
      exact hlive
    have hafter : o.store.job id = if r.stale c now ∨ r.buried c now then none else some r := by
      rw [hjob, hr, Option.bind_some, JobRecord.swept, hx, if_neg Bool.false_ne_true]
    rw [hafter]
    refine ⟨?_, fun hg => if_neg hg⟩
    split
    · rename_i hg
      exact iff_of_true rfl hg
    · rename_i hg
      exact iff_of_false (Option.some_ne_none r) hg
  · rw [hjob, hr, Option.bind_none]
  · obtain ⟨-, -, -, -, -, -, hanswer⟩ := sweep_spec c s now
    rw [show o.answer = _ from hanswer]
    exact length_reclaimed now fun id r hr => (hn id r hr).leased

/-- A job whose lease runs out with its attempts used up, one with an attempt left, a result and a
dead letter past their TTLs, on an owner that was restarted. -/
def untidyJobs : List (NodeAction ℤ) :=
  [.call (.add ⟨[], 1, 3, 0, none, none, none⟩ "old" 1 1 1), .call (.claim 1 5),
    .call (.nack "old" none 0 (some 1) 2 2),
    .call (.add ⟨[], 1, 2, 0, none, none, none⟩ "last" 3 3 3),
    .call (.add ⟨[], 2, 1, 0, none, none, none⟩ "again" 3 3 3),
    .call (.claim 4 10), .call (.claim 4 20), .restart fun _ => 5]

theorem sweep_exact_untidyJobs :
    let s := (Node.init.run { QueueConfig.defaults with deadLetterTtl := some 20 } untidyJobs).store
    (s.sweep { QueueConfig.defaults with deadLetterTtl := some 20 } 30).answer = 2 ∧
      (s.expiredLeases 30).length = 2 ∧
      (s.sweep { QueueConfig.defaults with deadLetterTtl := some 20 } 30).answer
        = (s.expiredLeases 30).length :=
  ⟨by decide, by decide,
    (sweep_exact { QueueConfig.defaults with deadLetterTtl := some 20 } untidyJobs 30 (by decide)
      (by intro t ttl _ h; obtain rfl := Option.some.inj h; omega)).2.2.2.2⟩

end Istos
