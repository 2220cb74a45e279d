import Istos.Queue.Equiv.Board

/-!
# No job without an entry

The heaps hold stale entries, and a popped entry that fails its test is dropped for good; so a job
is lost to the queue when the one entry that names it is dropped too early.  `QueueStore.Covered`
says that every job has the entry its state needs.  All operations keep it but one: `claim` drops
the entries of ready jobs whose `not_before` is later than the clock reading it brought with it.
`QueueStore.Timely` is the condition on the store under which it drops none of them
(`claim_covered`).
-/

namespace Istos

variable {T : Type} [LinearOrder T] [Zero T] [Add T]

/-- The entries a record needs: a ready job one in `_ready`, or one in `_delayed` under its
`not_before`; a leased job one in `_leases` under its `lease_until`; a completed job one in `_done`
under its expiry. -/
structure JobRecord.Indexed (c : QueueConfig T) (s : QueueStore T) (r : JobRecord T) : Prop where
  ready : r.state = .ready → r.readyEntry ∈ s.ready ∨ .mk r.notBefore r.id ∈ s.delayed
  leased : r.state = .leased → .mk r.leaseUntil r.id ∈ s.leases
  done : r.state = .done → .mk (r.completedAt + c.resultTtl) r.id ∈ s.done

/-- Every job has the entries it needs. -/
def QueueStore.Covered (c : QueueConfig T) (s : QueueStore T) : Prop :=
  ∀ id r, s.job id = some r → r.Indexed c s

variable {c : QueueConfig T}

omit [Zero T] in
/-- More entries do no harm. -/
theorem JobRecord.Indexed.mono {s s' : QueueStore T} {r : JobRecord T} (h : r.Indexed c s)
    (ready : ∀ k ∈ s.ready, k ∈ s'.ready) (delayed : ∀ e ∈ s.delayed, e ∈ s'.delayed)
    (leases : ∀ e ∈ s.leases, e ∈ s'.leases) (done : ∀ e ∈ s.done, e ∈ s'.done) :
    r.Indexed c s' where
  ready := fun hr => (h.ready hr).imp (ready _) (delayed _)
  leased := fun hr => leases _ (h.leased hr)
  done := fun hr => done _ (h.done hr)

omit [Zero T] in
theorem covered_init (c : QueueConfig T) : QueueStore.init.Covered c := by
  intro id r h
  cases h

/-! ### Expired leases -/

omit [Add T] in
theorem JobRecord.lapsed_of_expired {now : T} {r : JobRecord T} (h : r.expired now = true) :
    r.lapsed now = r.lapse now := by
  rw [JobRecord.lapsed, if_pos h]

omit [Add T] in
theorem JobRecord.lapsed_of_not_expired {now : T} {r : JobRecord T} (h : r.expired now = false) :
    r.lapsed now = r := by
  rw [JobRecord.lapsed, if_neg (Bool.not_eq_true _ ▸ h)]

omit [LinearOrder T] [Add T] in
@[simp] theorem JobRecord.readyEntry_lapse (now : T) (r : JobRecord T) :
    (r.lapse now).readyEntry = r.readyEntry := by
  unfold JobRecord.lapse
  split <;> rfl

omit [Add T] in
@[simp] theorem JobRecord.readyEntry_lapsed (now : T) (r : JobRecord T) :
    (r.lapsed now).readyEntry = r.readyEntry := by
  unfold JobRecord.lapsed
  split
  · exact r.readyEntry_lapse now
  · rfl

/-- In a covered store every expired lease is noticed. -/
theorem job_of_due (hc : QueueStore.Covered c s) {s' : QueueStore T} {now : T}
    (h : ∀ id, s'.job id = if ∃ e ∈ s.leases, e.time ≤ now ∧ e.id = id
      then (s.job id).map (JobRecord.lapsed now) else s.job id) (id : String) :
    s'.job id = (s.job id).map (JobRecord.lapsed now) := by
  rw [h id]
  split
  · rfl
  · rename_i hno
    cases hr : s.job id with
    | none => rfl
    | some r =>
      have hlive : r.expired now = false := by
        rw [Bool.eq_false_iff]
        intro hx
        obtain ⟨hleased, hle⟩ := JobRecord.expired_iff.mp hx
        exact hno ⟨_, (hc id r hr).leased hleased, hle, QueueStore.id_of_job hr⟩
      rw [Option.map_some, JobRecord.lapsed_of_not_expired hlive]

theorem reclaim_job {s : QueueStore T} (hc : s.Covered c) (now : T) (id : String) :
    (s.reclaimLeases now).1.job id = (s.job id).map (JobRecord.lapsed now) :=
  job_of_due hc (reclaimed s now).job id

theorem wake_job {s : QueueStore T} (hc : s.Covered c) (now : T) (id : String) :
    (s.wake now).1.job id = (s.job id).map (JobRecord.lapsed now) :=
  job_of_due hc (woken s now).job id

/-- A record that lapsed is reported. -/
theorem lapsed_mem {s : QueueStore T} (hc : s.Covered c) {lapsed : List (JobRecord T)} {now : T}
    (h : ∀ r, r ∈ lapsed ↔ ∃ e ∈ s.leases, e.time ≤ now ∧
      ∃ r₀, s.job e.id = some r₀ ∧ r₀.expired now = true ∧ r = r₀.lapse now) (r : JobRecord T) :
    r ∈ lapsed ↔ ∃ id r₀, s.job id = some r₀ ∧ r₀.expired now = true ∧ r = r₀.lapse now := by
  rw [h r]
  constructor
  · rintro ⟨e, -, -, r₀, hr₀, hx, rfl⟩
    exact ⟨e.id, r₀, hr₀, hx, rfl⟩
  · rintro ⟨id, r₀, hr₀, hx, rfl⟩
    obtain ⟨hleased, hle⟩ := JobRecord.expired_iff.mp hx
    have hid : r₀.id = id := QueueStore.id_of_job hr₀
    exact ⟨_, (hc id r₀ hr₀).leased hleased, hle, r₀, hid ▸ hr₀, hx, rfl⟩

omit [LinearOrder T] [Add T] in
theorem state_ready_of_lapse {now : T} {r : JobRecord T} (h : (r.lapse now).state = .ready) :
    (r.lapse now).notBefore = 0 := by
  unfold JobRecord.lapse at h ⊢
  split at h
  · cases h
  · rename_i hlt
    rw [if_neg hlt]

/-! ### The loops -/

omit [Zero T] in
theorem mature_covered {s : QueueStore T} (hc : s.Covered c) (now : T) :
    (s.matureDelayed now).Covered c := by
  obtain ⟨delayed, ready, h, hready, hdelayed⟩ := matureDelayed_spec s now
  rw [h]
  intro id r hr
  have hi := hc id r hr
  have hid : r.id = id := QueueStore.id_of_job hr
  refine ⟨fun hstate => ?_, hi.leased, hi.done⟩
  rcases hi.ready hstate with hk | he
  · exact Or.inl ((hready _).mpr (Or.inl hk))
  · rcases le_or_gt r.notBefore now with hle | hlt
    · have hclaim : r.claimable now = true := JobRecord.claimable_iff.mpr ⟨hstate, hle⟩
      exact Or.inl ((hready _).mpr (Or.inr ⟨_, he, hle, r, hid ▸ hr, hclaim, rfl⟩))
    · exact Or.inr ((hdelayed _).mpr ⟨he, hlt⟩)

theorem reclaim_covered {s : QueueStore T} (hc : s.Covered c) (now : T) :
    (s.reclaimLeases now).1.Covered c := by
  have hw := reclaimed s now
  intro id r' hr'
  rw [reclaim_job hc, Option.map_eq_some_iff] at hr'
  obtain ⟨r, hr, rfl⟩ := hr'
  have hi := hc id r hr
  cases hx : r.expired now with
  | true =>
    rw [JobRecord.lapsed_of_expired hx]
    have hmem : r.lapse now ∈ (s.reclaimLeases now).2 :=
      (lapsed_mem hc hw.changed _).mpr ⟨id, r, hr, hx, rfl⟩
    have hover : ∀ st, (r.lapse now).state = st → st = .ready ∨ st = .dead := by
      rintro st rfl
      rw [JobRecord.state_lapse]
      split <;> simp
    refine ⟨fun hstate => Or.inl ((hw.ready _).mpr (Or.inr ⟨_, hmem, hstate, rfl⟩)), ?_, ?_⟩
    · exact fun hstate => absurd (hover _ hstate) (by simp)
    · exact fun hstate => absurd (hover _ hstate) (by simp)
  | false =>
    rw [JobRecord.lapsed_of_not_expired hx]
    rw [Bool.eq_false_iff, Ne, JobRecord.expired_iff] at hx
    refine ⟨fun hstate => ?_, fun hstate => ?_, fun hstate => hw.done ▸ hi.done hstate⟩
    · rw [hw.delayed]
      exact (hi.ready hstate).imp_left fun hk => (hw.ready _).mpr (Or.inl hk)
    · exact (hw.leases _).mpr ⟨hi.leased hstate, not_le.mp fun hle => hx ⟨hstate, hle⟩⟩

theorem wake_covered {s : QueueStore T} (hc : s.Covered c) (now : T) : (s.wake now).1.Covered c :=
  reclaim_covered (mature_covered hc now) now

/-! ### Writing and forgetting -/

omit [Zero T] in
/-- A call that writes one record keeps the others' entries, and brings the one it writes. -/
theorem covered_of_update {s s' : QueueStore T} (hc : s.Covered c) {id : String}
    {r? : Option (JobRecord T)} (hjob : s'.job = Function.update s.job id r?)
    (mono : ∀ r : JobRecord T, r.Indexed c s → r.Indexed c s')
    (new : ∀ r, r? = some r → r.Indexed c s') : s'.Covered c := by
  intro j r hr
  rw [hjob, Function.update_apply] at hr
  split at hr
  · exact new r hr
  · exact mono r (hc j r hr)

omit [Zero T] in
theorem offerReady_covered {s : QueueStore T} {id : String} {r : JobRecord T} (hc : s.Covered c)
    (hid : r.id = id) (hstate : r.state = .ready) (now : T) :
    ({ s with jobs := s.jobs.put r }.offerReady r now).Covered c := by
  obtain ⟨delayed, ready, h, hdelayed, hready⟩ :=
    offerReady_spec { s with jobs := s.jobs.put r } r now
  rw [h]
  refine covered_of_update hc (get?_put_eq_update s.jobs hid) (fun q hq => ?_) fun q hq => ?_
  · exact hq.mono (fun k hk => (hready k).mpr (Or.inl hk))
      (fun e he => (hdelayed e).mpr (Or.inl he)) (fun e he => he) fun e he => he
  · obtain rfl := Option.some.inj hq
    refine ⟨fun _ => ?_, fun hl => ?_, fun hd => ?_⟩
    · rcases le_or_gt r.notBefore now with hle | hlt
      · exact Or.inl ((hready _).mpr (Or.inr ⟨hle, rfl⟩))
      · exact Or.inr ((hdelayed _).mpr (Or.inr ⟨hlt, rfl⟩))
    · rw [hstate] at hl
      cases hl
    · rw [hstate] at hd
      cases hd

omit [Zero T] in
theorem forget_covered {s : QueueStore T} (hc : s.Covered c) (id : String) :
    (QueueStore.forget c s id).1.Covered c :=
  covered_of_update hc (get?_erase_eq_update s.jobs id)
    (fun _ hq => ⟨hq.ready, hq.leased, hq.done⟩) fun r hr => by cases hr

/-- All stores an operation shows while it waits for storage are covered. -/
def AwaitsCovered (c : QueueConfig T) (awaits : List (Await T)) : Prop :=
  ∀ a ∈ awaits, a.store.Covered c

omit [Zero T] in
theorem forget_awaits {s : QueueStore T} (hc : s.Covered c) (id : String) :
    AwaitsCovered c (QueueStore.forget c s id).2 := by
  intro a ha
  have hstore : a.store = (QueueStore.forget c s id).1 := by
    simp only [QueueStore.forget, List.mem_cons, List.not_mem_nil, or_false] at ha
    rcases ha with rfl | rfl <;> rfl
  rw [hstore]
  exact forget_covered hc id

omit [Zero T] in
theorem forgetAll_covered {s : QueueStore T} (hc : s.Covered c) (ids : List String) :
    (QueueStore.forgetAll c s ids).1.Covered c ∧
      AwaitsCovered c (QueueStore.forgetAll c s ids).2 := by
  induction ids generalizing s with
  | nil => exact ⟨hc, by simp [QueueStore.forgetAll, AwaitsCovered]⟩
  | cons id ids ih =>
    obtain ⟨h₁, h₂⟩ := ih (forget_covered hc id)
    rw [forgetAll_cons]
    refine ⟨h₁, fun a ha => ?_⟩
    rcases List.mem_append.mp ha with ha | ha
    · exact forget_awaits hc id a ha
    · exact h₂ a ha

omit [Zero T] in
/-- The loop over `_done` drops the entry of a completed job only together with the job. -/
theorem purgeDone_covered {s : QueueStore T} (hc : s.Covered c) (now : T) :
    (s.purgeDone c now).1.Covered c ∧ AwaitsCovered c (s.purgeDone c now).2 := by
  let P : List (TimedEntry T) → Heap (TimedEntry T) → QueueStore T × List (Await T) → Prop :=
    fun _ h x => x.1.done = h ∧ x.1.Covered c ∧ AwaitsCovered c x.2
  have start : P [] s.done (s, []) := ⟨rfl, hc, by simp [AwaitsCovered]⟩
  have step : ∀ (popped : List (TimedEntry T)) (e : TimedEntry T)
      (rest h : Heap (TimedEntry T)) (x : QueueStore T × List (Await T)),
      h.toList = e :: rest.toList → TimedEntry.due now e = true → P popped h x →
      P (popped ++ [e]) rest (QueueStore.purgeDoneEntry c now e rest x) := by
    rintro popped e rest h ⟨s', awaits⟩ hlist hdue ⟨hdone, hc', haw⟩
    dsimp only at hdone hc' haw
    have hle : e.time ≤ now := of_decide_eq_true hdue
    have hsplit : ∀ e' ∈ s'.done, e' = e ∨ e' ∈ rest := by
      intro e' he'
      rw [hdone, Heap.mem_def, hlist] at he'
      exact List.mem_cons.mp he'
    -- what is left is covered, unless the popped entry was the one its job needs
    have hrest : ∀ id r, s'.job id = some r → ¬ (id = e.id ∧ r.stale c now) →
        r.Indexed c { s' with done := rest } := by
      intro id r hr hne
      have hi := hc' id r hr
      have hid : r.id = id := QueueStore.id_of_job hr
      refine ⟨hi.ready, hi.leased, fun hstate => ?_⟩
      refine (hsplit _ (hi.done hstate)).resolve_left ?_
      rintro rfl
      exact hne ⟨hid.symm, hstate, hle⟩
    unfold QueueStore.purgeDoneEntry
    cases hr : s'.jobs.get? e.id with
    | none =>
      refine ⟨by simp [hr], ?_, by simpa [hr] using haw⟩
      simp only [hr]
      refine fun id r hjob => hrest id r hjob ?_
      rintro ⟨rfl, -⟩
      have hnone : s'.job e.id = none := hr
      rw [QueueStore.job] at hnone
      cases hnone.symm.trans hjob
    | some r =>
      by_cases hst : r.stale c now
      · have hst' : r.state = .done ∧ r.completedAt + c.resultTtl ≤ now := hst
        simp only [hr, if_pos hst']
        have hforgot : (QueueStore.forget c { s' with done := rest } e.id).1.Covered c := by
          intro id q hq
          have hq' : (s'.jobs.erase e.id).get? id = some q := hq
          rw [Table.get?_erase] at hq'
          split at hq'
          · cases hq'
          · rename_i hne
            have hi := hrest id q hq' fun hbad => hne hbad.1
            exact ⟨hi.ready, hi.leased, hi.done⟩
        refine ⟨rfl, hforgot, fun a ha => ?_⟩
        rcases List.mem_append.mp ha with ha | ha
        · exact haw a ha
        · have hstore : a.store = (QueueStore.forget c { s' with done := rest } e.id).1 := by
            simp only [QueueStore.forget, List.mem_cons, List.not_mem_nil, or_false] at ha
            rcases ha with rfl | rfl <;> rfl
          rw [hstore]
          exact hforgot
      · have hst' : ¬ (r.state = .done ∧ r.completedAt + c.resultTtl ≤ now) := hst
        simp only [hr, if_neg hst']
        refine ⟨rfl, fun id q hq => hrest id q hq ?_, haw⟩
        rintro ⟨rfl, hbad⟩
        have hqr : q = r := Option.some.inj (hq.symm.trans hr)
        exact hst (hqr ▸ hbad)
  obtain ⟨⟨-, h⟩, -⟩ := Heap.drainWhile_rule P step start
  exact h

omit [Zero T] in
theorem dropChords_covered {s : QueueStore T} (hc : s.Covered c) (now : T) :
    (s.dropChords c now).Covered c := by
  obtain ⟨chords, h⟩ := dropChords_spec c s now
  rw [h]
  exact fun id r hr => (hc id r hr).mono (fun _ h => h) (fun _ h => h) (fun _ h => h) fun _ h => h

/-! ### `claim` -/

/-- A job that a claim at `now` may return, once the expired leases have lapsed. -/
def JobRecord.eligible (now : T) (r : JobRecord T) : Bool := (r.lapsed now).claimable now

/-- **The condition on a claim.**  Every ready job that is in `_ready` though its time has not come
has a job that may be returned before it in the order of `_ready`, or an entry in `_delayed` as
well. -/
def QueueStore.Timely (s : QueueStore T) (now : T) : Prop :=
  ∀ r ∈ s.jobs.rows, r.state = .ready → now < r.notBefore → r.readyEntry ∈ s.ready →
    .mk r.notBefore r.id ∉ s.delayed →
    ∃ q ∈ s.jobs.rows, q.eligible now = true ∧ q.readyEntry < r.readyEntry

instance (s : QueueStore T) (now : T) : Decidable (s.Timely now) :=
  inferInstanceAs (Decidable (∀ r ∈ s.jobs.rows, _))

/-- After the two loops the entry of an eligible job is in `_ready`. -/
theorem eligible_ready {s : QueueStore T} (hc : s.Covered c) {now : T} {id : String}
    {q : JobRecord T} (hq : s.job id = some q) (he : q.eligible now = true) :
    q.readyEntry ∈ (s.wake now).1.ready ∧
      QueueStore.claimEntry (s.wake now).1.jobs now q.readyEntry = some (q.lapsed now) := by
  have hid : q.id = id := QueueStore.id_of_job hq
  have hjob : (s.wake now).1.job id = some (q.lapsed now) := by
    rw [wake_job hc, hq, Option.map_some]
  have hclaim : (q.lapsed now).claimable now = true := he
  obtain ⟨hstate, hle⟩ := JobRecord.claimable_iff.mp hclaim
  refine ⟨?_, claimEntry_eq_some.mpr ⟨?_, hclaim⟩⟩
  · rcases (wake_covered hc now id _ hjob).ready hstate with hk | hd
    · rwa [JobRecord.readyEntry_lapsed] at hk
    · exact absurd (((woken s now).delayed _).mp hd).2 (not_lt.mpr hle)
  · rw [JobRecord.id_readyEntry, hid]
    exact hjob

/-- A ready job that is not due was ready before the two loops, with the same entries. -/
theorem early_of_wake {s : QueueStore T} (hc : s.Covered c) {now : T} (h0 : 0 ≤ now) {id : String}
    {r : JobRecord T} (hr : (s.wake now).1.job id = some r) (hstate : r.state = .ready)
    (hlt : now < r.notBefore) :
    s.job id = some r ∧ (r.readyEntry ∈ (s.wake now).1.ready → r.readyEntry ∈ s.ready) := by
  have hw := woken s now
  have hnot : ∀ q : JobRecord T, r = q.lapse now → False := by
    rintro q rfl
    rw [state_ready_of_lapse hstate] at hlt
    exact absurd h0 (not_le.mpr hlt)
  have hid : r.id = id := QueueStore.id_of_job hr
  have hjob : s.job id = some r := by
    rw [wake_job hc, Option.map_eq_some_iff] at hr
    obtain ⟨q, hq, rfl⟩ := hr
    cases hx : q.expired now with
    | true => exact (hnot q (JobRecord.lapsed_of_expired hx)).elim
    | false => rwa [JobRecord.lapsed_of_not_expired hx]
  refine ⟨hjob, fun hk => ?_⟩
  rcases (hw.ready _).mp hk with hk | ⟨e, -, -, q, hq, hclaim, hkey⟩ | ⟨q, hq, -, hkey⟩
  · exact hk
  · have hqid : q.id = id := by
      have hsame : r.id = q.id := congrArg ReadyEntry.id hkey
      rw [← hsame, hid]
    have hqr : q = r := by
      have heid : e.id = id := (QueueStore.id_of_job hq).symm.trans hqid
      rw [heid] at hq
      exact Option.some.inj (hq.symm.trans hjob)
    rw [hqr] at hclaim
    exact absurd (JobRecord.claimable_iff.mp hclaim).2 (not_le.mpr hlt)
  · obtain ⟨j, q₀, hq₀, hx, rfl⟩ := (lapsed_mem hc hw.changed _).mp hq
    have hsame : r.id = q₀.id := by
      have := congrArg ReadyEntry.id hkey
      rwa [JobRecord.readyEntry_lapse] at this
    have hj : j = id := by
      rw [← QueueStore.id_of_job hq₀, ← hsame, hid]
    rw [hj, hjob] at hq₀
    obtain rfl := Option.some.inj hq₀
    rw [(JobRecord.expired_iff.mp hx).1] at hstate
    cases hstate

/-- **`claim`** keeps every job covered if it comes at the right time. -/
theorem claim_covered {s : QueueStore T} (hc : s.Covered c) {now : T} (h0 : 0 ≤ now)
    (ht : s.Timely now) (lease : T) :
    (s.claim now lease).store.Covered c ∧ AwaitsCovered c (s.claim now lease).awaits := by
  have hcw := wake_covered hc now
  have hwrites : AwaitsCovered c ((s.wake now).1.writeJobs (s.wake now).2) := by
    intro a ha
    obtain ⟨r, -, rfl⟩ := List.mem_map.mp ha
    exact hcw
  -- an early job with no entry in `_delayed` has an accepted entry before its own
  have hahead : ∀ id r, (s.wake now).1.job id = some r → r.state = .ready → now < r.notBefore →
      r.readyEntry ∈ (s.wake now).1.ready → .mk r.notBefore r.id ∉ (s.wake now).1.delayed →
      ∃ k ∈ (s.wake now).1.ready, k < r.readyEntry ∧
        QueueStore.claimEntry (s.wake now).1.jobs now k ≠ none := by
    intro id r hr hstate hlt hk hd
    obtain ⟨hjob, hback⟩ := early_of_wake hc h0 hr hstate hlt
    have hd' : .mk r.notBefore r.id ∉ s.delayed := fun hmem =>
      hd (((woken s now).delayed _).mpr ⟨hmem, hlt⟩)
    obtain ⟨q, hq, he, hkey⟩ := ht r (Table.mem_of_get? hjob) hstate hlt (hback hk) hd'
    obtain ⟨hqk, hfound⟩ := eligible_ready hc (Table.mem_rows_iff.mp hq) he
    exact ⟨_, hqk, hkey, by rw [hfound]; exact Option.some_ne_none _⟩
  rcases claim_cases s now lease with ⟨h, hnone⟩ | ⟨pre, k, rest, r, hlist, hpre, hr, hclaim, h⟩
  · rw [h]
    refine ⟨fun id q hq => ?_, hwrites⟩
    have hi := hcw id q hq
    refine ⟨fun hstate => ?_, hi.leased, hi.done⟩
    by_cases hd : TimedEntry.mk q.notBefore q.id ∈ (s.wake now).1.delayed
    · exact Or.inr hd
    · have hk := (hi.ready hstate).resolve_right hd
      rcases le_or_gt q.notBefore now with hle | hlt
      · have hid : q.id = id := QueueStore.id_of_job hq
        have hno := claimEntry_eq_none.mp (hnone _ hk) q
          (by rw [JobRecord.id_readyEntry, hid]; exact hq)
        rw [JobRecord.claimable_iff.mpr ⟨hstate, hle⟩] at hno
        cases hno
      · obtain ⟨k, hk', -, hacc⟩ := hahead id q hq hstate hlt hk hd
        exact absurd (hnone k hk') hacc
  · rw [h]
    have hid : r.id = k.id := QueueStore.id_of_job hr
    have hfinal : ((s.wake now).1.leased rest (r.lease (now + lease))).Covered c := by
      intro id q hq
      have hq' : ((s.wake now).1.jobs.put (r.lease (now + lease))).get? id = some q := hq
      rw [Table.get?_put, JobRecord.id_lease] at hq'
      split at hq'
      · obtain rfl := Option.some.inj hq'
        refine ⟨fun hbad => ?_, fun _ => Heap.mem_push.mpr (Or.inl rfl), fun hbad => ?_⟩
        · cases hbad
        · cases hbad
      · rename_i hne
        have hi := hcw id q hq'
        refine ⟨fun hstate => ?_, fun hl => Heap.mem_push.mpr (Or.inr (hi.leased hl)), hi.done⟩
        by_cases hd : TimedEntry.mk q.notBefore q.id ∈ (s.wake now).1.delayed
        · exact Or.inr hd
        · have hk := (hi.ready hstate).resolve_right hd
          have hqid : q.id = id := QueueStore.id_of_job hq'
          -- the entry of another ready job is not the popped one, and not before it
          have hnk : q.readyEntry ≠ k := by
            intro hqk
            exact hne (hqid.symm.trans ((congrArg ReadyEntry.id hqk).trans hid.symm))
          have hnpre : q.readyEntry ∉ pre := by
            intro hmem
            have hno := claimEntry_eq_none.mp (hpre _ hmem) q
              (by rw [JobRecord.id_readyEntry, hqid]; exact hq')
            rcases le_or_gt q.notBefore now with hle | hlt
            · rw [JobRecord.claimable_iff.mpr ⟨hstate, hle⟩] at hno
              cases hno
            · obtain ⟨k', hk', hlt', hacc⟩ := hahead id q hq' hstate hlt hk hd
              have hsorted := (s.wake now).1.ready.sorted
              rw [hlist] at hsorted
              rw [Heap.mem_def, hlist] at hk'
              rcases List.mem_append.mp hk' with hk' | hk'
              · exact hacc (hpre k' hk')
              · exact absurd ((List.pairwise_append.mp hsorted).2.2 _ hmem _ hk') (not_le.mpr hlt')
          left
          rw [Heap.mem_def, hlist] at hk
          rcases List.mem_append.mp hk with hk | hk
          · exact absurd hk hnpre
          · exact (List.mem_cons.mp hk).resolve_left hnk
    refine ⟨hfinal, fun a ha => ?_⟩
    rcases List.mem_append.mp ha with ha | ha
    · exact hwrites a ha
    · obtain rfl := List.mem_singleton.mp ha
      exact hfinal

/-! ### Every call -/

/-- The condition on a call: a claim comes at the right time. -/
def Op.Timely (s : QueueStore T) : Op T → Prop
  | .claim now _ => s.Timely now
  | _ => True

instance (s : QueueStore T) : (op : Op T) → Decidable (op.Timely s)
  | .claim now _ => inferInstanceAs (Decidable (s.Timely now))
  | .add .. | .ack .. | .nack .. | .sweep _ => isTrue trivial

/-- The clock readings of the loops are not before the epoch. -/
def Op.SinceEpoch (op : Op T) : Prop := ∀ now, op.now? = some now → 0 ≤ now

/-- **One call**: the store is covered at its end, and whenever it waits for storage. -/
theorem perform_covered {s : QueueStore T} (hc : s.Covered c) {op : Op T} (h0 : op.SinceEpoch)
    (ht : op.Timely s) :
    (s.perform c op).store.Covered c ∧ AwaitsCovered c (s.perform c op).awaits := by
  have single : ∀ {s' : QueueStore T} (call : StorageCall T), s'.Covered c →
      AwaitsCovered c [⟨s', call⟩] := by
    intro s' call hs' a ha
    obtain rfl := List.mem_singleton.mp ha
    exact hs'
  cases op with
  | add job id t₁ t₂ t₃ =>
    have h : (s.add c job id t₁ t₂ t₃).store.Covered c := by
      have hc' : QueueStore.Covered c { s with
          seq := s.seq + 1
          ids := if id ∈ s.ids then s.ids else s.ids ++ [id] } := by
        exact fun j r hr =>
          (hc j r hr).mono (fun _ h => h) (fun _ h => h) (fun _ h => h) fun _ h => h
      exact offerReady_covered (r := job.record id (s.seq + 1) (startTime t₁ job.delay) t₂)
        hc' rfl rfl t₃
    refine ⟨h, fun a ha => ?_⟩
    have hstore : a.store = (s.add c job id t₁ t₂ t₃).store := by
      simp only [QueueStore.perform, QueueStore.add, List.mem_cons, List.not_mem_nil,
        or_false] at ha
      rcases ha with rfl | rfl <;> rfl
    rw [hstore]
    exact h
  | claim now lease => exact claim_covered hc (h0 now rfl) ht lease
  | ack id res attempt now =>
    rcases ack_cases c s id res attempt now with ⟨-, h⟩ | ⟨r, hjob, hold, ⟨-, h⟩ | ⟨-, h⟩⟩
    · simp only [QueueStore.perform, h]
      exact ⟨hc, by simp [AwaitsCovered]⟩
    · simp only [QueueStore.perform, h]
      have hid : r.id = id := QueueStore.id_of_job hjob
      have hkept : (s.retained c (r.complete res now)).Covered c := by
        refine covered_of_update hc (get?_put_eq_update s.jobs hid)
          (fun q hq => hq.mono (fun _ h => h) (fun _ h => h) (fun _ h => h)
            fun _ h => Heap.mem_push.mpr (Or.inr h)) fun q hq => ?_
        obtain rfl := Option.some.inj hq
        refine ⟨fun hbad => ?_, fun hbad => ?_, fun _ => Heap.mem_push.mpr (Or.inl rfl)⟩
        · cases hbad
        · cases hbad
      exact ⟨hkept, single _ hkept⟩
    · simp only [QueueStore.perform, h]
      exact ⟨forget_covered hc id, forget_awaits hc id⟩
  | nack id error delay attempt t₁ t₂ =>
    rcases nack_cases s id error delay attempt t₁ t₂ with
      ⟨-, h⟩ | ⟨r, hjob, hold, ⟨-, h⟩ | ⟨-, h⟩⟩
    · simp only [QueueStore.perform, h]
      exact ⟨hc, by simp [AwaitsCovered]⟩
    · simp only [QueueStore.perform, h]
      have hid : r.id = id := QueueStore.id_of_job hjob
      have hdead : QueueStore.Covered c { s with jobs := s.jobs.put (r.bury error t₁) } := by
        refine covered_of_update hc (get?_put_eq_update s.jobs hid)
          (fun q hq => hq.mono (fun _ h => h) (fun _ h => h) (fun _ h => h) fun _ h => h)
          fun q hq => ?_
        obtain rfl := Option.some.inj hq
        refine ⟨fun hbad => ?_, fun hbad => ?_, fun hbad => ?_⟩
        · cases hbad
        · cases hbad
        · cases hbad
      exact ⟨hdead, single _ hdead⟩
    · simp only [QueueStore.perform, h]
      have hid : r.id = id := QueueStore.id_of_job hjob
      have hback := offerReady_covered (r := r.requeue error (startTime t₁ delay)) hc hid rfl t₂
      exact ⟨hback, single _ hback⟩
  | sweep now =>
    have hr := reclaim_covered hc now
    obtain ⟨hp, hpa⟩ := purgeDone_covered hr now
    obtain ⟨buried, hbury, -, -⟩ := purgeDead_spec c ((s.reclaimLeases now).1.purgeDone c now).1 now
    obtain ⟨hb, hba⟩ := forgetAll_covered hp buried
    rw [← hbury] at hb hba
    refine ⟨dropChords_covered hb now, fun a ha => ?_⟩
    rcases List.mem_append.mp ha with ha | ha
    · rcases List.mem_append.mp ha with ha | ha
      · obtain ⟨r, -, rfl⟩ := List.mem_map.mp ha
        exact hr
      · exact hpa a ha
    · exact hba a ha

end Istos
