import Istos.Queue.Equiv.Cover

/-!
# The order in which jobs are claimed

What `claim` returns is specified by the job table alone: of the jobs that are `Open` at `now` the
one that comes `Before` all others.  The heaps only serve to find it.  Along a run whose clock does
not step back they do:

* every job has the entry its state needs (`QueueStore.Covered`);
* a ready job whose time has not come is in `_delayed`, an entry of `_ready` that names a job is
  the entry of that job as it was added, and no two jobs share a `seq` (`QueueStore.Ordered`).

So the tombstones that `claim` pops on its way hide no job, and the first entry it accepts is that
of the job it has to return (`claim_picks`).
-/

namespace Istos

variable {T : Type} [LinearOrder T]

/-! ### The specification -/

/-- The jobs that may be claimed at `now`: `READY` with `not_before <= now`, or `LEASED` with
`lease_until <= now` and attempts left. -/
def JobRecord.Open (now : T) (r : JobRecord T) : Prop :=
  r.state = .ready ∧ r.notBefore ≤ now ∨
    r.state = .leased ∧ r.leaseUntil ≤ now ∧ r.attempts < r.maxAttempts

instance (now : T) (r : JobRecord T) : Decidable (r.Open now) := by
  unfold JobRecord.Open
  infer_instance

/-- A higher priority comes first, and within a priority the lower `seq`. -/
def JobRecord.Before {T : Type} (r q : JobRecord T) : Prop :=
  q.priority < r.priority ∨ r.priority = q.priority ∧ r.seq < q.seq

/-- The clock readings of a call, in the order it takes them. -/
def Op.readings {T : Type} : Op T → List T
  | .add _ _ tNotBefore tEnqueued tOffer => [tNotBefore, tEnqueued, tOffer]
  | .claim now _ => [now]
  | .ack _ _ _ now => [now]
  | .nack _ _ _ _ tSet tOffer => [tSet, tOffer]
  | .sweep now => [now]

/-- The last clock reading of a call. -/
def Op.clock {T : Type} : Op T → T
  | .add _ _ _ _ tOffer => tOffer
  | .claim now _ => now
  | .ack _ _ _ now => now
  | .nack _ _ _ _ _ tOffer => tOffer
  | .sweep now => now

/-- A clock that shows `t` at first and does not step back during the calls. -/
def Clocked (t : T) (ops : List (Op T)) : Prop := (t :: ops.flatMap Op.readings).Pairwise (· ≤ ·)

instance (t : T) (ops : List (Op T)) : Decidable (Clocked t ops) :=
  inferInstanceAs (Decidable (List.Pairwise _ _))

theorem Op.clock_mem {T : Type} (op : Op T) : op.clock ∈ op.readings := by
  cases op <;> simp [Op.clock, Op.readings]

theorem Clocked.head {t : T} {op : Op T} {ops : List (Op T)} (h : Clocked t (op :: ops)) :
    ∀ x ∈ op.readings, t ≤ x := by
  intro x hx
  exact List.rel_of_pairwise_cons h (List.mem_append_left _ hx)

theorem Clocked.tail {t : T} {op : Op T} {ops : List (Op T)} (h : Clocked t (op :: ops)) :
    Clocked op.clock ops := by
  unfold Clocked at h ⊢
  rw [List.flatMap_cons] at h
  obtain ⟨-, hrest, hcross⟩ := List.pairwise_append.mp (List.pairwise_cons.mp h).2
  exact List.pairwise_cons.mpr ⟨hcross _ op.clock_mem, hrest⟩

/-! ### The place of a record in the order -/

theorem JobRecord.readyEntry_inj {T : Type} {r q : JobRecord T}
    (h : r.readyEntry = q.readyEntry) : r.priority = q.priority ∧ r.seq = q.seq ∧ r.id = q.id := by
  have hp : -r.priority = -q.priority := congrArg (fun e => (ofLex e).1) h
  have hs : r.seq = q.seq := congrArg (fun e => (ofLex (ofLex e).2).1) h
  exact ⟨neg_injective hp, hs, congrArg ReadyEntry.id h⟩

/-- The order of `_ready` is that of priority and `seq`. -/
theorem JobRecord.before_of_readyEntry_lt {T : Type} {r q : JobRecord T}
    (h : r.readyEntry < q.readyEntry) (hseq : r.seq ≠ q.seq) : r.Before q := by
  rcases Prod.Lex.toLex_lt_toLex.mp h with hp | ⟨hp, hrest⟩
  · exact Or.inl (neg_lt_neg_iff.mp hp)
  · rcases Prod.Lex.toLex_lt_toLex.mp hrest with hs | ⟨hs, -⟩
    · exact Or.inr ⟨neg_injective hp, hs⟩
    · exact absurd hs hseq

variable [Zero T] [Add T] {c : QueueConfig T}

omit [Add T] in
/-- What may be claimed at `now` is what is claimable once the expired leases have lapsed. -/
theorem JobRecord.eligible_iff {now : T} (h0 : 0 ≤ now) {r : JobRecord T} :
    r.eligible now = true ↔ r.Open now := by
  unfold JobRecord.eligible JobRecord.Open
  cases hx : r.expired now with
  | true =>
    obtain ⟨hleased, hle⟩ := JobRecord.expired_iff.mp hx
    rw [JobRecord.lapsed_of_expired hx, JobRecord.claimable_iff, JobRecord.state_lapse, hleased]
    constructor
    · rintro ⟨hstate, -⟩
      split at hstate
      · cases hstate
      · rename_i hlt
        exact Or.inr ⟨rfl, hle, not_le.mp hlt⟩
    · rintro (⟨hbad, -⟩ | ⟨-, -, hlt⟩)
      · cases hbad
      · have hstate : (r.lapse now).state = .ready := by
          rw [JobRecord.state_lapse, if_neg (not_le.mpr hlt)]
        rw [if_neg (not_le.mpr hlt), state_ready_of_lapse hstate]
        exact ⟨rfl, h0⟩
  | false =>
    rw [JobRecord.lapsed_of_not_expired hx, JobRecord.claimable_iff]
    rw [Bool.eq_false_iff, Ne, JobRecord.expired_iff] at hx
    constructor
    · exact Or.inl
    · rintro (h | ⟨hleased, hle, -⟩)
      · exact h
      · exact absurd ⟨hleased, hle⟩ hx

omit [LinearOrder T] [Zero T] [Add T] in
theorem JobRecord.SameJob.readyEntry {r r' : JobRecord T} (h : r.SameJob r') :
    r'.readyEntry = r.readyEntry := by
  rw [JobRecord.readyEntry, JobRecord.readyEntry, h.priority, h.seq, h.id]

/-! ### The invariant -/

/-- Every ready job whose time had not come when the clock showed `t` is in `_delayed`. -/
def QueueStore.Waits (s : QueueStore T) (t : T) : Prop :=
  ∀ id r, s.job id = some r → r.state = .ready → t < r.notBefore → .mk r.notBefore r.id ∈ s.delayed

/-- The state of a run in which the jobs `ids` were added and the clock shows `t`. -/
structure QueueStore.Ordered (s : QueueStore T) (t : T) (ids : List String) : Prop where
  waits : s.Waits t
  /-- An entry of `_ready` that names a job is the entry of that job. -/
  entry : ∀ k ∈ s.ready, k.id ∈ ids ∧ ∀ r, s.job k.id = some r → r.readyEntry = k
  known : ∀ id r, s.job id = some r → id ∈ ids ∧ r.seq ≤ s.seq
  apart : ∀ id id' r r', s.job id = some r → s.job id' = some r' → r.seq = r'.seq → id = id'

omit [Zero T] [Add T] in
theorem ordered_init (t : T) : (QueueStore.init : QueueStore T).Ordered t [] where
  waits := fun id r h => by cases h
  entry := fun k hk => absurd hk (Heap.not_mem_empty k)
  known := fun id r h => by cases h
  apart := fun id id' r r' h => by cases h

omit [Zero T] [Add T] in
theorem QueueStore.Waits.timely [Zero T] {s : QueueStore T} {t now : T} (h : s.Waits t)
    (hle : t ≤ now) : s.Timely now := by
  intro r hr hstate hlt hk hd
  exact absurd (h r.id r (Table.mem_rows_iff.mp hr) hstate (hle.trans_lt hlt)) hd

omit [Zero T] [Add T] in
/-- Writing a record that is not ready, or none, keeps the other jobs waiting. -/
theorem QueueStore.Waits.update {s s' : QueueStore T} {t t' : T} (h : s.Waits t) (hle : t ≤ t')
    {id : String} {r? : Option (JobRecord T)} (hjob : s'.job = Function.update s.job id r?)
    (hdelayed : ∀ e ∈ s.delayed, e ∈ s'.delayed)
    (new : ∀ r, r? = some r → r.state = .ready → t' < r.notBefore →
      .mk r.notBefore r.id ∈ s'.delayed) : s'.Waits t' := by
  intro j r hr hstate hlt
  rw [hjob, Function.update_apply] at hr
  split at hr
  · exact new r hr hstate hlt
  · exact hdelayed _ (h j r hr hstate (hle.trans_lt hlt))

/-! ### What a call adds to `_ready` -/

/-- The entries of `_ready` after a call are old ones or entries of jobs that were there. -/
def Entries (s s' : QueueStore T) : Prop :=
  ∀ k ∈ s'.ready, k ∈ s.ready ∨ ∃ id r, s.job id = some r ∧ k = r.readyEntry

theorem claim_ready {s : QueueStore T} (hc : s.Covered c) (now lease : T) :
    Entries s (s.claim now lease).store := by
  have hw := woken s now
  have hwake : ∀ k ∈ (s.wake now).1.ready,
      k ∈ s.ready ∨ ∃ id r, s.job id = some r ∧ k = r.readyEntry := by
    intro k hk
    rcases (hw.ready k).mp hk with hk | ⟨e, -, -, r, hr, -, rfl⟩ | ⟨r, hr, -, rfl⟩
    · exact Or.inl hk
    · exact Or.inr ⟨_, r, hr, rfl⟩
    · obtain ⟨id, r₀, hr₀, -, rfl⟩ := (lapsed_mem hc hw.changed r).mp hr
      exact Or.inr ⟨id, r₀, hr₀, r₀.readyEntry_lapse now⟩
  intro k hk
  rcases claim_cases s now lease with ⟨h, -⟩ | ⟨pre, k₀, rest, r, hlist, -, -, -, h⟩
  · rw [h] at hk
    exact absurd hk (Heap.not_mem_empty k)
  · rw [h] at hk
    refine hwake k ?_
    rw [Heap.mem_def, hlist]
    exact List.mem_append_right _ (List.mem_cons_of_mem _ hk)

theorem claim_waits {s : QueueStore T} (hc : s.Covered c) {t now : T} (h : s.Waits t)
    (h0 : 0 ≤ now) (hle : t ≤ now) (lease : T) : (s.claim now lease).store.Waits now := by
  have hw := woken s now
  have hwake : (s.wake now).1.Waits now := by
    intro id r hr hstate hlt
    obtain ⟨hjob, -⟩ := early_of_wake hc h0 hr hstate hlt
    exact (hw.delayed _).mpr ⟨h id r hjob hstate (hle.trans_lt hlt), hlt⟩
  rcases claim_cases s now lease with ⟨h', -⟩ | ⟨pre, k, rest, r, -, -, hr, -, h'⟩
  · rw [h']
    exact hwake
  · rw [h']
    have hid : r.id = k.id := QueueStore.id_of_job hr
    have hjob := get?_put_eq_update (s.wake now).1.jobs (r := r.lease (now + lease)) hid
    refine hwake.update le_rfl hjob (fun e he => he) fun q hq hstate => ?_
    obtain rfl := Option.some.inj hq
    cases hstate

theorem sweep_ready {s : QueueStore T} (hc : s.Covered c) (now : T) :
    Entries s (s.sweep c now).store := by
  have hw := reclaimed s now
  obtain ⟨gone, done, -, -, hstore, -, -⟩ := sweep_spec c s now
  obtain ⟨jobs, ids, hf, -, -⟩ := forgetAll_spec c (s.reclaimLeases now).1 gone
  intro k hk
  rw [hstore, hf] at hk
  obtain ⟨chords, hd⟩ := dropChords_spec c
    { (s.reclaimLeases now).1 with jobs := jobs, ids := ids, done := done } now
  rw [hd] at hk
  rcases (hw.ready k).mp hk with hk | ⟨r, hr, -, rfl⟩
  · exact Or.inl hk
  · obtain ⟨id, r₀, hr₀, -, rfl⟩ := (lapsed_mem hc hw.changed r).mp hr
    exact Or.inr ⟨id, r₀, hr₀, r₀.readyEntry_lapse now⟩

theorem sweep_waits {s : QueueStore T} (hc : s.Covered c) {t now : T} (h : s.Waits t)
    (h0 : 0 ≤ now) (hle : t ≤ now) : (s.sweep c now).store.Waits now := by
  have hw := reclaimed s now
  obtain ⟨gone, done, -, -, hstore, -, -⟩ := sweep_spec c s now
  obtain ⟨jobs, ids, hf, hjobs, -⟩ := forgetAll_spec c (s.reclaimLeases now).1 gone
  obtain ⟨chords, hd⟩ := dropChords_spec c
    { (s.reclaimLeases now).1 with jobs := jobs, ids := ids, done := done } now
  rw [hstore, hf, hd]
  intro id r hr hstate hlt
  have hr' : (s.reclaimLeases now).1.job id = some r := by
    have hget : jobs.get? id = some r := hr
    rw [hjobs id] at hget
    split at hget
    · cases hget
    · exact hget
  rw [reclaim_job hc, Option.map_eq_some_iff] at hr'
  obtain ⟨q, hq, rfl⟩ := hr'
  show _ ∈ (s.reclaimLeases now).1.delayed
  rw [hw.delayed]
  cases hx : q.expired now with
  | true =>
    rw [JobRecord.lapsed_of_expired hx] at hstate hlt
    rw [state_ready_of_lapse hstate] at hlt
    exact absurd h0 (not_le.mpr hlt)
  | false =>
    rw [JobRecord.lapsed_of_not_expired hx] at hstate hlt ⊢
    exact h id q hq hstate (hle.trans_lt hlt)

/-! ### Every call -/

/-- A call that adds no job leaves the entries and the numbers in order. -/
theorem ordered_of_entries {s s' : QueueStore T} {t t' : T} {ids : List String} {ev : Event T}
    (h : s.Ordered t ids) (hmove : Board.Step c s.job ev s'.job)
    (hadd : ev.1.addedId? = none) (hentries : Entries s s') (hseq : s'.seq = s.seq)
    (hwaits : s'.Waits t') : s'.Ordered t' ids := by
  have hback : ∀ id r', s'.job id = some r' → ∃ r, s.job id = some r ∧
      r'.readyEntry = r.readyEntry := by
    intro id r' hr'
    have hne : ev.1.addedId? ≠ some id := by
      rw [hadd]
      exact (Option.some_ne_none id).symm
    obtain ⟨r, hr, hsame⟩ := sameJob_of_move (hmove id) hne hr'
    exact ⟨r, hr, hsame.readyEntry⟩
  refine ⟨hwaits, fun k hk => ?_, fun id r' hr' => ?_, fun id id' r' q' hr' hq' hsame => ?_⟩
  · rcases hentries k hk with hk | ⟨id, r, hr, rfl⟩
    · obtain ⟨hmem, hown⟩ := h.entry k hk
      refine ⟨hmem, fun r' hr' => ?_⟩
      obtain ⟨r, hr, hkey⟩ := hback _ r' hr'
      exact hkey.trans (hown r hr)
    · have hid : r.id = id := QueueStore.id_of_job hr
      rw [JobRecord.id_readyEntry, hid]
      refine ⟨(h.known id r hr).1, fun r' hr' => ?_⟩
      obtain ⟨q, hq, hkey⟩ := hback _ r' hr'
      obtain rfl := Option.some.inj (hr.symm.trans hq)
      exact hkey
  · obtain ⟨r, hr, hkey⟩ := hback id r' hr'
    rw [hseq, (JobRecord.readyEntry_inj hkey).2.1]
    exact h.known id r hr
  · obtain ⟨r, hr, hkey⟩ := hback id r' hr'
    obtain ⟨q, hq, hkey'⟩ := hback id' q' hq'
    rw [(JobRecord.readyEntry_inj hkey).2.1, (JobRecord.readyEntry_inj hkey').2.1] at hsame
    exact h.apart id id' r q hr hq hsame

omit [Zero T] [Add T] in
/-- `_offer_ready` keeps the job it is given waiting, if its time has not come. -/
theorem offerReady_waits {s : QueueStore T} {t t' : T} (h : s.Waits t) (hle : t ≤ t')
    {id : String} {r : JobRecord T} (hid : r.id = id) :
    ({ s with jobs := s.jobs.put r }.offerReady r t').Waits t' ∧
      (∀ k ∈ ({ s with jobs := s.jobs.put r }.offerReady r t').ready,
        k ∈ s.ready ∨ k = r.readyEntry) ∧
      ({ s with jobs := s.jobs.put r }.offerReady r t').seq = s.seq := by
  obtain ⟨delayed, ready, ho, hdelayed, hready⟩ :=
    offerReady_spec { s with jobs := s.jobs.put r } r t'
  rw [ho]
  refine ⟨?_, fun k hk => ((hready k).mp hk).imp_right And.right, rfl⟩
  refine h.update hle (get?_put_eq_update s.jobs hid)
    (fun e he => (hdelayed e).mpr (Or.inl he)) fun q hq _ hlt => ?_
  obtain rfl := Option.some.inj hq
  exact (hdelayed _).mpr (Or.inr ⟨hlt, rfl⟩)

theorem add_ordered {s : QueueStore T} {t : T} {ids : List String} (h : s.Ordered t ids)
    (job : NewJob T) {id : String} (hnew : id ∉ ids) {t₁ t₂ t₃ : T} (hle : t ≤ t₃) :
    (s.add c job id t₁ t₂ t₃).store.Ordered t₃ (ids ++ [id]) := by
  let s₁ : QueueStore T :=
    { s with seq := s.seq + 1, ids := if id ∈ s.ids then s.ids else s.ids ++ [id] }
  let r : JobRecord T := job.record id (s.seq + 1) (startTime t₁ job.delay) t₂
  have hjob : (s.add c job id t₁ t₂ t₃).store.job = Function.update s.job id (some r) :=
    (job_offerReady _ _ _).trans (get?_put_eq_update s.jobs rfl)
  have hw₁ : s₁.Waits t := h.waits
  obtain ⟨hwaits, hready, hseq⟩ := offerReady_waits (r := r) hw₁ hle rfl
  have hfresh : ∀ q, s.job id ≠ some q := fun q hq => hnew (h.known id q hq).1
  have hcases : ∀ {j q}, (s.add c job id t₁ t₂ t₃).store.job j = some q →
      j = id ∧ q = r ∨ s.job j = some q := by
    intro j q hq
    rw [hjob, Function.update_apply] at hq
    split at hq
    · rename_i hj
      exact Or.inl ⟨hj, (Option.some.inj hq).symm⟩
    · exact Or.inr hq
  have hseq' : (s.add c job id t₁ t₂ t₃).store.seq = s.seq + 1 := hseq
  refine ⟨hwaits, fun k hk => ?_, fun j q hq => ?_, fun j j' q q' hq hq' hsame => ?_⟩
  · rcases hready k hk with hk | rfl
    · obtain ⟨hmem, hown⟩ := h.entry k hk
      refine ⟨List.mem_append_left _ hmem, fun q hq => ?_⟩
      rcases hcases hq with ⟨hk', -⟩ | hq
      · exact absurd (hk' ▸ hmem) hnew
      · exact hown q hq
    · refine ⟨List.mem_append_right _ (List.mem_singleton.mpr rfl), fun q hq => ?_⟩
      rcases hcases hq with ⟨-, rfl⟩ | hq
      · rfl
      · exact absurd hq (hfresh q)
  · rw [hseq']
    rcases hcases hq with ⟨rfl, rfl⟩ | hq
    · exact ⟨List.mem_append_right _ (List.mem_singleton.mpr rfl), le_rfl⟩
    · obtain ⟨hmem, hle⟩ := h.known j q hq
      exact ⟨List.mem_append_left _ hmem, by omega⟩
  · -- the new number is above all others
    have habove : ∀ {i p}, s.job i = some p → p.seq ≠ r.seq := by
      intro i p hp hbad
      have hlt := (h.known i p hp).2
      rw [hbad] at hlt
      have hr : r.seq = s.seq + 1 := rfl
      omega
    rcases hcases hq with ⟨rfl, rfl⟩ | hq
    · rcases hcases hq' with ⟨rfl, -⟩ | hq'
      · rfl
      · exact absurd hsame.symm (habove hq')
    · rcases hcases hq' with ⟨-, rfl⟩ | hq'
      · exact absurd hsame (habove hq)
      · exact h.apart j j' q q' hq hq' hsame

/-- **One call** keeps the store in order, if it adds no job a second time and the clock does not
step back. -/
theorem perform_ordered {s : QueueStore T} (hc : s.Covered c) {t : T} {ids : List String}
    (h : s.Ordered t ids) {op : Op T} (h0 : 0 ≤ t) (hclock : ∀ x ∈ op.readings, t ≤ x)
    (hnew : ∀ id, op.addedId? = some id → id ∉ ids) :
    (s.perform c op).store.Ordered op.clock (ids ++ op.addedId?.toList) := by
  have hle : t ≤ op.clock := hclock _ op.clock_mem
  have hmove := perform_step c s op
  cases op with
  | add job id t₁ t₂ t₃ => exact add_ordered (c := c) h job (hnew id rfl) hle
  | claim now lease =>
    rw [show (Op.claim now lease).addedId?.toList = [] from rfl, List.append_nil]
    refine ordered_of_entries h hmove rfl (claim_ready hc now lease) ?_
      (claim_waits hc h.waits (h0.trans hle) hle lease)
    have hseq := (woken s now).seq
    rcases claim_cases s now lease with ⟨h', -⟩ | ⟨pre, k, rest, r, -, -, -, -, h'⟩
    · simp only [QueueStore.perform, h']
      exact hseq
    · simp only [QueueStore.perform, h']
      exact hseq
  | ack id res attempt now =>
    rw [show (Op.ack id res attempt now).addedId?.toList = [] from rfl, List.append_nil]
    rcases ack_cases c s id res attempt now with ⟨-, h'⟩ | ⟨r, hjob, -, ⟨-, h'⟩ | ⟨-, h'⟩⟩
    · have hs : (s.perform c (.ack id res attempt now)).store = s := by
        simp only [QueueStore.perform, h']
      refine ordered_of_entries h hmove rfl (fun k hk => Or.inl (hs ▸ hk)) (by rw [hs]) ?_
      rw [hs]
      exact fun j r hr hstate hlt => h.waits j r hr hstate (hle.trans_lt hlt)
    · have hs : (s.perform c (.ack id res attempt now)).store
          = s.retained c (r.complete res now) := by
        simp only [QueueStore.perform, h']
      have hid : r.id = id := QueueStore.id_of_job hjob
      refine ordered_of_entries h hmove rfl (fun k hk => Or.inl (by rwa [hs] at hk))
        (by rw [hs]; rfl) ?_
      rw [hs]
      refine h.waits.update hle (get?_put_eq_update s.jobs (r := r.complete res now) hid)
        (fun e he => he) fun q hq hstate => ?_
      obtain rfl := Option.some.inj hq
      cases hstate
    · have hs : (s.perform c (.ack id res attempt now)).store = (QueueStore.forget c s id).1 := by
        simp only [QueueStore.perform, h']
      refine ordered_of_entries h hmove rfl (fun k hk => Or.inl (by rwa [hs] at hk))
        (by rw [hs]; rfl) ?_
      rw [hs]
      exact h.waits.update hle (get?_erase_eq_update s.jobs id) (fun e he => he)
        fun q hq => by cases hq
  | nack id error delay attempt t₁ t₂ =>
    rw [show (Op.nack id error delay attempt t₁ t₂).addedId?.toList = [] from rfl, List.append_nil]
    rcases nack_cases s id error delay attempt t₁ t₂ with
      ⟨-, h'⟩ | ⟨r, hjob, -, ⟨-, h'⟩ | ⟨-, h'⟩⟩
    · have hs : (s.perform c (.nack id error delay attempt t₁ t₂)).store = s := by
        simp only [QueueStore.perform, h']
      refine ordered_of_entries h hmove rfl (fun k hk => Or.inl (hs ▸ hk)) (by rw [hs]) ?_
      rw [hs]
      exact fun j r hr hstate hlt => h.waits j r hr hstate (hle.trans_lt hlt)
    · have hs : (s.perform c (.nack id error delay attempt t₁ t₂)).store
          = { s with jobs := s.jobs.put (r.bury error t₁) } := by
        simp only [QueueStore.perform, h']
      have hid : r.id = id := QueueStore.id_of_job hjob
      refine ordered_of_entries h hmove rfl (fun k hk => Or.inl (by rwa [hs] at hk)) (by rw [hs]) ?_
      rw [hs]
      refine h.waits.update hle (get?_put_eq_update s.jobs (r := r.bury error t₁) hid)
        (fun e he => he) fun q hq hstate => ?_
      obtain rfl := Option.some.inj hq
      cases hstate
    · have hs : (s.perform c (.nack id error delay attempt t₁ t₂)).store
          = { s with jobs := s.jobs.put (r.requeue error (startTime t₁ delay)) }.offerReady
              (r.requeue error (startTime t₁ delay)) t₂ := by
        simp only [QueueStore.perform, h']
      have hid : r.id = id := QueueStore.id_of_job hjob
      obtain ⟨hwaits, hready, hseq⟩ :=
        offerReady_waits (r := r.requeue error (startTime t₁ delay)) h.waits hle hid
      refine ordered_of_entries h hmove rfl (fun k hk => ?_) (by rw [hs]; exact hseq)
        (by rw [hs]; exact hwaits)
      rw [hs] at hk
      exact (hready k hk).imp_right fun hk => ⟨id, r, hjob, hk⟩
  | sweep now =>
    rw [show (Op.sweep now : Op T).addedId?.toList = [] from rfl, List.append_nil]
    refine ordered_of_entries h hmove rfl (sweep_ready hc now) ?_
      (sweep_waits hc h.waits (h0.trans hle) hle)
    obtain ⟨gone, done, -, -, hstore, -, -⟩ := sweep_spec c s now
    obtain ⟨jobs, ids', hf, -, -⟩ := forgetAll_spec c (s.reclaimLeases now).1 gone
    obtain ⟨chords, hd⟩ := dropChords_spec c
      { (s.reclaimLeases now).1 with jobs := jobs, ids := ids', done := done } now
    show (s.sweep c now).store.seq = s.seq
    rw [hstore, hf, hd]
    exact (reclaimed s now).seq

omit [LinearOrder T] [Zero T] [Add T] in
theorem Op.now?_mem {op : Op T} {now : T} (h : op.now? = some now) : now ∈ op.readings := by
  cases op <;> cases h <;> exact List.mem_singleton.mpr rfl

/-- **Every run** whose clock does not step back keeps the store covered and in order. -/
theorem run_ordered {s : QueueStore T} (hc : s.Covered c) {t : T} {ids : List String}
    (h : s.Ordered t ids) (h0 : 0 ≤ t) {ops : List (Op T)} (hclock : Clocked t ops)
    (hnew : (ids ++ addedIds ops).Nodup) :
    (s.run c ops).Covered c ∧
      ∃ t', 0 ≤ t' ∧ (s.run c ops).Ordered t' (ids ++ addedIds ops) ∧
        ∀ rest, Clocked t (ops ++ rest) → Clocked t' rest := by
  induction ops generalizing s t ids with
  | nil =>
    refine ⟨hc, t, h0, ?_, fun rest hr => hr⟩
    rw [show addedIds ([] : List (Op T)) = [] from rfl, List.append_nil]
    exact h
  | cons op ops ih =>
    have hle : t ≤ op.clock := hclock.head _ op.clock_mem
    have hids : addedIds (op :: ops) = op.addedId?.toList ++ addedIds ops := by
      unfold addedIds
      cases hop : op.addedId? with
      | none => rw [List.filterMap_cons_none hop, Option.toList_none, List.nil_append]
      | some id => rw [List.filterMap_cons_some hop, Option.toList_some, List.singleton_append]
    rw [hids, ← List.append_assoc] at hnew ⊢
    have hfresh : ∀ id, op.addedId? = some id → id ∉ ids := by
      intro id hid hmem
      have hd := (List.nodup_append.mp (List.nodup_append.mp hnew).1).2.2
      exact hd id hmem id (by rw [hid]; exact List.mem_singleton.mpr rfl) rfl
    have hepoch : op.SinceEpoch := fun now hnow =>
      h0.trans (hclock.head now (Op.now?_mem hnow))
    have htimely : op.Timely s := by
      cases op with
      | claim now lease => exact h.waits.timely hle
      | add job id t₁ t₂ t₃ => exact trivial
      | ack id res attempt now => exact trivial
      | nack id error delay attempt t₁ t₂ => exact trivial
      | sweep now => exact trivial
    have hstep := perform_ordered hc h h0 hclock.head hfresh
    obtain ⟨hc', t', h0', h', hrest⟩ := ih (perform_covered hc hepoch htimely).1 hstep
      (h0.trans hle) hclock.tail hnew
    refine ⟨hc', t', h0', h', fun rest hr => hrest rest ?_⟩
    rw [List.cons_append] at hr
    exact hr.tail

/-! ### The claim -/

/-- In a store that is covered and in order, `claim` returns the first of the open jobs. -/
theorem claim_first {s : QueueStore T} (hc : s.Covered c) {t : T} {ids : List String}
    (h : s.Ordered t ids) {now : T} (h0 : 0 ≤ now) (lease : T) :
    ((s.claim now lease).answer = none ↔ ∀ id r, s.job id = some r → ¬ r.Open now) ∧
    ∀ r', (s.claim now lease).answer = some r' → ∃ r, s.job r'.id = some r ∧ r.Open now ∧
      r' = (r.lapsed now).lease (now + lease) ∧
      ∀ id q, s.job id = some q → q.Open now → id ≠ r'.id → r.Before q := by
  have hentry : ∀ id q, s.job id = some q → q.Open now → q.readyEntry ∈ (s.wake now).1.ready ∧
      QueueStore.claimEntry (s.wake now).1.jobs now q.readyEntry ≠ none := by
    intro id q hq ho
    obtain ⟨hk, hacc⟩ := eligible_ready hc hq ((JobRecord.eligible_iff h0).mpr ho)
    exact ⟨hk, by rw [hacc]; exact Option.some_ne_none _⟩
  rcases claim_cases s now lease with ⟨h', hnone⟩ | ⟨pre, k, rest, p, hlist, hpre, hp, hclaim, h'⟩
  · rw [h']
    refine ⟨iff_of_true rfl fun id q hq ho => ?_, fun r' hr' => by cases hr'⟩
    obtain ⟨hk, hacc⟩ := hentry id q hq ho
    exact hacc (hnone _ hk)
  · -- the job that the accepted entry names, as it was before the call
    have hpid : p.id = k.id := QueueStore.id_of_job hp
    have hp' := hp
    rw [wake_job hc, Option.map_eq_some_iff] at hp'
    obtain ⟨r, hr, rfl⟩ := hp'
    rw [JobRecord.id_lapsed] at hpid
    have hopen : r.Open now := (JobRecord.eligible_iff h0).mp hclaim
    have hkr : k = r.readyEntry := by
      have hk : k ∈ (s.wake now).1.ready := by
        rw [Heap.mem_def, hlist]
        exact List.mem_append_right _ List.mem_cons_self
      rcases ((woken s now).ready k).mp hk with hk | ⟨e, -, -, q, hq, -, rfl⟩ | ⟨q', hq', -, rfl⟩
      · exact ((h.entry k hk).2 r hr).symm
      · rw [JobRecord.id_readyEntry, QueueStore.id_of_job hq] at hr
        rw [Option.some.inj (hr.symm.trans hq)]
      · obtain ⟨j, q, hq, -, rfl⟩ := (lapsed_mem hc (woken s now).changed q').mp hq'
        rw [JobRecord.readyEntry_lapse, JobRecord.id_readyEntry, QueueStore.id_of_job hq] at hr
        rw [JobRecord.readyEntry_lapse, Option.some.inj (hr.symm.trans hq)]
    rw [h']
    refine ⟨iff_of_false (Option.some_ne_none _) fun hall => hall _ r hr hopen, fun r' hr' => ?_⟩
    obtain rfl := Option.some.inj hr'
    have hid' : ((r.lapsed now).lease (now + lease)).id = k.id := by
      rw [JobRecord.id_lease, JobRecord.id_lapsed, hpid]
    rw [hid']
    refine ⟨r, hr, hopen, rfl, fun id q hq ho hne => ?_⟩
    obtain ⟨hk, hacc⟩ := hentry id q hq ho
    have hnpre : q.readyEntry ∉ pre := fun hmem => hacc (hpre _ hmem)
    -- the heap is sorted, and nothing before `k` could be claimed
    have hle : k ≤ q.readyEntry := by
      rw [Heap.mem_def, hlist] at hk
      have hsorted := (s.wake now).1.ready.sorted
      rw [hlist] at hsorted
      rcases List.mem_cons.mp ((List.mem_append.mp hk).resolve_left hnpre) with heq | hmem
      · exact heq.ge
      · exact List.rel_of_pairwise_cons (List.pairwise_append.mp hsorted).2.1 hmem
    have hseq : r.seq ≠ q.seq := fun hsame => hne (h.apart k.id id r q hr hq hsame).symm
    rw [hkr] at hle
    refine JobRecord.before_of_readyEntry_lt (lt_of_le_of_ne hle fun heq => ?_) hseq
    exact hseq (JobRecord.readyEntry_inj heq).2.1

/-- **`claim` picks the right job**: after every run of the store whose clock does not step back, a
claim at `now` returns nothing exactly when no job is open at `now`, and else the open job that
comes before all others. -/
theorem claim_picks (c : QueueConfig T) (ops : List (Op T)) (now lease : T)
    (fresh : (addedIds ops).Nodup) (clock : Clocked 0 (ops ++ [.claim now lease])) :
    let s := QueueStore.init.run c ops
    ((s.claim now lease).answer = none ↔ ∀ id r, s.job id = some r → ¬ r.Open now) ∧
    ∀ r', (s.claim now lease).answer = some r' → ∃ r, s.job r'.id = some r ∧ r.Open now ∧
      r' = (r.lapsed now).lease (now + lease) ∧
      ∀ id q, s.job id = some q → q.Open now → id ≠ r'.id → r.Before q := by
  have hops : Clocked 0 ops := by
    unfold Clocked at clock ⊢
    rw [List.flatMap_append, ← List.cons_append] at clock
    exact (List.pairwise_append.mp clock).1
  obtain ⟨hc, t, h0, h, hrest⟩ :=
    run_ordered (covered_init c) (ordered_init 0) le_rfl hops (by rwa [List.nil_append])
  have hle : t ≤ now := (hrest _ clock).head now (List.mem_singleton.mpr rfl)
  exact claim_first hc h (h0.trans hle) lease

/-- Of three jobs one is delayed, one is retried after a nack, and the one with the highest priority
loses its lease. -/
def mixedJobs : List (Op ℤ) :=
  [.add ⟨[], 3, 0, 5, none, none, none⟩ "late" 1 1 1,
    .add ⟨[], 3, 0, 0, none, none, none⟩ "low" 1 1 1, .claim 2 10,
    .add ⟨[], 3, 7, 0, none, none, none⟩ "high" 3 3 3,
    .nack "low" none 4 (some 1) 3 3, .claim 4 2]

theorem claim_picks_mixedJobs :
    (addedIds mixedJobs).Nodup ∧ Clocked 0 (mixedJobs ++ [.claim 7 10]) ∧
      ((QueueStore.init.run .defaults mixedJobs).claim 7 10).answer.map JobRecord.id = some "high" ∧
      ∀ r', ((QueueStore.init.run .defaults mixedJobs).claim 7 10).answer = some r' →
        ∃ r, (QueueStore.init.run .defaults mixedJobs).job r'.id = some r ∧ r.Open 7 ∧
          r' = (r.lapsed 7).lease (7 + 10) ∧
          ∀ id q, (QueueStore.init.run .defaults mixedJobs).job id = some q → q.Open 7 →
            id ≠ r'.id → r.Before q :=
  ⟨by decide, by decide, by decide,
    (claim_picks .defaults mixedJobs 7 10 (by decide) (by decide)).2⟩

end Istos
