import Istos.Queue.Lock
import Mathlib.Algebra.Order.BigOperators.Group.Finset
import Istos.Queue.Equiv.Cover
import Istos.Queue.Equiv.Budget

/-!
# No job is lost while calls wait for the lock

A claim tests `not_before` against a clock reading from before it waited.  Meanwhile an `add` or a
`nack` may have put a job with a small delay into `_ready`, because its time came between the two
readings it took under the lock.  The claim then takes that entry for a tombstone and drops it
(`early_job_lost`).  `no_job_lost` says that nothing else goes wrong: as long as every claim is
`Timely` when it gets the lock, every job has the entries it needs in every state of every
interleaving, and claims alone will return every ready job (`claims_return`).
-/

namespace Istos

variable {T : Type} [LinearOrder T] [Zero T] [Add T] {c : QueueConfig T}

/-! ### Every interleaving -/

/-- The condition on a step: a claim that gets the lock comes at the right time. -/
def LockState.Timely (m : LockState T) : LockAction T → Prop
  | .enter t₁ t₂ t₃ => ∀ x ∈ m.waiting.head?, (x.2.op x.1 t₁ t₂ t₃).Timely m.store
  | _ => True

instance (m : LockState T) : (a : LockAction T) → Decidable (m.Timely a)
  | .enter .. => inferInstanceAs (Decidable (∀ x ∈ m.waiting.head?, _))
  | .tick _ | .arrive _ | .resume | .leave => isTrue trivial

/-- The store is covered, now and at the later suspensions of the call that holds the lock; no
clock reading is before the epoch. -/
structure LockState.Sound (c : QueueConfig T) (m : LockState T) : Prop where
  store : m.store.Covered c
  holder : ∀ stages, m.holder = some stages → ∀ s ∈ stages, s.Covered c
  clock : 0 ≤ m.clock
  waiting : ∀ x ∈ m.waiting, 0 ≤ x.1

theorem sound_init {clock : T} (h : 0 ≤ clock) : (LockState.init clock).Sound c where
  store := covered_init c
  holder := fun stages hs => by cases hs
  clock := h
  waiting := fun x hx => by cases hx

omit [LinearOrder T] [Zero T] [Add T] in
/-- The loops of a call use the reading from before it waited. -/
theorem now?_op {arrived t₁ t₂ t₃ now : T} {call : Call T}
    (h : (call.op arrived t₁ t₂ t₃).now? = some now) : now = arrived := by
  cases call with
  | claim lease => exact (Option.some.inj h).symm
  | sweep => exact (Option.some.inj h).symm
  | add job id => cases h
  | ack id res attempt => cases h
  | nack id error delay attempt => cases h

theorem stages_covered {s : QueueStore T} (hc : s.Covered c) {op : Op T} (h0 : op.SinceEpoch)
    (ht : op.Timely s) : ∀ s' ∈ LockState.stages (s.perform c op), s'.Covered c := by
  obtain ⟨hs, ha⟩ := perform_covered hc h0 ht
  intro s' hs'
  rcases List.mem_append.mp hs' with hs' | hs'
  · obtain ⟨a, hmem, rfl⟩ := List.mem_map.mp hs'
    exact ha a hmem
  · obtain rfl := List.mem_singleton.mp hs'
    exact hs

theorem sound_step (m : LockState T) (a : LockAction T) (m' : LockState T)
    (h : m.step c a = some m') (ht : m.Timely a) (hm : m.Sound c) : m'.Sound c := by
  cases a with
  | tick t =>
    simp only [LockState.step, Option.ite_none_right_eq_some, Option.some.injEq] at h
    obtain ⟨hle, rfl⟩ := h
    exact ⟨hm.store, hm.holder, hm.clock.trans hle, hm.waiting⟩
  | arrive call =>
    simp only [LockState.step, Option.some.injEq] at h
    subst h
    refine ⟨hm.store, hm.holder, hm.clock, fun x hx => ?_⟩
    rcases List.mem_append.mp hx with hx | hx
    · exact hm.waiting x hx
    · obtain rfl := List.mem_singleton.mp hx
      exact hm.clock
  | enter t₁ t₂ t₃ =>
    obtain ⟨clock, store, holder, waiting⟩ := m
    cases holder with
    | some stages => simp [LockState.step] at h
    | none =>
      cases waiting with
      | nil => simp [LockState.step] at h
      | cons x waiting =>
        obtain ⟨arrived, call⟩ := x
        simp only [LockState.step, Option.ite_none_right_eq_some] at h
        obtain ⟨⟨h₁, h₂, h₃⟩, h⟩ := h
        have h0 : (call.op arrived t₁ t₂ t₃).SinceEpoch := by
          intro now hnow
          rw [now?_op hnow]
          exact hm.waiting _ List.mem_cons_self
        have hstages := stages_covered (c := c) hm.store h0 (ht (arrived, call) rfl)
        cases hst : LockState.stages (store.perform c (call.op arrived t₁ t₂ t₃)) with
        | nil => simp [hst] at h
        | cons s rest =>
          rw [hst] at h hstages
          obtain rfl := Option.some.inj h
          refine ⟨hstages s List.mem_cons_self, fun stages hs s' hs' => ?_, ?_, fun y hy => ?_⟩
          · obtain rfl := Option.some.inj hs
            exact hstages s' (List.mem_cons_of_mem s hs')
          · exact hm.clock.trans (h₁.trans (h₂.trans h₃))
          · exact hm.waiting y (List.mem_cons_of_mem _ hy)
  | resume =>
    obtain ⟨clock, store, holder, waiting⟩ := m
    match holder, hm with
    | none, _ => simp [LockState.step] at h
    | some [], _ => simp [LockState.step] at h
    | some (s :: rest), hm =>
      simp only [LockState.step, Option.some.injEq] at h
      subst h
      refine ⟨hm.holder _ rfl s List.mem_cons_self, fun stages hs s' hs' => ?_, hm.clock,
        hm.waiting⟩
      obtain rfl := Option.some.inj hs
      exact hm.holder _ rfl s' (List.mem_cons_of_mem s hs')
  | leave =>
    obtain ⟨clock, store, holder, waiting⟩ := m
    match holder, hm with
    | none, _ => simp [LockState.step] at h
    | some (s :: rest), _ => simp [LockState.step] at h
    | some [], hm =>
      simp only [LockState.step, Option.some.injEq] at h
      subst h
      exact ⟨hm.store, fun stages hs => (by cases hs), hm.clock, hm.waiting⟩

/-! ### Claims return every ready job -/

/-- The budget of a set of jobs. -/
def totalBudget (s : QueueStore T) (ids : Finset String) : ℕ :=
    ids.sum fun id => budgetOf (s.job id)

/-- A claim that finds a ready job that is due returns something, and if it is not that job, the
job and its entry are still there. -/
theorem claim_due {s : QueueStore T} {now : T} (lease : T) {id : String} {r : JobRecord T}
    (hr : s.job id = some r) (hstate : r.state = .ready) (hle : r.notBefore ≤ now)
    (hi : r.readyEntry ∈ s.ready ∨ .mk r.notBefore r.id ∈ s.delayed) :
    ∃ q, (s.claim now lease).answer = some q ∧
      (q.id = id ∨ (s.claim now lease).store.job id = some r ∧
        r.readyEntry ∈ (s.claim now lease).store.ready) := by
  have hw := woken s now
  have hid : r.id = id := QueueStore.id_of_job hr
  have hclaim : r.claimable now = true := JobRecord.claimable_iff.mpr ⟨hstate, hle⟩
  have hlive : r.lapsed now = r := by
    refine JobRecord.lapsed_of_not_expired ?_
    rw [Bool.eq_false_iff, Ne, JobRecord.expired_iff, hstate]
    simp
  have hjob : (s.wake now).1.job id = some r := by
    rw [hw.job, hr]
    split
    · rw [Option.map_some, hlive]
    · rfl
  have hk : r.readyEntry ∈ (s.wake now).1.ready := by
    rw [hw.ready]
    rcases hi with hk | he
    · exact Or.inl hk
    · exact Or.inr (Or.inl ⟨_, he, hle, r, hid ▸ hr, hclaim, rfl⟩)
  have hfound : QueueStore.claimEntry (s.wake now).1.jobs now r.readyEntry = some r := by
    refine claimEntry_eq_some.mpr ⟨?_, hclaim⟩
    rw [JobRecord.id_readyEntry, hid]
    exact hjob
  rcases claim_cases s now lease with ⟨-, hnone⟩ | ⟨pre, k, rest, q, hlist, hpre, hq, -, h⟩
  · rw [hnone _ hk] at hfound
    cases hfound
  · rw [h]
    refine ⟨_, rfl, ?_⟩
    by_cases hqid : q.id = id
    · exact Or.inl hqid
    · right
      have hkq : r.readyEntry ≠ k := by
        intro heq
        apply hqid
        rw [QueueStore.id_of_job hq, ← heq, JobRecord.id_readyEntry, hid]
      constructor
      · have hput : ((s.wake now).1.jobs.put (q.lease (now + lease))).get? id
            = (s.wake now).1.job id := Table.get?_put_of_ne _ (Ne.symm hqid)
        exact hput.trans hjob
      · rw [Heap.mem_def, hlist] at hk
        rcases List.mem_append.mp hk with hk | hk
        · rw [hpre _ hk] at hfound
          cases hfound
        · exact (List.mem_cons.mp hk).resolve_left hkq

/-- **Liveness**: when nothing but claims happens, at times not before `M`, every ready job that is
due at `M` is returned by one of finitely many of them. -/
theorem claims_return (s : QueueStore T) (M : T)
    (hc : ∀ id r, s.job id = some r → r.state = .ready →
      r.readyEntry ∈ s.ready ∨ .mk r.notBefore r.id ∈ s.delayed) :
    ∃ N, ∀ l : List (T × T), N ≤ l.length → (∀ x ∈ l, M ≤ x.1) →
      ∀ id r, s.job id = some r → r.state = .ready → r.notBefore ≤ M →
        claims id (s.history c (l.map fun x => .claim x.1 x.2)) ≠ [] := by
  -- by induction on the claims: each hands out the job, or uses up some of the budget of all jobs
  suffices key : ∀ (ids : Finset String) (l : List (T × T)) (s : QueueStore T),
      (∀ id r, s.job id = some r → id ∈ ids) → totalBudget s ids < l.length →
      (∀ x ∈ l, M ≤ x.1) → ∀ id r, s.job id = some r → r.state = .ready → r.notBefore ≤ M →
      (r.readyEntry ∈ s.ready ∨ .mk r.notBefore r.id ∈ s.delayed) →
        claims id (s.history c (l.map fun x => .claim x.1 x.2)) ≠ [] by
    refine ⟨totalBudget s s.jobs.keys.toFinset + 1, fun l hl hM id r hr hstate hle => ?_⟩
    refine key s.jobs.keys.toFinset l s (fun j q hq => ?_) hl hM id r hr hstate hle
      (hc id r hr hstate)
    exact List.mem_toFinset.mpr (Table.mem_keys_iff.mpr ⟨q, hq⟩)
  intro ids l
  induction l with
  | nil => exact fun s _ hlt => absurd hlt (Nat.not_lt_zero _)
  | cons x l ih =>
    intro s hids hlt hM id r hr hstate hle hi
    have hM' : M ≤ x.1 := hM x List.mem_cons_self
    obtain ⟨q, hq, hcase⟩ := claim_due x.2 hr hstate (hle.trans hM') hi
    have hstep := perform_step c s (.claim x.1 x.2)
    have hanswer : (s.perform c (.claim x.1 x.2)).answer = .claimed (some q) :=
      congrArg Answer.claimed hq
    rw [hanswer] at hstep
    rw [List.map_cons, QueueStore.history, hanswer, claims_cons]
    intro hnil
    obtain ⟨hnil₁, hnil₂⟩ := List.append_eq_nil_iff.mp hnil
    have hqid : q.id ≠ id := by
      intro hqid
      have hmem : q ∈ claims id [(.claim x.1 x.2, .claimed (some q))] :=
        mem_claims_singleton.mpr (if_pos hqid)
      rw [hnil₁] at hmem
      cases hmem
    obtain ⟨hr', hk'⟩ := hcase.resolve_left hqid
    have hquiet : ∀ j, Event.effect j (.claim x.1 x.2, .claimed (some q)) ≠ some .added := by
      intro j
      simp only [Event.effect]
      split <;> simp
    refine ih (s.perform c (.claim x.1 x.2)).store (fun j p hp => ?_) ?_
      (fun y hy => hM y (List.mem_cons_of_mem x hy)) id r hr' hstate hle (Or.inl hk') hnil₂
    · -- claims add no job
      cases hj : s.job j with
      | some p' => exact hids j p' hj
      | none =>
        have hmove := hstep j
        rw [hj, hp] at hmove
        exact absurd (hmove.of_none (hquiet j)) (Option.some_ne_none p)
    · -- the job returned has one claim less to come
      have hmove := hstep q.id
      have heffect : Event.effect q.id (.claim x.1 x.2, .claimed (some q)) = some (.claimed q) :=
        if_pos rfl
      obtain ⟨-, p, hp, -⟩ := hmove.claim heffect
      have hdecrease : totalBudget (s.perform c (.claim x.1 x.2)).store ids < totalBudget s ids :=
        Finset.sum_lt_sum (fun j _ => ((hstep j).budget (hquiet j)).1)
          ⟨q.id, hids q.id p hp, (hmove.budget (hquiet q.id)).2 q heffect⟩
      have hlen : (x :: l).length = l.length + 1 := rfl
      omega

/-! ### The result -/

/-- **No job is lost**: in every run whose claims are timely when they get the lock, every job has
the entries it needs in every state reached; and from there a finite number of claims at times not
before `M` returns every ready job that is due at `M`. -/
theorem no_job_lost (c : QueueConfig T) {clock : T} (epoch : 0 ≤ clock)
    (actions : List (LockAction T)) {m : LockState T}
    (run : Steps.run (LockState.step c) (LockState.init clock) actions = some m)
    (timely : Steps.Along (LockState.step c) LockState.Timely (LockState.init clock) actions) :
    m.store.Covered c ∧
      ∀ M, ∃ N, ∀ l : List (T × T), N ≤ l.length → (∀ x ∈ l, M ≤ x.1) →
        ∀ id r, m.store.job id = some r → r.state = .ready → r.notBefore ≤ M →
          claims id (m.store.history c (l.map fun x => .claim x.1 x.2)) ≠ [] := by
  have hsound : m.Sound c := Steps.run_invariant sound_step run timely (sound_init epoch)
  -- a covered store hands out every ready job once its time has come
  refine ⟨hsound.store, fun M => claims_return m.store M fun id r hr hstate => ?_⟩
  exact (hsound.store id r hr).ready hstate

/-- A claim waits while a job with a delay is added, and does not return it; a later one does. -/
def delayedJob : List (LockAction ℤ) :=
  [.arrive (.add ⟨[], 5, 0, 7, none, none, none⟩ "a"), .arrive (.claim 30), .enter 0 0 0, .tick 5,
    .resume, .resume, .leave, .enter 5 5 5, .leave, .tick 7, .arrive (.claim 30), .enter 7 7 7,
    .resume, .leave]

theorem no_job_lost_delayedJob :
    ∃ m, Steps.run (LockState.step .defaults) (LockState.init 0) delayedJob = some m ∧
      m.store.Covered .defaults := by
  have h : (Steps.run (LockState.step .defaults) (LockState.init (0 : ℤ)) delayedJob).isSome := by
    decide
  obtain ⟨m, hm⟩ := Option.isSome_iff_exists.mp h
  exact ⟨m, hm, (no_job_lost .defaults (by decide) delayedJob hm (by decide)).1⟩

/-- Job `a` is being added, and its storage calls are slow.  Job `b`, which may run one tick after
its `add` has the lock, and a claim wait for the lock; the clock goes on, and `b` is due when it is
offered. -/
def earlyJob : List (LockAction ℤ) :=
  [.arrive (.add ⟨[], 5, 0, 0, none, none, none⟩ "a"), .enter 0 0 0,
    .arrive (.add ⟨[], 5, 1, 1, none, none, none⟩ "b"), .arrive (.claim 30),
    .tick 100, .resume, .resume, .leave,
    .enter 100 100 101, .resume, .resume, .leave,
    .enter 101 101 101, .resume, .leave]

/-- **A lost job**: `b` is ready, and no heap has an entry for it. -/
theorem early_job_lost :
    ∃ m, Steps.run (LockState.step .defaults) (LockState.init 0) earlyJob = some m ∧
      (∃ r ∈ m.store.jobs.rows, r.id = "b" ∧ r.state = .ready) ∧
      (∀ k ∈ m.store.ready.toList, k.id ≠ "b") ∧ ∀ e ∈ m.store.delayed.toList, e.id ≠ "b" := by
  have h : (Steps.run (LockState.step .defaults) (LockState.init 0) earlyJob).any (fun m =>
      decide ((∃ r ∈ m.store.jobs.rows, r.id = "b" ∧ r.state = .ready) ∧
        (∀ k ∈ m.store.ready.toList, k.id ≠ "b") ∧ ∀ e ∈ m.store.delayed.toList, e.id ≠ "b"))
      = true := by
    decide
  obtain ⟨m, hm, hlost⟩ := (Option.any_eq_true _ _).mp h
  exact ⟨m, hm, of_decide_eq_true hlost⟩

end Istos
