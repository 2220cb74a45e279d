import Istos.Data.Ending
import Istos.Queue.Election
import Mathlib.Algebra.Order.BigOperators.Group.Finset
import Mathlib.Algebra.Order.Monoid.Unbundled.WithTop

/-!
# The replicas agree on the owner

* `owners_agree`: in every run in which loads succeed, a replica that is not at a load is active
  just when it is the least of its own view; where the views are what there is, the least replica is
  the only active one; and from every state the replicas get there by going on with what they have
  before them.
* `unbind_final_iff`: a replica that was unbound stays out, whatever happens then, just when it was
  not at a load.

The invariant is `Fits`: what a bound replica has in view, with what it is still to handle, are the
tokens that are there.
-/

namespace Istos

variable {I : Type} [LinearOrder I]

namespace OwnerReplica

variable {r : OwnerReplica I} {i : I} {live : Finset I}

/-- **The invariant** of a bound replica. -/
structure Fits (r : OwnerReplica I) (i : I) (live : Finset I) : Prop where
  view : r.pending.foldl LiveEvent.apply r.members = live
  loads : r.loading = true → r.active = false ∧ r.members.min = i
  leads : r.loading = false → (r.active = true ↔ r.members.min = i)

omit [LinearOrder I] in
@[simp] theorem status_tell (r : OwnerReplica I) (e : LiveEvent I) :
    (r.tell e).status = r.status := by
  unfold tell
  split_ifs <;> rfl

/-- A replica that is told is as it was, but for what it is still to handle. -/
theorem Fits.tell (h : r.Fits i live) (hbound : r.status = .bound) (e : LiveEvent I) :
    (r.tell e).Fits i (e.apply live) := by
  have htell : r.tell e = { r with pending := r.pending ++ [e] } := if_pos hbound
  rw [htell]
  refine ⟨?_, h.loads, h.leads⟩
  rw [List.foldl_append, h.view]
  rfl

@[simp] theorem status_reconcile (r : OwnerReplica I) (i : I) :
    (r.reconcile i).status = r.status := by
  unfold reconcile activate deactivate
  split_ifs <;> rfl

@[simp] theorem pending_reconcile (r : OwnerReplica I) (i : I) :
    (r.reconcile i).pending = r.pending := by
  unfold reconcile activate deactivate
  split_ifs <;> rfl

/-- **`_reconcile`** leaves a replica active, or at the load before it is, just when it is the least
of its view. -/
theorem fits_reconcile (hbound : r.status = .bound) (hidle : r.loading = false)
    (hview : r.pending.foldl LiveEvent.apply r.members = live) : (r.reconcile i).Fits i live := by
  unfold reconcile
  by_cases hleast : r.members.min = i
  · rw [if_pos hleast]
    by_cases hactive : r.active = true
    · rw [if_pos hactive]
      exact ⟨hview, fun hload => by simp [hidle] at hload, fun _ => iff_of_true hactive hleast⟩
    · rw [if_neg hactive, activate, if_pos hbound]
      exact ⟨hview, fun _ => ⟨Bool.eq_false_iff.mpr hactive, hleast⟩, fun hload => nomatch hload⟩
  · rw [if_neg hleast]
    by_cases hactive : r.active = true
    · rw [if_pos hactive]
      exact ⟨hview, fun hload => by simp [deactivate, hidle] at hload,
        fun _ => iff_of_false (by simp [deactivate]) hleast⟩
    · rw [if_neg hactive]
      exact ⟨hview, fun hload => by simp [hidle] at hload,
        fun _ => iff_of_false hactive hleast⟩

/-- Being told of tokens adds them to the view. -/
theorem foldl_put (history : List I) (members : Finset I) :
    (history.map LiveEvent.put).foldl LiveEvent.apply members = members ∪ history.toFinset := by
  induction history generalizing members with
  | nil => simp
  | cons j history ih =>
    rw [List.map_cons, List.foldl_cons, ih, LiveEvent.apply, List.toFinset_cons,
      Finset.insert_union, Finset.union_insert]

/-- A role that is bound has in view what it is told of. -/
theorem fits_bind {history : List I} (h : history.toFinset = insert i live) :
    (bind i history).Fits i (insert i live) := by
  refine fits_reconcile rfl rfl ?_
  rw [foldl_put, h]
  simp

end OwnerReplica

namespace Election

variable {m m' : Election I} {i j : I}

/-- **The invariant** of the replicas. -/
structure Fitting (m : Election I) : Prop where
  live : ∀ i, i ∈ m.live ↔ (m.replicas i).status = .bound
  fits : ∀ i, i ∈ m.live → (m.replicas i).Fits i m.live

theorem fitting_init : (init : Election I).Fitting :=
  ⟨fun i => by simp [init, OwnerReplica.fresh], fun i hi => by simp [init] at hi⟩

@[simp] theorem replicas_set_self (m : Election I) (i : I) (r : OwnerReplica I) :
    (m.set i r).replicas i = r := by
  simp [set]

theorem replicas_set_of_ne (r : OwnerReplica I) (h : j ≠ i) :
    (m.set i r).replicas j = m.replicas j := by
  simp [set, h]

@[simp] theorem live_set (m : Election I) (i : I) (r : OwnerReplica I) :
    (m.set i r).live = m.live := rfl

/-- A replica that stays what it is may change. -/
theorem Fitting.set (h : m.Fitting) (hi : i ∈ m.live) {r : OwnerReplica I}
    (hstatus : r.status = .bound) (hfits : r.Fits i m.live) : (m.set i r).Fitting := by
  constructor
  · intro j
    by_cases hj : j = i
    · subst hj
      simp [hi, hstatus]
    · rw [live_set, replicas_set_of_ne r hj]
      exact h.live j
  · intro j hlive
    by_cases hj : j = i
    · subst hj
      simpa using hfits
    · rw [replicas_set_of_ne r hj]
      exact h.fits j hlive

/-- A replica that is not bound may change to one that is not. -/
theorem Fitting.set_other (h : m.Fitting) (hi : i ∉ m.live) {r : OwnerReplica I}
    (hstatus : r.status ≠ .bound) : (m.set i r).Fitting := by
  constructor
  · intro j
    by_cases hj : j = i
    · subst hj
      simp [hi, hstatus]
    · rw [live_set, replicas_set_of_ne r hj]
      exact h.live j
  · intro j hlive
    have hj : j ≠ i := fun hj => hi (hj ▸ hlive)
    rw [replicas_set_of_ne r hj]
    exact h.fits j hlive

/-- A token that vanishes with its replica. -/
theorem Fitting.undeclare (h : m.Fitting) {r : OwnerReplica I} (hstatus : r.status ≠ .bound) :
    ((m.set i r).undeclare i).Fitting := by
  constructor
  · intro j
    show j ∈ m.live.erase i ↔ (((m.set i r).replicas j).tell (.delete i)).status = .bound
    rw [OwnerReplica.status_tell, Finset.mem_erase]
    by_cases hj : j = i
    · subst hj
      simp [hstatus]
    · rw [replicas_set_of_ne r hj, h.live j]
      simp [hj]
  · intro j hlive
    obtain ⟨hj, hlive⟩ := Finset.mem_erase.mp hlive
    show (((m.set i r).replicas j).tell (.delete i)).Fits j (m.live.erase i)
    rw [replicas_set_of_ne r hj]
    exact (h.fits j hlive).tell ((h.live j).mp hlive) (.delete i)

/-- A token that appears with its replica. -/
theorem Fitting.bind (h : m.Fitting) {history : List I}
    (hhistory : history.toFinset = insert i m.live) :
    ((m.declare i).set i (.bind i history)).Fitting := by
  constructor
  · intro j
    rw [live_set]
    show j ∈ insert i m.live ↔ _
    by_cases hj : j = i
    · subst hj
      simp [OwnerReplica.bind]
    · rw [replicas_set_of_ne _ hj, Finset.mem_insert, h.live j]
      simp [hj, declare]
  · intro j hlive
    rw [live_set]
    by_cases hj : j = i
    · subst hj
      rw [replicas_set_self]
      exact OwnerReplica.fits_bind hhistory
    · rw [replicas_set_of_ne _ hj]
      have hlive : j ∈ m.live := (Finset.mem_insert.mp hlive).resolve_left hj
      exact (h.fits j hlive).tell ((h.live j).mp hlive) (.put i)

/-! ### Steps -/

/-- **Every action keeps the invariant**, but for a load that fails. -/
theorem Fitting.step (h : m.Fitting) {a : ElectionAction I} (hload : a.isLoadFails = false)
    (hstep : m.step a = some m') : m'.Fitting := by
  cases a with
  | bind i history =>
    simp only [Election.step] at hstep
    split_ifs at hstep with hnew
    obtain rfl := Option.some.inj hstep
    exact h.bind hnew.2
  | handle i =>
    simp only [Election.step] at hstep
    cases hpending : (m.replicas i).pending with
    | nil =>
      rw [hpending] at hstep
      cases hstep
    | cons e pending =>
      rw [hpending] at hstep
      dsimp only at hstep
      split_ifs at hstep with hloading
      obtain rfl := Option.some.inj hstep
      by_cases hi : i ∈ m.live
      · have hview := (h.fits i hi).view
        rw [hpending, List.foldl_cons] at hview
        have hbound := (h.live i).mp hi
        exact h.set hi (by simpa using hbound)
          (OwnerReplica.fits_reconcile hbound (Bool.eq_false_iff.mpr hloading) hview)
      · exact h.set_other hi (by simpa using fun hbound => hi ((h.live i).mpr hbound))
  | loaded i =>
    simp only [Election.step] at hstep
    split_ifs at hstep with hloading
    obtain rfl := Option.some.inj hstep
    by_cases hi : i ∈ m.live
    · have hfits := h.fits i hi
      refine h.set hi ((h.live i).mp hi) ⟨hfits.view, (fun hload => nomatch hload), fun _ => ?_⟩
      exact iff_of_true rfl (hfits.loads hloading).2
    · exact h.set_other hi fun hbound => hi ((h.live i).mpr hbound)
  | loadFails i => cases hload
  | unbind i =>
    simp only [Election.step] at hstep
    split_ifs at hstep with hbound
    obtain rfl := Option.some.inj hstep
    exact h.undeclare (by simp [OwnerReplica.unbind])
  | crash i =>
    simp only [Election.step] at hstep
    cases hstatus : (m.replicas i).status with
    | bound =>
      rw [hstatus] at hstep
      obtain rfl := Option.some.inj hstep
      exact h.undeclare (by simp [OwnerReplica.kill])
    | unbound =>
      rw [hstatus] at hstep
      obtain rfl := Option.some.inj hstep
      refine h.set_other (fun hi => ?_) (by simp [OwnerReplica.kill])
      rw [h.live i, hstatus] at hi
      cases hi
    | new =>
      rw [hstatus] at hstep
      cases hstep
    | dead =>
      rw [hstatus] at hstep
      cases hstep

theorem fitting_run {as : List (ElectionAction I)} (hloads : ∀ a ∈ as, a.isLoadFails = false)
    (hrun : Steps.run step init as = some m) : m.Fitting :=
  Steps.run_invariant (fun _ _ _ hstep hcond h => h.step hcond.2 hstep) hrun
    ((Steps.along_true init as).and_forall hloads) fitting_init

/-! ### Agreement -/

/-- The replica with the least id is active, and no other. -/
def Led (m : Election I) : Prop :=
  ∀ i ∈ m.live, (m.replicas i).active = true ↔ ∀ j ∈ m.live, i ≤ j

/-- The least of a view. -/
theorem min_eq_iff {members : Finset I} (hi : i ∈ members) :
    members.min = i ↔ ∀ j ∈ members, i ≤ j := by
  constructor
  · intro hmin j hj
    have hle := Finset.min_le hj
    rw [hmin] at hle
    exact WithTop.coe_le_coe.mp hle
  · intro hleast
    refine le_antisymm (Finset.min_le hi) ?_
    exact Finset.le_min fun j hj => WithTop.coe_le_coe.mpr (hleast j hj)

/-- **Replicas that see what there is agree**. -/
theorem Fitting.led (h : m.Fitting) (hidle : ∀ i ∈ m.live, (m.replicas i).loading = false)
    (hview : ∀ i ∈ m.live, (m.replicas i).members = m.live) : m.Led := by
  intro i hi
  rw [(h.fits i hi).leads (hidle i hi), hview i hi]
  exact min_eq_iff hi

/-- What a replica has before it. -/
def work (r : OwnerReplica I) : ℕ := 2 * r.pending.length + r.loading.toNat

/-- What some replicas have before them. -/
def workOf (live : Finset I) (m : Election I) : ℕ := ∑ i ∈ live, work (m.replicas i)

/-- No replica has anything before it. -/
def Settled (m : Election I) : Prop :=
  ∀ i ∈ m.live, (m.replicas i).loading = false ∧ (m.replicas i).pending = []

/-- `_reconcile` adds a load at most. -/
theorem work_reconcile (r : OwnerReplica I) (i : I) (hidle : r.loading = false) :
    work (r.reconcile i) ≤ work r + 1 := by
  unfold OwnerReplica.reconcile OwnerReplica.activate OwnerReplica.deactivate
  split_ifs <;> simp [work, hidle]

/-- Going on uses up work. -/
theorem work_progress (hstep : m.progress i = some m') :
    ∃ r, m' = m.set i r ∧ work r < work (m.replicas i) := by
  unfold progress at hstep
  split_ifs at hstep with hloading
  · simp only [step, if_pos hloading] at hstep
    refine ⟨_, (Option.some.inj hstep).symm, ?_⟩
    simp [work, OwnerReplica.activated, hloading]
  · simp only [step] at hstep
    cases hpending : (m.replicas i).pending with
    | nil =>
      rw [hpending] at hstep
      cases hstep
    | cons e pending =>
      rw [hpending] at hstep
      simp only [if_neg hloading] at hstep
      refine ⟨_, (Option.some.inj hstep).symm, ?_⟩
      have hone := work_reconcile
        { m.replicas i with members := e.apply (m.replicas i).members, pending := pending } i
        (Bool.eq_false_iff.mpr hloading)
      simp only [work, hpending, List.length_cons] at hone ⊢
      omega

/-- The replicas go on as long as they have something before them. -/
theorem exists_progress (h : ¬ m.Settled) : ∃ i ∈ m.live, ∃ m', m.progress i = some m' := by
  unfold Settled at h
  push Not at h
  obtain ⟨i, hi, hwork⟩ := h
  refine ⟨i, hi, ?_⟩
  unfold progress
  cases hloading : (m.replicas i).loading with
  | true => exact ⟨_, if_pos hloading⟩
  | false =>
    cases hpending : (m.replicas i).pending with
    | nil => exact absurd hpending (hwork hloading)
    | cons e pending =>
      simp only [step, hpending, hloading, Bool.false_eq_true, if_false]
      exact ⟨_, rfl⟩

/-- **The replicas settle**, and nothing is there that was not there before. -/
theorem Fitting.exists_settled (h : m.Fitting) :
    ∃ later m', Steps.run progress m later = some m' ∧ m'.Settled ∧ m'.Fitting ∧
      m'.live = m.live := by
  have hkeep : ∀ (m₁ : Election I) (i : I) (m₂ : Election I), m₁.progress i = some m₂ →
      m₁.Fitting ∧ m₁.live = m.live → m₂.Fitting ∧ m₂.live = m.live := by
    rintro m₁ i m₂ hstep ⟨hfitting, hlive⟩
    obtain ⟨r, rfl, -⟩ := work_progress hstep
    refine ⟨?_, hlive⟩
    unfold progress at hstep
    split_ifs at hstep
    · exact hfitting.step rfl hstep
    · exact hfitting.step rfl hstep
  have hless : ∀ m₁ : Election I, m₁.Fitting ∧ m₁.live = m.live → ¬ m₁.Settled →
      ∃ i m₂, m₁.progress i = some m₂ ∧ workOf m.live m₂ < workOf m.live m₁ := by
    intro m₁ hm₁ hdone
    obtain ⟨i, hi, m₂, hstep⟩ := exists_progress hdone
    obtain ⟨r, rfl, hless⟩ := work_progress hstep
    refine ⟨i, _, hstep, Finset.sum_lt_sum (fun j _ => ?_) ⟨i, hm₁.2 ▸ hi, by simpa using hless⟩⟩
    by_cases hj : j = i
    · subst hj
      simpa using hless.le
    · rw [replicas_set_of_ne r hj]
  obtain ⟨later, m', hrun, hsettled⟩ := Steps.exists_end hkeep hless m ⟨h, rfl⟩
  have hend := Steps.run_invariant_true hkeep hrun ⟨h, rfl⟩
  exact ⟨later, m', hrun, hsettled, hend⟩

/-- **The replicas agree on the owner**. -/
theorem owners_agree (as : List (ElectionAction I)) (m : Election I)
    (hloads : ∀ a ∈ as, a.isLoadFails = false) (hrun : Steps.run step init as = some m) :
    (∀ i, (m.replicas i).status = .bound → (m.replicas i).loading = false →
      ((m.replicas i).active = true ↔ (m.replicas i).members.min = i)) ∧
    ((∀ i ∈ m.live, (m.replicas i).loading = false ∧ (m.replicas i).members = m.live) → m.Led) ∧
    (∃ later m', Steps.run progress m later = some m' ∧ m'.live = m.live ∧ m'.Settled ∧ m'.Led) ∧
    ∀ i, i ∈ m.live ↔ (m.replicas i).status = .bound := by
  have hfitting := fitting_run hloads hrun
  refine ⟨fun i hbound => ?_, fun hsame => ?_, ?_, hfitting.live⟩
  · exact (hfitting.fits i ((hfitting.live i).mpr hbound)).leads
  · exact hfitting.led (fun i hi => (hsame i hi).1) fun i hi => (hsame i hi).2
  -- the changes that are under way arrive, and then every replica sees who is alive
  · obtain ⟨later, m', hlater, hsettled, hfitting', hlive⟩ := hfitting.exists_settled
    refine ⟨later, m', hlater, hlive, hsettled, hfitting'.led (fun i hi => (hsettled i hi).1) ?_⟩
    intro i hi
    have hview := (hfitting'.fits i hi).view
    rwa [(hsettled i hi).2] at hview

/-- The second replica has the lesser id, and takes over while the first one steps down. -/
def takeOver : List (ElectionAction ℕ) :=
  [.bind 2 [2], .loaded 2, .handle 2, .bind 1 [1, 2], .handle 2, .loaded 1, .unbind 1]

theorem owners_agree_takeOver : ∃ m, Steps.run step init takeOver = some m ∧
    (∀ i, (m.replicas i).status = .bound → (m.replicas i).loading = false →
      ((m.replicas i).active = true ↔ (m.replicas i).members.min = i)) ∧
    ((∀ i ∈ m.live, (m.replicas i).loading = false ∧ (m.replicas i).members = m.live) → m.Led) ∧
    (∃ later m', Steps.run progress m later = some m' ∧ m'.live = m.live ∧ m'.Settled ∧ m'.Led) ∧
    ∀ i, i ∈ m.live ↔ (m.replicas i).status = .bound :=
  ⟨_, rfl, owners_agree takeOver _ (by decide) rfl⟩

/-! ### Unbinding -/

/-- A replica is out: it does not serve, and will not. -/
structure Out (r : OwnerReplica I) : Prop where
  status : r.status = .unbound ∨ r.status = .dead
  active : r.active = false
  serving : r.serving = false
  sweeping : r.sweeping = false
  loading : r.loading = false

omit [LinearOrder I] in
theorem Out.tell {r : OwnerReplica I} (h : Out r) (e : LiveEvent I) : Out (r.tell e) := by
  have hbound : r.status ≠ .bound := by rcases h.status with hs | hs <;> simp [hs]
  rw [OwnerReplica.tell, if_neg hbound]
  exact h

/-- What is still handled does not bring a replica back: without a session it cannot be activated.
-/
theorem Out.reconcile {r : OwnerReplica I} (h : Out r) (i : I) : Out (r.reconcile i) := by
  have hbound : r.status ≠ .bound := by rcases h.status with hs | hs <;> simp [hs]
  have hactive : ¬ r.active = true := Bool.eq_false_iff.mp h.active
  unfold OwnerReplica.reconcile OwnerReplica.activate
  rw [if_neg hbound, if_neg hactive, if_neg hactive, ite_self]
  exact h

/-- **A replica that is out stays out**, whatever happens. -/
theorem Out.step {a : ElectionAction I} (hstep : m.step a = some m') (h : Out (m.replicas i)) :
    Out (m'.replicas i) := by
  -- what happens to another replica only tells this one
  have hother : ∀ {j : I} {r : OwnerReplica I}, i ≠ j → Out ((m.set j r).replicas i) := by
    intro j r hne
    rw [replicas_set_of_ne r hne]
    exact h
  cases a with
  | bind j history =>
    simp only [Election.step] at hstep
    split_ifs at hstep with hnew
    obtain rfl := Option.some.inj hstep
    by_cases hj : i = j
    · subst hj
      rcases h.status with hs | hs <;> rw [hs] at hnew <;> cases hnew.1
    · rw [replicas_set_of_ne _ hj]
      exact h.tell (.put j)
  | handle j =>
    simp only [Election.step] at hstep
    split at hstep
    · cases hstep
    · split_ifs at hstep
      obtain rfl := Option.some.inj hstep
      by_cases hj : i = j
      · subst hj
        rw [replicas_set_self]
        refine Out.reconcile ?_ i
        exact ⟨h.status, h.active, h.serving, h.sweeping, h.loading⟩
      · exact hother hj
  | loaded j =>
    simp only [Election.step] at hstep
    split_ifs at hstep with hloading
    obtain rfl := Option.some.inj hstep
    by_cases hj : i = j
    · subst hj
      rw [h.loading] at hloading
      cases hloading
    · exact hother hj
  | loadFails j =>
    simp only [Election.step] at hstep
    split_ifs at hstep with hloading
    obtain rfl := Option.some.inj hstep
    by_cases hj : i = j
    · subst hj
      rw [h.loading] at hloading
      cases hloading
    · exact hother hj
  | unbind j =>
    simp only [Election.step] at hstep
    split_ifs at hstep with hbound
    obtain rfl := Option.some.inj hstep
    by_cases hj : i = j
    · subst hj
      rcases h.status with hs | hs <;> rw [hs] at hbound <;> cases hbound
    · exact (hother hj).tell (.delete j)
  | crash j =>
    simp only [Election.step] at hstep
    have hkill : Out ((m.set j (m.replicas j).kill).replicas i) := by
      by_cases hj : i = j
      · subst hj
        rw [replicas_set_self]
        exact ⟨.inr rfl, rfl, rfl, rfl, rfl⟩
      · exact hother hj
    split at hstep
    · obtain rfl := Option.some.inj hstep
      exact hkill.tell (.delete j)
    · obtain rfl := Option.some.inj hstep
      exact hkill
    · cases hstep

/-- **Unbinding is final** just when the replica is not at a load: else it serves without a token
when the load returns. -/
theorem unbind_final_iff (m m' : Election I) (i : I) (hstep : m.step (.unbind i) = some m') :
    (∀ later m'', Steps.run step m' later = some m'' → (m''.replicas i).active = false ∧
        (m''.replicas i).serving = false ∧ (m''.replicas i).sweeping = false) ↔
      (m.replicas i).loading = false := by
  have hafter : m'.replicas i = (m.replicas i).unbind := by
    simp only [step] at hstep
    split_ifs at hstep
    obtain rfl := Option.some.inj hstep
    show ((m.set i (m.replicas i).unbind).replicas i).tell (.delete i) = _
    rw [replicas_set_self]
    rfl
  constructor
  · intro hfinal
    by_contra hloading
    -- the load ends after `unbind`, and activates the replica
    have hloaded : (m'.replicas i).loading = true := by
      rw [hafter]
      simpa [OwnerReplica.unbind] using hloading
    have hrun : Steps.run step m' [.loaded i] = some (m'.set i (m'.replicas i).activated) := by
      simp [Steps.run, step, hloaded]
    have hactive := (hfinal _ _ hrun).1
    rw [replicas_set_self] at hactive
    cases hactive
  · intro hloading later m'' hrun
    -- no callback leads back from there
    have hout : Out (m'.replicas i) := by
      rw [hafter]
      exact ⟨.inl rfl, rfl, rfl, rfl, hloading⟩
    have hend := Steps.run_invariant_true
      (fun _ _ _ hstep (h : Out (Election.replicas _ i)) => h.step hstep) hrun hout
    exact ⟨hend.active, hend.serving, hend.sweeping⟩

/-- A replica that is unbound while its first load runs. -/
theorem unbind_final_loading : ∃ m m' : Election ℕ,
    Steps.run step init [.bind 2 [2]] = some m ∧ m.step (.unbind 2) = some m' ∧
    ((∀ later m'', Steps.run step m' later = some m'' → (m''.replicas 2).active = false ∧
        (m''.replicas 2).serving = false ∧ (m''.replicas 2).sweeping = false) ↔
      (m.replicas 2).loading = false) :=
  ⟨_, _, rfl, rfl, unbind_final_iff _ _ 2 rfl⟩

end Election

end Istos
