import Istos.Queue.Board

/-!
# The loops over the heaps

One specification for each loop of the store: `matured_matureDelayed`, `reclaimed_reclaimLeases`
and `purged_purgeDone` say which heap entries a loop pops, what it does to the jobs they name and
what it leaves alone.  The loops pop entries by time, and a time test is `Heap.Lower`, so what is
popped is a matter of membership and not of order.
-/

namespace Istos

variable {T : Type} [LinearOrder T]

/-- The test of every draining loop: the entry's time has come. -/
def TimedEntry.due (now : T) (e : TimedEntry T) : Bool := decide (e.time ≤ now)

theorem lower_due (now : T) : Heap.Lower (TimedEntry.due now) := by
  intro a b hab hb
  have hb' : b.time ≤ now := of_decide_eq_true hb
  have hab' : a.time ≤ b.time := Prod.Lex.monotone_fst a b hab
  exact decide_eq_true (hab'.trans hb')

theorem mem_takeWhile_due {h : Heap (TimedEntry T)} {now : T} {e : TimedEntry T} :
    e ∈ h.toList.takeWhile (TimedEntry.due now) ↔ e ∈ h ∧ e.time ≤ now := by
  rw [Heap.mem_takeWhile_iff (lower_due now), TimedEntry.due, decide_eq_true_eq]

theorem mem_dropWhile_due {h : Heap (TimedEntry T)} {now : T} {e : TimedEntry T} :
    e ∈ h.toList.dropWhile (TimedEntry.due now) ↔ e ∈ h ∧ now < e.time := by
  rw [Heap.mem_dropWhile_iff (lower_due now), TimedEntry.due, decide_eq_false_iff_not, not_le]

/-- A condition on the entries popped so far, and one more. -/
theorem exists_mem_append_singleton {α : Type*} {l : List α} {a : α} {p : α → Prop} :
    (∃ x ∈ l ++ [a], p x) ↔ (∃ x ∈ l, p x) ∨ p a := by
  simp only [List.mem_append, List.mem_singleton, or_and_right, exists_or, exists_eq_left]

/-- A condition on the entries a loop pops. -/
theorem exists_mem_takeWhile_due {h : Heap (TimedEntry T)} {now : T} {p : TimedEntry T → Prop} :
    (∃ e ∈ h.toList.takeWhile (TimedEntry.due now), p e) ↔ ∃ e ∈ h, e.time ≤ now ∧ p e := by
  simp only [mem_takeWhile_due, and_assoc]

/-! ### `_mature_delayed` -/

theorem matureEntry_spec (now : T) (e : TimedEntry T) (rest : Heap (TimedEntry T))
    (s : QueueStore T) :
    ∃ ready, QueueStore.matureEntry now e rest s = { s with delayed := rest, ready := ready } ∧
      ∀ k, k ∈ ready ↔ k ∈ s.ready ∨
        ∃ r, s.job e.id = some r ∧ r.claimable now = true ∧ k = r.readyEntry := by
  unfold QueueStore.matureEntry QueueStore.job
  cases hr : s.jobs.get? e.id with
  | none => exact ⟨s.ready, by simp [hr], by simp⟩
  | some r =>
    by_cases hc : r.claimable now = true
    · exact ⟨s.ready.push r.readyEntry, by simp [hr, hc], fun k => by simp [hc, or_comm]⟩
    · exact ⟨s.ready, by simp [hr, hc], by simp [hc]⟩

/-- **`_mature_delayed`** moves the delayed entries whose time has come; those of claimable jobs
go to the ready heap. -/
theorem matureDelayed_spec (s : QueueStore T) (now : T) :
    ∃ delayed ready, s.matureDelayed now = { s with delayed := delayed, ready := ready } ∧
      (∀ k, k ∈ ready ↔ k ∈ s.ready ∨ ∃ e ∈ s.delayed, e.time ≤ now ∧
        ∃ r, s.job e.id = some r ∧ r.claimable now = true ∧ k = r.readyEntry) ∧
      ∀ e, e ∈ delayed ↔ e ∈ s.delayed ∧ now < e.time := by
  let P : List (TimedEntry T) → Heap (TimedEntry T) → QueueStore T → Prop := fun popped h s' =>
    ∃ ready, s' = { s with delayed := h, ready := ready } ∧
      ∀ k, k ∈ ready ↔ k ∈ s.ready ∨ ∃ e ∈ popped,
        ∃ r, s.job e.id = some r ∧ r.claimable now = true ∧ k = r.readyEntry
  have start : P [] s.delayed s := ⟨s.ready, rfl, by simp⟩
  have step : ∀ (popped : List (TimedEntry T)) (e : TimedEntry T)
      (rest h : Heap (TimedEntry T)) (s' : QueueStore T), h.toList = e :: rest.toList →
      TimedEntry.due now e = true → P popped h s' →
      P (popped ++ [e]) rest (QueueStore.matureEntry now e rest s') := by
    rintro popped e rest h _ - - ⟨ready, rfl, hready⟩
    obtain ⟨ready', hs', hready'⟩ :=
      matureEntry_spec now e rest { s with delayed := h, ready := ready }
    refine ⟨ready', hs', fun k => ?_⟩
    rw [hready' k, hready k, exists_mem_append_singleton, or_assoc]
    rfl
  obtain ⟨⟨ready, hs, hready⟩, hrest⟩ := Heap.drainWhile_rule P step start
  refine ⟨_, ready, hs, fun k => ?_, fun e => ?_⟩
  · rw [hready k, exists_mem_takeWhile_due]
  · rw [Heap.mem_def, hrest, mem_dropWhile_due]

/-! ### `_reclaim_leases` -/

section Reclaim

variable [Zero T]

/-- One pass of the loop of `_reclaim_leases`: if the entry names a job whose lease ran out, the
job lapses, is reported as changed and, unless it is dead, goes to the ready heap. -/
theorem reclaimEntry_spec (now : T) (e : TimedEntry T) (rest : Heap (TimedEntry T))
    (x : QueueStore T × List (JobRecord T)) :
    ∃ jobs ready new, QueueStore.reclaimEntry now e rest x
        = ({ x.1 with leases := rest, jobs := jobs, ready := ready }, x.2 ++ new) ∧
      (∀ id, jobs.get? id = if id = e.id then (x.1.job id).map (JobRecord.lapsed now)
        else x.1.job id) ∧
      (∀ r, r ∈ new ↔ ∃ r₀, x.1.job e.id = some r₀ ∧ r₀.expired now = true ∧ r = r₀.lapse now) ∧
      (new.map JobRecord.id).Nodup ∧
      ∀ k, k ∈ ready ↔ k ∈ x.1.ready ∨ ∃ r ∈ new, r.state = .ready ∧ k = r.readyEntry := by
  obtain ⟨s, changed⟩ := x
  have hstay : ∀ (h : ∀ r, s.job e.id = some r → r.expired now = false) (id : String),
      s.jobs.get? id = if id = e.id then (s.job id).map (JobRecord.lapsed now) else s.job id := by
    intro h id
    split
    · rename_i hid
      subst hid
      change s.job e.id = _
      cases hr : s.job e.id with
      | none => rfl
      | some r => simp [JobRecord.lapsed, h r hr]
    · rfl
  unfold QueueStore.reclaimEntry
  cases hr : s.jobs.get? e.id with
  | none =>
    have hjob : s.job e.id = none := hr
    refine ⟨s.jobs, s.ready, [], by simp [hr], hstay (by simp [hjob]), by simp [hjob], by simp,
      by simp⟩
  | some r =>
    have hjob : s.job e.id = some r := hr
    by_cases hx : r.expired now = true
    · have hid : r.id = e.id := Table.key_of_get? hr
      refine ⟨s.jobs.put (r.lapse now),
        if r.maxAttempts ≤ r.attempts then s.ready else s.ready.push r.readyEntry, [r.lapse now],
        ?_, fun id => ?_, ?_, by simp, fun k => ?_⟩
      · by_cases hd : r.maxAttempts ≤ r.attempts
        · simp [hr, hx, hd]
        · simp [hr, hx, hd]
      · rw [Table.get?_put, JobRecord.id_lapse, hid]
        split
        · rename_i hid'
          subst hid'
          simp [hjob, JobRecord.lapsed, hx]
        · rfl
      · simp [hjob, hx]
      · have hkey : (r.lapse now).readyEntry = r.readyEntry := by
          unfold JobRecord.lapse
          split <;> rfl
        by_cases hd : r.maxAttempts ≤ r.attempts
        · simp [hd, JobRecord.state_lapse]
        · simp [hd, JobRecord.state_lapse, hkey, or_comm]
    · refine ⟨s.jobs, s.ready, [], by simp [hr, hx], hstay (by simp [hjob, hx]), ?_, by simp,
        by simp⟩
      simp [hjob, hx]

/-- **`_reclaim_leases`** lapses exactly the expired jobs that a lease entry whose time has come
names, reports them, and puts those that are ready again into the ready heap. -/
theorem reclaimLeases_spec (s : QueueStore T) (now : T) :
    ∃ jobs ready leases changed,
      s.reclaimLeases now = ({ s with jobs := jobs, ready := ready, leases := leases }, changed) ∧
      (∀ id, jobs.get? id = if ∃ e ∈ s.leases, e.time ≤ now ∧ e.id = id
        then (s.job id).map (JobRecord.lapsed now) else s.job id) ∧
      (∀ r, r ∈ changed ↔ ∃ e ∈ s.leases, e.time ≤ now ∧
        ∃ r₀, s.job e.id = some r₀ ∧ r₀.expired now = true ∧ r = r₀.lapse now) ∧
      (changed.map JobRecord.id).Nodup ∧
      (∀ k, k ∈ ready ↔ k ∈ s.ready ∨ ∃ r ∈ changed, r.state = .ready ∧ k = r.readyEntry) ∧
      ∀ e, e ∈ leases ↔ e ∈ s.leases ∧ now < e.time := by
  classical
  let P : List (TimedEntry T) → Heap (TimedEntry T) → QueueStore T × List (JobRecord T) → Prop :=
    fun popped h x => ∃ jobs ready,
      x.1 = { s with leases := h, jobs := jobs, ready := ready } ∧
      (∀ id, jobs.get? id = if ∃ e ∈ popped, e.id = id
        then (s.job id).map (JobRecord.lapsed now) else s.job id) ∧
      (∀ r, r ∈ x.2 ↔ ∃ e ∈ popped,
        ∃ r₀, s.job e.id = some r₀ ∧ r₀.expired now = true ∧ r = r₀.lapse now) ∧
      (x.2.map JobRecord.id).Nodup ∧
      ∀ k, k ∈ ready ↔ k ∈ s.ready ∨ ∃ r ∈ x.2, r.state = .ready ∧ k = r.readyEntry
  have start : P [] s.leases (s, []) := ⟨s.jobs, s.ready, rfl, by simp [QueueStore.job], by simp,
    by simp, by simp⟩
  have step : ∀ (popped : List (TimedEntry T)) (e : TimedEntry T)
      (rest h : Heap (TimedEntry T)) (x : QueueStore T × List (JobRecord T)),
      h.toList = e :: rest.toList → TimedEntry.due now e = true → P popped h x →
      P (popped ++ [e]) rest (QueueStore.reclaimEntry now e rest x) := by
    rintro popped e rest h ⟨_, changed⟩ - - ⟨jobs, ready, rfl, hjobs, hchanged, hnodup, hready⟩
    obtain ⟨jobs', ready', new, hx, hjobs', hnew, hnewNodup, hready'⟩ :=
      reclaimEntry_spec now e rest ({ s with leases := h, jobs := jobs, ready := ready }, changed)
    have hjob : ∀ id, QueueStore.job { s with leases := h, jobs := jobs, ready := ready } id
        = if ∃ e ∈ popped, e.id = id then (s.job id).map (JobRecord.lapsed now) else s.job id :=
      hjobs
    -- the job of this entry lapses now exactly when no earlier entry made it lapse
    have hcur : ∀ r₀, QueueStore.job { s with leases := h, jobs := jobs, ready := ready } e.id
        = some r₀ → r₀.expired now = true →
        s.job e.id = some r₀ ∧ ¬ ∃ e' ∈ popped, e'.id = e.id := by
      intro r₀ hr₀ hexp
      rw [hjob] at hr₀
      split at hr₀
      · obtain ⟨r₁, hr₁, rfl⟩ := Option.map_eq_some_iff.mp hr₀
        unfold JobRecord.lapsed at hexp
        split at hexp
        · rw [JobRecord.expired_lapse] at hexp
          cases hexp
        · rename_i hne
          exact absurd hexp hne
      · rename_i hno
        exact ⟨hr₀, hno⟩
    refine ⟨jobs', ready', by rw [hx], fun id => ?_, fun r => ?_, ?_, fun k => ?_⟩
    · rw [hjobs' id]
      simp only [hjob, exists_mem_append_singleton]
      by_cases hid : id = e.id
      · subst hid
        simp only [if_true, or_true]
        split
        · cases s.job e.id with
          | none => rfl
          | some r =>
            simp only [Option.map_some, JobRecord.lapsed]
            by_cases hr : r.expired now = true
            · simp [hr, JobRecord.expired_lapse]
            · simp [hr]
        · rfl
      · rw [if_neg hid]
        simp only [Ne.symm hid, or_false]
    · rw [hx, List.mem_append, hchanged r, hnew r, exists_mem_append_singleton]
      constructor
      · rintro (hr | ⟨r₀, hr₀, hexp, rfl⟩)
        · exact Or.inl hr
        · exact Or.inr ⟨r₀, (hcur r₀ hr₀ hexp).1, hexp, rfl⟩
      · rintro (hr | ⟨r₀, hr₀, hexp, rfl⟩)
        · exact Or.inl hr
        · by_cases hp : ∃ e' ∈ popped, e'.id = e.id
          · obtain ⟨e', he', hid⟩ := hp
            exact Or.inl ⟨e', he', r₀, hid ▸ hr₀, hexp, rfl⟩
          · refine Or.inr ⟨r₀, ?_, hexp, rfl⟩
            rw [hjob, if_neg hp]
            exact hr₀
    · rw [hx, List.map_append, List.nodup_append]
      refine ⟨hnodup, hnewNodup, ?_⟩
      rintro a ha b hb rfl
      obtain ⟨r, hr, rfl⟩ := List.mem_map.mp ha
      obtain ⟨r', hr', hid⟩ := List.mem_map.mp hb
      obtain ⟨e', he', r₁, hr₁, -, rfl⟩ := (hchanged r).mp hr
      obtain ⟨r₀, hr₀, hexp, rfl⟩ := (hnew r').mp hr'
      obtain ⟨hs, hno⟩ := hcur r₀ hr₀ hexp
      apply hno
      rw [JobRecord.id_lapse, JobRecord.id_lapse, QueueStore.id_of_job hs,
        QueueStore.id_of_job hr₁] at hid
      exact ⟨e', he', hid.symm⟩
    · rw [hready' k, hx]
      simp only [hready k, List.mem_append, or_and_right, exists_or, or_assoc]
  obtain ⟨⟨jobs, ready, hs, hjobs, hchanged, hnodup, hready⟩, hrest⟩ :=
    Heap.drainWhile_rule P step start
  refine ⟨jobs, ready, _, _, Prod.ext hs rfl, fun id => ?_, fun r => ?_, hnodup, hready,
    fun e => ?_⟩
  · rw [hjobs id]
    simp only [exists_mem_takeWhile_due]
  · exact (hchanged r).trans exists_mem_takeWhile_due
  · rw [Heap.mem_def, hrest, mem_dropWhile_due]

end Reclaim

/-! ### `_forget` -/

section Forget

variable (c : QueueConfig T)

theorem forget_spec (s : QueueStore T) (id : String) :
    ∃ jobs ids, (QueueStore.forget c s id).1 = { s with jobs := jobs, ids := ids } ∧
      (∀ j, jobs.get? j = if j = id then none else s.job j) ∧
      (∀ j, j ∈ ids ↔ j ∈ s.ids ∧ j ≠ id) ∧
      (QueueStore.forget c s id).2.map Await.call
        = [.deleteJob id, .putIndex (c.idOrder.list ids)] := by
  refine ⟨_, _, rfl, fun j => Table.get?_erase s.jobs id j, fun j => ?_, rfl⟩
  rw [List.mem_filter, decide_eq_true_eq]

theorem forgetAll_nil (s : QueueStore T) : QueueStore.forgetAll c s [] = (s, []) := rfl

theorem forgetAll_cons (s : QueueStore T) (id : String) (ids : List String) :
    QueueStore.forgetAll c s (id :: ids)
      = ((QueueStore.forgetAll c (QueueStore.forget c s id).1 ids).1,
        (QueueStore.forget c s id).2
          ++ (QueueStore.forgetAll c (QueueStore.forget c s id).1 ids).2) := rfl

theorem forgetAll_append (s : QueueStore T) (ids₁ ids₂ : List String) :
    QueueStore.forgetAll c s (ids₁ ++ ids₂)
      = ((QueueStore.forgetAll c (QueueStore.forgetAll c s ids₁).1 ids₂).1,
        (QueueStore.forgetAll c s ids₁).2
          ++ (QueueStore.forgetAll c (QueueStore.forgetAll c s ids₁).1 ids₂).2) := by
  induction ids₁ generalizing s with
  | nil => rfl
  | cons id ids₁ ih =>
    rw [List.cons_append, forgetAll_cons, forgetAll_cons, ih, List.append_assoc]

/-- What is left after a list of jobs is forgotten. -/
theorem forgetAll_spec (s : QueueStore T) (l : List String) :
    ∃ jobs ids, (QueueStore.forgetAll c s l).1 = { s with jobs := jobs, ids := ids } ∧
      (∀ j, jobs.get? j = if j ∈ l then none else s.job j) ∧
      ∀ j, j ∈ ids ↔ j ∈ s.ids ∧ j ∉ l := by
  induction l generalizing s with
  | nil => exact ⟨s.jobs, s.ids, rfl, fun j => by simp [QueueStore.job], by simp⟩
  | cons id l ih =>
    obtain ⟨jobs, ids, hs, hjobs, hids, -⟩ := forget_spec c s id
    obtain ⟨jobs', ids', hs', hjobs', hids'⟩ := ih (QueueStore.forget c s id).1
    refine ⟨jobs', ids', ?_, fun j => ?_, fun j => ?_⟩
    · rw [forgetAll_cons, hs', hs]
    · rw [hjobs' j, hs]
      simp only [QueueStore.job, hjobs j, List.mem_cons]
      by_cases hj : j = id
      · simp [hj]
      · simp [hj]
    · rw [hids' j, hs, List.mem_cons]
      simp only [hids j]
      tauto

/-- Forgetting looks at the table and the membership set only. -/
theorem forgetAll_with_done (s : QueueStore T) (done : Heap (TimedEntry T)) (l : List String) :
    (QueueStore.forgetAll c { s with done := done } l).1
        = { (QueueStore.forgetAll c s l).1 with done := done } ∧
      (QueueStore.forgetAll c { s with done := done } l).2.map Await.call
        = (QueueStore.forgetAll c s l).2.map Await.call := by
  induction l generalizing s with
  | nil => exact ⟨rfl, rfl⟩
  | cons id l ih =>
    obtain ⟨h₁, h₂⟩ := ih (QueueStore.forget c s id).1
    rw [forgetAll_cons, forgetAll_cons]
    refine ⟨h₁, ?_⟩
    rw [List.map_append, List.map_append]
    exact congrArg₂ (· ++ ·) rfl h₂

end Forget

/-! ### The purging loop of `sweep` -/

/-- **The loop over `_done`** forgets exactly the retained results past their TTL that an entry
whose time has come names. -/
theorem purgeDone_spec [Zero T] [Add T] (c : QueueConfig T) (s : QueueStore T) (now : T) :
    ∃ purged done, (s.purgeDone c now).1
        = { (QueueStore.forgetAll c s purged).1 with done := done } ∧
      (s.purgeDone c now).2.map Await.call
        = (QueueStore.forgetAll c s purged).2.map Await.call ∧
      (∀ id, id ∈ purged ↔ ∃ e ∈ s.done, e.time ≤ now ∧ e.id = id ∧
        ∃ r, s.job id = some r ∧ r.stale c now) ∧
      purged.Nodup ∧
      ∀ e, e ∈ done ↔ e ∈ s.done ∧ now < e.time := by
  -- the loop so far: some ids were forgotten, those of the stale records among the popped entries
  let P : List (TimedEntry T) → Heap (TimedEntry T) → QueueStore T × List (Await T) → Prop :=
    fun popped h x => ∃ purged : List String,
      x.1 = { (QueueStore.forgetAll c s purged).1 with done := h } ∧
      x.2.map Await.call = (QueueStore.forgetAll c s purged).2.map Await.call ∧
      (∀ id, id ∈ purged ↔ ∃ e ∈ popped, e.id = id ∧ ∃ r, s.job id = some r ∧ r.stale c now) ∧
      purged.Nodup
  have start : P [] s.done (s, []) := ⟨[], rfl, rfl, by simp, List.nodup_nil⟩
  have step : ∀ (popped : List (TimedEntry T)) (e : TimedEntry T)
      (rest h : Heap (TimedEntry T)) (x : QueueStore T × List (Await T)),
      h.toList = e :: rest.toList → TimedEntry.due now e = true → P popped h x →
      P (popped ++ [e]) rest (QueueStore.purgeDoneEntry c now e rest x) := by
    rintro popped e rest h ⟨s', awaits⟩ - - ⟨purged, hs', hcalls, hpurged, hnodup⟩
    dsimp only at hs' hcalls
    obtain ⟨jobs, ids, hf, hjobs, hids⟩ := forgetAll_spec c s purged
    have hjob : s'.jobs.get? e.id = if e.id ∈ purged then none else s.job e.id := by
      rw [hs', hf]
      exact hjobs e.id
    by_cases hg : e.id ∉ purged ∧ ∃ r, s.job e.id = some r ∧ r.stale c now
    · -- the job is there and past its TTL: it is forgotten
      obtain ⟨hnot, r, hr, hstale⟩ := hg
      rw [if_neg hnot, hr] at hjob
      obtain ⟨h₁, h₂⟩ := forgetAll_with_done c (QueueStore.forgetAll c s purged).1 rest [e.id]
      have hbody : QueueStore.purgeDoneEntry c now e rest (s', awaits)
          = ((QueueStore.forget c { s' with done := rest } e.id).1,
            awaits ++ (QueueStore.forget c { s' with done := rest } e.id).2) := by
        simp only [QueueStore.purgeDoneEntry, hjob]
        exact if_pos hstale
      have hs'' : { s' with done := rest } =
          { (QueueStore.forgetAll c s purged).1 with done := rest } := by
        rw [hs']
      rw [hbody, hs'']
      refine ⟨purged ++ [e.id], ?_, ?_, fun id => ?_, ?_⟩
      · rw [forgetAll_append]
        exact h₁
      · rw [forgetAll_append, List.map_append, List.map_append, hcalls]
        refine congrArg _ ?_
        have h₃ : (QueueStore.forgetAll c { (QueueStore.forgetAll c s purged).1 with done := rest }
            [e.id]).2 = (QueueStore.forget c
              { (QueueStore.forgetAll c s purged).1 with done := rest } e.id).2 := by
          rw [forgetAll_cons, forgetAll_nil, List.append_nil]
        rw [← h₃]
        exact h₂
      · rw [List.mem_append, List.mem_singleton, hpurged id, exists_mem_append_singleton]
        constructor
        · rintro (hid | rfl)
          · exact Or.inl hid
          · exact Or.inr ⟨rfl, r, hr, hstale⟩
        · rintro (hid | ⟨rfl, -⟩)
          · exact Or.inl hid
          · exact Or.inr rfl
      · rw [List.nodup_append]
        refine ⟨hnodup, List.nodup_singleton _, ?_⟩
        rintro a ha b hb rfl
        exact hnot (List.mem_singleton.mp hb ▸ ha)
    · -- a stale entry: nothing happens beyond the pop
      have hbody : QueueStore.purgeDoneEntry c now e rest (s', awaits)
          = ({ s' with done := rest }, awaits) := by
        simp only [QueueStore.purgeDoneEntry, hjob]
        by_cases hp : e.id ∈ purged
        · rw [if_pos hp]
        · rw [if_neg hp]
          cases hr : s.job e.id with
          | none => rfl
          | some r =>
            have hns : ¬ r.stale c now := fun hst => hg ⟨hp, r, hr, hst⟩
            exact if_neg hns
      rw [hbody]
      refine ⟨purged, by rw [hs'], hcalls, fun id => ?_, hnodup⟩
      rw [hpurged id, exists_mem_append_singleton]
      constructor
      · exact Or.inl
      · rintro (hid | ⟨rfl, r, hr, hstale⟩)
        · exact hid
        · by_contra hno
          exact hg ⟨fun hp => hno ((hpurged e.id).mp hp), r, hr, hstale⟩
  obtain ⟨⟨purged, hs, hcalls, hpurged, hnodup⟩, hrest⟩ := Heap.drainWhile_rule P step start
  refine ⟨purged, _, hs, hcalls, fun id => ?_, hnodup, fun e => ?_⟩
  · rw [hpurged id, exists_mem_takeWhile_due]
  · rw [Heap.mem_def, hrest, mem_dropWhile_due]

/-- **The dead-letter part of `sweep`** forgets exactly the dead letters past their TTL. -/
theorem purgeDead_spec [Zero T] [Add T] (c : QueueConfig T) (s : QueueStore T) (now : T) :
    ∃ buried, s.purgeDead c now = QueueStore.forgetAll c s buried ∧ buried.Nodup ∧
      ∀ id, id ∈ buried ↔ ∃ r, s.job id = some r ∧ r.buried c now := by
  unfold QueueStore.purgeDead JobRecord.buried
  cases c.deadLetterTtl with
  | none => exact ⟨[], rfl, List.nodup_nil, by simp⟩
  | some ttl =>
    refine ⟨_, rfl, Table.nodup _, fun id => ?_⟩
    rw [Table.mem_keys_iff]
    simp only [Table.get?_filter, Option.filter_eq_some_iff, QueueStore.job, Option.some.injEq,
      exists_eq_left', decide_eq_true_eq]

end Istos
