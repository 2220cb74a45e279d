import Istos.Queue.Storage
import Istos.Queue.Equiv.Board

/-!
# Storage follows the store, and the store follows storage

* `perform_mirrors`: a call whose storage calls succeed leaves storage with exactly the records of
  the job table.
* `load_spec`: what `load` reads it adds to the store or overwrites; nothing else changes.  So a
  fresh store that loads a mirror has the same job table (`load_mirrors`).
* `perform_keeps`: a rewritten index contains every member that was not deleted before it.
-/

namespace Istos

variable {T : Type} [LinearOrder T] [Zero T]

/-! ### What storage calls do -/

namespace Storage

omit [LinearOrder T] [Zero T] in
@[simp] theorem applyAll_nil (σ : Storage T) : σ.applyAll [] = σ := rfl

omit [LinearOrder T] [Zero T] in
@[simp] theorem applyAll_cons (σ : Storage T) (call : StorageCall T)
    (calls : List (StorageCall T)) :
    σ.applyAll (call :: calls) = (σ.apply call).applyAll calls := rfl

omit [LinearOrder T] [Zero T] in
@[simp] theorem applyAll_append (σ : Storage T) (calls calls' : List (StorageCall T)) :
    σ.applyAll (calls ++ calls') = (σ.applyAll calls).applyAll calls' := List.foldl_append

omit [LinearOrder T] [Zero T] in
/-- Writing records of distinct jobs. -/
theorem applyAll_putJobs (σ : Storage T) {rs : List (JobRecord T)}
    (h : (rs.map JobRecord.id).Nodup) :
    (σ.applyAll (rs.map .putJob)).index = σ.index ∧
      (∀ r ∈ rs, (σ.applyAll (rs.map .putJob)).records r.id = some (.dict r.toDict)) ∧
      ∀ id, (∀ r ∈ rs, r.id ≠ id) → (σ.applyAll (rs.map .putJob)).records id = σ.records id := by
  induction rs generalizing σ with
  | nil => exact ⟨rfl, by simp, fun _ _ => rfl⟩
  | cons r rs ih =>
    rw [List.map_cons, List.nodup_cons] at h
    obtain ⟨hindex, hnew, hold⟩ := ih (σ.apply (.putJob r)) h.2
    have hr : ∀ q ∈ rs, q.id ≠ r.id := fun q hq hid => h.1 (hid ▸ List.mem_map_of_mem hq)
    rw [List.map_cons, applyAll_cons]
    refine ⟨hindex, fun q hq => ?_, fun id hid => ?_⟩
    · rcases List.mem_cons.mp hq with rfl | hq
      · rw [hold q.id hr]
        exact Function.update_self _ _ _
      · exact hnew q hq
    · rw [hold id fun q hq => hid q (List.mem_cons_of_mem r hq)]
      exact Function.update_of_ne (Ne.symm (hid r List.mem_cons_self)) _ _

end Storage

/-! ### Storage mirrors the store -/

/-- Storage has the records of the job table, and the index the members. -/
structure Mirrors (σ : Storage T) (s : QueueStore T) : Prop where
  records : ∀ id, σ.records id = (s.job id).map fun r => .dict r.toDict
  index : ∀ id, id ∈ σ.ids ↔ id ∈ s.ids
  keys : ∀ id, id ∈ s.ids ↔ ∃ r, s.job id = some r

omit [Zero T] in
theorem mirrors_init : Mirrors (Storage.empty : Storage T) QueueStore.init where
  records := fun _ => rfl
  index := fun _ => Iff.rfl
  keys := fun id => iff_of_false List.not_mem_nil fun ⟨_, h⟩ => by cases h

/-- The jobs in a mirror are those of the table. -/
theorem Mirrors.board {σ : Storage T} {s : QueueStore T} (h : Mirrors σ s) : σ.board = s.job := by
  funext id
  unfold Storage.board
  rw [h.records id]
  cases hr : s.job id with
  | some r =>
    rw [if_pos ((h.index id).mpr ((h.keys id).mpr ⟨r, hr⟩)), Option.map_some, Option.bind_some]
    exact r.fromDict_toDict
  | none => split <;> rfl

omit [Zero T] in
/-- Writing the record of a known job. -/
theorem Mirrors.putJob {σ : Storage T} {s s' : QueueStore T} (h : Mirrors σ s) {r : JobRecord T}
    (hids : s'.ids = s.ids) (hjob : s'.job = Function.update s.job r.id (some r))
    (known : ∃ q, s.job r.id = some q) : Mirrors (σ.apply (.putJob r)) s' := by
  refine ⟨fun id => ?_, fun id => ?_, fun id => ?_⟩
  · rw [hjob]
    simp only [Storage.apply, Function.update_apply]
    split
    · rfl
    · exact h.records id
  · rw [hids]
    exact h.index id
  · rw [hids, h.keys id, hjob, Function.update_apply]
    split
    · rename_i hid
      subst hid
      exact iff_of_true known ⟨r, rfl⟩
    · rfl

omit [Zero T] in
/-- Writing the records of known jobs, one after the other. -/
theorem Mirrors.putJobs {σ : Storage T} {s s' : QueueStore T} (h : Mirrors σ s)
    {rs : List (JobRecord T)} (nodup : (rs.map JobRecord.id).Nodup) (hids : s'.ids = s.ids)
    (known : ∀ r ∈ rs, ∃ q, s.job r.id = some q) (new : ∀ r ∈ rs, s'.job r.id = some r)
    (old : ∀ id, (∀ r ∈ rs, r.id ≠ id) → s'.job id = s.job id) :
    Mirrors (σ.applyAll (rs.map .putJob)) s' := by
  obtain ⟨hindex, hnew, hold⟩ := σ.applyAll_putJobs nodup
  refine ⟨fun id => ?_, fun id => ?_, fun id => ?_⟩
  · by_cases hid : ∃ r ∈ rs, r.id = id
    · obtain ⟨r, hr, rfl⟩ := hid
      rw [hnew r hr, new r hr, Option.map_some]
    · push Not at hid
      rw [hold id hid, old id hid]
      exact h.records id
  · rw [hids, ← h.index id, Storage.ids, Storage.ids, hindex]
  · rw [hids, h.keys id]
    by_cases hid : ∃ r ∈ rs, r.id = id
    · obtain ⟨r, hr, rfl⟩ := hid
      exact iff_of_true (known r hr) ⟨r, new r hr⟩
    · push Not at hid
      rw [old id hid]

omit [Zero T] in
/-- Storage does not see the heaps. -/
theorem Mirrors.congr {σ : Storage T} {s s' : QueueStore T} (h : Mirrors σ s)
    (hids : s'.ids = s.ids) (hjob : s'.job = s.job) : Mirrors σ s' where
  records := fun id => hjob ▸ h.records id
  index := fun id => hids ▸ h.index id
  keys := fun id => hids ▸ hjob ▸ h.keys id

omit [Zero T] in
/-- Storage sees nothing but the job table. -/
theorem Mirrors.of_job {σ : Storage T} {s s' : QueueStore T} (h : Mirrors σ s)
    (hjob : s'.job = s.job) (hkeys : ∀ id, id ∈ s'.ids ↔ ∃ r, s'.job id = some r) :
    Mirrors σ s' where
  records := fun id => hjob ▸ h.records id
  index := fun id => by rw [h.index id, h.keys id, hkeys id, hjob]
  keys := hkeys

section Forget

variable (c : QueueConfig T)

omit [Zero T] in
theorem forget_calls (s : QueueStore T) (id : String) :
    (QueueStore.forget c s id).2.map Await.call
      = [.deleteJob id, .putIndex (c.idOrder.list (QueueStore.forget c s id).1.ids)] := rfl

omit [Zero T] in
theorem Mirrors.forget {σ : Storage T} {s : QueueStore T} (h : Mirrors σ s) (id : String) :
    Mirrors (σ.applyAll ((QueueStore.forget c s id).2.map Await.call))
      (QueueStore.forget c s id).1 := by
  obtain ⟨jobs, ids, hs, hjobs, hids, -⟩ := forget_spec c s id
  rw [forget_calls, hs]
  refine ⟨fun j => ?_, fun j => ?_, fun j => ?_⟩
  · simp only [Storage.applyAll_cons, Storage.applyAll_nil, Storage.apply, Function.update_apply,
      QueueStore.job, hjobs j]
    split
    · rfl
    · exact h.records j
  · exact (c.idOrder.perm ids).mem_iff
  · simp only [QueueStore.job, hjobs j, hids j, h.keys j]
    split
    · rename_i hj
      simp [hj]
    · rename_i hj
      simp [hj]

omit [Zero T] in
theorem Mirrors.forgetAll {σ : Storage T} {s : QueueStore T} (h : Mirrors σ s) (l : List String) :
    Mirrors (σ.applyAll ((QueueStore.forgetAll c s l).2.map Await.call))
      (QueueStore.forgetAll c s l).1 := by
  induction l generalizing σ s with
  | nil => exact h
  | cons id l ih =>
    rw [forgetAll_cons, List.map_append, Storage.applyAll_append]
    exact ih (h.forget c id)

end Forget

/-- The writes of a loop over expired leases. -/
theorem mirrors_lapsed {σ : Storage T} {s s' : QueueStore T} {now : T} {lapsed : List (JobRecord T)}
    (h : Mirrors σ s) (hids : s'.ids = s.ids)
    (hjob : ∀ id, s'.job id = if ∃ e ∈ s.leases, e.time ≤ now ∧ e.id = id
      then (s.job id).map (JobRecord.lapsed now) else s.job id)
    (hlapsed : ∀ r, r ∈ lapsed ↔ ∃ e ∈ s.leases, e.time ≤ now ∧
      ∃ r₀, s.job e.id = some r₀ ∧ r₀.expired now = true ∧ r = r₀.lapse now)
    (nodup : (lapsed.map JobRecord.id).Nodup) :
    Mirrors (σ.applyAll (lapsed.map .putJob)) s' := by
  refine h.putJobs nodup hids (fun r hr => ?_) (fun r hr => ?_) fun id hid => ?_
  · obtain ⟨e, -, -, r₀, hr₀, -, rfl⟩ := (hlapsed r).mp hr
    rw [JobRecord.id_lapse, QueueStore.id_of_job hr₀]
    exact ⟨r₀, hr₀⟩
  · obtain ⟨e, he, hle, r₀, hr₀, hx, rfl⟩ := (hlapsed r).mp hr
    rw [JobRecord.id_lapse, QueueStore.id_of_job hr₀, hjob, if_pos ⟨e, he, hle, rfl⟩, hr₀,
      Option.map_some, JobRecord.lapsed, if_pos hx]
  · rw [hjob id]
    split
    · rename_i hdue
      obtain ⟨e, he, hle, rfl⟩ := hdue
      cases hr₀ : s.job e.id with
      | none => rfl
      | some r₀ =>
        have hlive : ¬ r₀.expired now = true := by
          intro hx
          refine hid (r₀.lapse now) ((hlapsed _).mpr ⟨e, he, hle, r₀, hr₀, hx, rfl⟩) ?_
          rw [JobRecord.id_lapse, QueueStore.id_of_job hr₀]
        rw [Option.map_some, JobRecord.lapsed, if_neg hlive]
    · rfl

/-- **Write-through**: a call whose storage calls succeed leaves a mirror of the store. -/
theorem perform_mirrors [Add T] (c : QueueConfig T) {σ : Storage T} {s : QueueStore T}
    (h : Mirrors σ s) (op : Op T) :
    Mirrors (σ.applyAll (s.perform c op).calls) (s.perform c op).store := by
  cases op with
  | add job id t₁ t₂ t₃ =>
    let r := job.record id (s.seq + 1) (startTime t₁ job.delay) t₂
    let s' : QueueStore T := { s with
      seq := s.seq + 1
      jobs := s.jobs.put r
      ids := if r.id ∈ s.ids then s.ids else s.ids ++ [r.id] }
    have hjob : (s'.offerReady r t₃).job = Function.update s.job id (some r) :=
      (job_offerReady _ _ _).trans (get?_put_eq_update s.jobs rfl)
    have hids : (s'.offerReady r t₃).ids = s'.ids := by
      obtain ⟨delayed, ready, hoffer, -⟩ := offerReady_spec s' r t₃
      rw [hoffer]
    have hmem : ∀ j, j ∈ s'.ids ↔ j ∈ s.ids ∨ j = id := by
      intro j
      change j ∈ (if id ∈ s.ids then s.ids else s.ids ++ [id]) ↔ _
      split
      · rename_i hin
        exact ⟨Or.inl, fun hj => hj.elim (fun hj => hj) fun hj => hj ▸ hin⟩
      · rw [List.mem_append, List.mem_singleton]
    change Mirrors (σ.applyAll [.putJob r, .putIndex (c.idOrder.list (s'.offerReady r t₃).ids)])
      (s'.offerReady r t₃)
    refine ⟨fun j => ?_, fun j => (c.idOrder.perm _).mem_iff, fun j => ?_⟩
    · simp only [Storage.applyAll_cons, Storage.applyAll_nil, Storage.apply, hjob,
        Function.update_apply]
      split
      · rename_i hj
        rw [if_pos (show j = id from hj)]
        rfl
      · rename_i hj
        rw [if_neg (show ¬ j = id from hj)]
        exact h.records j
    · rw [hids, hmem, h.keys j, hjob, Function.update_apply]
      split
      · rename_i hj
        simp [hj]
      · rename_i hj
        simp [hj]
  | claim now lease =>
    have hw := woken s now
    -- first the lapsed records are written, then the claimed one
    have hmid := mirrors_lapsed h hw.ids hw.job hw.changed hw.nodup
    have hwrites : ((s.wake now).1.writeJobs (s.wake now).2).map Await.call
        = (s.wake now).2.map .putJob := by
      rw [QueueStore.writeJobs, List.map_map]
      rfl
    rcases claim_cases s now lease with ⟨hclaim, -⟩ | ⟨pre, k, rest, r, -, -, hr, -, hclaim⟩
    · simp only [QueueStore.perform, Outcome.calls, hclaim]
      rw [hwrites]
      exact hmid.congr rfl rfl
    · simp only [QueueStore.perform, Outcome.calls, hclaim]
      rw [List.map_append, hwrites, Storage.applyAll_append]
      have hid : r.id = k.id := QueueStore.id_of_job hr
      exact hmid.putJob rfl (get?_put_eq_update (s.wake now).1.jobs rfl) ⟨r, hid ▸ hr⟩
  | ack id res attempt now =>
    rcases ack_cases c s id res attempt now with ⟨-, hack⟩ | ⟨r, hjob, hold, ⟨-, hack⟩ | ⟨-, hack⟩⟩
    · simp only [QueueStore.perform, Outcome.calls, hack]
      exact h
    · simp only [QueueStore.perform, Outcome.calls, hack]
      have hid : r.id = id := QueueStore.id_of_job hjob
      exact h.putJob rfl (get?_put_eq_update s.jobs rfl) ⟨r, hid ▸ hjob⟩
    · simp only [QueueStore.perform, Outcome.calls, hack]
      exact h.forget c id
  | nack id error delay attempt t₁ t₂ =>
    rcases nack_cases s id error delay attempt t₁ t₂ with
      ⟨-, hnack⟩ | ⟨r, hjob, hold, ⟨-, hnack⟩ | ⟨-, hnack⟩⟩
    · simp only [QueueStore.perform, Outcome.calls, hnack]
      exact h
    · simp only [QueueStore.perform, Outcome.calls, hnack]
      have hid : r.id = id := QueueStore.id_of_job hjob
      exact h.putJob rfl (get?_put_eq_update s.jobs rfl) ⟨r, hid ▸ hjob⟩
    · simp only [QueueStore.perform, Outcome.calls, hnack]
      have hid : r.id = id := QueueStore.id_of_job hjob
      obtain ⟨delayed, ready, hoffer, -⟩ := offerReady_spec
        { s with jobs := s.jobs.put (r.requeue error (startTime t₁ delay)) }
        (r.requeue error (startTime t₁ delay)) t₂
      rw [hoffer]
      exact h.putJob rfl (get?_put_eq_update s.jobs rfl) ⟨r, hid ▸ hjob⟩
  | sweep now =>
    have hr := reclaimed s now
    obtain ⟨gone, done, -, -, hstore, hcalls, -⟩ := sweep_spec c s now
    have hmid := mirrors_lapsed h hr.ids hr.job hr.changed hr.nodup
    -- the lapsed records are written, and then the dropped ones are deleted
    have hend := hmid.forgetAll c gone
    obtain ⟨chords, hdrop⟩ := dropChords_spec c
      { (QueueStore.forgetAll c (s.reclaimLeases now).1 gone).1 with done := done } now
    change Mirrors (σ.applyAll (s.sweep c now).calls) (s.sweep c now).store
    rw [hstore, hcalls, hdrop, Storage.applyAll_append]
    exact hend.congr rfl rfl

/-! ### What `load` reads -/

/-- The records that `load` reads from a list of ids before it ends. -/
def Storage.read (σ : Storage T) (fails : ℕ → Bool) : ℕ → List String → List (JobRecord T)
  | _, [] => []
  | n, id :: ids =>
    if fails n then []
    else
      match σ.records id with
      | none => σ.read fails (n + 1) ids
      | some raw =>
        match raw.decode with
        | none => []
        | some r => r :: σ.read fails (n + 1) ids

/-- **The rule for the loop of `load`**: `P rs s` relates the records read so far and the store. -/
theorem loadFrom_rule [Add T] {c : QueueConfig T} {σ : Storage T} {fails : ℕ → Bool} {clock : ℕ → T}
    (P : List (JobRecord T) → QueueStore T → Prop)
    (step : ∀ rs s r n, P rs s → P (rs ++ [r]) (s.loadRecord c r (clock n)))
    {rs : List (JobRecord T)} {s : QueueStore T} (start : P rs s) (n : ℕ) (ids : List String) :
    P (rs ++ σ.read fails n ids) (QueueStore.loadFrom c σ fails clock n ids s) := by
  induction ids generalizing rs s n with
  | nil =>
    rw [Storage.read, List.append_nil]
    exact start
  | cons id ids ih =>
    rw [Storage.read, QueueStore.loadFrom]
    by_cases hf : fails n = true
    · rw [if_pos hf, if_pos hf, List.append_nil]
      exact start
    · rw [if_neg hf, if_neg hf]
      cases hrec : σ.records id with
      | none => exact ih start (n + 1)
      | some raw =>
        cases hd : raw.decode with
        | none =>
          simp only [hd, List.append_nil]
          exact start
        | some r =>
          simp only [hd]
          have hstep := ih (step rs s r n start) (n + 1)
          rwa [List.append_assoc, List.singleton_append] at hstep

omit [Zero T] in
theorem loadRecord_spec [Add T] (c : QueueConfig T) (s : QueueStore T) (r : JobRecord T) (now : T) :
    (s.loadRecord c r now).job = Function.update s.job r.id (some r) ∧
      (∀ id, id ∈ (s.loadRecord c r now).ids ↔ id ∈ s.ids ∨ id = r.id) ∧
      (s.loadRecord c r now).chords = s.chords ∧
      (s.loadRecord c r now).seq = max s.seq r.seq := by
  let s' : QueueStore T := { s with
    jobs := s.jobs.put r
    ids := if r.id ∈ s.ids then s.ids else s.ids ++ [r.id]
    seq := max s.seq r.seq }
  have hjob : s'.job = Function.update s.job r.id (some r) := get?_put_eq_update s.jobs rfl
  have hids : ∀ id, id ∈ s'.ids ↔ id ∈ s.ids ∨ id = r.id := by
    intro id
    change id ∈ (if r.id ∈ s.ids then s.ids else s.ids ++ [r.id]) ↔ _
    split
    · rename_i hin
      exact ⟨Or.inl, fun h => h.elim (fun h => h) fun h => h ▸ hin⟩
    · rw [List.mem_append, List.mem_singleton]
  unfold QueueStore.loadRecord
  cases hstate : r.state with
  | ready =>
    obtain ⟨delayed, ready, h, -⟩ := offerReady_spec s' r now
    dsimp only
    rw [h]
    exact ⟨hjob, hids, rfl, rfl⟩
  | leased => exact ⟨hjob, hids, rfl, rfl⟩
  | done => exact ⟨hjob, hids, rfl, rfl⟩
  | dead => exact ⟨hjob, hids, rfl, rfl⟩

/-- The records that `load` reads. -/
def Storage.loaded (σ : Storage T) (fails : ℕ → Bool) : List (JobRecord T) :=
  if fails 0 then [] else σ.read fails 1 σ.ids

theorem load_rule [Add T] {c : QueueConfig T} {σ : Storage T} {fails : ℕ → Bool} {clock : ℕ → T}
    (P : List (JobRecord T) → QueueStore T → Prop)
    (step : ∀ rs s r n, P rs s → P (rs ++ [r]) (s.loadRecord c r (clock n)))
    {s : QueueStore T} (start : P [] s) : P (σ.loaded fails) (s.load c σ fails clock) := by
  unfold Storage.loaded QueueStore.load
  by_cases hf : fails 0 = true
  · rw [if_pos hf, if_pos hf]
    exact start
  · rw [if_neg hf, if_neg hf]
    exact loadFrom_rule P step start 1 σ.ids

/-- **`load`** adds or overwrites what it reads, and changes nothing else. -/
theorem load_spec [Add T] (c : QueueConfig T) (σ : Storage T) (fails : ℕ → Bool) (clock : ℕ → T)
    (s : QueueStore T) :
    (∀ id r, (s.load c σ fails clock).job id = some r →
      r ∈ σ.loaded fails ∨ s.job id = some r ∧ ∀ q ∈ σ.loaded fails, q.id ≠ id) ∧
    (∀ id, (∃ r, (s.load c σ fails clock).job id = some r) ↔
      (∃ r, s.job id = some r) ∨ ∃ q ∈ σ.loaded fails, q.id = id) ∧
    (∀ id, id ∈ (s.load c σ fails clock).ids ↔ id ∈ s.ids ∨ ∃ q ∈ σ.loaded fails, q.id = id) ∧
    (s.load c σ fails clock).chords = s.chords := by
  refine load_rule (fun rs s' =>
    (∀ id r, s'.job id = some r → r ∈ rs ∨ s.job id = some r ∧ ∀ q ∈ rs, q.id ≠ id) ∧
    (∀ id, (∃ r, s'.job id = some r) ↔ (∃ r, s.job id = some r) ∨ ∃ q ∈ rs, q.id = id) ∧
    (∀ id, id ∈ s'.ids ↔ id ∈ s.ids ∨ ∃ q ∈ rs, q.id = id) ∧ s'.chords = s.chords) ?_ ?_
  · rintro rs s' r n ⟨hjob, hknown, hids, hchords⟩
    obtain ⟨hjob', hids', hchords', -⟩ := loadRecord_spec c s' r (clock n)
    refine ⟨fun id q hq => ?_, fun id => ?_, fun id => ?_, hchords'.trans hchords⟩
    · rw [hjob', Function.update_apply] at hq
      split at hq
      · obtain rfl := Option.some.inj hq
        exact Or.inl (List.mem_append_right rs List.mem_cons_self)
      · rename_i hid
        rcases hjob id q hq with hmem | ⟨hs, hno⟩
        · exact Or.inl (List.mem_append_left _ hmem)
        · refine Or.inr ⟨hs, fun q' hq' => ?_⟩
          rcases List.mem_append.mp hq' with hq' | hq'
          · exact hno q' hq'
          · obtain rfl := List.mem_singleton.mp hq'
            exact Ne.symm hid
    · rw [exists_mem_append_singleton, ← or_assoc, ← hknown id, hjob', Function.update_apply]
      split
      · rename_i hid
        exact iff_of_true ⟨r, rfl⟩ (Or.inr hid.symm)
      · rename_i hid
        exact ⟨Or.inl, fun h => h.resolve_right (Ne.symm hid)⟩
    · rw [hids' id, hids id, exists_mem_append_singleton, or_assoc, eq_comm (a := id)]
  · exact ⟨fun id r hr => Or.inr ⟨hr, by simp⟩, by simp, by simp, rfl⟩

/-- Storage whose values are all dictionaries of the records they are stored under. -/
def Storage.Sane (σ : Storage T) : Prop :=
  ∀ id raw, σ.records id = some raw → ∃ r : JobRecord T, raw.decode = some r ∧ r.id = id

omit [LinearOrder T] in
/-- Nothing is missed when all reads succeed. -/
theorem mem_read_reliable {σ : Storage T} (hσ : σ.Sane) {r : JobRecord T} {n : ℕ}
    {ids : List String} :
    r ∈ σ.read QueueStore.reliable n ids ↔ r.id ∈ ids ∧
        (σ.records r.id).bind Raw.decode = some r := by
  induction ids generalizing n with
  | nil => simp [Storage.read]
  | cons id ids ih =>
    rw [Storage.read, if_neg (by simp [QueueStore.reliable]), List.mem_cons]
    cases hrec : σ.records id with
    | none =>
      simp only
      rw [ih]
      constructor
      · exact fun ⟨hr, hd⟩ => ⟨Or.inr hr, hd⟩
      · rintro ⟨rfl | hr, hd⟩
        · rw [hrec] at hd
          cases hd
        · exact ⟨hr, hd⟩
    | some raw =>
      obtain ⟨q, hq, hqid⟩ := hσ id raw hrec
      simp only [hq]
      rw [List.mem_cons, ih]
      constructor
      · rintro (rfl | ⟨hr, hd⟩)
        · exact ⟨Or.inl hqid, by rw [hqid, hrec, Option.bind_some, hq]⟩
        · exact ⟨Or.inr hr, hd⟩
      · rintro ⟨hid | hr, hd⟩
        · rw [hid, hrec, Option.bind_some, hq] at hd
          exact Or.inl (Option.some.inj hd).symm
        · exact Or.inr ⟨hr, hd⟩

omit [LinearOrder T] in
theorem mem_loaded_reliable {σ : Storage T} (hσ : σ.Sane) {r : JobRecord T} :
    r ∈ σ.loaded QueueStore.reliable ↔ σ.board r.id = some r := by
  rw [Storage.loaded, if_neg (by simp [QueueStore.reliable]), mem_read_reliable hσ, Storage.board]
  split
  · rename_i hin
    simp [hin]
  · rename_i hout
    simp [hout]

/-- **Recovery from a sane storage**: the stored jobs, and what the store had besides. -/
theorem load_job [Add T] (c : QueueConfig T) {σ : Storage T} (hσ : σ.Sane) (clock : ℕ → T)
    (s : QueueStore T) (id : String) :
    (s.load c σ QueueStore.reliable clock).job id = (σ.board id).or (s.job id) := by
  obtain ⟨hjob, hknown, -, -⟩ := load_spec c σ QueueStore.reliable clock s
  have hid : ∀ r, σ.board id = some r → r.id = id := by
    intro r hr
    unfold Storage.board at hr
    split at hr
    · obtain ⟨raw, hraw, hd⟩ := Option.bind_eq_some_iff.mp hr
      obtain ⟨q, hq, hqid⟩ := hσ id raw hraw
      rw [hd, Option.some.injEq] at hq
      rw [hq, hqid]
    · cases hr
  cases hb : σ.board id with
  | some r =>
    have hmem : r ∈ σ.loaded QueueStore.reliable :=
      (mem_loaded_reliable hσ).mpr ((hid r hb).symm ▸ hb)
    obtain ⟨q, hq⟩ := (hknown id).mpr (Or.inr ⟨r, hmem, hid r hb⟩)
    rcases hjob id q hq with hqmem | ⟨-, hno⟩
    · have hqb := (mem_loaded_reliable hσ).mp hqmem
      rw [QueueStore.id_of_job hq, hb] at hqb
      rw [hq, ← hqb]
      rfl
    · exact absurd (hid r hb) (hno r hmem)
  | none =>
    have hnone : ∀ q ∈ σ.loaded QueueStore.reliable, q.id ≠ id := by
      rintro q hq rfl
      rw [(mem_loaded_reliable hσ).mp hq] at hb
      cases hb
    cases hl : (s.load c σ QueueStore.reliable clock).job id with
    | some q =>
      rcases hjob id q hl with hq | ⟨hq, -⟩
      · exact absurd (QueueStore.id_of_job hl) (hnone q hq)
      · exact hq.symm
    | none =>
      cases hs : s.job id with
      | none => rfl
      | some q =>
        obtain ⟨q', hq'⟩ := (hknown id).mpr (Or.inl ⟨q, hs⟩)
        rw [hl] at hq'
        cases hq'

theorem Mirrors.sane {σ : Storage T} {s : QueueStore T} (h : Mirrors σ s) : σ.Sane := by
  intro id raw hraw
  rw [h.records id, Option.map_eq_some_iff] at hraw
  obtain ⟨r, hr, rfl⟩ := hraw
  exact ⟨r, r.fromDict_toDict, QueueStore.id_of_job hr⟩

/-- **Recovery from a mirror**: a store whose jobs are all stored has the stored jobs after `load`,
and storage mirrors it. -/
theorem load_mirrors [Add T] (c : QueueConfig T) {σ : Storage T} {s₀ : QueueStore T}
    (h : Mirrors σ s₀) (clock : ℕ → T) {s : QueueStore T}
    (keys : ∀ id, id ∈ s.ids ↔ ∃ r, s.job id = some r)
    (stored : ∀ id r, s.job id = some r → ∃ q, σ.board id = some q) :
    (s.load c σ QueueStore.reliable clock).job = s₀.job ∧
      Mirrors σ (s.load c σ QueueStore.reliable clock) := by
  have hjob : (s.load c σ QueueStore.reliable clock).job = s₀.job := by
    funext id
    rw [load_job c h.sane clock s id]
    cases hb : σ.board id with
    | some r => rw [← h.board, hb, Option.some_or]
    | none =>
      rw [← h.board, hb, Option.none_or]
      cases hs : s.job id with
      | none => rfl
      | some r =>
        obtain ⟨q, hq⟩ := stored id r hs
        rw [hb] at hq
        cases hq
  obtain ⟨-, hknown, hids, -⟩ := load_spec c σ QueueStore.reliable clock s
  have hkeys : ∀ id, id ∈ (s.load c σ QueueStore.reliable clock).ids ↔
      ∃ r, (s.load c σ QueueStore.reliable clock).job id = some r := by
    intro id
    rw [hids id, hknown id, keys id]
  exact ⟨hjob, h.of_job hjob hkeys⟩

/-- A fresh store recovers the mirrored table. -/
theorem load_fresh_mirrors [Add T] (c : QueueConfig T) {σ : Storage T} {s₀ : QueueStore T}
    (h : Mirrors σ s₀) (clock : ℕ → T) :
    (QueueStore.init.load c σ QueueStore.reliable clock).job = s₀.job ∧
      Mirrors σ (QueueStore.init.load c σ QueueStore.reliable clock) := by
  refine load_mirrors c h clock mirrors_init.keys ?_
  intro id r hr
  cases hr

end Istos
