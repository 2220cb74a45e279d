import Istos.Queue.Equiv.Budget

/-!
# Recovery from a storage that fails

`load` keeps the prefix of the index it could read, and the next call that adds or forgets a job
rewrites the whole index from the members it has in memory.  So an id that was not read back
disappears from the index although nobody finished its job (`lost_after_load`).

`recovery_keeps` says exactly which ids are safe: those that `load` gets to
(`Storage.Readable`).  From then on no failing storage call hurts them, since a rewritten index
contains every member that the call has not deleted before (`perform_keeps`).
-/

namespace Istos

variable {T : Type} [LinearOrder T] [Zero T]

/-! ### What the calls of an operation do to the index -/

/-- Every index written has all of the ids that were not deleted before it. -/
def Keeps : (String → Prop) → List (StorageCall T) → Prop
  | _, [] => True
  | p, .putJob _ :: calls => Keeps p calls
  | p, .putIndex ids :: calls => (∀ id, p id → id ∈ ids) ∧ Keeps p calls
  | p, .deleteJob id :: calls => Keeps (fun j => p j ∧ j ≠ id) calls

omit [LinearOrder T] [Zero T] in
theorem Keeps.mono {p q : String → Prop} {calls : List (StorageCall T)} (h : Keeps p calls)
    (hpq : ∀ id, q id → p id) : Keeps q calls := by
  induction calls generalizing p q with
  | nil => trivial
  | cons call calls ih =>
    cases call with
    | putJob r => exact ih h hpq
    | putIndex ids => exact ⟨fun id hq => h.1 id (hpq id hq), ih h.2 hpq⟩
    | deleteJob j => exact ih h fun id hq => ⟨hpq id hq.1, hq.2⟩

omit [LinearOrder T] [Zero T] in
theorem keeps_putJobs_append {p : String → Prop} (rs : List (JobRecord T))
    {calls : List (StorageCall T)} (h : Keeps p calls) : Keeps p (rs.map .putJob ++ calls) := by
  induction rs with
  | nil => exact h
  | cons r rs ih => exact ih

omit [LinearOrder T] [Zero T] in
/-- **A member stays in the index**, whichever of the calls fail, unless its record is deleted. -/
theorem Keeps.mem_ids {p : String → Prop} {calls : List (StorageCall T)} (h : Keeps p calls)
    {done : List (StorageCall T)} (hdone : done.Sublist calls) {σ : Storage T} {id : String}
    (hid : p id) (hdelete : .deleteJob id ∉ calls) (hσ : id ∈ σ.ids) :
    id ∈ (σ.applyAll done).ids := by
  induction hdone generalizing p σ with
  | slnil => exact hσ
  | cons call hsub ih =>
    rw [List.mem_cons, not_or] at hdelete
    cases call with
    | putJob r => exact ih h hid hdelete.2 hσ
    | putIndex ids => exact ih h.2 hid hdelete.2 hσ
    | deleteJob j => exact ih h ⟨hid, fun hj => hdelete.1 (hj ▸ rfl)⟩ hdelete.2 hσ
  | cons_cons call hsub ih =>
    rw [List.mem_cons, not_or] at hdelete
    rw [Storage.applyAll_cons]
    cases call with
    | putJob r => exact ih h hid hdelete.2 hσ
    | putIndex ids => exact ih h.2 hid hdelete.2 (h.1 id hid)
    | deleteJob j => exact ih h ⟨hid, fun hj => hdelete.1 (hj ▸ rfl)⟩ hdelete.2 hσ

section Forget

variable (c : QueueConfig T)

omit [Zero T] in
/-- Forgetting keeps the ids that are not forgotten, and deletes the records of those that are. -/
theorem forgetAll_keeps (s : QueueStore T) (l : List String) :
    Keeps (· ∈ s.ids) ((QueueStore.forgetAll c s l).2.map Await.call) ∧
      ∀ id, .deleteJob id ∈ (QueueStore.forgetAll c s l).2.map Await.call → id ∈ l := by
  induction l generalizing s with
  | nil => exact ⟨trivial, fun id h => by cases h⟩
  | cons j l ih =>
    obtain ⟨hkeep, hdelete⟩ := ih (QueueStore.forget c s j).1
    have hids : ∀ id, id ∈ (QueueStore.forget c s j).1.ids ↔ id ∈ s.ids ∧ id ≠ j := by
      intro id
      change id ∈ s.ids.filter (fun i => decide (i ≠ j)) ↔ _
      rw [List.mem_filter, decide_eq_true_eq]
    rw [forgetAll_cons, List.map_append, forget_calls]
    refine ⟨⟨fun id hid => ?_, hkeep.mono fun id hid => (hids id).mpr hid⟩, fun id hmem => ?_⟩
    · rw [(c.idOrder.perm _).mem_iff]
      exact (hids id).mpr hid
    · rcases List.mem_append.mp hmem with hmem | hmem
      · rcases List.mem_cons.mp hmem with hmem | hmem
        · injection hmem with hj
          exact hj ▸ List.mem_cons_self
        · rcases List.mem_cons.mp hmem with hmem | hmem
          · cases hmem
          · cases hmem
      · exact List.mem_cons_of_mem j (hdelete id hmem)

end Forget

variable [Add T] {c : QueueConfig T}

/-- The call takes the job out of the queue: an accepted ack, or a sweep after its TTL. -/
def Leaves (c : QueueConfig T) (s : QueueStore T) (op : Op T) (id : String) : Prop :=
  Event.effect id (op, (s.perform c op).answer) = some .acked ∨
    ∃ now r r', op = .sweep now ∧ s.job id = some r ∧ r.Aged now r' ∧
      (r'.stale c now ∨ r'.buried c now)

/-- **One call**: the index it writes keeps every member whose record it has not deleted, and it
deletes the record of a job only when the job leaves the queue. -/
theorem perform_keeps (c : QueueConfig T) (s : QueueStore T) (op : Op T) :
    Keeps (· ∈ s.ids) (s.perform c op).calls ∧
      ∀ id, .deleteJob id ∈ (s.perform c op).calls → Leaves c s op id := by
  cases op with
  | add job id t₁ t₂ t₃ =>
    let r := job.record id (s.seq + 1) (startTime t₁ job.delay) t₂
    let s' : QueueStore T := { s with
      seq := s.seq + 1
      jobs := s.jobs.put r
      ids := if r.id ∈ s.ids then s.ids else s.ids ++ [r.id] }
    have hids : (s'.offerReady r t₃).ids = s'.ids := by
      obtain ⟨delayed, ready, hoffer, -⟩ := offerReady_spec s' r t₃
      rw [hoffer]
    have hcalls : (s.perform c (.add job id t₁ t₂ t₃)).calls
        = [.putJob r, .putIndex (c.idOrder.list (s'.offerReady r t₃).ids)] := rfl
    rw [hcalls]
    refine ⟨⟨fun j hj => ?_, trivial⟩, fun j hj => ?_⟩
    · rw [(c.idOrder.perm _).mem_iff, hids]
      change j ∈ (if id ∈ s.ids then s.ids else s.ids ++ [id])
      split
      · exact hj
      · exact List.mem_append_left _ hj
    · simp at hj
  | claim now lease =>
    have hcalls : ∃ rs : List (JobRecord T),
        (s.perform c (.claim now lease)).calls = rs.map .putJob := by
      have hwrites : ((s.wake now).1.writeJobs (s.wake now).2).map Await.call
          = (s.wake now).2.map .putJob := by
        rw [QueueStore.writeJobs, List.map_map]
        rfl
      rcases claim_cases s now lease with ⟨h, -⟩ | ⟨pre, k, rest, r, -, -, -, -, h⟩
      · refine ⟨(s.wake now).2, ?_⟩
        simp only [QueueStore.perform, Outcome.calls, h]
        exact hwrites
      · refine ⟨(s.wake now).2 ++ [r.lease (now + lease)], ?_⟩
        simp only [QueueStore.perform, Outcome.calls, h]
        rw [List.map_append, hwrites, List.map_append]
        rfl
    obtain ⟨rs, hrs⟩ := hcalls
    rw [hrs]
    refine ⟨?_, fun id hid => by simp at hid⟩
    have hnil : Keeps (T := T) (· ∈ s.ids) [] := trivial
    have hkeep := keeps_putJobs_append rs hnil
    rwa [List.append_nil] at hkeep
  | ack id res attempt now =>
    rcases ack_cases c s id res attempt now with ⟨-, h⟩ | ⟨r, hjob, hold, ⟨-, h⟩ | ⟨-, h⟩⟩
    · simp only [Leaves, QueueStore.perform, Outcome.calls, h]
      exact ⟨trivial, fun j hj => by cases hj⟩
    · simp only [Leaves, QueueStore.perform, Outcome.calls, h]
      exact ⟨trivial, fun j hj => by simp at hj⟩
    · obtain ⟨hkeep, hdelete⟩ := forgetAll_keeps c s [id]
      have hone : (QueueStore.forgetAll c s [id]).2 = (QueueStore.forget c s id).2 := by
        rw [forgetAll_cons, forgetAll_nil, List.append_nil]
      rw [hone] at hkeep hdelete
      simp only [Leaves, QueueStore.perform, Outcome.calls, h]
      refine ⟨hkeep, fun j hj => Or.inl ?_⟩
      have hjid : j = id := List.mem_singleton.mp (hdelete j hj)
      exact if_pos hjid.symm
  | nack id error delay attempt t₁ t₂ =>
    rcases nack_cases s id error delay attempt t₁ t₂ with
      ⟨-, h⟩ | ⟨r, hjob, hold, ⟨-, h⟩ | ⟨-, h⟩⟩
    · simp only [Leaves, QueueStore.perform, Outcome.calls, h]
      exact ⟨trivial, fun j hj => by cases hj⟩
    · simp only [Leaves, QueueStore.perform, Outcome.calls, h]
      exact ⟨trivial, fun j hj => by simp at hj⟩
    · simp only [Leaves, QueueStore.perform, Outcome.calls, h]
      exact ⟨trivial, fun j hj => by simp at hj⟩
  | sweep now =>
    have hr := reclaimed s now
    obtain ⟨gone, done, hgone, -, -, hcalls, -⟩ := sweep_spec c s now
    obtain ⟨hkeep, hdelete⟩ := forgetAll_keeps c (s.reclaimLeases now).1 gone
    rw [hr.ids] at hkeep
    have hcalls' : (s.perform c (.sweep now)).calls = (s.sweep c now).calls := rfl
    rw [hcalls', hcalls]
    refine ⟨keeps_putJobs_append _ hkeep, fun id hid => Or.inr ?_⟩
    rcases List.mem_append.mp hid with hid | hid
    · simp at hid
    · obtain ⟨r', hr', hold⟩ := (hgone id).mp (hdelete id hid)
      classical
      obtain ⟨r, hjob, haged⟩ := aged_of_lapses (lapses_of_job hr.job) hr'
      exact ⟨now, r, r', rfl, hjob, haged, hold.imp And.right fun hb => hb⟩

/-! ### Runs with failing storage calls -/

/-- The storage calls of a sequence of operations. -/
def QueueStore.calls (c : QueueConfig T) (s : QueueStore T) : List (Op T) → List (StorageCall T)
  | [] => []
  | op :: ops => (s.perform c op).calls ++ (s.perform c op).store.calls c ops

/-- The job leaves the queue at some point of a run. -/
def LeavesDuring (c : QueueConfig T) (s : QueueStore T) (ops : List (Op T)) (id : String) : Prop :=
  ∃ pre op post, ops = pre ++ op :: post ∧ Leaves c (s.run c pre) op id

/-- The members are the keys of the job table. -/
def QueueStore.Consistent (s : QueueStore T) : Prop := ∀ id, id ∈ s.ids ↔ ∃ r, s.job id = some r

theorem perform_consistent (c : QueueConfig T) {s : QueueStore T} (h : s.Consistent) (op : Op T) :
    (s.perform c op).store.Consistent := by
  have hm : Mirrors ⟨some s.ids, fun id => (s.job id).map fun r => .dict r.toDict⟩ s :=
    ⟨fun _ => rfl, fun _ => Iff.rfl, h⟩
  exact (perform_mirrors c hm op).keys

/-- A member that does not leave stays a member, and its record is not deleted, whichever storage
calls fail. -/
theorem member_kept (c : QueueConfig T) {s : QueueStore T} (hs : s.Consistent) {id : String}
    (hid : id ∈ s.ids) {σ : Storage T} (hσ : id ∈ σ.ids) (ops : List (Op T))
    {done : List (StorageCall T)} (hdone : done.Sublist (s.calls c ops)) :
    id ∈ (σ.applyAll done).ids ∧ .deleteJob id ∉ done ∨ LeavesDuring c s ops id := by
  induction ops generalizing s σ done with
  | nil =>
    have hnil : done = [] := List.sublist_nil.mp hdone
    subst hnil
    exact Or.inl ⟨hσ, List.not_mem_nil⟩
  | cons op ops ih =>
    by_cases hleave : Leaves c s op id
    · exact Or.inr ⟨[], op, ops, rfl, hleave⟩
    · obtain ⟨hkeep, hdelete⟩ := perform_keeps c s op
      have hnot : .deleteJob id ∉ (s.perform c op).calls := fun hmem => hleave (hdelete id hmem)
      obtain ⟨done₁, done₂, rfl, h₁, h₂⟩ := List.sublist_append_iff.mp hdone
      have hσ₁ : id ∈ (σ.applyAll done₁).ids := hkeep.mem_ids h₁ hid hnot hσ
      have hid₁ : id ∈ (s.perform c op).store.ids := by
        obtain ⟨r, hr⟩ := (hs id).mp hid
        have hmove := perform_step c s op id
        rw [hr] at hmove
        cases hr' : (s.perform c op).store.job id with
        | some r' => exact (perform_consistent c hs op id).mpr ⟨r', hr'⟩
        | none =>
          rw [hr'] at hmove
          refine absurd ?_ hleave
          rcases hmove.gone with hack | ⟨now, r', hop, haged, hold⟩
          · exact Or.inl hack
          · exact Or.inr ⟨now, r, r', hop, hr, haged, hold⟩
      rcases ih (perform_consistent c hs op) hid₁ hσ₁ h₂ with ⟨hin, hout⟩ | ⟨pre, op', post, rfl, h⟩
      · refine Or.inl ⟨by rwa [Storage.applyAll_append], fun hmem => ?_⟩
        rcases List.mem_append.mp hmem with hmem | hmem
        · exact hnot (h₁.subset hmem)
        · exact hout hmem
      · exact Or.inr ⟨op :: pre, op', post, rfl, h⟩

/-! ### What `load` gets to -/

/-- **The condition on the stored queue and the failing reads**: the index is read, and at some
position of it every read up to there succeeds, every value before it is absent or decodes, and the
value there decodes to a record with that id. -/
def Storage.Readable (σ : Storage T) (fails : ℕ → Bool) (id : String) : Prop :=
  fails 0 = false ∧ ∃ pre j post, σ.ids = pre ++ j :: post ∧
    (∀ n ≤ pre.length, fails (n + 1) = false) ∧
    (∀ i ∈ pre, ∀ raw, σ.records i = some raw → raw.decode ≠ none) ∧
    ∃ r, (σ.records j).bind Raw.decode = some r ∧ r.id = id

omit [LinearOrder T] [Add T] in
theorem mem_read_iff {σ : Storage T} {fails : ℕ → Bool} {n : ℕ} {ids : List String}
    {r : JobRecord T} :
    r ∈ σ.read fails n ids ↔ ∃ pre j post, ids = pre ++ j :: post ∧
      (∀ k ≤ pre.length, fails (n + k) = false) ∧
      (∀ i ∈ pre, ∀ raw, σ.records i = some raw → raw.decode ≠ none) ∧
      (σ.records j).bind Raw.decode = some r := by
  induction ids generalizing n with
  | nil => simp [Storage.read]
  | cons i ids ih =>
    -- a record is read at the head of the list, or further on
    have further : (∃ pre j post, ids = pre ++ j :: post ∧
          (∀ k ≤ pre.length, fails (n + 1 + k) = false) ∧
          (∀ i ∈ pre, ∀ raw, σ.records i = some raw → raw.decode ≠ none) ∧
          (σ.records j).bind Raw.decode = some r) ∧ fails n = false ∧
          (∀ raw, σ.records i = some raw → raw.decode ≠ none) ↔
        ∃ pre j post, i :: ids = (i :: pre) ++ j :: post ∧
          (∀ k ≤ (i :: pre).length, fails (n + k) = false) ∧
          (∀ i' ∈ i :: pre, ∀ raw, σ.records i' = some raw → raw.decode ≠ none) ∧
          (σ.records j).bind Raw.decode = some r := by
      constructor
      · rintro ⟨⟨pre, j, post, rfl, hreads, hpre, hj⟩, hn, hi⟩
        refine ⟨pre, j, post, rfl, fun k hk => ?_, fun i' hi' => ?_, hj⟩
        · cases k with
          | zero => exact hn
          | succ k =>
            have := hreads k (Nat.le_of_succ_le_succ hk)
            rwa [Nat.add_assoc, Nat.add_comm 1 k] at this
        · rcases List.mem_cons.mp hi' with rfl | hi'
          · exact hi
          · exact hpre i' hi'
      · rintro ⟨pre, j, post, heq, hreads, hpre, hj⟩
        rw [List.cons_append, List.cons.injEq] at heq
        refine ⟨⟨pre, j, post, heq.2, fun k hk => ?_, fun i' hi' => ?_, hj⟩, ?_, ?_⟩
        · have := hreads (k + 1) (Nat.succ_le_succ hk)
          rwa [Nat.add_comm k 1, ← Nat.add_assoc] at this
        · exact hpre i' (List.mem_cons_of_mem i hi')
        · exact hreads 0 (Nat.zero_le _)
        · exact hpre i List.mem_cons_self
    have split : (∃ pre j post, i :: ids = pre ++ j :: post ∧
          (∀ k ≤ pre.length, fails (n + k) = false) ∧
          (∀ i' ∈ pre, ∀ raw, σ.records i' = some raw → raw.decode ≠ none) ∧
          (σ.records j).bind Raw.decode = some r) ↔
        fails n = false ∧ (σ.records i).bind Raw.decode = some r ∨
        ∃ pre j post, i :: ids = (i :: pre) ++ j :: post ∧
          (∀ k ≤ (i :: pre).length, fails (n + k) = false) ∧
          (∀ i' ∈ i :: pre, ∀ raw, σ.records i' = some raw → raw.decode ≠ none) ∧
          (σ.records j).bind Raw.decode = some r := by
      constructor
      · rintro ⟨pre, j, post, heq, hreads, hpre, hj⟩
        cases pre with
        | nil =>
          rw [List.nil_append, List.cons.injEq] at heq
          exact Or.inl ⟨hreads 0 (le_refl 0), heq.1 ▸ hj⟩
        | cons i' pre =>
          have hi : i = i' := (List.cons.inj heq).1
          subst hi
          exact Or.inr ⟨pre, j, post, heq, hreads, hpre, hj⟩
      · rintro (⟨hn, hi⟩ | ⟨pre, j, post, heq, hreads, hpre, hj⟩)
        · refine ⟨[], i, ids, rfl, fun k hk => ?_, by simp, hi⟩
          obtain rfl : k = 0 := Nat.le_zero.mp hk
          exact hn
        · exact ⟨i :: pre, j, post, heq, hreads, hpre, hj⟩
    rw [split, ← further, ← ih, Storage.read]
    cases hn : fails n with
    | true => simp
    | false =>
      simp only [Bool.false_eq_true, if_false, true_and]
      cases hi : σ.records i with
      | none => simp
      | some raw =>
        cases hd : raw.decode with
        | none => simp [hd]
        | some q => simp [hd, eq_comm]

omit [LinearOrder T] [Add T] in
theorem readable_iff {σ : Storage T} {fails : ℕ → Bool} {id : String} :
    σ.Readable fails id ↔ ∃ q ∈ σ.loaded fails, q.id = id := by
  unfold Storage.Readable Storage.loaded
  cases hf : fails 0 with
  | true => simp
  | false =>
    simp only [Bool.false_eq_true, if_false, true_and, mem_read_iff]
    constructor
    · rintro ⟨pre, j, post, hids, hreads, hpre, r, hj, rfl⟩
      refine ⟨r, ⟨pre, j, post, hids, fun k hk => ?_, hpre, hj⟩, rfl⟩
      rw [Nat.add_comm]
      exact hreads k hk
    · rintro ⟨r, ⟨pre, j, post, hids, hreads, hpre, hj⟩, rfl⟩
      refine ⟨pre, j, post, hids, fun k hk => ?_, hpre, r, hj, rfl⟩
      rw [Nat.add_comm]
      exact hreads k hk

/-! ### The result -/

/-- **A failed recovery**: an id of the stored index stays in the index, and its record is not
deleted, over every later run and whichever storage calls fail, unless its job is acked or aged out
in that run, if and only if `load` gets to it. -/
theorem recovery_keeps (c : QueueConfig T) (σ : Storage T) (fails : ℕ → Bool) (clock : ℕ → T)
    {id : String} (indexed : id ∈ σ.ids) :
    (∀ ops done, done.Sublist ((QueueStore.init.load c σ fails clock).calls c ops) →
      id ∈ (σ.applyAll done).ids ∧ .deleteJob id ∉ done ∨
        LeavesDuring c (QueueStore.init.load c σ fails clock) ops id) ↔
      σ.Readable fails id := by
  obtain ⟨-, hknown, hids, -⟩ := load_spec c σ fails clock QueueStore.init
  have hinit : ∀ j, j ∉ (QueueStore.init : QueueStore T).ids := fun _ => List.not_mem_nil
  have hempty : ∀ j, ¬ ∃ r, (QueueStore.init : QueueStore T).job j = some r := by
    rintro j ⟨r, hr⟩
    cases hr
  have hconsistent : (QueueStore.init.load c σ fails clock).Consistent := by
    intro j
    rw [hids j, hknown j]
    exact or_congr (iff_of_false (hinit j) (hempty j)) Iff.rfl
  rw [readable_iff]
  constructor
  · intro hkeep
    -- an id that the load did not read is not in the index that the next call writes
    by_contra hlost
    have hout : id ∉ (QueueStore.init.load c σ fails clock).ids := by
      rw [hids id, not_or]
      exact ⟨hinit id, hlost⟩
    -- a new job rewrites the index
    let job : NewJob T := ⟨[], 1, 0, 0, none, none, none⟩
    let new : String := id ++ "'"
    have hnew : new ≠ id := by
      intro heq
      have hlen := congrArg String.length heq
      simp [new] at hlen
    let ops : List (Op T) := [.add job new 0 0 0]
    rcases hkeep ops _ (List.Sublist.refl _) with ⟨hin, -⟩ | ⟨pre, op, post, hops, hleave⟩
    · have hmirror := perform_consistent c hconsistent (.add job new 0 0 0)
      have hstored : (σ.applyAll ((QueueStore.init.load c σ fails clock).calls c ops)).ids
          = c.idOrder.list
            ((QueueStore.init.load c σ fails clock).perform c (.add job new 0 0 0)).store.ids := rfl
      rw [hstored, (c.idOrder.perm _).mem_iff] at hin
      obtain ⟨r, hr⟩ := (hmirror id).mp hin
      have hnone : (QueueStore.init.load c σ fails clock).job id = none := by
        cases hjob : (QueueStore.init.load c σ fails clock).job id with
        | none => rfl
        | some q => exact absurd ((hconsistent id).mpr ⟨q, hjob⟩) hout
      have hmove := perform_step c (QueueStore.init.load c σ fails clock) (.add job new 0 0 0) id
      rw [hnone] at hmove
      rw [hmove.of_none (by simp [Event.effect, hnew])] at hr
      cases hr
    · have hlen := congrArg List.length hops
      rw [List.length_append, List.length_cons] at hlen
      have hpre : pre = [] := List.length_eq_zero_iff.mp (by simp at hlen; omega)
      subst hpre
      obtain ⟨rfl, -⟩ := List.cons.inj hops
      rcases hleave with hack | ⟨now, r, r', hop, -⟩
      · simp [Event.effect, hnew] at hack
      · cases hop
  · intro hread ops done hdone
    exact member_kept c hconsistent ((hids id).mpr (Or.inr hread)) indexed ops hdone

/-- Storage with two jobs. -/
def twoJobs : Storage ℤ :=
  let job : NewJob ℤ := ⟨[], 5, 0, 0, none, none, none⟩
  Storage.empty.applyAll
    [.putJob (job.record "a" 1 0 0), .putJob (job.record "b" 2 0 0), .putIndex ["a", "b"]]

/-- The read of job `b` raises, and a call that writes the index leaves job `a` in it. -/
theorem recovery_keeps_twoJobs :
    let s := QueueStore.init.load .defaults twoJobs (fun n => n == 2) fun _ => 0
    let calls := s.calls .defaults [.add ⟨[], 5, 0, 0, none, none, none⟩ "c" 0 0 0]
    "a" ∈ (twoJobs.applyAll calls).ids ∧ .deleteJob "a" ∉ calls ∨
      LeavesDuring .defaults s [.add ⟨[], 5, 0, 0, none, none, none⟩ "c" 0 0 0] "a" := by
  intro s calls
  have hkeeps := (recovery_keeps .defaults twoJobs (fun n => n == 2) (fun _ => 0)
    (show "a" ∈ twoJobs.ids by decide)).mpr ?_
  · exact hkeeps _ _ (List.Sublist.refl _)
  · refine ⟨rfl, [], "a", ["b"], rfl, fun n hn => ?_, by simp, _, JobRecord.fromDict_toDict _, rfl⟩
    obtain rfl : n = 0 := Nat.le_zero.mp hn
    rfl

/-- **A lost id**: the read of job `b` raises, and the next `add` writes an index without it. -/
theorem lost_after_load :
    "b" ∈ twoJobs.ids ∧
      "b" ∉ (twoJobs.applyAll
        ((QueueStore.init.load .defaults twoJobs (fun n => n == 2) fun _ => 0).calls .defaults
          [.add ⟨[], 5, 0, 0, none, none, none⟩ "c" 0 0 0])).ids := by
  decide

end Istos
