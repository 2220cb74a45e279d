import Istos.Queue.Failover
import Istos.Queue.Equiv.Budget
import Mathlib.Data.Fintype.Basic

/-!
# Failover

`load` adds and overwrites, but never removes.  A replica that led before still has its old job
table, so when it leads again it brings back every job that another leader has forgotten meanwhile
(`replay_after_return`).  And `load` runs before the replica becomes active, so what it read may be
old by then.  `failover` says that nothing else goes wrong: where each activation finds the old
table and what was read up to date, and no call of an earlier leader comes late (`Cluster.Current`),
the leader's table is what storage holds, and over all leaders the queue behaves like one that never
changed hands.

Every call that has begun carries out its storage calls.  The invariant is `Cluster.Sound`: once the
storage calls under way are carried out, storage mirrors the store of the owner (`Cluster.settled`),
and the log is a run of its job table.
-/

namespace Istos

variable {ι T : Type} [DecidableEq ι] [LinearOrder T] [Zero T] [Add T] {c : QueueConfig T}

/-- **The condition on an action**:

* when a replica becomes active, no storage call is still to come, every job in its table is still
  stored, and of each job its load read what storage holds;
* a call is one of the replica that became active last, which is not loading again;
* a replica that loads has no call of its own under way. -/
def Cluster.Current (m : Cluster ι T) : ClusterAction ι T → Prop
  | .load i => m.pending i = []
  | .activate i => (∀ j, m.pending j = []) ∧
      (∀ r ∈ (m.replicas i).jobs.rows, (m.storage.board r.id).isSome = true) ∧
      ∀ l ∈ m.loads i, ∀ id ∈ l.read.ids ++ m.storage.ids, l.read.board id = m.storage.board id
  | .call i _ => m.owner = some i ∧ (m.loads i).isNone = true
  | _ => True

instance [Fintype ι] (m : Cluster ι T) : (a : ClusterAction ι T) → Decidable (m.Current a)
  | .load _ => inferInstanceAs (Decidable (_ = _))
  | .activate _ => inferInstanceAs (Decidable (_ ∧ _ ∧ _))
  | .call _ _ => inferInstanceAs (Decidable (_ ∧ _))
  | .read _ _ | .deactivate | .write _ => isTrue trivial

/-! ### The storage under way -/

/-- The storage after the calls under way at the owner. -/
def Cluster.settled (m : Cluster ι T) : Storage T :=
  match m.owner with
  | some i => m.storage.applyAll (m.pending i)
  | none => m.storage

omit [LinearOrder T] [Add T] in
/-- What is put is a dictionary of the record that it is stored under. -/
theorem Storage.Sane.apply {σ : Storage T} (h : σ.Sane) (call : StorageCall T) :
    (σ.apply call).Sane := by
  intro id raw hraw
  cases call with
  | putJob r =>
    simp only [Storage.apply, Function.update_apply] at hraw
    split at hraw
    · rename_i hid
      obtain rfl := Option.some.inj hraw
      exact ⟨r, r.fromDict_toDict, hid.symm⟩
    · exact h id raw hraw
  | putIndex ids => exact h id raw hraw
  | deleteJob id' =>
    simp only [Storage.apply, Function.update_apply] at hraw
    split at hraw
    · cases hraw
    · exact h id raw hraw

omit [DecidableEq ι] [Zero T] [Add T] in
theorem Cluster.settled_of_owner {m : Cluster ι T} {i : ι} (h : m.owner = some i) :
    m.settled = m.storage.applyAll (m.pending i) := by
  unfold settled
  rw [h]

omit [DecidableEq ι] [Zero T] [Add T] in
theorem Cluster.settled_of_quiet {m : Cluster ι T} (h : ∀ i, m.pending i = []) :
    m.settled = m.storage := by
  unfold settled
  cases m.owner with
  | none => rfl
  | some i =>
    dsimp only
    rw [h i]
    rfl

/-- What holds of a load under way: its own calls are over, and what it read is in the table. -/
structure Cluster.LoadSound (m : Cluster ι T) (i : ι) (l : Loading T) : Prop where
  quiet : m.pending i = []
  loaded : ∀ id q, (l.read.records id).bind Raw.decode = some q → (m.replicas i).job id = some q

/-- Settled storage mirrors the owner, and the log is a run of its job table. -/
structure Cluster.Sound (c : QueueConfig T) (m : Cluster ι T) : Prop where
  sane : m.storage.Sane
  idle : ∀ i, m.owner ≠ some i → m.pending i = []
  stored : ∃ s, Mirrors m.settled s
  owner : ∀ i, m.owner = some i → m.loads i = none → Mirrors m.settled (m.replicas i)
  leader : ∀ i, m.leader = some i → m.owner = some i ∧ m.loads i = none
  keys : ∀ i id, id ∈ (m.replicas i).ids ↔ ∃ r, (m.replicas i).job id = some r
  loads : ∀ i l, m.loads i = some l → m.LoadSound i l
  run : Board.Run c (fun _ => none) m.log m.settled.board

omit [DecidableEq ι] in
theorem Cluster.sound_init (c : QueueConfig T) : (Cluster.init : Cluster ι T).Sound c where
  sane := mirrors_init.sane
  idle := fun _ _ => rfl
  stored := ⟨_, mirrors_init⟩
  owner := fun i h => by cases h
  leader := fun i h => by cases h
  keys := fun i id => (mirrors_init (T := T)).keys id
  loads := fun i l h => by cases h
  run := by
    rw [show (Cluster.init : Cluster ι T).settled.board = fun _ => none from
      (mirrors_init (T := T)).board]
    exact .nil _

/-! ### What an action does -/

namespace Cluster

variable {m m' : Cluster ι T} {i : ι}

theorem load_cases (h : m.step c (.load i) = some m') :
    m.leader ≠ some i ∧
      m' = m.progress i (m.replicas i) ⟨⟨m.storage.index, fun _ => none⟩, m.storage.ids⟩ := by
  simp only [step] at h
  split at h
  · cases h
  · rename_i hidle
    exact ⟨fun hlead => hidle (.inl hlead), (Option.some.inj h).symm⟩

/-- A read takes in the record that storage has, if it has one. -/
theorem read_cases {now : T} (h : m.step c (.read i now) = some m') :
    ∃ read id rest rest', m.loads i = some ⟨read, id :: rest⟩ ∧
      (((m.storage.records id).bind Raw.decode = none ∧ m' = m.progress i (m.replicas i)
          ⟨⟨read.index, Function.update read.records id (m.storage.records id)⟩, rest'⟩) ∨
        ∃ r, (m.storage.records id).bind Raw.decode = some r ∧
          m' = m.progress i ((m.replicas i).loadRecord c r now)
            ⟨⟨read.index, Function.update read.records id (m.storage.records id)⟩, rest'⟩) := by
  simp only [step] at h
  split at h
  · rename_i read id rest hload
    cases hraw : m.storage.records id with
    | none =>
      simp only [hraw] at h
      refine ⟨read, id, rest, rest, hload, .inl ⟨by rw [hraw]; rfl, ?_⟩⟩
      rw [hraw]
      exact (Option.some.inj h).symm
    | some raw =>
      simp only [hraw] at h
      cases hdecode : raw.decode with
      | none =>
        simp only [hdecode] at h
        refine ⟨read, id, rest, [], hload, .inl ⟨by rw [hraw]; exact hdecode, ?_⟩⟩
        rw [hraw]
        exact (Option.some.inj h).symm
      | some r =>
        simp only [hdecode] at h
        refine ⟨read, id, rest, rest, hload, .inr ⟨r, by rw [hraw]; exact hdecode, ?_⟩⟩
        rw [hraw]
        exact (Option.some.inj h).symm
  · cases h

theorem activate_cases (h : m.step c (.activate i) = some m') :
    ∃ read, m.loads i = some ⟨read, []⟩ ∧
      m' = { m with
        loads := Function.update m.loads i none
        leader := some i
        owner := some i } := by
  simp only [step] at h
  split at h
  · rename_i read _ hload
    exact ⟨read, hload, (Option.some.inj h).symm⟩
  · cases h

theorem deactivate_cases (h : m.step c .deactivate = some m') : m' = { m with leader := none } := by
  simp only [step] at h
  split at h
  · exact (Option.some.inj h).symm
  · cases h

theorem call_cases {op : Op T} (h : m.step c (.call i op) = some m') :
    m.pending i = [] ∧ m' = { m with
      replicas := Function.update m.replicas i ((m.replicas i).perform c op).store
      pending := Function.update m.pending i ((m.replicas i).perform c op).calls
      log := m.log ++ [(op, ((m.replicas i).perform c op).answer)] } := by
  simp only [step] at h
  split at h
  · rename_i hfree
    exact ⟨hfree, (Option.some.inj h).symm⟩
  · cases h

theorem write_cases (h : m.step c (.write i) = some m') :
    ∃ call rest, m.pending i = call :: rest ∧ m' = { m with
      pending := Function.update m.pending i rest
      storage := m.storage.apply call } := by
  simp only [step] at h
  split at h
  · cases h
  · rename_i call rest hpending
    exact ⟨call, rest, hpending, (Option.some.inj h).symm⟩

/-! ### What an action preserves -/

namespace Sound

/-- A load goes on. -/
theorem progress (hm : m.Sound c) (hidle : m.leader ≠ some i) {s : QueueStore T}
    {l : Loading T} (hkeys : ∀ id, id ∈ s.ids ↔ ∃ r, s.job id = some r) (hquiet : m.pending i = [])
    (hloaded : ∀ id q, (l.read.records id).bind Raw.decode = some q → s.job id = some q) :
    (m.progress i s l).Sound c where
  sane := hm.sane
  idle := hm.idle
  stored := hm.stored
  owner j hj hload := by
    have hji : j ≠ i := by
      rintro rfl
      simp [Cluster.progress] at hload
    simp only [Cluster.progress, Function.update_of_ne hji] at hload ⊢
    exact hm.owner j hj hload
  leader j hj := by
    have hji : j ≠ i := fun hji => hidle (hji ▸ hj)
    simp only [Cluster.progress, Function.update_of_ne hji]
    exact hm.leader j hj
  keys j id := by
    by_cases hji : j = i
    · subst hji
      simp only [Cluster.progress, Function.update_self]
      exact hkeys id
    · simp only [Cluster.progress, Function.update_of_ne hji]
      exact hm.keys j id
  loads j l' hl' := by
    by_cases hji : j = i
    · subst hji
      simp only [Cluster.progress, Function.update_self, Option.some.injEq] at hl'
      subst hl'
      refine ⟨hquiet, ?_⟩
      simp only [Cluster.progress, Function.update_self]
      exact hloaded
    · simp only [Cluster.progress, Function.update_of_ne hji] at hl'
      obtain ⟨hquiet', hloaded'⟩ := hm.loads j l' hl'
      refine ⟨hquiet', ?_⟩
      simp only [Cluster.progress, Function.update_of_ne hji]
      exact hloaded'
  run := hm.run

theorem load (hm : m.Sound c) (h : m.step c (.load i) = some m')
    (current : m.Current (.load i)) : m'.Sound c := by
  obtain ⟨hidle, rfl⟩ := load_cases h
  exact hm.progress hidle (hm.keys i) current fun id q hq => by cases hq

theorem read (hm : m.Sound c) {now : T} (h : m.step c (.read i now) = some m') : m'.Sound c := by
  obtain ⟨read, id, rest, rest', hload, hcases⟩ := read_cases h
  obtain ⟨hquiet, hloaded⟩ := hm.loads i _ hload
  have hidle : m.leader ≠ some i := by
    intro hlead
    rw [(hm.leader i hlead).2] at hload
    cases hload
  rcases hcases with ⟨hnone, rfl⟩ | ⟨r, hr, rfl⟩
  · refine hm.progress hidle (hm.keys i) hquiet fun id' q hq => ?_
    by_cases hid : id' = id
    · subst hid
      dsimp only at hq
      rw [Function.update_self, hnone] at hq
      cases hq
    · dsimp only at hq
      rw [Function.update_of_ne hid] at hq
      exact hloaded id' q hq
  · obtain ⟨raw, hraw, hdecode⟩ := Option.bind_eq_some_iff.mp hr
    obtain ⟨r', hr', hid⟩ := hm.sane id raw hraw
    obtain rfl := Option.some.inj (hdecode.symm.trans hr')
    obtain ⟨hjob, hids, -⟩ := loadRecord_spec c (m.replicas i) r now
    refine hm.progress hidle (fun id' => ?_) hquiet fun id' q hq => ?_
    · rw [hids id', hm.keys i id', hjob, Function.update_apply]
      split
      · rename_i hsame
        exact iff_of_true (.inr hsame) ⟨r, rfl⟩
      · rename_i hother
        exact or_iff_left hother
    · rw [hjob, hid]
      by_cases hsame : id' = id
      · subst hsame
        dsimp only at hq
        rw [Function.update_self, hr] at hq
        rw [Function.update_self, hq]
      · dsimp only at hq
        rw [Function.update_of_ne hsame] at hq ⊢
        exact hloaded id' q hq

/-- **Activation**: the old table and what was read are what storage holds. -/
theorem activate (hm : m.Sound c) (h : m.step c (.activate i) = some m')
    (current : m.Current (.activate i)) : m'.Sound c := by
  obtain ⟨read, hload, rfl⟩ := activate_cases h
  obtain ⟨hquiet, hold, hread⟩ := current
  obtain ⟨-, hloaded⟩ := hm.loads i _ hload
  obtain ⟨s, hs⟩ := hm.stored
  have hrun := hm.run
  rw [settled_of_quiet hquiet] at hs hrun
  -- an indexed id was read to its end; of the others the old table holds no record
  have hjob : (m.replicas i).job = s.job := by
    rw [← hs.board]
    funext id
    cases hb : m.storage.board id with
    | some r =>
      have hid : id ∈ m.storage.ids := by
        by_contra hid
        rw [Storage.board, if_neg hid] at hb
        cases hb
      have hr := hread _ hload id (List.mem_append_right _ hid)
      rw [hb, Storage.board] at hr
      split at hr
      · exact hloaded id r hr
      · cases hr
    | none =>
      cases hr : (m.replicas i).job id with
      | none => rfl
      | some r =>
        have hsome := hold r (Table.mem_of_get? hr)
        rw [QueueStore.id_of_job hr, hb] at hsome
        cases hsome
  have hmirrors : Mirrors m.storage (m.replicas i) := hs.of_job hjob (hm.keys i)
  have hsettled : Cluster.settled { m with
      loads := Function.update m.loads i none, leader := some i, owner := some i } = m.storage :=
    settled_of_quiet hquiet
  refine ⟨hm.sane, fun j _ => hquiet j, ?_, fun j hj _ => ?_, fun j hj => ?_, hm.keys,
    fun j l hl => ?_, ?_⟩
  · rw [hsettled]
    exact ⟨_, hmirrors⟩
  · obtain rfl := Option.some.inj hj
    rw [hsettled]
    exact hmirrors
  · obtain rfl := Option.some.inj hj
    exact ⟨rfl, Function.update_self ..⟩
  · have hji : j ≠ i := by
      rintro rfl
      simp at hl
    dsimp only at hl
    rw [Function.update_of_ne hji] at hl
    obtain ⟨hquiet', hloaded'⟩ := hm.loads j l hl
    exact ⟨hquiet', hloaded'⟩
  · rw [hsettled]
    exact hrun

theorem deactivate (hm : m.Sound c) (h : m.step c .deactivate = some m') : m'.Sound c := by
  obtain rfl := deactivate_cases h
  exact ⟨hm.sane, hm.idle, hm.stored, hm.owner, fun j hj => (by cases hj), hm.keys,
    fun j l hl => ⟨(hm.loads j l hl).quiet, (hm.loads j l hl).loaded⟩, hm.run⟩

/-- **A call of the owner** is a step of the queue that storage holds. -/
theorem call (hm : m.Sound c) {op : Op T} (h : m.step c (.call i op) = some m')
    (current : m.Current (.call i op)) : m'.Sound c := by
  obtain ⟨hfree, rfl⟩ := call_cases h
  obtain ⟨howner, hidle⟩ := current
  have hnone : m.loads i = none := Option.isNone_iff_eq_none.mp hidle
  have hi := hm.owner i howner hnone
  have hrun := hm.run
  rw [settled_of_owner howner, hfree, Storage.applyAll_nil] at hi hrun
  have hi' := perform_mirrors c hi op
  have hsettled : Cluster.settled { m with
      replicas := Function.update m.replicas i ((m.replicas i).perform c op).store
      pending := Function.update m.pending i ((m.replicas i).perform c op).calls
      log := m.log ++ [(op, ((m.replicas i).perform c op).answer)] } =
        m.storage.applyAll ((m.replicas i).perform c op).calls := by
    simp only [Cluster.settled, howner, Function.update_self]
  have hother : ∀ j, m.owner ≠ some j → j ≠ i := by
    rintro j hj rfl
    exact hj howner
  refine ⟨hm.sane, fun j hj => ?_, ⟨_, hsettled ▸ hi'⟩, fun j hj _ => ?_, hm.leader,
    fun j id => ?_, fun j l hl => ?_, ?_⟩
  · dsimp only
    rw [Function.update_of_ne (hother j hj)]
    exact hm.idle j hj
  · obtain rfl := Option.some.inj (howner.symm.trans hj)
    rw [hsettled]
    dsimp only
    rw [Function.update_self]
    exact hi'
  · by_cases hji : j = i
    · subst hji
      dsimp only
      rw [Function.update_self]
      exact hi'.keys id
    · dsimp only
      rw [Function.update_of_ne hji]
      exact hm.keys j id
  · have hji : j ≠ i := by
      rintro rfl
      rw [hnone] at hl
      cases hl
    obtain ⟨hquiet, hloaded⟩ := hm.loads j l hl
    refine ⟨?_, ?_⟩
    · dsimp only
      rw [Function.update_of_ne hji]
      exact hquiet
    · dsimp only
      rw [Function.update_of_ne hji]
      exact hloaded
  · rw [hsettled, hi'.board]
    rw [hi.board] at hrun
    exact hrun.append (.cons (perform_step c (m.replicas i) op) (.nil _))

/-- A storage call that was to come is carried out. -/
theorem write (hm : m.Sound c) (h : m.step c (.write i) = some m') : m'.Sound c := by
  obtain ⟨call, rest, hpending, rfl⟩ := write_cases h
  have howner : m.owner = some i := by
    by_contra hno
    rw [hm.idle i hno] at hpending
    cases hpending
  -- the first pending call lands, so storage with the rest applied is the same
  have hsettled : Cluster.settled { m with
      pending := Function.update m.pending i rest
      storage := m.storage.apply call } = m.settled := by
    simp only [Cluster.settled, howner, hpending, Function.update_self, Storage.applyAll_cons]
  refine ⟨hm.sane.apply call, fun j hj => ?_, ?_, fun j hj hload => ?_, hm.leader, hm.keys,
    fun j l hl => ?_, ?_⟩
  · have hji : j ≠ i := by
      rintro rfl
      exact hj howner
    dsimp only
    rw [Function.update_of_ne hji]
    exact hm.idle j hj
  · rw [hsettled]
    exact hm.stored
  · rw [hsettled]
    exact hm.owner j hj hload
  · obtain ⟨hquiet, hloaded⟩ := hm.loads j l hl
    have hji : j ≠ i := by
      rintro rfl
      rw [hquiet] at hpending
      cases hpending
    refine ⟨?_, hloaded⟩
    dsimp only
    rw [Function.update_of_ne hji]
    exact hquiet
  · rw [hsettled]
    exact hm.run

omit [DecidableEq ι] in
/-- Between its calls, the table of the leader is what storage holds. -/
theorem table (hm : m.Sound c) (hlead : m.leader = some i) (hquiet : m.pending i = []) :
    (m.replicas i).job = m.storage.board := by
  obtain ⟨howner, hload⟩ := hm.leader i hlead
  have hmirrors := hm.owner i howner hload
  rw [settled_of_owner howner, hquiet] at hmirrors
  exact hmirrors.board.symm

end Sound

theorem sound_step (m : Cluster ι T) (a : ClusterAction ι T) (m' : Cluster ι T)
    (h : m.step c a = some m') (current : m.Current a) (hm : m.Sound c) : m'.Sound c := by
  cases a with
  | load i => exact hm.load h current
  | read i now => exact hm.read h
  | activate i => exact hm.activate h current
  | deactivate => exact hm.deactivate h
  | call i op => exact hm.call h current
  | write i => exact hm.write h

/-- The log has the calls that were made, in order. -/
theorem log_ops {actions : List (ClusterAction ι T)} (h : Steps.run (step c) m actions = some m') :
    m'.log.map Prod.fst = m.log.map Prod.fst ++ actions.filterMap ClusterAction.op? := by
  induction actions generalizing m with
  | nil =>
    obtain rfl := Option.some.inj h
    exact (List.append_nil _).symm
  | cons a actions ih =>
    obtain ⟨m₁, hstep, hrest⟩ := Steps.run_cons_eq_some.mp h
    rw [ih hrest]
    cases a with
    | load i =>
      obtain ⟨-, rfl⟩ := load_cases hstep
      rfl
    | read i now =>
      obtain ⟨_, _, _, _, -, ⟨-, rfl⟩ | ⟨_, -, rfl⟩⟩ := read_cases hstep <;> rfl
    | activate i =>
      obtain ⟨_, -, rfl⟩ := activate_cases hstep
      rfl
    | deactivate =>
      obtain rfl := deactivate_cases hstep
      rfl
    | call i op =>
      obtain ⟨-, rfl⟩ := call_cases hstep
      dsimp only
      rw [List.map_append, List.append_assoc]
      rfl
    | write i =>
      obtain ⟨_, _, -, rfl⟩ := write_cases hstep
      rfl

end Cluster

/-- **Failover**.  In every run whose actions are all current:

* the table of the active replica is what storage holds, whenever no storage call is under way, and
  so after every activation;
* a job whose ack was accepted by any leader is not claimed again, nor acked or nacked, under any
  leader;
* no job is claimed more than `max_attempts` times over all leaders. -/
theorem failover (c : QueueConfig T) (actions : List (ClusterAction ι T)) {m : Cluster ι T}
    (run : Steps.run (Cluster.step c) Cluster.init actions = some m)
    (current : Steps.Along (Cluster.step c) Cluster.Current Cluster.init actions)
    (fresh : (addedIds (actions.filterMap ClusterAction.op?)).Nodup) :
    (∀ i, m.leader = some i → m.pending i = [] → (m.replicas i).job = m.storage.board) ∧
    (∀ i before after m₁, actions = before ++ .activate i :: after →
      Steps.run (Cluster.step c) Cluster.init (before ++ [.activate i]) = some m₁ →
        (m₁.replicas i).job = m₁.storage.board) ∧
    (∀ id pre ev post, m.log = pre ++ ev :: post → ev.effect id = some .acked →
      ∀ ev' ∈ post, ev'.effect id = none) ∧
    ∀ job id t₁ t₂ t₃ answer, (.add job id t₁ t₂ t₃, answer) ∈ m.log → 1 ≤ job.maxAttempts →
      ((claims id m.log).length : ℤ) ≤ job.maxAttempts := by
  have hm : m.Sound c := Steps.run_invariant Cluster.sound_step run current (Cluster.sound_init c)
  have hops : m.log.map Prod.fst = actions.filterMap ClusterAction.op? := Cluster.log_ops run
  have hnodup : (added m.log).Nodup := by
    rw [added, hops]
    exact fresh
  refine ⟨fun i => hm.table, ?_, ?_, ?_⟩
  · rintro i before after m₁ rfl hrun
    obtain ⟨m₀, hbefore, hlast⟩ := Steps.exists_run_append hrun
    obtain ⟨hstart, hcurrent⟩ := current.split hbefore
    have hm₀ : m₀.Sound c := Steps.run_invariant Cluster.sound_step hbefore hstart
      (Cluster.sound_init c)
    obtain ⟨m₂, hstep, hnil⟩ := Steps.run_cons_eq_some.mp hlast
    obtain rfl := Option.some.inj hnil
    have hm₂ := hm₀.activate hstep hcurrent
    obtain ⟨_, -, rfl⟩ := Cluster.activate_cases hstep
    exact hm₂.table rfl (hcurrent.1 i)
  · intro id pre ev post hlog hack
    have hrun := hm.run
    have hfresh : Fresh (fun _ => none) m.log := ⟨hnodup, fun _ _ => rfl⟩
    rw [hlog] at hrun hfresh
    exact hrun.after_ack hfresh hack
  · intro job id t₁ t₂ t₃ answer hadd hpos
    have hle := Board.Run.claims_le hm.run hnodup hadd
    omega

/-- A leader that never led before takes over; it loads while the old one is still active. -/
def takeover : List (ClusterAction (Fin 2) ℤ) :=
  [.load 0, .activate 0, .call 0 (.add ⟨[], 5, 0, 0, none, none, none⟩ "j" 0 0 0), .write 0,
    .write 0, .load 1, .read 1 1, .deactivate, .activate 1, .call 1 (.claim 1 30), .write 1,
    .call 1 (.ack "j" none (some 1) 2), .write 1, .write 1]

theorem failover_takeover :
    ∃ m, Steps.run (Cluster.step .defaults) Cluster.init takeover = some m ∧
      ∀ i, m.leader = some i → m.pending i = [] → (m.replicas i).job = m.storage.board := by
  have h : (Steps.run (Cluster.step .defaults) Cluster.init takeover).isSome := by decide
  obtain ⟨m, hm⟩ := Option.isSome_iff_exists.mp h
  exact ⟨m, hm, (failover .defaults takeover hm (by decide) (by decide)).1⟩

/-- Replica `0` adds a job and steps down; `1` claims the job and acks it; `0` leads again. -/
def returning : List (ClusterAction (Fin 2) ℤ) :=
  takeover ++ [.deactivate, .load 0, .activate 0, .call 0 (.claim 3 30)]

/-- **A replay**: the job was acked under `1`, and is claimed again under `0`. -/
theorem replay_after_return :
    ∃ m, Steps.run (Cluster.step .defaults) Cluster.init returning = some m ∧
      (∃ ev ∈ m.log.take 3, ev.effect "j" = some .acked) ∧ claims "j" (m.log.drop 3) ≠ [] := by
  have h : (Steps.run (Cluster.step .defaults) Cluster.init returning).any (fun m =>
      decide ((∃ ev ∈ m.log.take 3, ev.effect "j" = some .acked) ∧
        claims "j" (m.log.drop 3) ≠ [])) = true := by
    decide
  obtain ⟨m, hm, hreplay⟩ := (Option.any_eq_true _ _).mp h
  exact ⟨m, hm, of_decide_eq_true hreplay⟩

end Istos
