import Istos.Consistency.Equiv.Status
import Istos.Consistency.Nodes

/-!
# The database under many nodes

The log of `Nodes`, read key by key, is the history of a leased record (`historyOf`), and the
database has the record that this history leads to (`Nodes.Sound`).

* `Nodes.sound_run`: so it is in every run.
* `Nodes.doneRow_run`: a row that is done never changes.
* `Nodes.owned_step_iff`: a held claim stays with its holder, unless a statement disturbs it.
* `Nodes.claim_alone`: a call that nobody interrupts is `SqlStorage.claimProcessed`.
-/

namespace Istos

open Lease

namespace SqlEvent

variable {T : Type} [Rounding]

/-- The event of the record. -/
def view : SqlEvent T → Option (Event T Value)
  | claimed now u => some (.grant now u)
  | inFlight => none
  | done v => some (.report v)
  | released => some .release
  | marked v took => some (.mark (SqlStorage.deserialize (some (SqlStorage.serialize v))) took)
  | recorded v took => some (.mark (SqlStorage.deserialize (some (SqlStorage.serialize v))) took)

end SqlEvent

/-- The reading of the clock that a call will use. -/
def SqlPhase.now? {T : Type} : SqlPhase T → Option T
  | insert _ _ _ now => some now
  | select _ _ _ now => some now
  | takeOver _ _ now => some now
  | _ => none

/-- The events of a key. -/
def historyOf {T : Type} [Rounding] (log : List (String × SqlEvent T)) (key : String) :
    List (Event T Value) :=
  (log.filter fun e => e.1 = key).filterMap fun e => e.2.view

theorem historyOf_concat {T : Type} [Rounding] (log : List (String × SqlEvent T)) (k : String)
    (e : SqlEvent T) (key : String) :
    historyOf (log ++ [(k, e)]) key
      = if k = key then historyOf log key ++ e.view.toList else historyOf log key := by
  unfold historyOf
  rw [List.filter_append, List.filterMap_append]
  by_cases hk : k = key
  · rw [if_pos hk]
    simp only [List.filter_cons, hk, decide_true, if_true, List.filter_nil]
    cases hview : e.view with
    | none => simp [hview]
    | some ev => simp [hview]
  · simp [hk]

namespace Nodes

variable {C T : Type} [LinearOrder T] [Rounding]

/-- The database has the records that the log leads to. -/
structure Sound (m : Nodes C T) : Prop where
  status : ∀ key, m.db.status key = statusOf (historyOf m.log key)
  legal : ∀ key, Legal (historyOf m.log key)
  past : ∀ key, ∀ n ∈ nows (historyOf m.log key), n ≤ m.clock
  reading : ∀ c now, (m.phase c).now? = some now → now ≤ m.clock

theorem sound_init [DecidableEq C] (clock : T) : (init clock : Nodes C T).Sound where
  status key := rfl
  legal key := legal_nil
  past key n hn := by cases hn
  reading c now hnow := by cases hnow

/-- An action without a statement, or with one that changes no record. -/
theorem Sound.quiet {m m' : Nodes C T} (h : m.Sound) (hdb : ∀ k, m'.db.status k = m.db.status k)
    (hlog : ∀ k, historyOf m'.log k = historyOf m.log k) (hclock : m.clock ≤ m'.clock)
    (hphase : ∀ c now, (m'.phase c).now? = some now → now ≤ m'.clock) : m'.Sound where
  status k := by rw [hdb, hlog, h.status]
  legal k := by
    rw [hlog]
    exact h.legal k
  past k n hn := by
    rw [hlog] at hn
    exact (h.past k n hn).trans hclock
  reading := hphase

variable [DecidableEq C]

/-- The readings after a coroutine gets to another phase. -/
theorem Sound.reading_update {m : Nodes C T} (h : m.Sound) (c : C) {p : SqlPhase T}
    (hp : ∀ now, p.now? = some now → now ≤ m.clock) (c' : C) (now : T)
    (hnow : (Function.update m.phase c p c').now? = some now) : now ≤ m.clock := by
  rw [Function.update_apply] at hnow
  split at hnow
  · exact hp now hnow
  · exact h.reading c' now hnow

/-- A statement with its entry in the log. -/
theorem Sound.emit {m m' : Nodes C T} (h : m.Sound) {key : String} (e : SqlEvent T)
    (ev : Event T Value) (c : C) (p : SqlPhase T) (hlog : m'.log = m.log ++ [(key, e)])
    (hview : e.view = some ev) (hallows : (m.db.status key).Allows ev)
    (hnow : ∀ now, ev.now? = some now → now = m.clock)
    (hstatus : ∀ k, m'.db.status k = if key = k then (m.db.status key).after ev else m.db.status k)
    (hclock : m'.clock = m.clock) (hphase : m'.phase = Function.update m.phase c p)
    (hp : p.now? = none) : m'.Sound := by
  have hhistory : ∀ k, historyOf m'.log k
      = if key = k then historyOf m.log k ++ [ev] else historyOf m.log k := by
    intro k
    rw [hlog, historyOf_concat, hview]
    rfl
  refine ⟨fun k => ?_, fun k => ?_, fun k n hn => ?_, fun c' now hnow => ?_⟩
  · rw [hstatus, hhistory]
    by_cases hk : key = k
    · subst hk
      rw [if_pos rfl, if_pos rfl, statusOf_concat, h.status]
    · rw [if_neg hk, if_neg hk, h.status]
  · rw [hhistory]
    by_cases hk : key = k
    · subst hk
      rw [if_pos rfl]
      apply (h.legal key).concat
      · rw [← h.status]
        exact hallows
      · intro now heq n hn
        rw [hnow now heq]
        exact h.past key n hn
    · rw [if_neg hk]
      exact h.legal k
  · rw [hclock]
    rw [hhistory] at hn
    by_cases hk : key = k
    · subst hk
      rw [if_pos rfl, nows, List.filterMap_append] at hn
      rcases List.mem_append.mp hn with hold | hnew
      · exact h.past key n hold
      · obtain ⟨ev', hev, heq⟩ := List.mem_filterMap.mp hnew
        obtain rfl := List.mem_singleton.mp hev
        exact (hnow n heq).le
    · rw [if_neg hk] at hn
      exact h.past k n hn
  · rw [hphase] at hnow
    rw [hclock]
    refine h.reading_update c (fun n hn => ?_) c' now hnow
    rw [hp] at hn
    cases hn

theorem Sound.goto {m : Nodes C T} (h : m.Sound) (c : C) {p : SqlPhase T}
    (hp : ∀ now, p.now? = some now → now ≤ m.clock) : (m.goto c p).Sound :=
  h.quiet (fun _ => rfl) (fun _ => rfl) le_rfl (h.reading_update c hp)

theorem Sound.inFlight {m : Nodes C T} (h : m.Sound) (c : C) (key : String) :
    (m.answer c key .inFlight).Sound := by
  refine h.quiet (fun _ => rfl) (fun k => ?_) le_rfl
    (h.reading_update c (p := .idle) fun _ hn => by cases hn)
  show historyOf (m.log ++ [(key, .inFlight)]) k = _
  rw [historyOf_concat]
  show (if key = k then _ ++ [] else _) = _
  rw [List.append_nil, ite_self]

variable [Add T]

/-- **A statement of a call.** -/
theorem sound_proceed {m m' : Nodes C T} {c : C} (h : m.Sound) (hstep : m.proceed c = some m') :
    m'.Sound := by
  unfold proceed at hstep
  split at hstep
  · cases hstep
  · obtain rfl := Option.some.inj hstep
    exact h.inFlight c _
  · obtain rfl := Option.some.inj hstep
    apply h.goto c
    rintro now hnow
    exact (Option.some.inj hnow).symm.le
  · -- the insertion of a claim
    rename_i key lease n now hphase
    have hreading : now ≤ m.clock := h.reading c now (by rw [hphase]; rfl)
    rcases m.db.insertClaim_cases key lease now with ⟨db, hfree, hinsert, hstatus⟩ | ⟨-, hinsert⟩
    · rw [hinsert] at hstep
      obtain rfl := Option.some.inj hstep
      refine h.emit _ (.grant m.clock ((now + lease : T) : WithTop T)) c .idle rfl rfl ?_
        (fun n hn => (Option.some.inj hn).symm) ?_ rfl rfl rfl
      · rw [hfree]
        rfl
      · exact hstatus
    · rw [hinsert] at hstep
      obtain rfl := Option.some.inj hstep
      apply h.goto c
      rintro now' hnow
      obtain rfl := Option.some.inj hnow
      exact hreading
  · -- the lookup
    rename_i key lease n now hphase
    have hreading : now ≤ m.clock := h.reading c now (by rw [hphase]; rfl)
    split at hstep
    · obtain rfl := Option.some.inj hstep
      exact h.goto c fun _ hn => by cases hn
    · rename_i row hrow
      have hstatus := SqlDb.status_of_some hrow
      split at hstep
      · rename_i hpending
        obtain rfl := Option.some.inj hstep
        rw [SqlDb.rowStatus, if_neg hpending] at hstatus
        refine h.emit _ _ c .idle rfl rfl ?_ (fun _ hn => by cases hn) ?_ rfl rfl rfl
        · exact hstatus
        · intro k
          by_cases hk : key = k
          · subst hk
            rw [if_pos rfl]
            rfl
          · rw [if_neg hk]
            rfl
      · split at hstep
        · obtain rfl := Option.some.inj hstep
          exact h.inFlight c key
        · obtain rfl := Option.some.inj hstep
          apply h.goto c
          rintro now' hnow
          obtain rfl := Option.some.inj hnow
          exact hreading
  · -- the update of a lapsed claim
    rename_i key lease now hphase
    have hreading : now ≤ m.clock := h.reading c now (by rw [hphase]; rfl)
    rcases m.db.takeOver_cases key lease now with
      ⟨u, db, hheld, hlapsed, htake, hstatus⟩ | ⟨-, htake⟩
    · rw [htake] at hstep
      obtain rfl := Option.some.inj hstep
      refine h.emit _ (.grant m.clock ((now + lease : T) : WithTop T)) c .idle rfl rfl ?_
        (fun n hn => (Option.some.inj hn).symm) ?_ rfl rfl rfl
      · rw [hheld]
        exact Status.grants_held_of_le (hlapsed.trans (WithTop.coe_le_coe.mpr hreading))
      · exact hstatus
    · rw [htake] at hstep
      obtain rfl := Option.some.inj hstep
      exact h.inFlight c key
  · -- the update of a completion
    rename_i key result now hphase
    rcases m.db.complete_cases key (SqlStorage.serialize result) now with
      ⟨u, db, hheld, hcomplete, hstatus⟩ | ⟨hlease, hcomplete⟩
    · rw [hcomplete] at hstep
      obtain rfl := Option.some.inj hstep
      refine h.emit _ _ c .idle rfl rfl ?_ (fun _ hn => by cases hn) ?_ rfl rfl rfl
      · rw [hheld]
        exact fun _ => rfl
      · exact hstatus
    · rw [hcomplete] at hstep
      obtain rfl := Option.some.inj hstep
      refine h.emit _ _ c _ rfl rfl (fun htook => by cases htook) (fun _ hn => by cases hn) ?_
        rfl rfl rfl
      intro k
      by_cases hk : key = k
      · subst hk
        rw [if_pos rfl]
        rfl
      · rw [if_neg hk]
        rfl
  · -- the insertion of a result
    rename_i key result now hphase
    rcases m.db.insertDone_cases key (SqlStorage.serialize result) now with
      ⟨db, hfree, hinsert, hstatus⟩ | ⟨hne, hinsert⟩
    · rw [hinsert] at hstep
      obtain rfl := Option.some.inj hstep
      refine h.emit _ _ c .idle rfl rfl ?_ (fun _ hn => by cases hn) ?_ rfl rfl rfl
      · rw [hfree]
        exact fun _ => rfl
      · exact hstatus
    · rw [hinsert] at hstep
      obtain rfl := Option.some.inj hstep
      refine h.emit _ _ c _ rfl rfl (fun htook => by cases htook) (fun _ hn => by cases hn) ?_
        rfl rfl rfl
      intro k
      by_cases hk : key = k
      · subst hk
        rw [if_pos rfl]
        rfl
      · rw [if_neg hk]
        rfl
  · -- the deletion
    rename_i key hphase
    have hstatus := m.db.status_deletePending key
    unfold SqlDb.selectIdempotency at hstep
    cases hrow : m.db.idempotency.get? key with
    | none =>
      rw [hrow] at hstep
      obtain rfl := Option.some.inj hstep
      refine h.quiet (fun k => ?_) (fun _ => rfl) le_rfl
        (h.reading_update c (p := .idle) fun _ hn => by cases hn)
      refine (hstatus k).trans ?_
      by_cases hk : key = k
      · subst hk
        rw [if_pos rfl, SqlDb.status_of_none hrow]
        rfl
      · rw [if_neg hk]
    | some row =>
      have hold := SqlDb.status_of_some hrow
      rw [SqlDb.rowStatus] at hold
      rw [hrow, Option.any_some] at hstep
      by_cases hpending : SqlDb.pending row = true
      · rw [if_pos hpending] at hold hstep
        obtain rfl := Option.some.inj hstep
        refine h.emit _ .release c .idle rfl rfl ⟨_, hold⟩ (fun _ hn => by cases hn) (fun k => ?_)
          rfl rfl rfl
        refine (hstatus k).trans ?_
        by_cases hk : key = k
        · subst hk
          rw [if_pos rfl, if_pos rfl, hold]
          rfl
        · rw [if_neg hk, if_neg hk]
      · rw [if_neg hpending] at hold hstep
        obtain rfl := Option.some.inj hstep
        refine h.quiet (fun k => ?_) (fun _ => rfl) le_rfl
          (h.reading_update c (p := .idle) fun _ hn => by cases hn)
        refine (hstatus k).trans ?_
        by_cases hk : key = k
        · subst hk
          rw [if_pos rfl, hold]
          rfl
        · rw [if_neg hk]

/-- An action is a statement, a tick, or the beginning of a call. -/
theorem step_cases {m m' : Nodes C T} {a : NodesAction C T} (hstep : m.step a = some m') :
    (∃ c, a = .proceed c ∧ m.proceed c = some m') ∨
    (∃ t, a = .tick t ∧ m.clock ≤ t ∧ m' = { m with clock := t }) ∨
    ∃ c p, m' = m.goto c p ∧ ((∃ key lease, a = .claim c key lease ∧ p = .attempt key lease 2) ∨
      (∃ key result, a = .mark c key result ∧ p = .complete key result m.clock) ∨
      ∃ key, a = .release c key ∧ p = .delete key) := by
  cases a with
  | proceed c => exact Or.inl ⟨c, rfl, hstep⟩
  | tick t =>
    rw [step] at hstep
    split at hstep
    · rename_i hle
      exact Or.inr (Or.inl ⟨t, rfl, hle, (Option.some.inj hstep).symm⟩)
    · cases hstep
  | claim c key lease =>
    rw [step] at hstep
    split at hstep
    · exact Or.inr (Or.inr ⟨c, _, (Option.some.inj hstep).symm, Or.inl ⟨key, lease, rfl, rfl⟩⟩)
    · cases hstep
  | mark c key result =>
    rw [step] at hstep
    split at hstep
    · exact Or.inr (Or.inr ⟨c, _, (Option.some.inj hstep).symm,
        Or.inr (Or.inl ⟨key, result, rfl, rfl⟩)⟩)
    · cases hstep
  | release c key =>
    rw [step] at hstep
    split at hstep
    · exact Or.inr (Or.inr ⟨c, _, (Option.some.inj hstep).symm, Or.inr (Or.inr ⟨key, rfl, rfl⟩)⟩)
    · cases hstep

/-- **One action.** -/
theorem sound_step (m : Nodes C T) (a : NodesAction C T) (m' : Nodes C T)
    (hstep : m.step a = some m') (h : m.Sound) : m'.Sound := by
  rcases step_cases hstep with ⟨c, -, hproceed⟩ | ⟨t, -, hle, rfl⟩ | ⟨c, p, rfl, hp⟩
  · exact sound_proceed h hproceed
  · exact h.quiet (fun _ => rfl) (fun _ => rfl) hle fun c now hnow =>
      (h.reading c now hnow).trans hle
  · apply h.goto c
    rcases hp with ⟨key, lease, -, rfl⟩ | ⟨key, result, -, rfl⟩ | ⟨key, -, rfl⟩
    · exact nofun
    · exact nofun
    · exact nofun

theorem sound_run {m m' : Nodes C T} {as : List (NodesAction C T)} (h : m.Sound)
    (hrun : Steps.run step m as = some m') : m'.Sound :=
  Steps.run_invariant_true sound_step hrun h

/-! ### Rows that are done -/

/-- A row that is done. -/
def DoneRow (m : Nodes C T) (key : String) (row : IdempotencyRow T) : Prop :=
  m.db.idempotency.get? key = some row ∧ SqlDb.pending row = false

omit [LinearOrder T] [Rounding] [Add T] in
/-- An insertion keeps every row. -/
theorem get_insertIdempotency {db db' : SqlDb T} {key : String} {row r : IdempotencyRow T}
    (hrow : db.idempotency.get? key = some row) (h : db.insertIdempotency r = some db') :
    db'.idempotency.get? key = some row := by
  unfold SqlDb.insertIdempotency at h
  split at h
  · cases h
  · rename_i hkey
    obtain rfl := Option.some.inj h
    rw [Table.get?_put_of_ne, hrow]
    rintro rfl
    exact hkey (Table.mem_keys_iff.mpr ⟨row, hrow⟩)

omit [LinearOrder T] [Rounding] [Add T] in
/-- An update keeps a row that does not qualify. -/
theorem get_updateIdempotency {db db' : SqlDb T} {key k : String} {row : IdempotencyRow T}
    {cond : IdempotencyRow T → Bool}
    {change : (row : IdempotencyRow T) →
      {row' : IdempotencyRow T // row'.idempotencyKey = row.idempotencyKey}}
    (hrow : db.idempotency.get? key = some row) (hcond : cond row = false)
    (h : db.updateIdempotency k cond change = some db') :
    db'.idempotency.get? key = some row := by
  unfold SqlDb.updateIdempotency at h
  split at h
  · rename_i r hr
    split at h
    · rename_i hqualifies
      obtain rfl := Option.some.inj h
      rw [Table.get?_put_of_ne, hrow]
      rintro rfl
      have hkey : (change r).val.idempotencyKey = k :=
        (change r).property.trans (Table.key_of_get? hr)
      rw [hkey, hr] at hrow
      obtain rfl := Option.some.inj hrow
      rw [hcond] at hqualifies
      cases hqualifies
    · cases h
  · cases h

omit [LinearOrder T] [Rounding] [Add T] in
/-- The deletion keeps a row that is not pending. -/
theorem get_deletePending {db : SqlDb T} {key : String} {row : IdempotencyRow T}
    (hrow : db.idempotency.get? key = some row) (hdone : SqlDb.pending row = false) (k : String) :
    (db.deletePending k).idempotency.get? key = some row := by
  unfold SqlDb.deletePending
  split
  · rename_i r hr
    split
    · rename_i hpending
      have hne : key ≠ k := by
        rintro rfl
        obtain rfl := Option.some.inj (hr.symm.trans hrow)
        rw [hdone] at hpending
        cases hpending
      rw [Table.get?_erase_of_ne _ hne, hrow]
    · exact hrow
  · exact hrow

/-- **No statement changes a row that is done.** -/
theorem doneRow_proceed {m m' : Nodes C T} {c : C} {key : String} {row : IdempotencyRow T}
    (h : m.DoneRow key row) (hstep : m.proceed c = some m') : m'.DoneRow key row := by
  obtain ⟨hrow, hdone⟩ := h
  refine ⟨?_, hdone⟩
  unfold proceed at hstep
  split at hstep
  · cases hstep
  · obtain rfl := Option.some.inj hstep
    exact hrow
  · obtain rfl := Option.some.inj hstep
    exact hrow
  · split at hstep
    · rename_i db hinsert
      obtain rfl := Option.some.inj hstep
      exact get_insertIdempotency hrow hinsert
    · obtain rfl := Option.some.inj hstep
      exact hrow
  · split at hstep
    · obtain rfl := Option.some.inj hstep
      exact hrow
    · split at hstep
      · obtain rfl := Option.some.inj hstep
        exact hrow
      · split at hstep
        · obtain rfl := Option.some.inj hstep
          exact hrow
        · obtain rfl := Option.some.inj hstep
          exact hrow
  · split at hstep
    · rename_i db htake
      obtain rfl := Option.some.inj hstep
      refine get_updateIdempotency hrow ?_ htake
      rw [hdone, Bool.false_and]
    · obtain rfl := Option.some.inj hstep
      exact hrow
  · split at hstep
    · rename_i db hcomplete
      obtain rfl := Option.some.inj hstep
      exact get_updateIdempotency hrow hdone hcomplete
    · obtain rfl := Option.some.inj hstep
      exact hrow
  · split at hstep
    · rename_i db hinsert
      obtain rfl := Option.some.inj hstep
      exact get_insertIdempotency hrow hinsert
    · obtain rfl := Option.some.inj hstep
      exact hrow
  · split at hstep
    · obtain rfl := Option.some.inj hstep
      exact get_deletePending hrow hdone _
    · obtain rfl := Option.some.inj hstep
      exact get_deletePending hrow hdone _

theorem doneRow_step (key : String) (row : IdempotencyRow T) (m : Nodes C T) (a : NodesAction C T)
    (m' : Nodes C T) (hstep : m.step a = some m') (h : m.DoneRow key row) : m'.DoneRow key row := by
  rcases step_cases hstep with ⟨c, -, hproceed⟩ | ⟨t, -, -, rfl⟩ | ⟨c, p, rfl, -⟩
  · exact doneRow_proceed h hproceed
  · exact h
  · exact h

theorem doneRow_run {m m' : Nodes C T} {as : List (NodesAction C T)} {key : String}
    {row : IdempotencyRow T} (h : m.DoneRow key row) (hrun : Steps.run step m as = some m') :
    m'.DoneRow key row :=
  Steps.run_invariant_true (doneRow_step key row) hrun h

/-! ### Holders -/

/-- **A held claim belongs to its holder**: under every key, a grant that was not given back has the
record as long as its lease is live. -/
def Owned (m : Nodes C T) : Prop :=
  ∀ key, Lease.Owned (m.db.status key) m.clock (m.standing key)

/-- The next statement releases or completes a key while another caller has a live lease on it. -/
def Disturbs (m : Nodes C T) : NodesAction C T → Prop
  | .proceed c =>
    match m.phase c with
    | .complete key _ _ => Lease.Disturbs c m.clock (m.standing key)
    | .delete key => Lease.Disturbs c m.clock (m.standing key)
    | _ => False
  | _ => False

omit [DecidableEq C] [Add T] in
/-- A statement that changes no record and no grant. -/
theorem Owned.quiet {m m' : Nodes C T} (h : m.Owned) (hdb : ∀ k, m'.db.status k = m.db.status k)
    (hstanding : m'.standing = m.standing) (hclock : m.clock ≤ m'.clock) : m'.Owned := by
  intro key
  rw [hdb, hstanding]
  exact (h key).later hclock

omit [Add T] in
/-- A claim that is granted. -/
theorem Owned.grant {m : Nodes C T} (h : m.Owned) {db : SqlDb T} {key : String} {u : T}
    (hgrants : (m.db.status key).grants m.clock = true)
    (hstatus : ∀ k, db.status k = if key = k then .held (u : WithTop T) else m.db.status k)
    (c : C) :
    (m.grant db c key u).Owned := by
  intro k
  show Lease.Owned (db.status k) m.clock (Function.update m.standing key _ k)
  rw [hstatus, Function.update_apply]
  by_cases hk : key = k
  · subst hk
    rw [if_pos rfl, if_pos rfl]
    exact (h key).grant hgrants c u
  · rw [if_neg hk, if_neg (Ne.symm hk)]
    exact h k

omit [Add T] in
/-- A release or a completion keeps the law just when nobody else has a live lease. -/
theorem Owned.giveBack_iff {m m' : Nodes C T} (h : m.Owned) {c : C} {key : String}
    (st : Status T Value) (hstatus : ∀ k, m'.db.status k = if key = k then st else m.db.status k)
    (hclock : m'.clock = m.clock)
    (hstanding : m'.standing = Function.update m.standing key (leave c (m.standing key)))
    (hends : ∀ u, m.db.status key = .held u → ∀ u', st ≠ .held u') :
    m'.Owned ↔ ¬ Lease.Disturbs c m.clock (m.standing key) := by
  have hleave := (h key).leave_iff c fun u hu _ => hends u hu
  rw [← hleave]
  constructor
  · intro hafter
    have hkey := hafter key
    rw [hstatus, if_pos rfl, hclock, hstanding, Function.update_self] at hkey
    exact hkey
  · intro hleave k
    rw [hstatus, hclock, hstanding, Function.update_apply]
    by_cases hk : key = k
    · subst hk
      rw [if_pos rfl, if_pos rfl]
      exact hleave
    · rw [if_neg hk, if_neg (Ne.symm hk)]
      exact h k

/-- **Exactly the statements that disturb nobody keep the law.** -/
theorem owned_proceed_iff {m m' : Nodes C T} {c : C} (hsound : m.Sound) (h : m.Owned)
    (hstep : m.proceed c = some m') : m'.Owned ↔ ¬ m.Disturbs (.proceed c) := by
  have hquiet : ∀ m'' : Nodes C T, (∀ k, m''.db.status k = m.db.status k) →
      m''.standing = m.standing → m''.clock = m.clock → (¬ m.Disturbs (.proceed c)) →
      (m''.Owned ↔ ¬ m.Disturbs (.proceed c)) :=
    fun m'' hdb hstanding hclock hno => iff_of_true (h.quiet hdb hstanding hclock.ge) hno
  unfold proceed at hstep
  split at hstep
  · cases hstep
  · rename_i hphase
    obtain rfl := Option.some.inj hstep
    exact hquiet _ (fun _ => rfl) rfl rfl (by rw [Disturbs, hphase]; exact id)
  · rename_i hphase
    obtain rfl := Option.some.inj hstep
    exact hquiet _ (fun _ => rfl) rfl rfl (by rw [Disturbs, hphase]; exact id)
  -- the insertion of a claim: nobody holds a key without a row
  · rename_i key lease n now hphase
    have hno : ¬ m.Disturbs (.proceed c) := by
      rw [Disturbs, hphase]
      exact id
    rcases m.db.insertClaim_cases key lease now with ⟨db, hfree, hinsert, hstatus⟩ | ⟨-, hinsert⟩
    · rw [hinsert] at hstep
      obtain rfl := Option.some.inj hstep
      refine iff_of_true (h.grant ?_ hstatus c) hno
      rw [hfree]
      rfl
    · rw [hinsert] at hstep
      obtain rfl := Option.some.inj hstep
      exact hquiet _ (fun _ => rfl) rfl rfl hno
  · rename_i key lease n now hphase
    have hno : ¬ m.Disturbs (.proceed c) := by
      rw [Disturbs, hphase]
      exact id
    split at hstep
    · obtain rfl := Option.some.inj hstep
      exact hquiet _ (fun _ => rfl) rfl rfl hno
    · split at hstep
      · obtain rfl := Option.some.inj hstep
        exact hquiet _ (fun _ => rfl) rfl rfl hno
      · split at hstep
        · obtain rfl := Option.some.inj hstep
          exact hquiet _ (fun _ => rfl) rfl rfl hno
        · obtain rfl := Option.some.inj hstep
          exact hquiet _ (fun _ => rfl) rfl rfl hno
  -- the update of a lapsed claim: its holder has nothing left to be disturbed
  · rename_i key lease now hphase
    have hno : ¬ m.Disturbs (.proceed c) := by
      rw [Disturbs, hphase]
      exact id
    have hreading : now ≤ m.clock := hsound.reading c now (by rw [hphase]; rfl)
    rcases m.db.takeOver_cases key lease now with
      ⟨u, db, hheld, hlapsed, htake, hstatus⟩ | ⟨-, htake⟩
    · rw [htake] at hstep
      obtain rfl := Option.some.inj hstep
      refine iff_of_true (h.grant ?_ hstatus c) hno
      rw [hheld]
      exact Status.grants_held_of_le (hlapsed.trans (WithTop.coe_le_coe.mpr hreading))
    · rw [htake] at hstep
      obtain rfl := Option.some.inj hstep
      exact hquiet _ (fun _ => rfl) rfl rfl hno
  -- a completion, which ends whatever claim is pending
  · rename_i key result now hphase
    rw [Disturbs, hphase]
    rcases m.db.complete_cases key (SqlStorage.serialize result) now with
      ⟨u, db, hheld, hcomplete, hstatus⟩ | ⟨hlease, hcomplete⟩
    · rw [hcomplete] at hstep
      obtain rfl := Option.some.inj hstep
      exact h.giveBack_iff _ hstatus rfl rfl fun _ _ _ => Status.done_ne_held
    · rw [hcomplete] at hstep
      obtain rfl := Option.some.inj hstep
      refine h.giveBack_iff (m.db.status key) (fun k => ?_) rfl rfl fun u hu => ?_
      · by_cases hk : key = k
        · subst hk
          rw [if_pos rfl]
          rfl
        · rw [if_neg hk]
          rfl
      · rw [hu] at hlease
        cases hlease
  -- the insertion of a result, again under a key without a row
  · rename_i key result now hphase
    have hno : ¬ m.Disturbs (.proceed c) := by
      rw [Disturbs, hphase]
      exact id
    rcases m.db.insertDone_cases key (SqlStorage.serialize result) now with
      ⟨db, hfree, hinsert, hstatus⟩ | ⟨hne, hinsert⟩
    · rw [hinsert] at hstep
      obtain rfl := Option.some.inj hstep
      refine iff_of_true (fun k => ?_) hno
      show Lease.Owned (db.status k) m.clock (m.standing k)
      rw [hstatus]
      by_cases hk : key = k
      · subst hk
        intro p hp hlive
        have hheld := (h key p hp hlive).1
        rw [hfree] at hheld
        cases hheld
      · rw [if_neg hk]
        exact h k
    · rw [hinsert] at hstep
      obtain rfl := Option.some.inj hstep
      exact hquiet _ (fun _ => rfl) rfl rfl hno
  -- the deletion, which ends whatever claim is pending
  · rename_i key hphase
    rw [Disturbs, hphase]
    have hstatus : ∀ k, (m.db.deletePending key).status k
        = if key = k then (m.db.status key).release else m.db.status k := by
      intro k
      rw [m.db.status_deletePending key k]
      by_cases hk : key = k
      · subst hk
        rfl
      · rw [if_neg hk, if_neg hk]
    have hends : ∀ u, m.db.status key = .held u → ∀ u', (m.db.status key).release ≠ .held u' := by
      intro u hu u'
      rw [hu]
      exact Status.free_ne_held
    split at hstep
    · obtain rfl := Option.some.inj hstep
      exact h.giveBack_iff _ hstatus rfl rfl hends
    · obtain rfl := Option.some.inj hstep
      exact h.giveBack_iff _ hstatus rfl rfl hends

theorem owned_step_iff {m m' : Nodes C T} {a : NodesAction C T} (hsound : m.Sound) (h : m.Owned)
    (hstep : m.step a = some m') : m'.Owned ↔ ¬ m.Disturbs a := by
  rcases step_cases hstep with ⟨c, rfl, hproceed⟩ | ⟨t, rfl, hle, rfl⟩ | ⟨c, p, rfl, hp⟩
  · exact owned_proceed_iff hsound h hproceed
  · exact iff_of_true (h.quiet (fun _ => rfl) rfl hle) id
  · refine iff_of_true (h.quiet (fun _ => rfl) rfl le_rfl) ?_
    rcases hp with ⟨key, lease, rfl, -⟩ | ⟨key, result, rfl, -⟩ | ⟨key, rfl, -⟩
    · exact id
    · exact id
    · exact id

theorem sound_owned_step_iff (m : Nodes C T) (a : NodesAction C T) (m' : Nodes C T)
    (hstep : m.step a = some m') (h : m.Sound ∧ m.Owned) : m'.Sound ∧ m'.Owned ↔
        ¬ m.Disturbs a := by
  rw [← owned_step_iff h.1 h.2 hstep]
  exact and_iff_right (sound_step m a m' hstep h.1)

omit [LinearOrder T] [Add T] [DecidableEq C] in
theorem owned_init [LinearOrder T] [DecidableEq C] (clock : T) : (init clock : Nodes C T).Owned :=
  fun _ => owned_nil _ _

end Nodes

/-! ### A call without anybody in between -/

/-- What a call of `claim_processed` is answered. -/
def SqlEvent.claim? {T : Type} : SqlEvent T → Option Claim
  | claimed _ _ => some { state := .claimed }
  | inFlight => some { state := .inFlight }
  | done v => some ⟨.done, v⟩
  | _ => none

namespace Nodes

variable {C T : Type} [LinearOrder T] [Rounding] [DecidableEq C] [Add T]

theorem run_proceed {m m₁ m' : Nodes C T} {c : C} {k : ℕ} (hstep : m.proceed c = some m₁)
    (hrun : Steps.run step m₁ (List.replicate k (.proceed c)) = some m') :
    Steps.run step m (List.replicate (k + 1) (.proceed c)) = some m' :=
  Steps.run_cons_eq_some.mpr ⟨m₁, hstep, hrun⟩

/-- **`claim_processed` on its own** is `SqlStorage.claimProcessed`. -/
theorem claim_alone {m : Nodes C T} {c : C} {key : String} {lease : T} {n : ℕ}
    (hphase : m.phase c = .attempt key lease (n + 1)) (later : List T) :
    ∃ k m' e, Steps.run step m (List.replicate k (.proceed c)) = some m' ∧
      m'.db = (SqlStorage.claimProcessed m.db key lease (m.clock :: later)).1 ∧
      m'.log = m.log ++ [(key, e)] ∧
      e.claim? = some (SqlStorage.claimProcessed m.db key lease (m.clock :: later)).2 := by
  have hbegin : m.proceed c = some (m.goto c (.insert key lease n m.clock)) := by
    rw [proceed, hphase]
  have hto : ∀ p, (m.goto c p).phase c = p := fun p => by rw [phase_goto, if_pos rfl]
  have hdb : ∀ p, (m.goto c p).db = m.db := fun _ => rfl
  have hagain : ∀ p q, (m.goto c p).goto c q = m.goto c q := by
    intro p q
    show ({ m with phase := Function.update (Function.update m.phase c p) c q } : Nodes C T) = _
    rw [Function.update_idem]
    rfl
  have hanswer : ∀ p e, (m.goto c p).answer c key e = m.answer c key e := by
    intro p e
    rw [answer, answer, hagain]
    rfl
  rw [SqlStorage.claimProcessed]
  cases hinsert : m.db.insertClaim key lease m.clock with
  | some db =>
    have hgrant : (m.goto c (.insert key lease n m.clock)).proceed c
        = some ((m.goto c (.insert key lease n m.clock)).grant db c key (m.clock + lease)) := by
      simp only [proceed, hto, hdb, hinsert]
    exact ⟨2, _, .claimed m.clock (m.clock + lease), run_proceed hbegin (run_proceed hgrant rfl),
      rfl, rfl, rfl⟩
  | none =>
    -- the insertion was refused, so the lookup finds the row
    obtain ⟨row, hrow⟩ : ∃ row, m.db.idempotency.get? key = some row := by
      rcases m.db.insertClaim_cases key lease m.clock with ⟨db, -, hsome, -⟩ | ⟨hrow, -⟩
      · rw [hinsert] at hsome
        cases hsome
      · exact hrow
    have hselect : (m.goto c (.insert key lease n m.clock)).proceed c
        = some (m.goto c (.select key lease n m.clock)) := by
      simp only [proceed, hto, hdb, hinsert, hagain]
    have hfound : m.db.selectIdempotency key = some row := hrow
    have hlookup : (m.goto c (.select key lease n m.clock)).proceed c
        = if ¬ SqlDb.pending row then
            some (m.answer c key (.done (SqlStorage.deserialize row.result)))
          else if row.leaseExpiresAt.any (fun t => decide (m.clock < t)) then
            some (m.answer c key .inFlight)
          else some (m.goto c (.takeOver key lease m.clock)) := by
      simp only [proceed, hto, hdb, hfound, hanswer, hagain]
    simp only [hfound]
    by_cases hpending : ¬ SqlDb.pending row = true
    · rw [if_pos hpending] at hlookup
      rw [if_pos hpending]
      exact ⟨3, _, .done (SqlStorage.deserialize row.result),
        run_proceed hbegin (run_proceed hselect (run_proceed hlookup rfl)), rfl, rfl, rfl⟩
    · rw [if_neg hpending] at hlookup
      rw [if_neg hpending]
      by_cases hlive : row.leaseExpiresAt.any (fun t => decide (m.clock < t)) = true
      · rw [if_pos hlive] at hlookup
        rw [if_pos hlive]
        exact ⟨3, _, .inFlight, run_proceed hbegin (run_proceed hselect (run_proceed hlookup rfl)),
          rfl, rfl, rfl⟩
      · rw [if_neg hlive] at hlookup
        rw [if_neg hlive]
        cases htake : m.db.takeOver key lease m.clock with
        | some db =>
          have htakeOver : (m.goto c (.takeOver key lease m.clock)).proceed c
              = some ((m.goto c (.takeOver key lease m.clock)).grant db c key
                (m.clock + lease)) := by
            simp only [proceed, hto, hdb, htake]
          exact ⟨4, _, .claimed m.clock (m.clock + lease),
            run_proceed hbegin (run_proceed hselect
              (run_proceed hlookup (run_proceed htakeOver rfl))),
            rfl, rfl, rfl⟩
        | none =>
          have htakeOver : (m.goto c (.takeOver key lease m.clock)).proceed c
              = some (m.answer c key .inFlight) := by
            simp only [proceed, hto, hdb, htake, hanswer]
          exact ⟨4, _, .inFlight,
            run_proceed hbegin (run_proceed hselect
              (run_proceed hlookup (run_proceed htakeOver rfl))),
            rfl, rfl, rfl⟩

end Nodes

end Istos
