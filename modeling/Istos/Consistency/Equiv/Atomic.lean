import Istos.Consistency.Equiv.Nodes
import Istos.Consistency.Equiv.Stored

/-!
# Atomic claims, statement by statement

`Nodes.Gate` lets only those callers complete or release a key that were granted it and whose lease
is live.  In their runs every mark finds the row that its caller had claimed (`Nodes.Proper`).

* `sql_claim_atomic`: between two `CLAIMED` answers there is a release or a lapsed lease, a `DONE`
  answer has the result of the first mark, and a row that is done never changes.
-/

namespace Istos

open Lease

namespace Nodes

variable {C T : Type} [LinearOrder T] [Rounding] [DecidableEq C] [Add T]

/-! ### Callers that keep to their leases -/

/-- Only a caller that was answered `CLAIMED`, and whose lease has not lapsed, completes or releases
a key. -/
def Gate (m : Nodes C T) : NodesAction C T → Prop
  | .proceed c =>
    match m.phase c with
    | .complete key _ _ => ∃ p ∈ m.standing key, p.1 = c ∧ (m.clock : WithTop T) < p.2
    | .delete key => ∃ p ∈ m.standing key, p.1 = c ∧ (m.clock : WithTop T) < p.2
    | _ => True
  | _ => True

instance (m : Nodes C T) : (a : NodesAction C T) → Decidable (m.Gate a)
  | .proceed c => by
    unfold Gate
    dsimp only
    split <;> infer_instance
  | .tick _ | .claim _ _ _ | .mark _ _ _ | .release _ _ => isTrue trivial

omit [DecidableEq C] [Add T] in
/-- A caller that keeps to its lease disturbs nobody. -/
theorem Gate.not_disturbs {m : Nodes C T} {a : NodesAction C T} (hgate : m.Gate a)
    (h : m.Owned) : ¬ m.Disturbs a := by
  cases a with
  | proceed c =>
    rw [Gate] at hgate
    rw [Disturbs]
    cases hphase : m.phase c with
    | complete key result now =>
      rw [hphase] at hgate
      obtain ⟨p, hp, rfl, hlive⟩ := hgate
      exact (h key).not_disturbs hp hlive
    | delete key =>
      rw [hphase] at hgate
      obtain ⟨p, hp, rfl, hlive⟩ := hgate
      exact (h key).not_disturbs hp hlive
    | _ => exact id
  | _ => exact id

end Nodes

/-- A result that SQL reads back as it was: it is not a string, and bytes are not JSON (with the
escape of a lone surrogate, which `json.loads` takes, they count as none). -/
def Value.Plain [Rounding] : Value → Prop
  | .json (.str _) => False
  | .json j => j.Valid
  | .bytes data => Json.loadb data = Option.none

theorem Value.Plain.readBack [Rounding] {v : Value} (h : v.Plain) :
    SqlStorage.deserialize (some (SqlStorage.serialize v)) = v := by
  cases v with
  | bytes data =>
    have hload : Json.loadb data = Option.none := h
    rw [SqlStorage.serialize, SqlStorage.deserialize]
    simp only [hload]
  | json j =>
    cases j with
    | str s => exact absurd h id
    | _ => exact (Backend.readBack_eq_iff .sql h).mpr fun s hs => Json.noConfusion hs

namespace SqlEvent

variable {T : Type}

/-- The result of a call of `mark_processed`, at its update. -/
def marked? : SqlEvent T → Option Value
  | marked v _ => some v
  | _ => none

end SqlEvent

/-- The results that were marked under a key, in the order of their statements. -/
def marksOf {T : Type} (log : List (String × SqlEvent T)) (key : String) : List Value :=
  (log.filter fun e => e.1 = key).filterMap fun e => e.2.marked?

namespace Nodes

variable {C T : Type} [LinearOrder T] [Rounding] [DecidableEq C] [Add T]

/-- Every mark found the row that its caller had claimed, and none went on to an insertion. -/
structure Proper (m : Nodes C T) : Prop where
  marking : ∀ c key v now, m.phase c = .complete key v now → v.Plain
  recording : ∀ c key v now, m.phase c ≠ .record key v now
  marked : ∀ key v took, (key, .marked v took) ∈ m.log → took = true ∧ v.Plain
  recorded : ∀ key v took, (key, SqlEvent.recorded v took) ∉ m.log

omit [LinearOrder T] [Add T] [DecidableEq C] in
theorem proper_init [DecidableEq C] (clock : T) : (init clock : Nodes C T).Proper where
  marking := nofun
  recording := nofun
  marked := nofun
  recorded := nofun

omit [LinearOrder T] [Add T] in
/-- A coroutine gets to another phase, with an entry in the log or without. -/
theorem Proper.goto {m m' : Nodes C T} (h : m.Proper) (c : C) {p : SqlPhase T}
    (hphase : m'.phase = Function.update m.phase c p)
    (hp : ∀ key v now, p = .complete key v now → v.Plain)
    (hp' : ∀ key v now, p ≠ .record key v now) (es : List (String × SqlEvent T))
    (hlog : m'.log = m.log ++ es)
    (hes : ∀ e ∈ es, (∀ v took, e.2 = .marked v took → took = true ∧ v.Plain) ∧
      ∀ v took, e.2 ≠ .recorded v took) : m'.Proper where
  marking c' key v now hc := by
    rw [hphase, Function.update_apply] at hc
    split at hc
    · exact hp key v now hc
    · exact h.marking c' key v now hc
  recording c' key v now hc := by
    rw [hphase, Function.update_apply] at hc
    split at hc
    · exact hp' key v now hc
    · exact h.recording c' key v now hc
  marked key v took hmem := by
    rw [hlog] at hmem
    rcases List.mem_append.mp hmem with hold | hnew
    · exact h.marked key v took hold
    · exact (hes _ hnew).1 v took rfl
  recorded key v took hmem := by
    rw [hlog] at hmem
    rcases List.mem_append.mp hmem with hold | hnew
    · exact h.recorded key v took hold
    · exact (hes _ hnew).2 v took rfl

/-- **A statement of a caller that keeps to its lease.** -/
theorem proper_proceed {m m' : Nodes C T} {c : C} (howned : m.Owned) (h : m.Proper)
    (hgate : m.Gate (.proceed c)) (hstep : m.proceed c = some m') : m'.Proper := by
  have hquiet : ∀ (m'' : Nodes C T) (p : SqlPhase T) (es : List (String × SqlEvent T)),
      m''.phase = Function.update m.phase c p → m''.log = m.log ++ es →
      (∀ key v now, p ≠ .complete key v now) → (∀ key v now, p ≠ .record key v now) →
      (∀ e ∈ es, (∀ v took, e.2 ≠ .marked v took) ∧ ∀ v took, e.2 ≠ .recorded v took) →
      m''.Proper :=
    fun m'' p es hphase hlog hcomplete hrecord hes =>
      h.goto c hphase (fun key v now hp => absurd hp (hcomplete key v now)) hrecord es hlog
        fun e he => ⟨fun v took heq => absurd heq ((hes e he).1 v took), (hes e he).2⟩
  unfold proceed at hstep
  split at hstep
  · cases hstep
  · obtain rfl := Option.some.inj hstep
    exact hquiet _ .idle [_] rfl rfl nofun nofun (by simp)
  · obtain rfl := Option.some.inj hstep
    exact hquiet _ _ [] rfl (List.append_nil _).symm nofun nofun nofun
  · split at hstep
    · obtain rfl := Option.some.inj hstep
      exact hquiet _ .idle [_] rfl rfl nofun nofun (by simp)
    · obtain rfl := Option.some.inj hstep
      exact hquiet _ _ [] rfl (List.append_nil _).symm nofun nofun nofun
  · split at hstep
    · obtain rfl := Option.some.inj hstep
      exact hquiet _ _ [] rfl (List.append_nil _).symm nofun nofun nofun
    · split at hstep
      · obtain rfl := Option.some.inj hstep
        exact hquiet _ .idle [_] rfl rfl nofun nofun (by simp)
      · split at hstep
        · obtain rfl := Option.some.inj hstep
          exact hquiet _ .idle [_] rfl rfl nofun nofun (by simp)
        · obtain rfl := Option.some.inj hstep
          exact hquiet _ _ [] rfl (List.append_nil _).symm nofun nofun nofun
  · split at hstep
    · obtain rfl := Option.some.inj hstep
      exact hquiet _ .idle [_] rfl rfl nofun nofun (by simp)
    · obtain rfl := Option.some.inj hstep
      exact hquiet _ .idle [_] rfl rfl nofun nofun (by simp)
  · -- the caller has the row, so the update finds it
    rename_i key result now hphase
    rw [Gate, hphase] at hgate
    obtain ⟨p, hp, -, hlive⟩ := hgate
    have hheld := (howned key p hp hlive).1
    rcases m.db.complete_cases key (SqlStorage.serialize result) now with
      ⟨u', db, -, hcomplete, -⟩ | ⟨hlease, -⟩
    · rw [hcomplete] at hstep
      obtain rfl := Option.some.inj hstep
      refine h.goto c (p := .idle) rfl nofun nofun [_] rfl ?_
      intro e he
      obtain rfl := List.mem_singleton.mp he
      refine ⟨fun v took heq => ?_, nofun⟩
      obtain ⟨rfl, rfl⟩ := SqlEvent.marked.inj heq
      exact ⟨rfl, h.marking c key result now hphase⟩
    · rw [hheld] at hlease
      cases hlease
  · rename_i key result now hphase
    exact absurd hphase (h.recording c key result now)
  · split at hstep
    · obtain rfl := Option.some.inj hstep
      exact hquiet _ .idle [_] rfl rfl nofun nofun (by simp)
    · obtain rfl := Option.some.inj hstep
      exact hquiet _ .idle [] rfl (List.append_nil _).symm nofun nofun nofun

/-- **One action of callers that keep to their leases.** -/
theorem proper_step (m : Nodes C T) (a : NodesAction C T) (m' : Nodes C T)
    (hstep : m.step a = some m') (ha : m.Gate a ∧ ∀ c key v, a = .mark c key v → v.Plain)
    (h : m.Sound ∧ m.Owned ∧ m.Proper) : m'.Sound ∧ m'.Owned ∧ m'.Proper := by
  obtain ⟨hsound, howned, hproper⟩ := h
  refine ⟨sound_step m a m' hstep hsound,
    (owned_step_iff hsound howned hstep).mpr (ha.1.not_disturbs howned), ?_⟩
  rcases step_cases hstep with ⟨c, rfl, hproceed⟩ | ⟨t, -, -, rfl⟩ | ⟨c, p, rfl, hp⟩
  · exact proper_proceed howned hproper ha.1 hproceed
  · exact ⟨hproper.marking, hproper.recording, hproper.marked, hproper.recorded⟩
  · refine hproper.goto c rfl (fun key v now heq => ?_) (fun key v now heq => ?_) []
      (List.append_nil _).symm nofun
    · rcases hp with ⟨key', lease, -, rfl⟩ | ⟨key', result, rfl, rfl⟩ | ⟨key', -, rfl⟩
      · cases heq
      · obtain ⟨rfl, rfl, -⟩ := SqlPhase.complete.inj heq
        exact ha.2 c _ _ rfl
      · cases heq
    · rcases hp with ⟨key', lease, -, rfl⟩ | ⟨key', result, -, rfl⟩ | ⟨key', -, rfl⟩
      · cases heq
      · cases heq
      · cases heq

end Nodes

/-! ### The log, read as a history -/

section

variable {T : Type} [Rounding]

theorem historyOf_append (log log' : List (String × SqlEvent T)) (key : String) :
    historyOf (log ++ log') key = historyOf log key ++ historyOf log' key := by
  unfold historyOf
  rw [List.filter_append, List.filterMap_append]

theorem historyOf_cons (key : String) (e : SqlEvent T) (log : List (String × SqlEvent T)) :
    historyOf ((key, e) :: log) key = e.view.toList ++ historyOf log key := by
  have happend := historyOf_append [(key, e)] log key
  rw [List.singleton_append] at happend
  rw [happend]
  have hone := historyOf_concat [] key e key
  rw [if_pos rfl, List.nil_append] at hone
  rw [hone]
  rfl

theorem mem_historyOf {log : List (String × SqlEvent T)} {key : String} {ev : Event T Value}
    (h : ev ∈ historyOf log key) : ∃ e, (key, e) ∈ log ∧ e.view = some ev := by
  obtain ⟨⟨k, e⟩, hmem, hview⟩ := List.mem_filterMap.mp h
  obtain ⟨hlog, hk⟩ := List.mem_filter.mp hmem
  obtain rfl : k = key := of_decide_eq_true hk
  exact ⟨e, hlog, hview⟩

/-- A log whose marks were all read back as they were, and took. -/
theorem marks_historyOf {log : List (String × SqlEvent T)} {key : String}
    (hmarked : ∀ v took, (key, SqlEvent.marked v took) ∈ log → took = true ∧ v.Plain)
    (hrecorded : ∀ v took, (key, SqlEvent.recorded v took) ∉ log) :
    (historyOf log key).filterMap (fun | .mark v _ => some v | _ => none) = marksOf log key := by
  unfold historyOf marksOf
  rw [List.filterMap_filterMap]
  apply List.filterMap_congr
  rintro ⟨k, e⟩ hmem
  obtain ⟨hlog, hk⟩ := List.mem_filter.mp hmem
  obtain rfl : k = key := of_decide_eq_true hk
  cases e with
  | marked v took =>
    obtain ⟨rfl, hplain⟩ := hmarked v took hlog
    exact congrArg some hplain.readBack
  | recorded v took => exact absurd hlog (hrecorded v took)
  | _ => rfl

end

/-! ### The result -/

namespace Nodes

variable {C T : Type} [LinearOrder T] [Rounding] [DecidableEq C] [Add T]

/-- The claims are atomic. -/
structure Atomic (m : Nodes C T) : Prop where
  /-- between two `CLAIMED` answers a release freed the key, or the lease of the first has lapsed -/
  claimed : ∀ key now u now' u' pre mid post,
    m.log = pre ++ (key, .claimed now u) :: mid ++ (key, .claimed now' u') :: post →
    (key, SqlEvent.released) ∈ mid ∨ u ≤ now'
  /-- `DONE` is answered after a mark, with the result of the first one -/
  done : ∀ key v pre post, m.log = pre ++ (key, .done v) :: post →
    (marksOf pre key).head? = some v
  /-- a row that is done stays as it is -/
  final : ∀ key row, m.DoneRow key row → ∀ as m', Steps.run step m as = some m' → m'.DoneRow key row

omit [DecidableEq C] [Add T] in
theorem Sound.released_or_lapsed {m : Nodes C T} (h : m.Sound) {key : String} {now u now' u' : T}
    {pre mid post : List (String × SqlEvent T)}
    (hlog : m.log = pre ++ (key, .claimed now u) :: mid ++ (key, .claimed now' u') :: post) :
    (key, SqlEvent.released) ∈ mid ∨ u ≤ now' := by
  have hlegal := h.legal key
  rw [hlog, historyOf_append, historyOf_append, historyOf_cons, historyOf_cons] at hlegal
  rcases hlegal.released_or_lapsed with hrelease | hle
  · left
    obtain ⟨e, hmem, hview⟩ := mem_historyOf hrelease
    cases e with
    | released => exact hmem
    | _ => cases hview
  · exact Or.inr (WithTop.coe_le_coe.mp hle)

omit [DecidableEq C] [Add T] in
theorem Sound.first_mark {m : Nodes C T} (h : m.Sound) (hproper : m.Proper) {key : String}
    {v : Value}
    {pre post : List (String × SqlEvent T)} (hlog : m.log = pre ++ (key, .done v) :: post) :
    (marksOf pre key).head? = some v := by
  have hlegal := h.legal key
  rw [hlog, historyOf_append, historyOf_cons] at hlegal
  have hprefix : historyOf pre key ++ [.report v]
      <+: historyOf pre key ++ ((SqlEvent.done v).view.toList ++ historyOf post key) :=
    List.prefix_append_right_inj _ |>.mpr (List.prefix_append [_] _)
  have hpre := hlegal.of_prefix hprefix
  obtain ⟨p, q, hsplit, hfirst⟩ := hpre.left.first_mark hpre.last
  have hmem : ∀ e, (key, e) ∈ pre → (key, e) ∈ m.log := by
    intro e he
    rw [hlog]
    exact List.mem_append_left _ he
  rw [← marks_historyOf (fun w took he => hproper.marked key w took (hmem _ he))
    (fun w took he => hproper.recorded key w took (hmem _ he)), hsplit, List.filterMap_append]
  have hnone : p.filterMap (fun | Event.mark v _ => some v | _ => none) = ([] : List Value) := by
    apply List.filterMap_eq_nil_iff.mpr
    intro ev hev
    cases ev with
    | mark w took =>
      -- every mark took, so one before the first would have been the first
      obtain ⟨e, he, hview⟩ := mem_historyOf
        (show Event.mark w took ∈ historyOf pre key by
          rw [hsplit]
          exact List.mem_append_left _ hev)
      cases e with
      | marked w' took' =>
        obtain ⟨-, rfl⟩ := Event.mark.inj (Option.some.inj hview)
        obtain ⟨rfl, -⟩ := hproper.marked key w' took' (hmem _ he)
        exact absurd hev (hfirst w)
      | recorded w' took' => exact absurd (hmem _ he) (hproper.recorded key w' took')
      | _ => cases hview
    | _ => rfl
  rw [hnone]
  rfl

end Nodes

/-- **The claims of SQL are atomic**, statement by statement, in every run of callers that complete
and release only what they were granted and still hold, where every result is read back as it was.
-/
theorem sql_claim_atomic {C T : Type} [DecidableEq C] [LinearOrder T] [Add T] [Rounding] {clock : T}
    {as : List (NodesAction C T)} {m : Nodes C T}
    (hrun : Steps.run Nodes.step (Nodes.init clock) as = some m)
    (hgate : Steps.Along Nodes.step Nodes.Gate (Nodes.init clock) as)
    (hplain : ∀ c key v, .mark c key v ∈ as → v.Plain) : m.Atomic := by
  have hcond := hgate.and_forall (P := fun a => ∀ c key v, a = .mark c key v → v.Plain)
    fun a ha c key v heq => hplain c key v (heq ▸ ha)
  obtain ⟨hsound, -, hproper⟩ := Steps.run_invariant
    Nodes.proper_step hrun hcond ⟨Nodes.sound_init clock, Nodes.owned_init clock,
      Nodes.proper_init clock⟩
  exact ⟨fun key now u now' u' pre mid post hlog => hsound.released_or_lapsed hlog,
    fun key v pre post hlog => hsound.first_mark hproper hlog,
    fun key row hdone as' m' hrun' => Nodes.doneRow_run hdone hrun'⟩

/-- One node claims a key and completes it with a result, and another one claims it afterwards. -/
def Nodes.claimMarkClaim (result : Value) : List (NodesAction Bool ℤ) :=
  [.claim false "k" 10, .proceed false, .proceed false, .mark false "k" result, .tick 5,
    .proceed false, .claim true "k" 10, .proceed true, .proceed true, .proceed true]

/-- The result is an empty object. -/
theorem sql_claim_atomic_object :
    let _ := Rounding.verbatim
    ∃ m, Steps.run Nodes.step (Nodes.init 0) (Nodes.claimMarkClaim (.json (.obj []))) = some m ∧
      m.Atomic := by
  intro _
  have hvalid : (Json.obj []).Valid := ⟨List.nodup_nil, trivial⟩
  have hrun : ∃ m, Steps.run Nodes.step (Nodes.init 0)
      (Nodes.claimMarkClaim (.json (.obj []))) = some m := ⟨_, rfl⟩
  obtain ⟨m, hrun⟩ := hrun
  refine ⟨m, hrun, sql_claim_atomic hrun (by decide) fun c key v hmem => ?_⟩
  simp only [Nodes.claimMarkClaim, List.mem_cons, reduceCtorEq, false_or, List.not_mem_nil,
    or_false, NodesAction.mark.injEq] at hmem
  rw [hmem.2.2]
  exact hvalid

/-- The result is a string of digits: the second node is told that it was a number. -/
theorem digits_done :
    let _ := Rounding.verbatim
    ∃ m, Steps.run Nodes.step (Nodes.init 0) (Nodes.claimMarkClaim (.json (.str "123"))) = some m ∧
      Steps.Along Nodes.step Nodes.Gate (Nodes.init 0) (Nodes.claimMarkClaim (.json (.str "123"))) ∧
      m.log = [("k", .claimed 0 10), ("k", .marked (.json (.str "123")) true),
        ("k", .done (.json (.num 123)))] ∧ ¬ m.Atomic := by
  intro _
  refine ⟨_, rfl, by decide, rfl, fun h => ?_⟩
  have hfirst := h.done "k" (.json (.num 123))
    [("k", .claimed 0 10), ("k", .marked (.json (.str "123")) true)] [] rfl
  cases hfirst

end Istos
