import Mathlib.Logic.Function.Basic
import Mathlib.Data.Option.Basic

/-!
# Runs of a partial step function

A system is a partial function `step : σ → α → Option σ`: in a state, an action that is not enabled
has no result.  `Steps.run` performs a list of actions, and `Steps.Along` says that a condition on
state and action holds at every step of a run.

`run_invariant`: what each step preserves under the condition, every run whose steps meet the
condition preserves.
-/

namespace Steps

variable {σ α : Type*} (step : σ → α → Option σ)

/-- Performs the actions one after the other. -/
def run : σ → List α → Option σ
  | s, [] => some s
  | s, a :: as => (step s a).bind fun s' => run s' as

/-- Every step of the run meets a condition on the state before it and the action. -/
def Along (cond : σ → α → Prop) : σ → List α → Prop
  | _, [] => True
  | s, a :: as => cond s a ∧ (step s a).elim True fun s' => Along cond s' as

instance decidableAlong (cond : σ → α → Prop) [∀ s a, Decidable (cond s a)] :
    (s : σ) → (as : List α) → Decidable (Along step cond s as)
  | _, [] => isTrue trivial
  | s, a :: as =>
    have : Decidable ((step s a).elim True fun s' => Along step cond s' as) :=
      match step s a with
      | none => isTrue trivial
      | some s' => decidableAlong cond s' as
    inferInstanceAs (Decidable (_ ∧ _))

variable {step}

@[simp] theorem run_nil (s : σ) : run step s [] = some s := rfl

theorem run_cons_eq_some {s s'' : σ} {a : α} {as : List α} :
    run step s (a :: as) = some s'' ↔ ∃ s', step s a = some s' ∧ run step s' as = some s'' :=
  Option.bind_eq_some_iff

/-- Two runs one after the other are one run. -/
theorem run_append_eq_some {s s' s'' : σ} {as bs : List α} (h : run step s as = some s')
    (h' : run step s' bs = some s'') : run step s (as ++ bs) = some s'' := by
  induction as generalizing s with
  | nil =>
    obtain rfl := Option.some.inj h
    exact h'
  | cons a as ih =>
    obtain ⟨s₁, hstep, hrest⟩ := run_cons_eq_some.mp h
    exact run_cons_eq_some.mpr ⟨s₁, hstep, ih hrest⟩

/-- A run of two lists of actions passes through a state between them. -/
theorem exists_run_append {s s'' : σ} {as bs : List α} (h : run step s (as ++ bs) = some s'') :
    ∃ s', run step s as = some s' ∧ run step s' bs = some s'' := by
  induction as generalizing s with
  | nil => exact ⟨s, rfl, h⟩
  | cons a as ih =>
    obtain ⟨s₁, hstep, hrest⟩ := run_cons_eq_some.mp h
    obtain ⟨s', has, hbs⟩ := ih hrest
    exact ⟨s', run_cons_eq_some.mpr ⟨s₁, hstep, has⟩, hbs⟩

/-- A condition that is met along a run is met up to any of its steps, and at that step. -/
theorem Along.split {cond : σ → α → Prop} {s t : σ} {as bs : List α} {a : α}
    (h : Along step cond s (as ++ a :: bs)) (hrun : run step s as = some t) :
    Along step cond s as ∧ cond t a := by
  induction as generalizing s with
  | nil =>
    obtain rfl := Option.some.inj hrun
    exact ⟨trivial, h.1⟩
  | cons b as ih =>
    obtain ⟨s₁, hstep, hrest⟩ := run_cons_eq_some.mp hrun
    have hlater := h.2
    rw [hstep] at hlater
    obtain ⟨has, ha⟩ := ih hlater hrest
    refine ⟨⟨h.1, ?_⟩, ha⟩
    rw [hstep]
    exact has

/-- A condition that is met along a run is met along its beginnings. -/
theorem Along.of_append {cond : σ → α → Prop} {s : σ} {as bs : List α}
    (h : Along step cond s (as ++ bs)) : Along step cond s as := by
  induction as generalizing s with
  | nil => trivial
  | cons a as ih =>
    refine ⟨h.1, ?_⟩
    have hlater := h.2
    cases hstep : step s a with
    | none => trivial
    | some s' =>
      rw [hstep] at hlater
      exact ih hlater

/-- A condition that is not met along a run fails at a first step. -/
theorem exists_first_failure {cond : σ → α → Prop} {s s' : σ} {as : List α}
    (hrun : run step s as = some s') (h : ¬ Along step cond s as) :
    ∃ before a after t, as = before ++ a :: after ∧ run step s before = some t ∧
      Along step cond s before ∧ ¬ cond t a := by
  induction as generalizing s with
  | nil => exact absurd trivial h
  | cons a as ih =>
    obtain ⟨s₁, hstep, hrest⟩ := run_cons_eq_some.mp hrun
    by_cases ha : cond s a
    · have hlater : ¬ Along step cond s₁ as := by
        intro hlater
        refine h ⟨ha, ?_⟩
        rw [hstep]
        exact hlater
      obtain ⟨before, b, after, t, rfl, hbefore, halong, hb⟩ := ih hrest hlater
      refine ⟨a :: before, b, after, t, rfl, run_cons_eq_some.mpr ⟨s₁, hstep, hbefore⟩,
        ⟨ha, ?_⟩, hb⟩
      rw [hstep]
      exact halong
    · exact ⟨[], a, as, s, rfl, rfl, trivial, ha⟩

/-- A condition that always holds is met along every run. -/
theorem along_true (s : σ) (as : List α) : Along step (fun _ _ => True) s as := by
  induction as generalizing s with
  | nil => trivial
  | cons a as ih =>
    refine ⟨trivial, ?_⟩
    cases step s a with
    | none => trivial
    | some s' => exact ih s'

/-- A condition on the actions alone is met at every step. -/
theorem Along.and_forall {cond : σ → α → Prop} {P : α → Prop} {s : σ} {as : List α}
    (h : Along step cond s as) (hP : ∀ a ∈ as, P a) :
    Along step (fun s a => cond s a ∧ P a) s as := by
  induction as generalizing s with
  | nil => trivial
  | cons a as ih =>
    refine ⟨⟨h.1, hP a List.mem_cons_self⟩, ?_⟩
    have hlater := h.2
    cases hstep : step s a with
    | none => trivial
    | some s' =>
      rw [hstep] at hlater
      exact ih hlater fun b hb => hP b (List.mem_cons_of_mem a hb)

/-- **The invariant rule**. -/
theorem run_invariant {cond : σ → α → Prop} {Inv : σ → Prop}
    (preserved : ∀ s a s', step s a = some s' → cond s a → Inv s → Inv s') {s s' : σ}
    {as : List α} (hrun : run step s as = some s') (hcond : Along step cond s as) (hs : Inv s) :
    Inv s' := by
  induction as generalizing s with
  | nil =>
    obtain rfl := Option.some.inj hrun
    exact hs
  | cons a as ih =>
    obtain ⟨s₁, hstep, hrest⟩ := run_cons_eq_some.mp hrun
    obtain ⟨hnow, hlater⟩ := hcond
    rw [hstep] at hlater
    exact ih hrest hlater (preserved s a s₁ hstep hnow hs)

/-- The invariant rule for runs without a condition. -/
theorem run_invariant_true {Inv : σ → Prop}
    (preserved : ∀ s a s', step s a = some s' → Inv s → Inv s') {s s' : σ} {as : List α}
    (hrun : run step s as = some s') (hs : Inv s) : Inv s' := by
  have hpreserved : ∀ s a s', step s a = some s' → True → Inv s → Inv s' :=
    fun s a s' hstep _ => preserved s a s' hstep
  exact run_invariant hpreserved hrun (along_true s as) hs

/-- The invariant rule with the actions so far. -/
theorem run_invariant_history {Inv : List α → σ → Prop}
    (preserved : ∀ before s a s', step s a = some s' → Inv before s → Inv (before ++ [a]) s')
    {s s' : σ} {before as : List α} (hrun : run step s as = some s')
    (hs : Inv before s) : Inv (before ++ as) s' := by
  induction as generalizing s before with
  | nil =>
    obtain rfl := Option.some.inj hrun
    rwa [List.append_nil]
  | cons a as ih =>
    obtain ⟨s₁, hstep, hrest⟩ := run_cons_eq_some.mp hrun
    rw [List.append_cons]
    exact ih hrest (preserved before s a s₁ hstep hs)

/-- **The exact rule**: where each step keeps the invariant just when it meets the condition, the
states of a run have the invariant just when all steps meet the condition. -/
theorem forall_prefix_iff {cond : σ → α → Prop} {Inv : σ → Prop}
    (exact : ∀ s a s', step s a = some s' → Inv s → (Inv s' ↔ cond s a)) {s s' : σ} {as : List α}
    (hrun : run step s as = some s') (hs : Inv s) :
    (∀ pre, pre <+: as → ∀ t, run step s pre = some t → Inv t) ↔ Along step cond s as := by
  induction as generalizing s with
  | nil =>
    refine iff_of_true (fun pre hpre t ht => ?_) trivial
    obtain rfl := List.prefix_nil.mp hpre
    obtain rfl := Option.some.inj ht
    exact hs
  | cons a as ih =>
    obtain ⟨s₁, hstep, hrest⟩ := run_cons_eq_some.mp hrun
    show _ ↔ cond s a ∧ (step s a).elim True fun s' => Along step cond s' as
    rw [hstep]
    constructor
    · intro h
      have hone : Inv s₁ :=
        h [a] (List.prefix_append [a] as) s₁ (run_cons_eq_some.mpr ⟨s₁, hstep, rfl⟩)
      refine ⟨(exact s a s₁ hstep hs).mp hone, (ih hrest hone).mp fun pre hpre t ht => ?_⟩
      exact h (a :: pre) (List.cons_prefix_cons.mpr ⟨rfl, hpre⟩) t
        (run_cons_eq_some.mpr ⟨s₁, hstep, ht⟩)
    · rintro ⟨hnow, hlater⟩ pre hpre t ht
      have hone := (exact s a s₁ hstep hs).mpr hnow
      cases pre with
      | nil =>
        obtain rfl := Option.some.inj ht
        exact hs
      | cons b pre =>
        obtain ⟨rfl, hrest'⟩ := List.cons_prefix_cons.mp hpre
        obtain ⟨s₂, hstep₂, hrest₂⟩ := run_cons_eq_some.mp ht
        obtain rfl := Option.some.inj (hstep.symm.trans hstep₂)
        exact (ih hrest hone).mpr hlater pre hrest' t hrest₂

/-- Where a step that leads to `P` meets the condition and keeps the invariant, a run whose states
all have `P` meets the condition at every step. -/
theorem along_of_forall_prefix {cond : σ → α → Prop} {Inv P : σ → Prop}
    (next : ∀ s a s', step s a = some s' → Inv s → P s' → cond s a ∧ Inv s') {s s' : σ}
    {as : List α} (hrun : run step s as = some s') (hs : Inv s)
    (h : ∀ pre, pre <+: as → ∀ t, run step s pre = some t → P t) : Along step cond s as := by
  induction as generalizing s with
  | nil => trivial
  | cons a as ih =>
    obtain ⟨s₁, hstep, hrest⟩ := run_cons_eq_some.mp hrun
    have hone : P s₁ := h [a] (List.prefix_append [a] as) s₁ (run_cons_eq_some.mpr ⟨s₁, hstep, rfl⟩)
    obtain ⟨hcond, hs₁⟩ := next s a s₁ hstep hs hone
    refine ⟨hcond, ?_⟩
    rw [hstep]
    refine ih hrest hs₁ fun pre hpre t ht => ?_
    exact h (a :: pre) (List.cons_prefix_cons.mpr ⟨rfl, hpre⟩) t
      (run_cons_eq_some.mpr ⟨s₁, hstep, ht⟩)

end Steps
