import Istos.Data.Steps
import Mathlib.Data.Nat.Notation

/-!
# Runs that end

Where every action uses up some of a measure, apart from actions of a kind that may give some back,
the length of a run is bounded by the measure of its first state and the number of those actions
(`length_add_le`).  Where besides, in every state that is not final, some action uses up measure,
every run can be continued to a final state (`exists_end`), and a run that cannot be continued is
final (`done_of_stuck`).
-/

namespace Steps

variable {σ α : Type*} {step : σ → α → Option σ} {Inv Done : σ → Prop} {measure : σ → ℕ}

/-- **A run is no longer than the measure**, up to what the actions of a kind give back. -/
theorem length_add_le {back : α → Bool} {c : ℕ}
    (keep : ∀ s a s', step s a = some s' → Inv s → Inv s')
    (less : ∀ s a s', step s a = some s' → Inv s →
      measure s' + 1 ≤ measure s + if back a then c else 0) {s s' : σ} {as : List α}
    (hrun : run step s as = some s') (hs : Inv s) :
    as.length + measure s' ≤ measure s + c * as.countP back := by
  induction as generalizing s with
  | nil =>
    obtain rfl := Option.some.inj hrun
    simp
  | cons a as ih =>
    obtain ⟨s₁, hstep, hrest⟩ := run_cons_eq_some.mp hrun
    have hlater := ih hrest (keep s a s₁ hstep hs)
    have hnow := less s a s₁ hstep hs
    rw [List.length_cons, List.countP_cons, Nat.mul_add]
    split at hnow
    · rename_i hback
      simp only [hback, if_true]
      omega
    · omega

/-- A state in which nothing is enabled is final. -/
theorem done_of_stuck
    (live : ∀ s, Inv s → ¬ Done s → ∃ a s', step s a = some s' ∧ measure s' < measure s) {s : σ}
    (hs : Inv s) (stuck : ∀ a, step s a = none) : Done s := by
  by_contra hdone
  obtain ⟨a, s', hstep, -⟩ := live s hs hdone
  rw [stuck] at hstep
  cases hstep

/-- **Every state can be brought to an end**. -/
theorem exists_end (keep : ∀ s a s', step s a = some s' → Inv s → Inv s')
    (live : ∀ s, Inv s → ¬ Done s → ∃ a s', step s a = some s' ∧ measure s' < measure s) (s : σ)
    (hs : Inv s) : ∃ as s', run step s as = some s' ∧ Done s' := by
  induction hn : measure s using Nat.strongRecOn generalizing s with
  | ind n ih =>
  by_cases hdone : Done s
  · exact ⟨[], s, rfl, hdone⟩
  · obtain ⟨a, s₁, hstep, hless⟩ := live s hs hdone
    obtain ⟨as, s', hrun, hend⟩ := ih (measure s₁) (hn ▸ hless) s₁ (keep s a s₁ hstep hs) rfl
    exact ⟨a :: as, s', run_cons_eq_some.mpr ⟨s₁, hstep, hrun⟩, hend⟩

end Steps
