import Mathlib.Data.List.Basic

/-!
# Programs that ask

A program reads and writes a state, asks, and goes on by what it is answered.  It is run against
what answers (`Program.run`), which may change the state besides, and adds to a log that the program
itself does not reach.

`run_segments`: what is logged in a run is what was logged for one question after the other.

`run_of_passes`: a program that asks one question at most once, and ends as it is answered, is run
as that question is answered, or it refuses.
-/

/-- A program on states `S`, with questions `Q`, answers `A` and results `R`. -/
inductive Program (S Q A R : Type*)
  | done (r : R)
  | look (next : S → Program S Q A R)
  | put (s : S) (next : Program S Q A R)
  | ask (q : Q) (next : A → Program S Q A R)

namespace Program

variable {S Q A R L : Type*}

/-- Runs a program; what is answered may depend on the log. -/
def run (answer : Q → S → List L → A × S × List L) :
    Program S Q A R → S → List L → R × S × List L
  | done r, s, l => (r, s, l)
  | look next, s, l => run answer (next s) s l
  | put s next, _, l => run answer next s l
  | ask q next, s, l =>
    let (a, s, l) := answer q s l
    run answer (next a) s l

variable (answer : Q → S → List L → A × S × List L)

/-- **A run logs what its questions log**, each of which is of a kind. -/
theorem run_segments {P : List L → Prop}
    (h : ∀ q s l, ∃ segment, P segment ∧ (answer q s l).2.2 = l ++ segment)
    (p : Program S Q A R) (s : S) (l : List L) :
    ∃ segments : List (List L), (∀ segment ∈ segments, P segment) ∧
      (run answer p s l).2.2 = l ++ segments.flatten := by
  induction p generalizing s l with
  | done r => exact ⟨[], by simp, by simp [run]⟩
  | look next ih => exact ih s s l
  | put s' next ih => exact ih s' l
  | ask q next ih =>
    obtain ⟨segment, hsegment, hanswer⟩ := h q s l
    obtain ⟨segments, hsegments, hrun⟩ := ih (answer q s l).1 (answer q s l).2.1 (answer q s l).2.2
    refine ⟨segment :: segments, ?_, ?_⟩
    · simpa using ⟨hsegment, hsegments⟩
    · rw [List.flatten_cons, ← List.append_assoc, ← hanswer]
      exact hrun

/-! ### Programs that pass on what they are answered -/

/-- Whatever it reads and writes, a program ends with this. -/
inductive Returns (a : A) : Program S Q A A → Prop
  | done : Returns a (.done a)
  | look {next : S → Program S Q A A} : (∀ s, Returns a (next s)) → Returns a (.look next)
  | put {s : S} {next : Program S Q A A} : Returns a next → Returns a (.put s next)

/-- A program asks this once and ends as it is answered, or ends with a refusal. -/
inductive Passes (Refusal : A → Prop) (q : Q) : Program S Q A A → Prop
  | done {a : A} : Refusal a → Passes Refusal q (.done a)
  | look {next : S → Program S Q A A} : (∀ s, Passes Refusal q (next s)) →
      Passes Refusal q (.look next)
  | put {s : S} {next : Program S Q A A} : Passes Refusal q next → Passes Refusal q (.put s next)
  | ask {next : A → Program S Q A A} : (∀ a, Returns a (next a)) → Passes Refusal q (.ask q next)

variable {Refusal : A → Prop}

theorem run_of_returns {a : A} {p : Program S Q A A} (h : Returns a p) (s : S) (l : List L) :
    (run answer p s l).1 = a ∧ (run answer p s l).2.2 = l := by
  induction h generalizing s with
  | done => exact ⟨rfl, rfl⟩
  | look _ ih => exact ih s s
  | put _ ih => exact ih _

/-- **A program that passes on what it is answered** asks in some state, or it refuses and logs
nothing. -/
theorem run_of_passes {q : Q} {p : Program S Q A A} (h : Passes Refusal q p) (s : S) (l : List L) :
    (∃ s', (run answer p s l).1 = (answer q s' l).1 ∧
        (run answer p s l).2.2 = (answer q s' l).2.2) ∨
      Refusal (run answer p s l).1 ∧ (run answer p s l).2.2 = l := by
  induction h generalizing s with
  | done hrefusal => exact .inr ⟨hrefusal, rfl⟩
  | look _ ih => exact ih s s
  | put _ ih => exact ih _
  | ask hnext => exact .inl ⟨s, run_of_returns answer (hnext _) _ _⟩

end Program
