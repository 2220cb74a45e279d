import Mathlib.Data.List.Lex
import Mathlib.Order.Lattice

/-!
# The order of texts

Lists over a linear order are compared at the first place where they differ; a list that ends there
comes first.
-/

namespace Lex

variable {α : Type*} [LinearOrder α] {l l' a b : List α}

theorem cons_lt_cons {x y : α} : x :: l < y :: l' ↔ x < y ∨ x = y ∧ l < l' := List.cons_lt_cons_iff

/-- What two lists begin with alike does not count. -/
theorem append_lt_append_left (l : List α) : l ++ a < l ++ b ↔ a < b := by
  induction l with
  | nil => rfl
  | cons x l ih =>
    rw [List.cons_append, List.cons_append, cons_lt_cons, ih]
    constructor
    · rintro (hlt | ⟨-, hab⟩)
      · exact absurd hlt (lt_irrefl x)
      · exact hab
    · exact fun hab => .inr ⟨rfl, hab⟩

/-- Beginnings of one length are compared first. -/
theorem append_lt_append (hlen : l.length = l'.length) :
    l ++ a < l' ++ b ↔ l < l' ∨ l = l' ∧ a < b := by
  induction l generalizing l' with
  | nil =>
    obtain rfl := List.length_eq_zero_iff.mp hlen.symm
    constructor
    · exact fun hab => .inr ⟨rfl, hab⟩
    · rintro (hlt | ⟨-, hab⟩)
      · exact absurd hlt (List.not_lt_nil [])
      · exact hab
  | cons x l ih =>
    cases l' with
    | nil => cases hlen
    | cons y l' =>
      rw [List.cons_append, List.cons_append, cons_lt_cons, cons_lt_cons,
        ih (Nat.succ.inj hlen), List.cons.injEq, and_or_left, or_assoc, and_assoc]

/-- Beginnings of which neither is one of the other are compared alone. -/
theorem append_lt_append_of_not_isPrefix (h : ¬l <+: l') (h' : ¬l' <+: l) :
    l ++ a < l' ++ b ↔ l < l' := by
  induction l generalizing l' with
  | nil => exact absurd List.nil_prefix h
  | cons x l ih =>
    cases l' with
    | nil => exact absurd List.nil_prefix h'
    | cons y l' =>
      rw [List.cons_append, List.cons_append, cons_lt_cons, cons_lt_cons]
      by_cases hxy : x = y
      · subst hxy
        rw [ih (fun hl => h (List.cons_prefix_cons.mpr ⟨rfl, hl⟩))
          fun hl => h' (List.cons_prefix_cons.mpr ⟨rfl, hl⟩)]
      · simp only [hxy, false_and, or_false]

end Lex
