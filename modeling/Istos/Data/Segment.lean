import Mathlib.Data.List.Basic
import Mathlib.Data.List.Infix

/-!
# Lists that end by themselves

Where the items read so far decide whether another one is read, a list is a segment when it is open
before its last item and not after it.  No segment begins with another one (`eq_of_isPrefix`), so a
reader that is given segments one behind the other takes each as it is, and finds an item whenever
it asks for one (`exists_next`).
-/

variable {α : Type*}

/-- A list that is open up to its last item, and not after it. -/
def IsSegment (Open : List α → Prop) (l : List α) : Prop :=
  ∃ xs x, l = xs ++ [x] ∧ Open xs ∧ ¬ Open l

namespace IsSegment

variable {Open : List α → Prop} {l l' rest xs : List α}

theorem ne_nil (h : IsSegment Open l) : l ≠ [] := by
  obtain ⟨xs, x, rfl, -, -⟩ := h
  exact List.concat_ne_nil x xs

/-- A beginning of a segment that is not open is all of it. -/
theorem eq_of_not_open (hclosed : ∀ {xs ys}, xs <+: ys → Open ys → Open xs) (h : IsSegment Open l)
    (hxs : ¬ Open xs) (hle : xs <+: l) : xs = l := by
  obtain ⟨ys, y, rfl, hys, -⟩ := h
  rcases List.prefix_concat_iff.mp hle with heq | hle
  · exact heq
  · exact absurd (hclosed hle hys) hxs

/-- **No segment begins with another one**. -/
theorem eq_of_isPrefix (hclosed : ∀ {xs ys}, xs <+: ys → Open ys → Open xs) (h : IsSegment Open l)
    (h' : IsSegment Open l') (hle : l' <+: l ++ rest) : l' = l := by
  have hends := h
  have hends' := h'
  obtain ⟨-, -, -, -, hl⟩ := hends
  obtain ⟨-, -, -, -, hl'⟩ := hends'
  rcases List.prefix_or_prefix_of_prefix hle (List.prefix_append l rest) with hle | hle
  · exact h.eq_of_not_open hclosed hl' hle
  · exact (h'.eq_of_not_open hclosed hl hle).symm

/-- **A reader that goes on finds an item**, and the item is one of the segment. -/
theorem exists_next (hclosed : ∀ {xs ys}, xs <+: ys → Open ys → Open xs) (h : IsSegment Open l)
    (hxs : Open xs) (hle : xs <+: l ++ rest) : ∃ x ys, l = xs ++ x :: ys := by
  have hends := h
  obtain ⟨-, -, -, -, hl⟩ := hends
  rcases List.prefix_or_prefix_of_prefix hle (List.prefix_append l rest) with ⟨ys, rfl⟩ | hle
  · cases ys with
    | nil =>
      rw [List.append_nil] at hl
      exact absurd hxs hl
    | cons x ys => exact ⟨x, ys, rfl⟩
  · exact absurd (hclosed hle hxs) hl

end IsSegment
