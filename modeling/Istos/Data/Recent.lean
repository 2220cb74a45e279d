import Mathlib.Data.List.Dedup
import Mathlib.Data.List.DropRight

/-!
# The most recently used values

`recent n uses` are the last `n` distinct values of `uses`, the one that was used last at the end.
`touch n` is the step of a list that is kept that way: a value that is used moves to the end, and
the first value goes where they are more than `n`.

`recent_concat`: the step keeps the most recently used values.
-/

namespace Recent

variable {α : Type*} [DecidableEq α]

/-- The `n` most recently used values. -/
def recent (n : ℕ) (uses : List α) : List α := uses.dedup.rtake n

/-- A value is used. -/
def touch (n : ℕ) (kept : List α) (x : α) : List α :=
  let moved := kept.erase x ++ [x]
  if n < moved.length then moved.tail else moved

@[simp] theorem recent_nil (n : ℕ) : recent n ([] : List α) = [] := List.rtake_nil n

theorem length_recent_le (n : ℕ) (uses : List α) : (recent n uses).length ≤ n := by
  unfold recent List.rtake
  rw [List.length_drop]
  omega

omit [DecidableEq α] in
theorem rtake_of_length_le {n : ℕ} {l : List α} (h : l.length ≤ n) : l.rtake n = l := by
  rw [List.rtake, Nat.sub_eq_zero_of_le h, List.drop_zero]

omit [DecidableEq α] in
theorem rtake_append {n : ℕ} (l : List α) {l' : List α} (h : l'.length = n) :
    (l ++ l').rtake n = l' := by
  rw [List.rtake, List.length_append, h, Nat.add_sub_cancel, List.drop_left]

/-- A value that is used comes last among the distinct values. -/
theorem dedup_concat (uses : List α) (x : α) :
    (uses ++ [x]).dedup = uses.dedup.erase x ++ [x] := by
  induction uses with
  | nil => rfl
  | cons a uses ih =>
    rw [List.cons_append]
    by_cases hmem : a ∈ uses
    · rw [List.dedup_cons_of_mem (List.mem_append_left _ hmem), List.dedup_cons_of_mem hmem, ih]
    · rw [List.dedup_cons_of_notMem hmem]
      by_cases hx : a = x
      · subst hx
        have hself : a ∈ uses ++ [a] := List.mem_append_right _ (List.mem_singleton.mpr rfl)
        have hrest : uses.dedup.erase a = uses.dedup :=
          List.erase_of_not_mem (mt List.mem_dedup.mp hmem)
        rw [List.dedup_cons_of_mem hself, ih, hrest, List.erase_cons_head]
      · have hnot : a ∉ uses ++ [x] := by
          rw [List.mem_append, List.mem_singleton]
          exact not_or.mpr ⟨hmem, hx⟩
        rw [List.dedup_cons_of_notMem hnot, ih, List.erase_cons_tail (by simpa using hx),
          List.cons_append]

/-- **One step** keeps the most recently used values. -/
theorem recent_concat {n : ℕ} (hn : 1 ≤ n) (uses : List α) (x : α) :
    recent n (uses ++ [x]) = touch n (recent n uses) x := by
  obtain ⟨k, rfl⟩ := Nat.exists_eq_add_of_le' hn
  unfold recent touch
  rw [dedup_concat, List.rtake_concat_succ]
  have hnodup := uses.nodup_dedup
  generalize uses.dedup = values at hnodup ⊢
  -- the values are older ones, of which there are none unless the last ones are `k + 1`
  obtain ⟨older, last, rfl, hlast, hfull⟩ : ∃ older last, values = older ++ last ∧
      values.rtake (k + 1) = last ∧ (last.length = k + 1 ∨ older = [] ∧ last.length ≤ k) := by
    refine ⟨values.take (values.length - (k + 1)), _,
      (List.take_append_drop _ values).symm, rfl, ?_⟩
    rw [List.length_drop]
    rcases Nat.lt_or_ge k values.length with hlong | hshort
    · left
      omega
    · right
      rw [Nat.sub_eq_zero_of_le (by omega), List.take_zero]
      exact ⟨rfl, by omega⟩
  rw [hlast]
  dsimp only
  by_cases hx : x ∈ last
  · have holder : x ∉ older := fun hmem => (List.nodup_append.mp hnodup).2.2 x hmem x hx rfl
    have hlength := List.length_erase_of_mem hx
    have hpos := List.length_pos_of_mem hx
    have hfits : ¬ k + 1 < (last.erase x ++ [x]).length := by
      rw [List.length_append, List.length_singleton]
      omega
    rw [List.erase_append_right _ holder, if_neg hfits]
    congr 1
    rcases hfull with hfull | ⟨rfl, hshort⟩
    · exact rtake_append older (by omega)
    · exact rtake_of_length_le (by rw [List.nil_append]; omega)
  · rw [List.erase_of_not_mem hx]
    rcases hfull with hfull | ⟨rfl, hshort⟩
    · have hne : last ≠ [] := List.ne_nil_of_length_pos (by omega)
      obtain ⟨first, rest, rfl⟩ := List.exists_cons_of_ne_nil hne
      have hrest : rest.length = k := by simpa using hfull
      rw [if_pos (by simp [hrest]), List.cons_append, List.tail_cons]
      congr 1
      have hsplit : (older ++ first :: rest).erase x = ((older ++ [first]).erase x) ++ rest := by
        rw [List.append_cons]
        rw [List.mem_cons, not_or] at hx
        by_cases hmem : x ∈ older ++ [first]
        · exact List.erase_append_left _ hmem
        · rw [List.erase_append_right _ hmem, List.erase_of_not_mem hx.2,
            List.erase_of_not_mem hmem]
      rw [hsplit]
      exact rtake_append _ hrest
    · have hfits : ¬ k + 1 < (last ++ [x]).length := by
        rw [List.length_append, List.length_singleton]
        omega
      rw [if_neg hfits, List.nil_append, List.erase_of_not_mem hx, rtake_of_length_le hshort]

/-- Values and their names are kept alike. -/
theorem map_touch {β : Type*} [DecidableEq β] {f : α → β} (hf : Function.Injective f) (n : ℕ)
    (kept : List α) (x : α) : (touch n kept x).map f = touch n (kept.map f) (f x) := by
  have hmoved : (kept.erase x ++ [x]).map f = (kept.map f).erase (f x) ++ [f x] := by
    rw [List.map_append, List.map_erase hf, List.map_singleton]
  unfold touch
  dsimp only
  rw [← hmoved, List.length_map]
  split
  · exact List.map_tail
  · rfl

/-- A value that was kept stays kept. -/
theorem touch_of_mem {n : ℕ} {kept : List α} {x : α} (hx : x ∈ kept) (h : kept.length ≤ n) :
    touch n kept x = kept.erase x ++ [x] := by
  have hlength := List.length_erase_of_mem hx
  have hpos := List.length_pos_of_mem hx
  refine if_neg ?_
  rw [List.length_append, List.length_singleton]
  omega

theorem touch_of_not_mem {n : ℕ} {kept : List α} {x : α} (hx : x ∉ kept) :
    touch n kept x = if n < (kept ++ [x]).length then (kept ++ [x]).tail else kept ++ [x] := by
  unfold touch
  rw [List.erase_of_not_mem hx]

end Recent
