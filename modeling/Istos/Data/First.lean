import Mathlib.Data.List.Induction
import Mathlib.Data.List.Nodup

/-!
# The first of each key

A loop over a list that keeps an element only where nothing kept before has its key.  What it keeps
of a key is the element that a search for the key finds first (`mem_kept`), each key is there once
(`nodup_kept`), and no key is lost (`mem_map_kept`).
-/

namespace First

variable {α β : Type*} [DecidableEq β] (key : α → β)

/-- `if key not in seen: seen.add(key); out.append(x)`. -/
def keep (out : List α) (x : α) : List α := if key x ∈ out.map key then out else out ++ [x]

/-- What the loop keeps of a list. -/
def kept (l : List α) : List α := l.foldl (keep key) []

@[simp]
theorem kept_nil : kept key [] = [] := rfl

@[simp]
theorem kept_append_singleton (l : List α) (x : α) :
    kept key (l ++ [x]) = keep key (kept key l) x :=
  List.foldl_concat ..

/-- No key is lost. -/
theorem mem_map_kept (l : List α) (k : β) : k ∈ (kept key l).map key ↔ k ∈ l.map key := by
  induction l using List.reverseRecOn with
  | nil => rfl
  | append_singleton l x ih =>
    rw [kept_append_singleton, keep, List.map_append, List.mem_append]
    split_ifs with hseen
    · rw [ih, List.map_singleton, List.mem_singleton]
      refine ⟨Or.inl, Or.rec id ?_⟩
      rintro rfl
      exact ih.mp hseen
    · rw [List.map_append, List.mem_append, ih]

/-- Each key is there once. -/
theorem nodup_kept (l : List α) : ((kept key l).map key).Nodup := by
  induction l using List.reverseRecOn with
  | nil => exact List.nodup_nil
  | append_singleton l x ih =>
    rw [kept_append_singleton, keep]
    split_ifs with hseen
    · exact ih
    · rw [List.map_append, List.map_singleton]
      exact ih.append (List.nodup_singleton _) (List.disjoint_singleton.mpr hseen)

/-- What is kept of a key is what a search for the key finds first. -/
theorem mem_kept (l : List α) (x : α) :
    x ∈ kept key l ↔ l.find? (fun y => decide (key y = key x)) = some x := by
  induction l using List.reverseRecOn with
  | nil => simp
  | append_singleton l y ih =>
    have hnone : l.find? (fun z => decide (key z = key x)) = none ↔
      key x ∉ (kept key l).map key := by
      rw [mem_map_kept, List.find?_eq_none, List.mem_map]
      push Not
      simp only [ne_eq, decide_eq_true_eq]
    rw [kept_append_singleton, keep, List.find?_append]
    split_ifs with hseen
    · rw [ih]
      cases hl : l.find? (fun z => decide (key z = key x)) with
      | some z => rw [Option.some_or]
      | none =>
        -- then `y` has another key, since its own has been seen
        have hne : ¬ key y = key x := fun heq => hnone.mp hl (heq ▸ hseen)
        rw [Option.none_or, List.find?_singleton, decide_eq_false hne]
        rfl
    · rw [List.mem_append, ih, List.mem_singleton]
      cases hl : l.find? (fun z => decide (key z = key x)) with
      | some z =>
        rw [Option.some_or]
        refine ⟨fun h => h.elim id ?_, Or.inl⟩
        rintro rfl
        exact absurd (hnone.mpr hseen) (by rw [hl]; exact Option.some_ne_none z)
      | none =>
        rw [Option.none_or, List.find?_singleton]
        constructor
        · rintro (h | rfl)
          · cases h
          · rw [decide_eq_true rfl]
            rfl
        · intro h
          split at h
          · exact Or.inr (Option.some.inj h).symm
          · cases h

end First
