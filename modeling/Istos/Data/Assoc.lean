import Mathlib.Data.List.Basic
import Mathlib.Data.List.Nodup

/-!
# Association lists

A dictionary as the list of its items.  `List.lookup` finds the first item of a key, and where no
two items have one key it finds exactly the items of the list (`lookup_eq_some_iff_mem`).  `update`
is the union of two dictionaries in which the second wins (`lookup_update`).
-/

namespace Assoc

variable {α β : Type*} [DecidableEq α] {l : List (α × β)} {k : α} {v : β}

/-- What is found is there. -/
theorem mem_of_lookup (h : l.lookup k = some v) : (k, v) ∈ l := by
  obtain ⟨before, after, rfl, -⟩ := List.lookup_eq_some_iff.mp h
  exact List.mem_append_right _ List.mem_cons_self

/-- A key that is not there is not found. -/
theorem lookup_eq_none (h : k ∉ l.map Prod.fst) : l.lookup k = none := by
  rw [List.lookup_eq_none_iff]
  intro x hx
  rw [bne_iff_ne]
  rintro rfl
  exact h (List.mem_map_of_mem hx)

/-- An item that is alone with its key is found. -/
theorem lookup_of_mem (hl : (l.map Prod.fst).Nodup) (h : (k, v) ∈ l) : l.lookup k = some v := by
  induction l with
  | nil => exact absurd h List.not_mem_nil
  | cons x l ih =>
    obtain ⟨k', v'⟩ := x
    rw [List.map_cons, List.nodup_cons] at hl
    rcases List.mem_cons.mp h with heq | hlater
    · obtain ⟨rfl, rfl⟩ := Prod.mk.inj heq
      exact List.lookup_cons_self
    · have hne : (k == k') = false := by
        rw [beq_eq_false_iff_ne]
        rintro rfl
        exact hl.1 (List.mem_map.mpr ⟨(k, v), hlater, rfl⟩)
      rw [List.lookup_cons, hne]
      exact ih hl.2 hlater

/-- A key is there just when it is found. -/
theorem lookup_isSome_iff : (l.lookup k).isSome = true ↔ k ∈ l.map Prod.fst := by
  constructor
  · intro h
    obtain ⟨v, hv⟩ := Option.isSome_iff_exists.mp h
    exact List.mem_map_of_mem (mem_of_lookup hv)
  · intro h
    by_contra hno
    rw [Bool.not_eq_true, Option.isSome_eq_false_iff, Option.isNone_iff_eq_none,
      List.lookup_eq_none_iff] at hno
    obtain ⟨x, hx, rfl⟩ := List.mem_map.mp h
    have hne := hno x hx
    rw [bne_self_eq_false] at hne
    cases hne

/-- What is found among some of the keys. -/
theorem lookup_filter (p : α → Bool) (l : List (α × β)) (k : α) :
    (l.filter fun x => p x.1).lookup k = if p k then l.lookup k else none := by
  induction l with
  | nil =>
    rw [List.filter_nil, List.lookup_nil, ite_self]
  | cons x l ih =>
    obtain ⟨k', v'⟩ := x
    by_cases hk : k = k'
    · subst hk
      cases hp : p k with
      | true =>
        rw [List.filter_cons_of_pos (by exact hp), List.lookup_cons_self, List.lookup_cons_self]
        rfl
      | false =>
        rw [List.filter_cons_of_neg (by simp [hp]), ih, hp]
        rfl
    · have hne : (k == k') = false := beq_eq_false_iff_ne.mpr hk
      cases hp : p k' with
      | true =>
        rw [List.filter_cons_of_pos (by exact hp), List.lookup_cons, List.lookup_cons, hne]
        exact ih
      | false =>
        rw [List.filter_cons_of_neg (by simp [hp]), List.lookup_cons, hne]
        exact ih

/-- Lists that agree on some of the keys agree in what is found under them. -/
theorem lookup_eq_of_filter {p : α → Bool} {l l' : List (α × β)}
    (h : l.filter (fun x => p x.1) = l'.filter fun x => p x.1) {k : α} (hk : p k = true) :
    l.lookup k = l'.lookup k := by
  have hl := lookup_filter p l k
  have hl' := lookup_filter p l' k
  rw [if_pos hk] at hl hl'
  rw [← hl, h, hl']

/-- `{**l, **l'}`: the items of the first, with the values of the second where it has the key, and
the other items of the second. -/
def update (l l' : List (α × β)) : List (α × β) :=
  l.map (fun x => (x.1, (l'.lookup x.1).getD x.2)) ++
    l'.filter fun x => decide (x.1 ∉ l.map Prod.fst)

theorem lookup_update (l l' : List (α × β)) (k : α) :
    (update l l').lookup k = (l'.lookup k).or (l.lookup k) := by
  have hold : (l.map fun x => (x.1, (l'.lookup x.1).getD x.2)).lookup k
      = (l.lookup k).map (l'.lookup k).getD := by
    induction l with
    | nil => rfl
    | cons x l ih =>
      obtain ⟨k', v'⟩ := x
      rw [List.map_cons, List.lookup_cons, List.lookup_cons]
      by_cases hk : k = k'
      · subst hk
        rw [beq_self_eq_true]
        rfl
      · rw [beq_eq_false_iff_ne.mpr hk]
        exact ih
  rw [update, List.lookup_append, hold, lookup_filter (fun k => decide (k ∉ l.map Prod.fst))]
  cases hl : l.lookup k with
  | some v =>
    cases l'.lookup k <;> rfl
  | none =>
    have hk : k ∉ l.map Prod.fst := by
      rw [← lookup_isSome_iff, hl]
      exact Bool.false_ne_true
    rw [if_pos (decide_eq_true hk)]
    cases l'.lookup k <;> rfl

/-- Some of the keys of a union. -/
theorem filter_update (p : α → Bool) (l l' : List (α × β)) :
    (update l l').filter (fun x => p x.1) =
      update (l.filter fun x => p x.1) (l'.filter fun x => p x.1) := by
  have hold : (l.map fun x => (x.1, (l'.lookup x.1).getD x.2)).filter (fun x => p x.1) =
      (l.filter fun x => p x.1).map
        fun x => (x.1, ((l'.filter fun x => p x.1).lookup x.1).getD x.2) := by
    rw [List.filter_map]
    refine List.map_congr_left fun x hx => ?_
    have hx' : p x.1 = true := (List.mem_filter.mp hx).2
    rw [lookup_filter, if_pos hx']
  have hkeys : ∀ x ∈ l'.filter (fun x => p x.1), x.1 ∈ (l.filter fun x => p x.1).map Prod.fst ↔
      x.1 ∈ l.map Prod.fst := by
    intro x hx
    rw [← lookup_isSome_iff, ← lookup_isSome_iff, lookup_filter, if_pos (List.mem_filter.mp hx).2]
  rw [update, List.filter_append, hold, List.filter_comm, update]
  congr 1
  exact List.filter_congr fun x hx => decide_eq_decide.mpr (not_congr (hkeys x hx)).symm

/-- `l[k] = v`. -/
def set (l : List (α × β)) (k : α) (v : β) : List (α × β) := update l [(k, v)]

theorem lookup_set (l : List (α × β)) (k : α) (v : β) (k' : α) :
    (set l k v).lookup k' = if k' = k then some v else l.lookup k' := by
  rw [set, lookup_update, List.lookup_cons]
  by_cases hk : k' = k
  · rw [if_pos hk, hk, beq_self_eq_true]
    rfl
  · rw [if_neg hk, beq_eq_false_iff_ne.mpr hk]
    rfl

theorem filter_set (p : α → Bool) (l : List (α × β)) {k : α} (v : β) (hk : p k = true) :
    (set l k v).filter (fun x => p x.1) = set (l.filter fun x => p x.1) k v := by
  rw [set, filter_update, List.filter_cons_of_pos (by exact hk)]
  rfl

theorem filter_set_of_not (p : α → Bool) (l : List (α × β)) {k : α} (v : β) (hk : p k = false) :
    (set l k v).filter (fun x => p x.1) = l.filter fun x => p x.1 := by
  rw [set, filter_update, List.filter_cons_of_neg (by exact Bool.not_eq_true _ ▸ hk),
    List.filter_nil, update]
  simp

/-- The keys of a union. -/
theorem map_fst_update (l l' : List (α × β)) : (update l l').map Prod.fst =
    l.map Prod.fst ++ (l'.map Prod.fst).filter fun k => decide (k ∉ l.map Prod.fst) := by
  rw [update, List.map_append, List.map_map, List.filter_map]
  rfl

theorem map_fst_set (l : List (α × β)) (k : α) (v : β) : (set l k v).map Prod.fst =
    l.map Prod.fst ++ [k].filter fun k => decide (k ∉ l.map Prod.fst) :=
  map_fst_update l [(k, v)]

end Assoc
