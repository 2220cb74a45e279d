import Mathlib.Data.List.Basic
import Mathlib.Data.List.Forall2

/-!
# Maps that may fail

`l.mapM f` is there when `f` is there for each element, and then it has its value for each
(`mapM_eq_some_iff`).
-/

namespace Traverse

variable {α β : Type*} {f : α → Option β} {l : List α} {ys : List β} {a : α}

/-- **What a map that may fail gives.** -/
theorem mapM_eq_some_iff : l.mapM f = some ys ↔ l.map f = ys.map some := by
  induction l generalizing ys with
  | nil =>
    cases ys with
    | nil => exact iff_of_true rfl rfl
    | cons y ys => simp
  | cons a l ih =>
    rw [List.mapM_cons, List.map_cons, Option.bind_eq_bind, Option.bind_eq_some_iff]
    constructor
    · rintro ⟨y, hy, h⟩
      obtain ⟨rest, hrest, hys⟩ := Option.bind_eq_some_iff.mp h
      obtain rfl := Option.some.inj hys
      rw [hy, ih.mp hrest, List.map_cons]
    · intro h
      cases ys with
      | nil => cases h
      | cons y ys =>
        obtain ⟨hy, hys⟩ := List.cons.inj h
        refine ⟨y, hy, ?_⟩
        rw [ih.mpr hys]
        rfl

/-- It has an entry for each. -/
theorem getElem?_mapM (h : l.mapM f = some ys) {j : ℕ} (ha : l[j]? = some a) : ys[j]? = f a := by
  have hj := congrArg (fun xs => xs[j]?) (mapM_eq_some_iff.mp h)
  simp only [List.getElem?_map, ha, Option.map_some] at hj
  cases hy : ys[j]? with
  | none =>
    rw [hy] at hj
    cases hj
  | some y =>
    rw [hy] at hj
    exact (Option.some.inj hj).symm

/-- It relates each element to its image. -/
theorem forall₂_of_mapM (h : l.mapM f = some ys) :
    List.Forall₂ (fun a y => f a = some y) l ys := by
  have heq : List.Forall₂ (fun x y => x = some y) (l.map f) ys := by
    rw [mapM_eq_some_iff.mp h, List.forall₂_map_left_iff]
    exact List.forall₂_same.mpr fun y _ => rfl
  exact List.forall₂_map_left_iff.mp heq

/-- The images are those of the elements. -/
theorem mem_of_mapM (h : l.mapM f = some ys) {y : β} : y ∈ ys ↔ ∃ a ∈ l, f a = some y := by
  have hmem : some y ∈ l.map f ↔ y ∈ ys := by
    rw [mapM_eq_some_iff.mp h, List.mem_map]
    simp
  rw [← hmem, List.mem_map]

/-- Where one fails all fail. -/
theorem mapM_eq_none (ha : a ∈ l) (h : f a = none) : l.mapM f = none := by
  cases hys : l.mapM f with
  | none => rfl
  | some ys =>
    have hmem : f a ∈ ys.map some := mapM_eq_some_iff.mp hys ▸ List.mem_map_of_mem ha
    rw [h] at hmem
    obtain ⟨y, -, hy⟩ := List.mem_map.mp hmem
    cases hy

/-- Elements in another order give the values in that order. -/
theorem mapM_perm (h : (l.map f).Perm (ys.map some)) : ∃ zs, l.mapM f = some zs ∧ zs.Perm ys := by
  have hsome : ∀ x ∈ l.map f, ∃ y, x = some y := by
    intro x hx
    obtain ⟨y, -, hy⟩ := List.mem_map.mp (h.subset hx)
    exact ⟨y, hy.symm⟩
  have hmap : ((l.map f).filterMap id).map some = l.map f := by
    generalize l.map f = xs at hsome
    clear h
    induction xs with
    | nil => rfl
    | cons x xs ih =>
      obtain ⟨hx, hxs⟩ := List.forall_mem_cons.mp hsome
      obtain ⟨y, rfl⟩ := hx
      rw [List.filterMap_cons_some (f := id) (b := y) rfl, List.map_cons, ih hxs]
  refine ⟨(l.map f).filterMap id, mapM_eq_some_iff.mpr hmap.symm, ?_⟩
  have hys : (ys.map some).filterMap id = ys := by
    rw [List.filterMap_map, Function.id_comp, List.filterMap_some]
  exact hys ▸ h.filterMap id

/-- Lists with one image, compared member by member. -/
theorem forall₂_of_map_eq {g : α → β} {R : α → α → Prop} {l l' : List α}
    (h : l.map g = l'.map g) (hR : ∀ x ∈ l, ∀ y ∈ l', g x = g y → R x y) : List.Forall₂ R l l' := by
  induction l generalizing l' with
  | nil =>
    rw [List.map_nil, eq_comm, List.map_eq_nil_iff] at h
    rw [h]
    exact .nil
  | cons x l ih =>
    obtain ⟨y, l', rfl, hy, hl⟩ := List.map_eq_cons_iff.mp h.symm
    rw [List.forall_mem_cons] at hR
    refine .cons (hR.1 y List.mem_cons_self hy.symm) (ih hl.symm fun x hx z hz => ?_)
    exact hR.2 x hx z (List.mem_cons_of_mem _ hz)

end Traverse
