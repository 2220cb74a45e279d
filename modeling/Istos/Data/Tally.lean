import Istos.Data.Table
import Mathlib.Data.List.Dedup

/-!
# Values that are added up under their keys

Of each key a table holds what the values with that key come to, one added after the other.  What
the rows are is said by the keys that occurred (`tally_perm`), also where the keys of the table are
made from others and no two of these give one (`tally_map_perm`).
-/

namespace Tally

variable {κ ι α β : Type*} [DecidableEq κ] [DecidableEq ι]

/-- The values with a key, oldest first. -/
def under (k : κ) (pairs : List (κ × β)) : List β :=
  pairs.filterMap fun p => if p.1 = k then some p.2 else none

/-- `d[k] = add(d.get(k, start), v)`. -/
def put (start : α) (add : α → β → α) (t : Table (Prod.fst : κ × α → κ)) (p : κ × β) :
    Table (Prod.fst : κ × α → κ) :=
  t.put (p.1, add (((t.get? p.1).map Prod.snd).getD start) p.2)

/-- One value after the other. -/
def tally (start : α) (add : α → β → α) (pairs : List (κ × β)) : Table (Prod.fst : κ × α → κ) :=
  pairs.foldl (put start add) ∅

theorem under_concat (k : κ) (pairs : List (κ × β)) (p : κ × β) :
    under k (pairs ++ [p]) = under k pairs ++ if p.1 = k then [p.2] else [] := by
  rw [under, under, List.filterMap_append]
  by_cases hp : p.1 = k
  · simp [hp]
  · simp [hp]

theorem under_eq_nil_iff {k : κ} {pairs : List (κ × β)} :
    under k pairs = [] ↔ k ∉ pairs.map Prod.fst := by
  simp only [under, List.filterMap_eq_nil_iff, List.mem_map, not_exists, not_and]
  refine forall₂_congr fun p _ => ?_
  by_cases hp : p.1 = k
  · simp [hp]
  · simp [hp]

/-- Under keys that are told apart like others there are the same values. -/
theorem under_map {f : ι → κ} {k : ι} {pairs : List (ι × β)}
    (hf : ∀ p ∈ pairs, f p.1 = f k → p.1 = k) :
    under (f k) (pairs.map fun p => (f p.1, p.2)) = under k pairs := by
  rw [under, under, List.filterMap_map]
  refine List.filterMap_congr fun p hp => ?_
  by_cases hk : p.1 = k
  · simp [hk]
  · have hfk : f p.1 ≠ f k := fun h => hk (hf p hp h)
    simp [hk, hfk]

/-- What the table holds under a key. -/
theorem get?_tally (start : α) (add : α → β → α) (pairs : List (κ × β)) (k : κ) :
    (tally start add pairs).get? k =
      if k ∈ pairs.map Prod.fst then some (k, (under k pairs).foldl add start) else none := by
  induction pairs using List.reverseRecOn with
  | nil => rfl
  | append_singleton pairs p ih =>
    have hfold : tally start add (pairs ++ [p]) = put start add (tally start add pairs) p :=
      List.foldl_concat _ _ _ _
    rw [hfold, put, Table.get?_put, under_concat, List.map_append, List.map_singleton]
    by_cases hk : p.1 = k
    · subst hk
      rw [if_pos rfl, if_pos (List.mem_append_right _ List.mem_cons_self), if_pos rfl,
        List.foldl_concat, ih]
      by_cases hmem : p.1 ∈ pairs.map Prod.fst
      · simp [hmem]
      · rw [if_neg hmem, under_eq_nil_iff.mpr hmem]
        rfl
    · have hmem : k ∈ pairs.map Prod.fst ++ [p.1] ↔ k ∈ pairs.map Prod.fst := by
        rw [List.mem_append, List.mem_singleton]
        exact or_iff_left (Ne.symm hk)
      rw [if_neg (Ne.symm hk), if_neg hk, List.append_nil, ih]
      exact if_congr hmem.symm rfl rfl

/-- **The rows** are the keys that occurred, each with what its values come to. -/
theorem tally_perm (start : α) (add : α → β → α) (pairs : List (κ × β)) :
    (tally start add pairs).rows.Perm
      ((pairs.map Prod.fst).dedup.map fun k => (k, (under k pairs).foldl add start)) := by
  have hkeys :
      ((pairs.map Prod.fst).dedup.map fun k => (k, (under k pairs).foldl add start)).Nodup :=
    List.Nodup.map (fun k k' h => (Prod.mk.inj h).1) (List.nodup_dedup _)
  rw [List.perm_ext_iff_of_nodup (List.Nodup.of_map _ (tally start add pairs).nodup) hkeys]
  rintro ⟨k, a⟩
  rw [Table.mem_rows_iff, get?_tally]
  simp only [List.mem_map (f := fun k => (k, (under k pairs).foldl add start)), List.mem_dedup,
    Prod.mk.injEq]
  constructor
  · intro h
    split at h
    · rename_i hmem
      exact ⟨k, hmem, rfl, (Prod.mk.inj (Option.some.inj h)).2⟩
    · cases h
  · rintro ⟨_, hmem, rfl, rfl⟩
    rw [if_pos hmem]

/-- The keys that are made from others without repetition. -/
theorem dedup_map {f : ι → κ} {keys : List ι} (hf : ∀ i ∈ keys, ∀ j ∈ keys, f i = f j → i = j) :
    (keys.map f).dedup.Perm (keys.dedup.map f) := by
  have hnodup : (keys.dedup.map f).Nodup :=
    List.Nodup.map_on (fun i hi j hj => hf i (List.mem_dedup.mp hi) j (List.mem_dedup.mp hj))
      (List.nodup_dedup keys)
  rw [List.perm_ext_iff_of_nodup (List.nodup_dedup _) hnodup]
  simp

/-- **The rows** where no two of the keys that occurred give one key of the table. -/
theorem tally_map_perm (start : α) (add : α → β → α) {f : ι → κ} {pairs : List (ι × β)}
    (hf : ∀ i ∈ pairs.map Prod.fst, ∀ j ∈ pairs.map Prod.fst, f i = f j → i = j) :
    (tally start add (pairs.map fun p => (f p.1, p.2))).rows.Perm
      ((pairs.map Prod.fst).dedup.map fun i => (f i, (under i pairs).foldl add start)) := by
  refine (tally_perm start add _).trans ?_
  have hkeys : (pairs.map fun p => (f p.1, p.2)).map Prod.fst = (pairs.map Prod.fst).map f := by
    rw [List.map_map, List.map_map]
    rfl
  rw [hkeys]
  refine ((dedup_map hf).map _).trans (List.Perm.of_eq ?_)
  rw [List.map_map]
  refine List.map_congr_left fun i hi => ?_
  rw [Function.comp_apply, under_map fun p hp =>
    hf p.1 (List.mem_map_of_mem hp) i (List.mem_dedup.mp hi)]

end Tally
