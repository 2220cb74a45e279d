import Istos.Data.Table

/-!
# The last row of each key

A table that rows were written to holds, of each key, the row that was written last
(`mem_ofList_iff`).  Where rows with distinct keys are written to a table, each hides the one of its
key (`get?_update`).
-/

namespace Table

variable {κ ν : Type*} [DecidableEq κ]

/-- The rows with keys that no later row has. -/
def lasts (key : ν → κ) : List ν → List ν
  | [] => []
  | r :: rows => if key r ∈ rows.map key then lasts key rows else r :: lasts key rows

variable {key : ν → κ}

theorem lasts_sublist (rows : List ν) : (lasts key rows).Sublist rows := by
  induction rows with
  | nil => exact List.Sublist.slnil
  | cons r rows ih =>
    unfold lasts
    split
    · exact ih.cons r
    · exact ih.cons_cons r

theorem nodup_lasts (rows : List ν) : ((lasts key rows).map key).Nodup := by
  induction rows with
  | nil => exact List.nodup_nil
  | cons r rows ih =>
    unfold lasts
    split
    · exact ih
    · rename_i hnew
      exact List.nodup_cons.mpr ⟨fun h => hnew (((lasts_sublist rows).map key).subset h), ih⟩

/-- Another row goes to the end, in place of the one of its key. -/
theorem lasts_concat (rows : List ν) (r : ν) :
    lasts key (rows ++ [r]) = (lasts key rows).filter (fun x => key x ≠ key r) ++ [r] := by
  induction rows with
  | nil => rfl
  | cons x rows ih =>
    rw [List.cons_append]
    unfold lasts
    rw [ih, List.map_append, List.map_singleton]
    by_cases hlater : key x ∈ rows.map key
    · rw [if_pos (List.mem_append_left _ hlater), if_pos hlater]
    · by_cases hlast : key x = key r
      · rw [if_pos (List.mem_append_right _ (List.mem_singleton.mpr hlast)), if_neg hlater,
          List.filter_cons_of_neg (by simpa using hlast)]
      · have hboth : key x ∉ rows.map key ++ [key r] := by
          rw [List.mem_append, List.mem_singleton]
          exact not_or.mpr ⟨hlater, hlast⟩
        rw [if_neg hboth, if_neg hlater, List.filter_cons_of_pos (by simpa using hlast),
          List.cons_append]

/-- **What a table holds** of the rows that were written to it. -/
theorem mem_ofList_iff {rows : List ν} {r : ν} :
    r ∈ (ofList key rows).rows ↔ r ∈ lasts key rows := by
  induction rows using List.reverseRecOn with
  | nil => rfl
  | append_singleton rows last ih =>
    rw [ofList_concat, mem_rows_put, lasts_concat, List.mem_append, List.mem_filter, ih,
      List.mem_singleton, decide_eq_true_eq]
    exact or_comm

theorem ofList_perm (rows : List ν) : (ofList key rows).rows.Perm (lasts key rows) := by
  rw [List.perm_ext_iff_of_nodup (List.Nodup.of_map key (ofList key rows).nodup)
    (List.Nodup.of_map key (nodup_lasts rows))]
  exact fun r => mem_ofList_iff

/-- Rows and what they are made of have the same last ones. -/
theorem lasts_map {μ : Type*} {f : μ → ν} (rows : List μ) :
    lasts key (rows.map f) = (lasts (key ∘ f) rows).map f := by
  induction rows with
  | nil => rfl
  | cons r rows ih =>
    rw [List.map_cons, lasts, lasts, ih, List.map_map]
    by_cases hlater : key (f r) ∈ rows.map (key ∘ f)
    · rw [if_pos hlater, Function.comp_apply, if_pos hlater]
    · rw [if_neg hlater, Function.comp_apply, if_neg hlater, List.map_cons]

/-- Keys that are told apart alike have the same last rows. -/
theorem lasts_congr {κ' : Type*} [DecidableEq κ'] {key' : ν → κ'} {rows : List ν}
    (h : ∀ r r', key r = key r' ↔ key' r = key' r') : lasts key rows = lasts key' rows := by
  induction rows with
  | nil => rfl
  | cons r rows ih =>
    have hmem : key r ∈ rows.map key ↔ key' r ∈ rows.map key' := by
      rw [List.mem_map, List.mem_map]
      exact exists_congr fun x => and_congr_right fun _ => h x r
    unfold lasts
    rw [ih]
    by_cases hlater : key r ∈ rows.map key
    · rw [if_pos hlater, if_pos (hmem.mp hlater)]
    · rw [if_neg hlater, if_neg (mt hmem.mpr hlater)]

/-! ### Updates -/

/-- `d.update(rows)`: one row after the other. -/
def update (t : Table key) (rows : List ν) : Table key := rows.foldl put t

theorem update_cons (t : Table key) (r : ν) (rows : List ν) :
    t.update (r :: rows) = (t.put r).update rows := rfl

/-- **Lookups after an update** with rows that have distinct keys. -/
theorem get?_update (t s : Table key) (k : κ) :
    (t.update s.rows).get? k = (s.get? k).or (t.get? k) := by
  obtain ⟨rows, hnodup⟩ := s
  show _ = (rows.find? fun r => decide (key r = k)).or _
  induction rows generalizing t with
  | nil => rfl
  | cons r rows ih =>
    rw [List.map_cons, List.nodup_cons] at hnodup
    rw [update_cons, ih (t.put r) hnodup.2, get?_put]
    by_cases hk : key r = k
    · -- no later row has its key
      have hlater : (rows.find? fun x => decide (key x = k)) = none := by
        rw [List.find?_eq_none]
        intro x hx hxk
        exact hnodup.1 (List.mem_map.mpr ⟨x, hx, (of_decide_eq_true hxk).trans hk.symm⟩)
      rw [hlater, if_pos hk.symm, List.find?_cons_of_pos (by simpa using hk)]
      rfl
    · rw [if_neg (Ne.symm hk), List.find?_cons_of_neg (by simpa using hk)]

end Table
