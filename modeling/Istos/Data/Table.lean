import Mathlib.Data.List.Basic
import Mathlib.Data.List.Induction
import Mathlib.Data.List.Nodup
import Mathlib.Logic.Function.Basic

/-!
# Insertion-ordered tables

`Table key` is a Python `dict` whose values carry their own key: rows in insertion order, no two
with the same key.  `put` overwrites in place or appends, `erase` is `pop(key, None)`, and `get?`
reads.  A plain `dict` is a table of pairs, `Table Prod.fst`.

Everything about a table that does not depend on the order of its rows is a function of `get?`
(`mem_rows_iff`), so the lemmas say what `get?` is after each operation.
-/

/-- Rows in insertion order, no two with the same key. -/
structure Table {κ ν : Type*} (key : ν → κ) where
  /-- The rows, oldest first. -/
  rows : List ν
  /-- No two rows share a key. -/
  nodup : (rows.map key).Nodup

namespace Table

variable {κ ν : Type*} {key : ν → κ}

/-- The table without rows. -/
def empty : Table key := ⟨[], List.nodup_nil⟩

instance : EmptyCollection (Table key) := ⟨empty⟩

@[simp] theorem rows_empty : (∅ : Table key).rows = [] := rfl

/-- The keys, in insertion order. -/
def keys (t : Table key) : List κ := t.rows.map key

/-- The rows that pass a test. -/
def filter (t : Table key) (p : ν → Bool) : Table key :=
  ⟨t.rows.filter p, t.nodup.sublist (List.filter_sublist.map key)⟩

variable [DecidableEq κ]

/-- `d.get(k)`. -/
def get? (t : Table key) (k : κ) : Option ν := t.rows.find? (fun r => decide (key r = k))

@[simp] theorem get?_empty (k : κ) : (∅ : Table key).get? k = none := rfl

/-- What a lookup finds has the key looked up. -/
theorem key_of_get? {t : Table key} {k : κ} {r : ν} (h : t.get? k = some r) : key r = k := by
  simpa using List.find?_some h

theorem mem_of_get? {t : Table key} {k : κ} {r : ν} (h : t.get? k = some r) : r ∈ t.rows :=
  List.mem_of_find?_eq_some h

omit [DecidableEq κ] in
/-- Two rows with one key are one row. -/
theorem eq_of_key_eq {t : Table key} {r r' : ν} (hr : r ∈ t.rows) (hr' : r' ∈ t.rows)
    (h : key r = key r') : r = r' :=
  List.inj_on_of_nodup_map t.nodup hr hr' h

/-- **Rows and lookups agree.** -/
theorem mem_rows_iff {t : Table key} {r : ν} : r ∈ t.rows ↔ t.get? (key r) = some r := by
  constructor
  · intro hr
    cases hg : t.get? (key r) with
    | none =>
      have := List.find?_eq_none.mp hg r hr
      simp at this
    | some r' => rw [eq_of_key_eq (mem_of_get? hg) hr (key_of_get? hg)]
  · exact mem_of_get?

theorem get?_eq_some_iff {t : Table key} {k : κ} {r : ν} :
    t.get? k = some r ↔ r ∈ t.rows ∧ key r = k := by
  constructor
  · exact fun h => ⟨mem_of_get? h, key_of_get? h⟩
  · rintro ⟨hr, rfl⟩
    exact mem_rows_iff.mp hr

theorem get?_eq_none_iff {t : Table key} {k : κ} : t.get? k = none ↔ k ∉ t.keys := by
  rw [keys, List.mem_map, get?, List.find?_eq_none]
  constructor
  · rintro h ⟨r, hr, rfl⟩
    simpa using h r hr
  · intro h r hr
    simp only [decide_eq_true_eq]
    exact fun hk => h ⟨r, hr, hk⟩

theorem mem_keys_iff {t : Table key} {k : κ} : k ∈ t.keys ↔ ∃ r, t.get? k = some r := by
  rw [← not_iff_not, ← get?_eq_none_iff, Option.eq_none_iff_forall_ne_some]
  push Not
  rfl

/-! ### Writing a row -/

/-- `d[key(r)] = r`: overwrites the row with that key where it stands, else appends. -/
def put (t : Table key) (r : ν) : Table key :=
  if h : key r ∈ t.rows.map key then
    ⟨t.rows.map (fun x => if key x = key r then r else x), by
      rw [List.map_map]
      have heq : t.rows.map (key ∘ fun x => if key x = key r then r else x) = t.rows.map key := by
        refine List.map_congr_left fun x _ => ?_
        by_cases hx : key x = key r
        · simp [hx]
        · simp [hx]
      rw [heq]
      exact t.nodup⟩
  else ⟨t.rows ++ [r], by
    rw [List.map_append, List.map_singleton, List.nodup_append]
    refine ⟨t.nodup, List.nodup_singleton _, ?_⟩
    rintro a ha b hb rfl
    exact h (List.mem_singleton.mp hb ▸ ha)⟩

theorem mem_rows_put {t : Table key} {r x : ν} :
    x ∈ (t.put r).rows ↔ x = r ∨ x ∈ t.rows ∧ key x ≠ key r := by
  unfold put
  split
  · rename_i h
    obtain ⟨r', hr', hk⟩ := List.mem_map.mp h
    simp only [List.mem_map]
    constructor
    · rintro ⟨y, hy, rfl⟩
      by_cases hyk : key y = key r
      · exact Or.inl (by rw [if_pos hyk])
      · rw [if_neg hyk]
        exact Or.inr ⟨hy, hyk⟩
    · rintro (rfl | ⟨hx, hxk⟩)
      · exact ⟨r', hr', by rw [if_pos hk]⟩
      · exact ⟨x, hx, by rw [if_neg hxk]⟩
  · rename_i h
    simp only [List.mem_append, List.mem_singleton]
    constructor
    · rintro (hx | rfl)
      · exact Or.inr ⟨hx, fun hk => h (hk ▸ List.mem_map_of_mem hx)⟩
      · exact Or.inl rfl
    · rintro (rfl | ⟨hx, -⟩)
      · exact Or.inr rfl
      · exact Or.inl hx

/-- Lookups after a write. -/
theorem get?_put (t : Table key) (r : ν) (k : κ) :
    (t.put r).get? k = if k = key r then some r else t.get? k := by
  ext x
  rw [get?_eq_some_iff, mem_rows_put]
  by_cases hk : k = key r
  · rw [if_pos hk, Option.some.injEq]
    constructor
    · rintro ⟨rfl | ⟨-, hx⟩, hxk⟩
      · rfl
      · exact absurd (hxk.trans hk) hx
    · rintro rfl
      exact ⟨Or.inl rfl, hk.symm⟩
  · rw [if_neg hk, get?_eq_some_iff]
    constructor
    · rintro ⟨rfl | ⟨hx, -⟩, hxk⟩
      · exact absurd hxk.symm hk
      · exact ⟨hx, hxk⟩
    · rintro ⟨hx, rfl⟩
      exact ⟨Or.inr ⟨hx, hk⟩, rfl⟩

@[simp] theorem get?_put_self (t : Table key) (r : ν) : (t.put r).get? (key r) = some r := by
  rw [get?_put, if_pos rfl]

theorem get?_put_of_ne (t : Table key) {r : ν} {k : κ} (h : k ≠ key r) :
    (t.put r).get? k = t.get? k := by
  rw [get?_put, if_neg h]

/-! ### Tables from rows -/

/-- `dict(rows)`: a later row replaces an earlier one with its key. -/
def ofList (key : ν → κ) (rows : List ν) : Table key := rows.foldl put ∅

/-- Rows with distinct keys all stay. -/
theorem rows_ofList {rows : List ν} (h : (rows.map key).Nodup) : (ofList key rows).rows = rows := by
  have hfold : ∀ t : Table key, ((t.rows ++ rows).map key).Nodup →
      (rows.foldl put t).rows = t.rows ++ rows := by
    clear h
    induction rows with
    | nil => exact fun t _ => (List.append_nil t.rows).symm
    | cons r rows ih =>
      intro t hnodup
      have hnew : key r ∉ t.rows.map key := by
        intro hmem
        rw [List.map_append, List.map_cons, List.nodup_append] at hnodup
        exact hnodup.2.2 _ hmem _ List.mem_cons_self rfl
      have hput : (t.put r).rows = t.rows ++ [r] := by
        unfold put
        rw [dif_neg hnew]
      rw [List.foldl_cons, ih (t.put r), hput, List.append_assoc, List.singleton_append]
      rw [hput, List.append_assoc]
      exact hnodup
  exact hfold ∅ h

theorem ofList_concat (rows : List ν) (r : ν) :
    ofList key (rows ++ [r]) = (ofList key rows).put r :=
  List.foldl_concat put ∅ r rows

/-- Every key of the rows is there. -/
theorem mem_keys_ofList {rows : List ν} {k : κ} : k ∈ (ofList key rows).keys ↔
    k ∈ rows.map key := by
  induction rows using List.reverseRecOn with
  | nil => rfl
  | append_singleton rows r ih =>
    rw [mem_keys_iff, ofList_concat, List.map_append, List.mem_append, List.map_singleton,
      List.mem_singleton, ← ih, mem_keys_iff]
    simp only [get?_put]
    by_cases hk : k = key r
    · simp [hk]
    · simp [hk]

/-- Where the rows of some keys have distinct keys, these rows all stay. -/
theorem mem_rows_ofList {p : κ → Bool} {rows : List ν}
    (h : ((rows.filter fun r => p (key r)).map key).Nodup) {r : ν} (hr : p (key r) = true) :
    r ∈ (ofList key rows).rows ↔ r ∈ rows := by
  induction rows using List.reverseRecOn with
  | nil => rfl
  | append_singleton rows last ih =>
    rw [List.filter_append, List.map_append, List.nodup_append] at h
    rw [ofList_concat, mem_rows_put, List.mem_append, List.mem_singleton, ih h.1, or_comm]
    refine or_congr_left ⟨fun hmem => hmem.1, fun hmem => ⟨hmem, fun hk => ?_⟩⟩
    have hlast : last ∈ [last].filter fun r => p (key r) :=
      List.mem_filter.mpr ⟨List.mem_cons_self, hk ▸ hr⟩
    exact h.2.2 _ (List.mem_map_of_mem (List.mem_filter.mpr ⟨hmem, hr⟩)) _
      (List.mem_map_of_mem hlast) hk

/-! ### Erasing a row -/

/-- `d.pop(k, None)`. -/
def erase (t : Table key) (k : κ) : Table key := t.filter (fun r => decide (key r ≠ k))

/-- Lookups after a selection. -/
theorem get?_filter (t : Table key) (p : ν → Bool) (k : κ) :
    (t.filter p).get? k = (t.get? k).filter p := by
  ext x
  rw [get?_eq_some_iff, Option.filter_eq_some_iff, get?_eq_some_iff]
  simp only [filter, List.mem_filter]
  tauto

/-- Lookups after an erasure. -/
theorem get?_erase (t : Table key) (j k : κ) :
    (t.erase j).get? k = if k = j then none else t.get? k := by
  rw [erase, get?_filter]
  by_cases hk : k = j
  · rw [if_pos hk]
    cases hg : t.get? k with
    | none => rfl
    | some r => simp [Option.filter, key_of_get? hg, hk]
  · rw [if_neg hk]
    cases hg : t.get? k with
    | none => rfl
    | some r => simp [Option.filter, key_of_get? hg, hk]

@[simp] theorem get?_erase_self (t : Table key) (k : κ) : (t.erase k).get? k = none := by
  rw [get?_erase, if_pos rfl]

theorem get?_erase_of_ne (t : Table key) {j k : κ} (h : k ≠ j) :
    (t.erase j).get? k = t.get? k := by
  rw [get?_erase, if_neg h]

end Table
