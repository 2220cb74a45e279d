import Istos.Data.Component
import Istos.Fitness.Cycles
import Mathlib.Data.Finset.Card

/-!
# The cycles are the components

The nodes on the way of the search are its `way`; all of them are on the stack (`Inv`).  From a node
of the stack one comes to what is above it, and down to some node of the way.  What is numbered and
no longer on the stack is closed off, and the cycles are the large components among it.

A call of `strongconnect` keeps this (`Post`), and leaves in `low` the least number on the old stack
that can be seen from the node or from what the call left on the stack.  So where `low` is the
number of the node itself, what is on the stack from the node on is a component (`pop_component`).

* `findCycles_iff`: with as much fuel as there are nodes the search ends, without an exception, and
  what it returns are exactly the components with more than one node, each once and sorted.
-/

namespace Istos

open Relation Component

/-! ### The graph -/

namespace Edges

/-- An edge. -/
def Edge (edges : Edges) (u v : String) : Prop := v ∈ edges.targets u

/-- Everything that is named. -/
def nodes (edges : Edges) : Finset String :=
  (edges.rows.flatMap fun row => row.1 :: row.2).toFinset

theorem mem_keys_of_edge {edges : Edges} {u v : String} (h : edges.Edge u v) : u ∈ edges.keys := by
  rw [Table.mem_keys_iff]
  cases hg : edges.get? u with
  | none => simp [Edge, targets, hg] at h
  | some row => exact ⟨row, rfl⟩

theorem mem_nodes_of_key {edges : Edges} {u : String} (h : u ∈ edges.keys) : u ∈ edges.nodes := by
  obtain ⟨row, hrow, rfl⟩ := List.mem_map.mp h
  exact List.mem_toFinset.mpr (List.mem_flatMap.mpr ⟨row, hrow, List.mem_cons_self⟩)

theorem mem_nodes_of_edge {edges : Edges} {u v : String} (h : edges.Edge u v) :
    v ∈ edges.nodes := by
  obtain ⟨row, hrow⟩ := Table.mem_keys_iff.mp (mem_keys_of_edge h)
  have hv : v ∈ row.2 := by simpa [Edge, targets, hrow] using h
  exact List.mem_toFinset.mpr
    (List.mem_flatMap.mpr ⟨row, Table.mem_of_get? hrow, List.mem_cons_of_mem _ hv⟩)

/-- What a cycle is: a component with more than one node, in order. -/
structure IsCycle (edges : Edges) (c : List String) : Prop where
  sorted : c.Pairwise (· < ·)
  large : 1 < c.length
  component : ∃ u, {v | v ∈ c} = component edges.Edge u

end Edges

namespace Tarjan

variable {edges : Edges} {way : Set String} {u v w : String} {s s₀ s₁ : Tarjan}

/-! ### Numbers -/

/-- The node has a number. -/
def Seen (s : Tarjan) (v : String) : Prop := s.index v ≠ none

/-- The number of a node. -/
def num (s : Tarjan) (v : String) : ℕ := (s.index v).getD 0

/-- The nodes that are closed off. -/
def Done (s : Tarjan) : Set String := {v | s.Seen v ∧ v ∉ s.stack}

theorem index_eq (h : s.Seen v) : s.index v = some (s.num v) := by
  obtain ⟨n, hn⟩ := Option.ne_none_iff_exists'.mp h
  rw [num, hn]
  rfl

theorem Seen.congr (h : s.Seen v) (heq : s₁.index v = s.index v) : s₁.Seen v := by
  rw [Seen, heq]
  exact h

theorem num_congr (heq : s₁.index v = s.index v) : s₁.num v = s.num v := by
  rw [num, num, heq]

theorem seen_enter : (s.enter v).Seen u ↔ u = v ∨ s.Seen u := by
  unfold Seen enter
  by_cases hu : u = v
  · simp [hu]
  · simp [hu]

theorem num_enter : (s.enter v).num u = if u = v then s.counter else s.num u := by
  unfold num enter
  by_cases hu : u = v
  · simp [hu]
  · simp [hu]

/-! ### The invariant -/

/-- What holds while the search is on its way. -/
structure Inv (edges : Edges) (way : Set String) (s : Tarjan) : Prop where
  onStack : ∀ v, v ∈ s.onStack ↔ v ∈ s.stack
  seen : ∀ v ∈ s.stack, s.Seen v
  low : ∀ v, s.Seen v → ∃ n, s.low v = some n
  onWay : ∀ v ∈ way, v ∈ s.stack
  descending : s.stack.Pairwise fun u v => s.num v < s.num u
  counter : ∀ v, s.Seen v → s.num v < s.counter
  /-- what is not on the way has been looked through -/
  looked : ∀ v, s.Seen v → v ∉ way → ∀ w, edges.Edge v w → s.Seen w
  done : Closed edges.Edge s.Done
  up : ∀ u ∈ s.stack, ∀ v ∈ s.stack, s.num u ≤ s.num v → ReflTransGen edges.Edge u v
  down : ∀ v ∈ s.stack, ∃ u ∈ way, s.num u ≤ s.num v ∧ ReflTransGen edges.Edge v u
  nodup : s.cycles.Nodup
  cycles : ∀ c, c ∈ s.cycles ↔ edges.IsCycle c ∧ ∀ v ∈ c, v ∈ s.Done

theorem Inv.init (edges : Edges) : Inv edges ∅ init where
  onStack v := by simp [Tarjan.init]
  seen v hv := absurd hv List.not_mem_nil
  low v hv := absurd rfl hv
  onWay v hv := absurd hv (Set.notMem_empty v)
  descending := List.Pairwise.nil
  counter v hv := absurd rfl hv
  looked v hv := absurd rfl hv
  done v hv := absurd rfl hv.1
  up u hu := absurd hu List.not_mem_nil
  down v hv := absurd hv List.not_mem_nil
  nodup := List.nodup_nil
  cycles c := by
    constructor
    · exact fun hc => absurd hc List.not_mem_nil
    · rintro ⟨hcycle, hdone⟩
      obtain ⟨v, hv⟩ := List.exists_mem_of_length_pos (Nat.zero_lt_of_lt hcycle.large)
      exact absurd rfl (hdone v hv).1

/-- The numbers in `low` do not matter to it. -/
theorem Inv.setLow (h : Inv edges way s) (n : ℕ) :
    Inv edges way { s with low := Function.update s.low v (some n) } where
  onStack := h.onStack
  seen := h.seen
  low u hu := by
    by_cases huv : u = v
    · exact ⟨n, by simp [huv]⟩
    · obtain ⟨m, hm⟩ := h.low u hu
      exact ⟨m, by simp [huv, hm]⟩
  onWay := h.onWay
  descending := h.descending
  counter := h.counter
  looked := h.looked
  done := h.done
  up := h.up
  down := h.down
  nodup := h.nodup
  cycles := h.cycles

/-- The nodes of the stack are distinct. -/
theorem Inv.nodup_stack (h : Inv edges way s) : s.stack.Nodup :=
  h.descending.imp fun hlt heq => absurd (heq ▸ hlt) (lt_irrefl _)

/-! ### Popping -/

theorem pop_append {above : List String} (hv : v ∉ above) (rest : List String)
    (onStack : Finset String) :
    ∃ left, pop v (above ++ v :: rest) onStack = some (above ++ [v], rest, left) ∧
      ∀ u, u ∈ left ↔ u ∈ onStack ∧ u ∉ above ++ [v] := by
  induction above generalizing onStack with
  | nil =>
    refine ⟨onStack.erase v, by simp [pop], fun u => ?_⟩
    rw [Finset.mem_erase, List.nil_append, List.mem_singleton, and_comm]
  | cons w above ih =>
    rw [List.mem_cons, not_or] at hv
    obtain ⟨left, hpop, hleft⟩ := ih hv.2 (onStack.erase w)
    refine ⟨left, by simp [pop, Ne.symm hv.1, hpop], fun u => ?_⟩
    rw [hleft, Finset.mem_erase, List.cons_append, List.mem_cons, not_or]
    tauto

theorem sorted_insertionSort {c : List String} (h : c.Nodup) :
    (c.insertionSort (· ≤ ·)).Pairwise (· < ·) := by
  have hsorted : (c.insertionSort (· ≤ ·)).Pairwise (· ≤ ·) := List.pairwise_insertionSort _ c
  have hnodup : (c.insertionSort (· ≤ ·)).Nodup := (List.perm_insertionSort _ c).nodup_iff.mpr h
  exact (hsorted.and hnodup).imp fun h => lt_of_le_of_ne h.1 h.2

/-- A sorted list is known by its elements. -/
theorem eq_of_sorted {c d : List String} (hc : c.Pairwise (· < ·)) (hd : d.Pairwise (· < ·))
    (h : ∀ v, v ∈ c ↔ v ∈ d) : c = d := by
  have hnodup : ∀ e : List String, e.Pairwise (· < ·) → e.Nodup := fun e he => he.imp fun h => h.ne
  have hperm := (List.perm_ext_iff_of_nodup (hnodup c hc) (hnodup d hd)).mpr h
  exact hperm.eq_of_pairwise (fun a b _ _ hab hba => absurd hba (lt_asymm hab)) hc hd

/-- The cycles after a component, with what was closed off before. -/
theorem mem_report {cycles : List (List String)} {scc : List String} {done : Set String}
    (hscc : scc.Nodup) (hcomponent : {u | u ∈ scc} = component edges.Edge v)
    (hcycles : ∀ c, c ∈ cycles ↔ edges.IsCycle c ∧ ∀ v ∈ c, v ∈ done) (c : List String) :
    c ∈ (if 1 < scc.length then cycles ++ [scc.insertionSort (· ≤ ·)] else cycles) ↔
      edges.IsCycle c ∧ ∀ v ∈ c, v ∈ {u | u ∈ scc} ∪ done := by
  have hperm : (scc.insertionSort (· ≤ ·)).Perm scc := List.perm_insertionSort _ scc
  have hmem : ∀ u, u ∈ scc.insertionSort (· ≤ ·) ↔ u ∈ scc := fun u => hperm.mem_iff
  -- a component that meets the new one is the new one
  have hmeets : edges.IsCycle c → (∀ v ∈ c, v ∈ {u | u ∈ scc} ∪ done) →
      (∀ v ∈ c, v ∈ done) ∨ ∀ u, u ∈ c ↔ u ∈ scc := by
    intro hcycle hall
    by_cases hold : ∀ v ∈ c, v ∈ done
    · exact Or.inl hold
    · push Not at hold
      obtain ⟨x, hx, hnot⟩ := hold
      have hxscc : x ∈ component edges.Edge v := hcomponent ▸ (hall x hx).resolve_right hnot
      obtain ⟨u, hu⟩ := hcycle.component
      have hxu : x ∈ component edges.Edge u := hu ▸ hx
      have heq : {u | u ∈ c} = {u | u ∈ scc} := by
        rw [hu, hcomponent, ← component_eq hxu, component_eq hxscc]
      exact Or.inr fun u => Set.ext_iff.mp heq u
  constructor
  · intro hc
    have hor : c ∈ cycles ∨ 1 < scc.length ∧ c = scc.insertionSort (· ≤ ·) := by
      split at hc
      · rename_i hlarge
        exact (List.mem_append.mp hc).imp_right fun h => ⟨hlarge, List.mem_singleton.mp h⟩
      · exact Or.inl hc
    rcases hor with hc | ⟨hlarge, rfl⟩
    · obtain ⟨hcycle, hdone⟩ := (hcycles c).mp hc
      exact ⟨hcycle, fun v hv => Or.inr (hdone v hv)⟩
    · refine ⟨⟨sorted_insertionSort hscc, hperm.length_eq ▸ hlarge, v, ?_⟩, fun u hu => ?_⟩
      · rw [← hcomponent]
        exact Set.ext hmem
      · exact Or.inl ((hmem u).mp hu)
  · rintro ⟨hcycle, hall⟩
    rcases hmeets hcycle hall with hdone | hsame
    · have hc := (hcycles c).mpr ⟨hcycle, hdone⟩
      split
      · exact List.mem_append_left _ hc
      · exact hc
    · have hnodup : c.Nodup := hcycle.sorted.imp fun h => h.ne
      have hlength := ((List.perm_ext_iff_of_nodup hnodup hscc).mpr hsame).length_eq
      rw [if_pos (hlength ▸ hcycle.large)]
      refine List.mem_append_right _ (List.mem_singleton.mpr ?_)
      exact eq_of_sorted hcycle.sorted (sorted_insertionSort hscc) fun u =>
        (hsame u).trans (hmem u).symm

/-! ### What a call does -/

/-- Between the states before a call and after it nothing changes of the nodes that were seen. -/
def Frame (s s' : Tarjan) : Prop := ∀ u, s.Seen u → s'.index u = s.index u ∧ s'.low u = s.low u

theorem Frame.seen (h : Frame s s₁) (hu : s.Seen u) : s₁.Seen u := hu.congr (h u hu).1

theorem Frame.num (h : Frame s s₁) (hu : s.Seen u) : s₁.num u = s.num u := num_congr (h u hu).1

theorem Frame.trans {s₂ : Tarjan} (h : Frame s s₁) (h' : Frame s₁ s₂) : Frame s s₂ := by
  intro u hu
  obtain ⟨hindex, hlow⟩ := h u hu
  obtain ⟨hindex', hlow'⟩ := h' u (h.seen hu)
  exact ⟨hindex'.trans hindex, hlow'.trans hlow⟩

/-- `low` of a node: its own number, or the least one on the old stack that can be seen from it or
from what is above on the stack. -/
structure Low (edges : Edges) (v : String) (s₀ s : Tarjan) (above : List String)
    (n : ℕ) : Prop where
  low : s.low v = some n
  le : n ≤ s.num v
  reaches : n = s.num v ∨ ∃ y ∈ s₀.stack, ReflTransGen edges.Edge v y ∧ s₀.num y = n
  least : ∀ x ∈ above, ∀ y ∈ s₀.stack, edges.Edge x y → n ≤ s₀.num y

/-- What a call of `strongconnect` does. -/
structure Post (edges : Edges) (way : Set String) (v : String) (s₀ s : Tarjan) : Prop where
  inv : Inv edges way s
  frame : Frame s₀ s
  seen : s.Seen v
  number : s₀.counter ≤ s.num v
  stack : ∃ above n, s.stack = above ++ s₀.stack ∧ (∀ x ∈ above, ¬ s₀.Seen x) ∧
    Low edges v s₀ s above n

/-- A call of `strongconnect` that has looked at some targets. -/
structure Visiting (edges : Edges) (way : Set String) (v : String) (s₀ s : Tarjan)
    (above : List String) (n : ℕ) (past : List String) : Prop where
  start : Inv edges way s₀
  fresh : ¬ s₀.Seen v
  inv : Inv edges (insert v way) s
  frame : Frame s₀ s
  number : s₀.counter ≤ s.num v
  stack : s.stack = above ++ v :: s₀.stack
  unseen : ∀ x ∈ above, ¬ s₀.Seen x
  low : Low edges v s₀ s above n
  targets : ∀ w ∈ past, s.Seen w ∧ (w ∈ s₀.stack → n ≤ s₀.num w)

namespace Visiting

variable {above past : List String} {n : ℕ}

theorem seen_self (h : Visiting edges way v s₀ s above n past) : s.Seen v :=
  h.inv.seen v (h.inv.onWay v (Set.mem_insert v way))

/-- What lies below on the stack has smaller numbers. -/
theorem num_lt_of_mem (h : Visiting edges way v s₀ s above n past) (hy : w ∈ s₀.stack) :
    s₀.num w < s.num v := by
  have hlt : s.num w < s.num v := by
    have hdesc := h.inv.descending
    rw [h.stack, List.pairwise_append] at hdesc
    exact (List.pairwise_cons.mp hdesc.2.1).1 w hy
  rwa [h.frame.num (h.start.seen w hy)] at hlt

theorem num_le_of_mem (h : Visiting edges way v s₀ s above n past) (hx : u ∈ above ++ [v]) :
    s.num v ≤ s.num u := by
  rcases List.mem_append.mp hx with hx | hx
  · have hdesc := h.inv.descending
    rw [h.stack, List.pairwise_append] at hdesc
    exact (hdesc.2.2 u hx v List.mem_cons_self).le
  · rw [List.mem_singleton.mp hx]

theorem mem_stack_iff (h : Visiting edges way v s₀ s above n past) :
    u ∈ s.stack ↔ u ∈ above ++ [v] ∨ u ∈ s₀.stack := by
  rw [h.stack]
  simp only [List.mem_append, List.mem_cons, List.not_mem_nil, or_false, or_assoc]

/-- What is above on the stack, or the node, was not seen before. -/
theorem not_seen (h : Visiting edges way v s₀ s above n past) (hu : u ∈ above ++ [v]) :
    ¬ s₀.Seen u := by
  rcases List.mem_append.mp hu with hu | hu
  · exact h.unseen u hu
  · rw [List.mem_singleton.mp hu]
    exact h.fresh

theorem notMem_way (h : Visiting edges way v s₀ s above n past) (hu : u ∈ above ++ [v]) :
    u ∉ way := fun hway => h.not_seen hu (h.start.seen u (h.start.onWay u hway))

/-- At the beginning no target has been looked at. -/
theorem enter (h : Inv edges way s) (hv : ¬ s.Seen v)
    (hway : ∀ u ∈ way, ReflTransGen edges.Edge u v) :
    Visiting edges way v s (s.enter v) [] s.counter [] := by
  have hne : ∀ u, s.Seen u → u ≠ v := by
    rintro u hu rfl
    exact hv hu
  have hnum : ∀ u, s.Seen u → (s.enter v).num u = s.num u :=
    fun u hu => by rw [num_enter, if_neg (hne u hu)]
  have hself : (s.enter v).num v = s.counter := by rw [num_enter, if_pos rfl]
  have hframe : Frame s (s.enter v) := fun u hu => by simp [Tarjan.enter, hne u hu]
  -- `v` is seen now, but it is on the stack
  have hdone : (s.enter v).Done = s.Done := by
    ext u
    simp only [Done, Set.mem_ofPred_eq, seen_enter]
    show (u = v ∨ s.Seen u) ∧ u ∉ v :: s.stack ↔ _
    by_cases hu : u = v
    · simp [hu, hv]
    · simp [hu]
  -- what is on the stack reaches the way, and the way reaches `v`
  have hreach : ∀ u ∈ s.stack, ReflTransGen edges.Edge u v := by
    intro u hu
    obtain ⟨g, hg, -, hug⟩ := h.down u hu
    exact hug.trans (hway g hg)
  refine ⟨h, hv, ?_, hframe, hself.ge, rfl, fun x hx => absurd hx List.not_mem_nil, ?_,
    fun w hw => absurd hw List.not_mem_nil⟩
  · constructor
    case onStack =>
      intro u
      simp [Tarjan.enter, h.onStack]
    case seen =>
      intro u hu
      exact seen_enter.mpr ((List.mem_cons.mp hu).imp_right (h.seen u))
    case low =>
      intro u hu
      by_cases huv : u = v
      · exact ⟨s.counter, by simp [Tarjan.enter, huv]⟩
      · obtain ⟨m, hm⟩ := h.low u ((seen_enter.mp hu).resolve_left huv)
        exact ⟨m, by simp [Tarjan.enter, huv, hm]⟩
    case onWay =>
      rintro u (rfl | hu)
      · exact List.mem_cons_self
      · exact List.mem_cons_of_mem v (h.onWay u hu)
    case descending =>
      refine List.pairwise_cons.mpr ⟨fun u hu => ?_, h.descending.imp_of_mem ?_⟩
      · rw [hself, hnum u (h.seen u hu)]
        exact h.counter u (h.seen u hu)
      · intro a b ha hb hlt
        rw [hnum a (h.seen a ha), hnum b (h.seen b hb)]
        exact hlt
    case counter =>
      intro u hu
      show _ < s.counter + 1
      rcases seen_enter.mp hu with rfl | hu
      · rw [hself]
        exact Nat.lt_succ_self _
      · rw [hnum u hu]
        exact Nat.lt_succ_of_lt (h.counter u hu)
    case looked =>
      intro u hu hnot w hw
      rw [Set.mem_insert_iff, not_or] at hnot
      exact seen_enter.mpr
        (Or.inr (h.looked u ((seen_enter.mp hu).resolve_left hnot.1) hnot.2 w hw))
    case done =>
      rw [hdone]
      exact h.done
    case up =>
      intro a ha b hb hle
      rcases List.mem_cons.mp hb with rfl | hb'
      · rcases List.mem_cons.mp ha with rfl | ha'
        · exact .refl
        · exact hreach a ha'
      · have hseen := h.seen b hb'
        rcases List.mem_cons.mp ha with rfl | ha'
        · rw [hself, hnum b hseen] at hle
          exact absurd (h.counter b hseen) (not_lt.mpr hle)
        · rw [hnum a (h.seen a ha'), hnum b hseen] at hle
          exact h.up a ha' b hb' hle
    case down =>
      intro a ha
      rcases List.mem_cons.mp ha with rfl | ha
      · exact ⟨a, Set.mem_insert a way, le_rfl, .refl⟩
      · obtain ⟨g, hg, hle, hreaches⟩ := h.down a ha
        refine ⟨g, Set.mem_insert_of_mem v hg, ?_, hreaches⟩
        rw [hnum a (h.seen a ha), hnum g (h.seen g (h.onWay g hg))]
        exact hle
    case nodup => exact h.nodup
    case cycles =>
      rw [hdone]
      exact h.cycles
  · exact ⟨by simp [Tarjan.enter], hself.ge, Or.inl hself.symm,
      fun x hx => absurd hx List.not_mem_nil⟩

/-- A target that is closed off. -/
theorem skip (h : Visiting edges way v s₀ s above n past) (hw : s.Seen w) (hstack : w ∉ s.stack) :
    Visiting edges way v s₀ s above n (past ++ [w]) := by
  refine { h with targets := fun x hx => ?_ }
  rcases List.mem_append.mp hx with hx | hx
  · exact h.targets x hx
  · rw [List.mem_singleton.mp hx]
    exact ⟨hw, fun hmem => absurd (h.mem_stack_iff.mpr (Or.inr hmem)) hstack⟩

/-- `low` of the node is lowered, after a call or without one. -/
theorem lower (h : Visiting edges way v s₀ s above n past) (new : List String) {m : ℕ}
    (hinv : Inv edges (insert v way) s₁) (hframe : Frame s s₁) (hstack : s₁.stack = new ++ s.stack)
    (hnew : ∀ x ∈ new, ¬ s.Seen x)
    (hm : m < n → ∃ y ∈ s₀.stack, ReflTransGen edges.Edge v y ∧ s₀.num y = m)
    (hleast : ∀ x ∈ new, ∀ y ∈ s₀.stack, edges.Edge x y → m ≤ s₀.num y)
    (hw : s₁.Seen w) (hle : w ∈ s₀.stack → m ≤ s₀.num w) :
    ∃ s', s₁.lower v (some m) = some s' ∧ s'.index = s₁.index ∧
      Visiting edges way v s₀ s' (new ++ above) (min n m) (past ++ [w]) := by
  have hlow : s₁.low v = some n := (hframe v h.seen_self).2.trans h.low.low
  have hnum : s₁.num v = s.num v := hframe.num h.seen_self
  refine ⟨{ s₁ with low := Function.update s₁.low v (some (min n m)) }, ?_, rfl,
    h.start, h.fresh, hinv.setLow _, ?_, hnum.ge.trans' h.number, ?_, ?_, ⟨?_, ?_, ?_, ?_⟩, ?_⟩
  · simp [Tarjan.lower, hlow]
  · intro u hu
    have hne : u ≠ v := by
      rintro rfl
      exact h.fresh hu
    obtain ⟨hindex, hlow'⟩ := (h.frame.trans hframe) u hu
    exact ⟨hindex, by simp [hne, hlow']⟩
  · show s₁.stack = _
    rw [hstack, h.stack, List.append_assoc]
  · intro x hx
    rcases List.mem_append.mp hx with hx | hx
    · exact fun hseen => hnew x hx (h.frame.seen hseen)
    · exact h.unseen x hx
  · simp
  · show _ ≤ s₁.num v
    rw [hnum]
    exact (min_le_left n m).trans h.low.le
  · show _ = s₁.num v ∨ _
    rw [hnum]
    rcases le_or_gt n m with hnm | hmn
    · rw [min_eq_left hnm]
      exact h.low.reaches
    · rw [min_eq_right hmn.le]
      exact Or.inr (hm hmn)
  · intro x hx y hy hedge
    rcases List.mem_append.mp hx with hx | hx
    · exact (min_le_right n m).trans (hleast x hx y hy hedge)
    · exact (min_le_left n m).trans (h.low.least x hx y hy hedge)
  · intro x hx
    rcases List.mem_append.mp hx with hx | hx
    · obtain ⟨hseen, hlow'⟩ := h.targets x hx
      exact ⟨hframe.seen hseen, fun hmem => (min_le_left n m).trans (hlow' hmem)⟩
    · rw [List.mem_singleton.mp hx]
      exact ⟨hw, fun hmem => (min_le_right n m).trans (hle hmem)⟩

/-- A target on the stack. -/
theorem back (h : Visiting edges way v s₀ s above n past) (hedge : edges.Edge v w)
    (hw : w ∈ s.stack) : ∃ s' m, s.lower v (s.index w) = some s' ∧ s'.index = s.index ∧
      Visiting edges way v s₀ s' above m (past ++ [w]) := by
  have hseen := h.inv.seen w hw
  have hold : w ∈ s₀.stack → s.num w = s₀.num w := fun hmem => h.frame.num (h.start.seen w hmem)
  have hm : s.num w < n →
      ∃ y ∈ s₀.stack, ReflTransGen edges.Edge v y ∧ s₀.num y = s.num w := by
    intro hlt
    rcases h.mem_stack_iff.mp hw with hmem | hmem
    · exact absurd (h.low.le.trans (h.num_le_of_mem hmem)) (not_le.mpr hlt)
    · exact ⟨w, hmem, .single hedge, (hold hmem).symm⟩
  obtain ⟨s', hs', hindex, hvisiting⟩ := h.lower [] h.inv (fun _ _ => ⟨rfl, rfl⟩) rfl
    (fun x hx => absurd hx List.not_mem_nil) hm (fun x hx => absurd hx List.not_mem_nil) hseen
    fun hmem => (hold hmem).le
  exact ⟨s', _, by rw [index_eq hseen, hs'], hindex, hvisiting⟩

/-- A target that is searched from. -/
theorem call (h : Visiting edges way v s₀ s above n past) (hedge : edges.Edge v w)
    (hfresh : ¬ s.Seen w) (hpost : Post edges (insert v way) w s s₁) :
    ∃ s' above' m, s₁.lower v (s₁.low w) = some s' ∧ s'.index = s₁.index ∧
      Visiting edges way v s₀ s' above' m (past ++ [w]) := by
  obtain ⟨new, m, hstack, hnew, hlow⟩ := hpost.stack
  have hsub : ∀ y ∈ s₀.stack, y ∈ s.stack := fun y hy => h.mem_stack_iff.mpr (Or.inr hy)
  have hnum : ∀ y ∈ s₀.stack, s.num y = s₀.num y := fun y hy => h.frame.num (h.start.seen y hy)
  have hm : m < n → ∃ y ∈ s₀.stack, ReflTransGen edges.Edge v y ∧ s₀.num y = m := by
    intro hlt
    rcases hlow.reaches with heq | ⟨y, hy, hreach, heq⟩
    · -- a new number is greater than that of the node
      have hlt' := h.inv.counter v h.seen_self
      have hnew' := hpost.number
      have hle := h.low.le
      omega
    · rcases h.mem_stack_iff.mp hy with hmem | hmem
      · have hle := h.low.le.trans (h.num_le_of_mem hmem)
        rw [heq] at hle
        exact absurd hle (not_le.mpr hlt)
      · exact ⟨y, hmem, hreach.head hedge, (hnum y hmem).symm.trans heq⟩
  have hleast : ∀ x ∈ new, ∀ y ∈ s₀.stack, edges.Edge x y → m ≤ s₀.num y := by
    intro x hx y hy hxy
    rw [← hnum y hy]
    exact hlow.least x hx y (hsub y hy) hxy
  have hnot : w ∉ s₀.stack := fun hmem => hfresh (h.inv.seen w (hsub w hmem))
  obtain ⟨s', hs', hindex, hvisiting⟩ := h.lower new hpost.inv hpost.frame hstack hnew hm hleast
    hpost.seen fun hmem => absurd hmem hnot
  exact ⟨s', new ++ above, _, by rw [hlow.low, hs'], hindex, hvisiting⟩

/-! ### The end of a call -/

/-- Where `low` is the number of the node, no edge leads back to the old stack. -/
theorem mem_of_edge (h : Visiting edges way v s₀ s above (s.num v) past)
    (hpast : ∀ w, edges.Edge v w → w ∈ past) :
    Closed edges.Edge ({u | u ∈ above ++ [v]} ∪ s.Done) := by
  rintro x (hx | hx) y hedge
  · -- the target has been seen, and it is not on the old stack
    have hy : s.Seen y ∧ y ∉ s₀.stack := by
      rcases List.mem_append.mp hx with hx' | hx'
      · have hnot : x ∉ insert v way := by
          rw [Set.mem_insert_iff, not_or]
          refine ⟨?_, h.notMem_way hx⟩
          rintro rfl
          have hnodup := h.inv.nodup_stack
          rw [h.stack, List.nodup_append] at hnodup
          exact hnodup.2.2 x hx' x List.mem_cons_self rfl
        have hseen := h.inv.seen x (h.mem_stack_iff.mpr (Or.inl hx))
        refine ⟨h.inv.looked x hseen hnot y hedge, fun hy => ?_⟩
        exact absurd (h.low.least x hx' y hy hedge) (not_le.mpr (h.num_lt_of_mem hy))
      · rw [List.mem_singleton.mp hx'] at hedge
        obtain ⟨hseen, hle⟩ := h.targets y (hpast y hedge)
        exact ⟨hseen, fun hy => absurd (hle hy) (not_le.mpr (h.num_lt_of_mem hy))⟩
    by_cases hstack : y ∈ s.stack
    · exact Or.inl ((h.mem_stack_iff.mp hstack).resolve_right hy.2)
    · exact Or.inr ⟨hy.1, hstack⟩
  · exact Or.inr (h.inv.done x hx y hedge)

/-- **What is on the stack from the node on** is then its component. -/
theorem pop_component (h : Visiting edges way v s₀ s above (s.num v) past)
    (hpast : ∀ w, edges.Edge v w → w ∈ past) :
    {u | u ∈ above ++ [v]} = component edges.Edge v := by
  have hclosed := h.mem_of_edge hpast
  have hv : v ∈ above ++ [v] := List.mem_append_right above List.mem_cons_self
  have hmem : ∀ u ∈ above ++ [v], u ∈ s.stack := fun u hu => h.mem_stack_iff.mpr (Or.inl hu)
  have hdisj : Disjoint {u | u ∈ above ++ [v]} s.Done :=
    Set.disjoint_left.mpr fun u hu hdone => hdone.2 (hmem u hu)
  refine eq_component hv hdisj h.inv.done hclosed ?_ ?_
  · exact fun u hu => h.inv.up v (hmem v hv) u (hmem u hu) (h.num_le_of_mem hu)
  · intro u hu
    obtain ⟨g, hg, -, hreach⟩ := h.inv.down u (hmem u hu)
    rcases hg with rfl | hg
    · exact hreach
    · -- the old way is out of reach
      have hold := h.start.onWay g hg
      rcases hclosed.reaches (Or.inl hu) hreach with hnew | hdone
      · exact absurd hg (h.notMem_way hnew)
      · exact absurd (h.mem_stack_iff.mpr (Or.inr hold)) hdone.2

/-- The node and what is above it are popped. -/
theorem leave_pop (h : Visiting edges way v s₀ s above (s.num v) past)
    (hpast : ∀ w, edges.Edge v w → w ∈ past) :
    ∃ s', s.leave v = some s' ∧ Post edges way v s₀ s' := by
  have hseen := h.seen_self
  have hnodup := h.inv.nodup_stack
  rw [h.stack] at hnodup
  have hscc : (above ++ [v]).Nodup := hnodup.sublist (by simp)
  have hnot : v ∉ above := fun hv =>
    (List.nodup_append.mp hnodup).2.2 v hv v List.mem_cons_self rfl
  obtain ⟨left, hpop, hleft⟩ := pop_append hnot s₀.stack s.onStack
  have hcomponent := h.pop_component hpast
  have hmemv : v ∈ above ++ [v] := List.mem_append_right above List.mem_cons_self
  have hstack : ∀ u, u ∈ s₀.stack ↔ u ∈ s.stack ∧ u ∉ above ++ [v] := by
    intro u
    rw [h.mem_stack_iff]
    constructor
    · exact fun hu => ⟨Or.inr hu, fun hnew => h.not_seen hnew (h.start.seen u hu)⟩
    · exact fun hu => hu.1.resolve_left hu.2
  have hcycles := mem_report hscc hcomponent h.inv.cycles
  set s' : Tarjan := { s with
    stack := s₀.stack, onStack := left
    cycles := if 1 < (above ++ [v]).length then
      s.cycles ++ [(above ++ [v]).insertionSort (· ≤ ·)] else s.cycles } with hs'
  have hdone : s'.Done = {u | u ∈ above ++ [v]} ∪ s.Done := by
    ext u
    show s.Seen u ∧ u ∉ s₀.stack ↔ u ∈ above ++ [v] ∨ s.Seen u ∧ u ∉ s.stack
    rw [hstack]
    have hsub : u ∈ above ++ [v] → s.Seen u ∧ u ∈ s.stack := fun hu =>
      have hmem := h.mem_stack_iff.mpr (Or.inl hu)
      ⟨h.inv.seen u hmem, hmem⟩
    tauto
  have hnum : ∀ u ∈ s₀.stack, s.num u = s₀.num u := fun u hu => h.frame.num (h.start.seen u hu)
  refine ⟨s', ?_, ?_, h.frame, hseen, h.number, [], s.num v, rfl,
    fun x hx => absurd hx List.not_mem_nil, h.low.low, le_rfl, Or.inl rfl,
    fun x hx => absurd hx List.not_mem_nil⟩
  · simp [leave, h.low.low, index_eq hseen, h.stack, hpop, hs']
  · constructor
    case onStack =>
      intro u
      show u ∈ left ↔ u ∈ s₀.stack
      rw [hleft, hstack, h.inv.onStack]
    case seen => exact fun u hu => h.inv.seen u ((hstack u).mp hu).1
    case low => exact h.inv.low
    case onWay => exact h.start.onWay
    case descending =>
      refine h.start.descending.imp_of_mem fun ha hb hlt => ?_
      show s.num _ < s.num _
      rw [hnum _ ha, hnum _ hb]
      exact hlt
    case counter => exact h.inv.counter
    case looked =>
      intro u hu hway w hedge
      by_cases huv : u = v
      · exact (h.targets w (hpast w (huv ▸ hedge))).1
      · refine h.inv.looked u hu ?_ w hedge
        rw [Set.mem_insert_iff, not_or]
        exact ⟨huv, hway⟩
    case done =>
      rw [hdone]
      exact h.mem_of_edge hpast
    case up =>
      intro a ha b hb hle
      exact h.inv.up a ((hstack a).mp ha).1 b ((hstack b).mp hb).1 hle
    case down =>
      intro a ha
      obtain ⟨g, hg, hle, hreach⟩ := h.start.down a ha
      refine ⟨g, hg, ?_, hreach⟩
      show s.num g ≤ s.num a
      rw [hnum a ha, hnum g (h.start.onWay g hg)]
      exact hle
    case nodup =>
      show (if _ then _ else _ : List (List String)).Nodup
      split
      · refine List.nodup_append.mpr ⟨h.inv.nodup, List.nodup_singleton _, ?_⟩
        rintro c hc d hd rfl
        -- the node of the call was not closed off before
        have hv : v ∈ c := by
          rw [List.mem_singleton.mp hd]
          exact (List.perm_insertionSort _ _).mem_iff.mpr hmemv
        have hstackv := h.mem_stack_iff.mpr (Or.inl hmemv)
        exact absurd hstackv (((h.inv.cycles c).mp hc).2 v hv).2
      · exact h.inv.nodup
    case cycles =>
      rw [hdone]
      exact hcycles

/-- The node stays on the stack. -/
theorem leave_stay (h : Visiting edges way v s₀ s above n past) (hlt : n < s.num v)
    (hpast : ∀ w, edges.Edge v w → w ∈ past) :
    ∃ s', s.leave v = some s' ∧ Post edges way v s₀ s' := by
  have hseen := h.seen_self
  refine ⟨s, by simp [leave, h.low.low, index_eq hseen, hlt.ne], ?_, h.frame, hseen, h.number,
    above ++ [v], n, ?_, fun x hx => h.not_seen hx, h.low.low, h.low.le, h.low.reaches, ?_⟩
  · refine { h.inv with onWay := ?_, looked := ?_, down := ?_ }
    · exact fun u hu => h.inv.onWay u (Set.mem_insert_of_mem v hu)
    · intro u hu hway w hedge
      by_cases huv : u = v
      · exact (h.targets w (hpast w (huv ▸ hedge))).1
      · refine h.inv.looked u hu ?_ w hedge
        rw [Set.mem_insert_iff, not_or]
        exact ⟨huv, hway⟩
    · intro a ha
      obtain ⟨g, hg, hle, hreach⟩ := h.inv.down a ha
      rcases hg with rfl | hg
      · -- the node goes on to the old stack, and from there to the way
        obtain ⟨y, hy, hgy, hnum⟩ := h.low.reaches.resolve_left hlt.ne
        obtain ⟨g', hg', hle', hreach'⟩ := h.start.down y hy
        refine ⟨g', hg', ?_, hreach.trans (hgy.trans hreach')⟩
        rw [h.frame.num (h.start.seen g' (h.start.onWay g' hg'))]
        omega
      · exact ⟨g, hg, hle, hreach⟩
  · rw [h.stack, List.append_assoc, List.singleton_append]
  · intro x hx y hy hedge
    rcases List.mem_append.mp hx with hx | hx
    · exact h.low.least x hx y hy hedge
    · rw [List.mem_singleton.mp hx] at hedge
      exact (h.targets y (hpast y hedge)).2 hy

theorem leave (h : Visiting edges way v s₀ s above n past)
    (hpast : ∀ w, edges.Edge v w → w ∈ past) :
    ∃ s', s.leave v = some s' ∧ Post edges way v s₀ s' := by
  rcases h.low.le.lt_or_eq with hlt | rfl
  · exact h.leave_stay hlt hpast
  · exact h.leave_pop hpast

end Visiting

/-! ### Fuel -/

/-- The nodes that have no number. -/
def unseen (edges : Edges) (s : Tarjan) : Finset String :=
  edges.nodes.filter fun v => s.index v = none

theorem unseen_subset (h : ∀ v, s.Seen v → s₁.Seen v) : unseen edges s₁ ⊆ unseen edges s := by
  intro v hv
  obtain ⟨hnode, hnone⟩ := Finset.mem_filter.mp hv
  refine Finset.mem_filter.mpr ⟨hnode, ?_⟩
  by_contra hseen
  exact h v hseen hnone

theorem card_unseen_le (h : ∀ v, s.Seen v → s₁.Seen v) :
    (unseen edges s₁).card ≤ (unseen edges s).card := Finset.card_le_card (unseen_subset h)

/-- A node has one number less to give. -/
theorem card_unseen_enter (hv : v ∈ edges.nodes) (hfresh : ¬ s.Seen v) :
    (unseen edges (s.enter v)).card < (unseen edges s).card := by
  refine Finset.card_lt_card ⟨unseen_subset fun u hu => seen_enter.mpr (Or.inr hu), fun hsub => ?_⟩
  have hmem : v ∈ unseen edges s := Finset.mem_filter.mpr ⟨hv, not_not.mp hfresh⟩
  exact seen_enter.mpr (Or.inl rfl) (Finset.mem_filter.mp (hsub hmem)).2

/-- The loop over the targets. -/
theorem visit_visiting {connect : String → Tarjan → Option Tarjan} {fuel : ℕ}
    (hconnect : ∀ w s, edges.Edge v w → Inv edges (insert v way) s → ¬ s.Seen w →
      (unseen edges s).card ≤ fuel → ∃ s', connect w s = some s' ∧ Post edges (insert v way) w s s')
    (ws : List String) (hedges : ∀ w ∈ ws, edges.Edge v w) {above past : List String} {n : ℕ}
    (h : Visiting edges way v s₀ s above n past) (hfuel : (unseen edges s).card ≤ fuel) :
    ∃ s' above' m, visit connect v ws s = some s' ∧
      Visiting edges way v s₀ s' above' m (past ++ ws) := by
  induction ws generalizing s above past n with
  | nil => exact ⟨s, above, n, rfl, by rwa [List.append_nil]⟩
  | cons w ws ih =>
    obtain ⟨hedge, hrest⟩ := List.forall_mem_cons.mp hedges
    rw [visit, ← List.singleton_append, ← List.append_assoc]
    by_cases hseen : s.index w = none
    · rw [if_pos hseen]
      obtain ⟨s₁, hcall, hpost⟩ := hconnect w s hedge h.inv (not_not.mpr hseen) hfuel
      obtain ⟨s', above', m, hlower, hindex, hvisiting⟩ := h.call hedge (not_not.mpr hseen) hpost
      have hmono : ∀ u, s.Seen u → s'.Seen u :=
        fun u hu => (hpost.frame.seen hu).congr (congrFun hindex u)
      obtain ⟨s'', above'', m', hvisit, hfinal⟩ :=
        ih hrest hvisiting ((card_unseen_le hmono).trans hfuel)
      exact ⟨s'', above'', m', by simp [hcall, hlower, hvisit], hfinal⟩
    · rw [if_neg hseen]
      by_cases hstack : w ∈ s.onStack
      · rw [if_pos hstack]
        obtain ⟨s', m, hlower, hindex, hvisiting⟩ := h.back hedge ((h.inv.onStack w).mp hstack)
        have hmono : ∀ u, s.Seen u → s'.Seen u := fun u hu => hu.congr (congrFun hindex u)
        obtain ⟨s'', above'', m', hvisit, hfinal⟩ :=
          ih hrest hvisiting ((card_unseen_le hmono).trans hfuel)
        exact ⟨s'', above'', m', by simp [hlower, hvisit], hfinal⟩
      · rw [if_neg hstack]
        exact ih hrest (h.skip hseen (mt (h.inv.onStack w).mpr hstack)) hfuel

/-- **A call** with as much fuel as there are nodes without a number. -/
theorem strongconnect_post {fuel : ℕ} (h : Inv edges way s) (hv : v ∈ edges.nodes)
    (hfresh : ¬ s.Seen v) (hway : ∀ u ∈ way, ReflTransGen edges.Edge u v)
    (hfuel : (unseen edges s).card ≤ fuel) :
    ∃ s', strongconnect edges fuel v s = some s' ∧ Post edges way v s s' := by
  induction fuel generalizing way v s with
  | zero =>
    have hmem : v ∈ unseen edges s := Finset.mem_filter.mpr ⟨hv, not_not.mp hfresh⟩
    exact absurd (Finset.card_pos.mpr ⟨v, hmem⟩) (by omega)
  | succ fuel ih =>
    have hless := card_unseen_enter hv hfresh
    have hfuel' : (unseen edges (s.enter v)).card ≤ fuel := by omega
    have hways : ∀ w, edges.Edge v w → ∀ u ∈ insert v way, ReflTransGen edges.Edge u w := by
      rintro w hedge u (rfl | hu)
      · exact .single hedge
      · exact (hway u hu).tail hedge
    have hconnect : ∀ w s, edges.Edge v w → Inv edges (insert v way) s → ¬ s.Seen w →
        (unseen edges s).card ≤ fuel →
        ∃ s', strongconnect edges fuel w s = some s' ∧ Post edges (insert v way) w s s' :=
      fun w s hedge hinv hw => ih hinv (Edges.mem_nodes_of_edge hedge) hw (hways w hedge)
    obtain ⟨s₁, above, n, hvisit, hvisiting⟩ := visit_visiting hconnect
      (edges.targets v) (fun w hw => hw) (Visiting.enter h hfresh hway) hfuel'
    obtain ⟨s', hleave, hpost⟩ := hvisiting.leave fun w hw => hw
    exact ⟨s', by simp [strongconnect, hvisit, hleave], hpost⟩

/-- More fuel changes nothing. -/
theorem visit_mono {connect connect' : String → Tarjan → Option Tarjan}
    (hconnect : ∀ w s s', connect w s = some s' → connect' w s = some s') {ws : List String}
    (h : visit connect v ws s = some s₁) : visit connect' v ws s = some s₁ := by
  induction ws generalizing s with
  | nil => exact h
  | cons w ws ih =>
    rw [visit] at h ⊢
    split_ifs at h ⊢ with hseen hstack
    · simp only [Option.bind_eq_bind, Option.bind_eq_some_iff] at h ⊢
      obtain ⟨s', hs', s'', hs'', hrest⟩ := h
      exact ⟨s', hconnect w s s' hs', s'', hs'', ih hrest⟩
    · simp only [Option.bind_eq_bind, Option.bind_eq_some_iff] at h ⊢
      obtain ⟨s', hs', hrest⟩ := h
      exact ⟨s', hs', ih hrest⟩
    · exact ih h

theorem strongconnect_mono {fuel : ℕ} (h : strongconnect edges fuel v s = some s₁) :
    strongconnect edges (fuel + 1) v s = some s₁ := by
  induction fuel generalizing v s s₁ with
  | zero => cases h
  | succ fuel ih =>
    rw [strongconnect] at h ⊢
    simp only [Option.bind_eq_bind, Option.bind_eq_some_iff] at h ⊢
    obtain ⟨s', hvisit, hleave⟩ := h
    exact ⟨s', visit_mono (fun w s s' => ih) hvisit, hleave⟩

theorem visitAll_mono {fuel : ℕ} {vs : List String} (h : visitAll edges fuel vs s = some s₁) :
    visitAll edges (fuel + 1) vs s = some s₁ := by
  induction vs generalizing s with
  | nil => exact h
  | cons v vs ih =>
    rw [visitAll] at h ⊢
    split_ifs at h ⊢ with hseen
    · simp only [Option.bind_eq_bind, Option.bind_eq_some_iff] at h ⊢
      obtain ⟨s', hs', hrest⟩ := h
      exact ⟨s', strongconnect_mono hs', ih hrest⟩
    · exact ih h

/-! ### The whole search -/

/-- The loop over the keys: in the end each has a number. -/
theorem visitAll_inv {fuel : ℕ} (hfuel : edges.nodes.card ≤ fuel) {vs : List String}
    (hvs : ∀ v ∈ vs, v ∈ edges.keys) (h : Inv edges ∅ s) :
    ∃ s', visitAll edges fuel vs s = some s' ∧ Inv edges ∅ s' ∧ (∀ v ∈ vs, s'.Seen v) ∧
      ∀ v, s.Seen v → s'.Seen v := by
  induction vs generalizing s with
  | nil => exact ⟨s, rfl, h, fun v hv => absurd hv List.not_mem_nil, fun v hv => hv⟩
  | cons v vs ih =>
    obtain ⟨hv, hrest⟩ := List.forall_mem_cons.mp hvs
    rw [visitAll]
    by_cases hseen : s.index v = none
    · rw [if_pos hseen]
      have hcard : (unseen edges s).card ≤ fuel :=
        (Finset.card_le_card (Finset.filter_subset _ _)).trans hfuel
      obtain ⟨s₁, hcall, hpost⟩ := strongconnect_post h (Edges.mem_nodes_of_key hv)
        (not_not.mpr hseen) (fun u hu => absurd hu (Set.notMem_empty u)) hcard
      obtain ⟨s', hs', hinv, hall, hmono⟩ := ih hrest hpost.inv
      refine ⟨s', by simp [hcall, hs'], hinv, ?_, fun u hu => hmono u (hpost.frame.seen hu)⟩
      exact List.forall_mem_cons.mpr ⟨hmono v hpost.seen, hall⟩
    · rw [if_neg hseen]
      obtain ⟨s', hs', hinv, hall, hmono⟩ := ih hrest h
      exact ⟨s', hs', hinv, List.forall_mem_cons.mpr ⟨hmono v hseen, hall⟩, hmono⟩

/-- In the end the cycles are all there are. -/
theorem Inv.mem_cycles_iff (h : Inv edges ∅ s) (hkeys : ∀ v ∈ edges.keys, s.Seen v)
    (c : List String) : c ∈ s.cycles ↔ edges.IsCycle c := by
  have hempty : ∀ v, v ∉ s.stack := by
    intro v hv
    obtain ⟨u, hu, -⟩ := h.down v hv
    exact Set.notMem_empty u hu
  rw [h.cycles c]
  refine ⟨fun hc => hc.1, fun hcycle => ⟨hcycle, fun v hv => ⟨?_, hempty v⟩⟩⟩
  -- another node is reached from it, so it is a key
  obtain ⟨u, hu⟩ := hcycle.component
  obtain ⟨w, hw, hne⟩ : ∃ w ∈ c, w ≠ v := by
    by_contra hall
    push Not at hall
    have hnodup : c.Nodup := hcycle.sorted.imp fun h => h.ne
    have hsubset : c ⊆ [v] := fun x hx => by simp [hall x hx]
    have hle := (List.subperm_of_subset hnodup hsubset).length_le
    exact absurd hcycle.large (not_lt.mpr hle)
  have hmem : ∀ x ∈ c, x ∈ component edges.Edge u := fun x hx => hu ▸ hx
  have hreach : ReflTransGen edges.Edge v w := (hmem v hv).2.trans (hmem w hw).1
  rcases hreach.cases_head with heq | ⟨x, hedge, -⟩
  · exact absurd heq.symm hne
  · exact hkeys v (Edges.mem_keys_of_edge hedge)

end Tarjan

/-- **The cycles that are found** are the components with more than one node, each once, in order.
-/
theorem findCycles_iff (edges : Edges) : ∃ cycles,
    (∀ fuel, edges.nodes.card ≤ fuel → findCycles fuel edges = some cycles) ∧
      cycles.Nodup ∧ ∀ c, c ∈ cycles ↔ edges.IsCycle c := by
  obtain ⟨s, hs, hinv, hseen, -⟩ :=
    Tarjan.visitAll_inv le_rfl (fun v hv => hv) (Tarjan.Inv.init edges)
  refine ⟨s.cycles, fun fuel hfuel => ?_, hinv.nodup, hinv.mem_cycles_iff hseen⟩
  -- more fuel than nodes changes nothing
  have hrun : Tarjan.visitAll edges fuel edges.keys Tarjan.init = some s := by
    induction fuel, hfuel using Nat.le_induction with
    | base => exact hs
    | succ fuel _ ih => exact Tarjan.visitAll_mono ih
  rw [findCycles, hrun, Option.map_some]

end Istos
