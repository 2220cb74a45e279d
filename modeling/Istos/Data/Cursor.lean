import Mathlib.Data.List.Sort
import Mathlib.Data.List.TakeWhile

/-!
# Reading on from a cursor

A log is a list of items with positions.  Whoever reads it sorts what is there by position, and
reads on after the position of the last item it has read.  On an ascending log this is the log, and
the rest of the log (`sort_eq`, `filter_lt_eq_drop`).
-/

namespace Cursor

variable {α β : Type*} [LinearOrder α] {l l' : List (α × β)}

/-- `sort(key=lambda kv: kv[0])`. -/
def sort (l : List (α × β)) : List (α × β) := l.insertionSort fun x y => x.1 ≤ y.1

/-- Each position is greater than those before it. -/
def Ascending (l : List (α × β)) : Prop := l.Pairwise fun x y => x.1 < y.1

instance : Decidable (Ascending l) := inferInstanceAs (Decidable (l.Pairwise _))

theorem perm_sort (l : List (α × β)) : (sort l).Perm l := List.perm_insertionSort _ l

/-- Distinct positions are sorted into an ascending log. -/
theorem ascending_sort (h : (l.map Prod.fst).Nodup) : Ascending (sort l) := by
  have : Std.Total fun x y : α × β => x.1 ≤ y.1 := ⟨fun x y => le_total x.1 y.1⟩
  have : IsTrans (α × β) fun x y => x.1 ≤ y.1 := ⟨fun x y z => le_trans⟩
  have hsorted : (sort l).Pairwise fun x y => x.1 ≤ y.1 := List.pairwise_insertionSort _ l
  have hne : (sort l).Pairwise fun x y => x.1 ≠ y.1 :=
    List.pairwise_map.mp (((perm_sort l).map Prod.fst).nodup_iff.mpr h)
  exact (hsorted.and hne).imp fun h => lt_of_le_of_ne h.1 h.2

theorem Ascending.nodup (h : Ascending l) : (l.map Prod.fst).Nodup :=
  List.pairwise_map.mpr (h.imp fun h => ne_of_lt h)

/-- An ascending log is what sorting makes of its items. -/
theorem sort_eq (h : Ascending l) (hperm : l'.Perm l) : sort l' = l := by
  have hnodup : (l'.map Prod.fst).Nodup := (hperm.map Prod.fst).nodup_iff.mpr h.nodup
  refine List.Perm.eq_of_pairwise ?_ (ascending_sort hnodup) h ((perm_sort l').trans hperm)
  exact fun x y _ _ hxy hyx => absurd hyx (lt_asymm hxy)

/-- What lies after an item of an ascending log. -/
theorem filter_lt_eq_drop (h : Ascending l) {i : ℕ} {x : α × β} (hx : l[i]? = some x) :
    l.filter (fun y => decide (x.1 < y.1)) = l.drop (i + 1) := by
  induction l generalizing i with
  | nil => cases hx
  | cons y l ih =>
    obtain ⟨hhead, htail⟩ := List.pairwise_cons.mp h
    cases i with
    | zero =>
      obtain rfl := Option.some.inj hx
      rw [List.filter_cons_of_neg (by simp), List.drop_succ_cons, List.drop_zero,
        List.filter_eq_self.mpr fun z hz => decide_eq_true (hhead z hz)]
    | succ i =>
      have hmem : x ∈ l := List.mem_of_getElem? hx
      have hle : y.1 ≤ x.1 := le_of_lt (hhead x hmem)
      rw [List.filter_cons_of_neg (by simpa using hle), List.drop_succ_cons]
      exact ih htail hx

/-- **Reading until the first item that fails a test** yields the items of a log that pass it, just
when all of these are read, none that fails is read before one of them, and they ascend. -/
theorem takeWhile_eq_iff {items read passing : List (α × β)} {listed test : α → Bool}
    (hread : read.Perm (items.filter fun x => listed x.1)) (hasc : Ascending read)
    (hpassing : passing.Perm (items.filter fun x => test x.1)) :
    read.takeWhile (fun x => test x.1) = passing ↔
      (∀ x ∈ items, test x.1 = true → listed x.1 = true) ∧
      (∀ x ∈ items, ∀ y ∈ items, listed x.1 = true → test x.1 = false → test y.1 = true →
        y.1 ≤ x.1) ∧
      Ascending passing := by
  have hmem : ∀ x, x ∈ read ↔ x ∈ items ∧ listed x.1 = true := fun x => by
    rw [hread.mem_iff, List.mem_filter]
  have hmem' : ∀ x, x ∈ passing ↔ x ∈ items ∧ test x.1 = true := fun x => by
    rw [hpassing.mem_iff, List.mem_filter]
  have hsplit := List.takeWhile_append_dropWhile (p := fun x : α × β => test x.1) (l := read)
  have hpasses : ∀ x ∈ read.takeWhile (fun x => test x.1), test x.1 = true :=
    fun x hx => List.mem_takeWhile_imp (p := fun x : α × β => test x.1) hx
  constructor
  · intro heq
    refine ⟨fun x hx htest => ?_, fun x hx y hy hlisted hfails htest => ?_, ?_⟩
    · have hin : x ∈ read :=
        List.takeWhile_subset _ (heq ▸ (hmem' x).mpr ⟨hx, htest⟩)
      exact ((hmem x).mp hin).2
    · have hfirst : y ∈ read.takeWhile fun x => test x.1 := heq ▸ (hmem' y).mpr ⟨hy, htest⟩
      have hlater : x ∈ read.dropWhile fun x => test x.1 := by
        have hin : x ∈ read := (hmem x).mpr ⟨hx, hlisted⟩
        rw [← hsplit] at hin
        refine (List.mem_append.mp hin).resolve_left fun hbad => ?_
        exact Bool.false_ne_true (hfails.symm.trans (hpasses x hbad))
      rw [← hsplit] at hasc
      exact le_of_lt ((List.pairwise_append.mp hasc).2.2 y hfirst x hlater)
    · rw [← heq]
      exact hasc.sublist (List.takeWhile_sublist _)
  · rintro ⟨hlisted, hunmixed, hpass⟩
    have hrest : (read.dropWhile fun x => test x.1).filter (fun x => test x.1) = [] := by
      cases hdrop : read.dropWhile fun x => test x.1 with
      | nil => rfl
      | cons h rest =>
        -- the first item that is not read fails, and so do those after it
        have hfails : test h.1 = false := by
          have hhead := List.head_dropWhile_not (fun x : α × β => test x.1) (l := read)
            (hdrop ▸ List.cons_ne_nil h rest)
          simpa [hdrop] using hhead
        have hin : ∀ x ∈ h :: rest, x ∈ items ∧ listed x.1 = true := by
          intro x hx
          refine (hmem x).mp ?_
          rw [← hsplit, hdrop]
          exact List.mem_append_right _ hx
        rw [← hsplit, hdrop] at hasc
        have hafter := (List.pairwise_cons.mp (List.pairwise_append.mp hasc).2.1).1
        refine List.filter_eq_nil_iff.mpr fun x hx htest => ?_
        rcases List.mem_cons.mp hx with rfl | hlater
        · exact Bool.false_ne_true (hfails.symm.trans htest)
        · obtain ⟨hh, hhlisted⟩ := hin h List.mem_cons_self
          have hle := hunmixed h hh x (hin x hx).1 hhlisted hfails htest
          exact absurd (hafter x hlater) (not_lt.mpr hle)
    have hfilter : read.takeWhile (fun x => test x.1) = read.filter fun x => test x.1 := by
      have hself := List.filter_eq_self.mpr hpasses
      conv_rhs => rw [← hsplit]
      rw [List.filter_append, hrest, hself, List.append_nil]
    have hboth : (items.filter fun x => listed x.1).filter (fun x => test x.1) =
        items.filter fun x => test x.1 := by
      rw [List.filter_filter]
      refine List.filter_congr fun x hx => ?_
      cases htest : test x.1 with
      | false => rfl
      | true => rw [hlisted x hx htest]; rfl
    rw [hfilter]
    refine List.Perm.eq_of_pairwise (fun x y _ _ hxy hyx => absurd hyx (lt_asymm hxy))
      (List.Pairwise.filter _ hasc) hpass ?_
    exact ((hread.filter _).trans (hboth ▸ List.Perm.refl _)).trans hpassing.symm

end Cursor
