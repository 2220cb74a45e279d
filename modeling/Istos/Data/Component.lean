import Mathlib.Data.Set.BooleanAlgebra
import Mathlib.Logic.Relation
import Mathlib.Order.Antisymmetrization
import Mathlib.Order.CompletePartialOrder

/-!
# Strongly connected components

The component of a node is what it reaches and what reaches it.  A search that has closed off some
nodes finds a component as what is left: nodes that are reached from one of them and reach it, and
from which no edge leads but to each other and to what was closed off before (`eq_component`).
-/

namespace Component

open Relation

variable {V : Type*} {r : V → V → Prop} {u v w : V}

/-- The nodes that are reached and reach back. -/
def component (r : V → V → Prop) (u : V) : Set V := {v | AntisymmRel (ReflTransGen r) u v}

/-- No edge leads out. -/
def Closed (r : V → V → Prop) (S : Set V) : Prop := ∀ v ∈ S, ∀ w, r v w → w ∈ S

theorem Closed.reaches {S : Set V} (h : Closed r S) (hv : v ∈ S) (hw : ReflTransGen r v w) :
    w ∈ S := by
  induction hw with
  | refl => exact hv
  | tail _ hedge ih => exact h _ ih _ hedge

/-- Nodes of one component have one component. -/
theorem component_eq (h : v ∈ component r u) : component r v = component r u := by
  ext w
  constructor
  · rintro ⟨hvw, hwv⟩
    exact ⟨h.1.trans hvw, hwv.trans h.2⟩
  · rintro ⟨huw, hwu⟩
    exact ⟨h.2.trans huw, hwu.trans h.1⟩

/-- **A component** is what is left over. -/
theorem eq_component {new done : Set V} (hroot : u ∈ new) (hdisj : Disjoint new done)
    (hdone : Closed r done) (hnew : Closed r (new ∪ done)) (hto : ∀ v ∈ new, ReflTransGen r u v)
    (hfrom : ∀ v ∈ new, ReflTransGen r v u) : new = component r u := by
  ext v
  constructor
  · exact fun hv => ⟨hto v hv, hfrom v hv⟩
  · rintro ⟨huv, hvu⟩
    rcases hnew.reaches (Or.inl hroot) huv with hv | hv
    · exact hv
    · -- what is closed off does not reach back
      exact absurd (hdone.reaches hv hvu) (Set.disjoint_left.mp hdisj hroot)

end Component
