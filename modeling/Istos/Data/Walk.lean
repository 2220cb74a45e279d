import Mathlib.Data.Set.Basic
import Mathlib.Logic.Relation

/-!
# Depth-first walks

The arcs of a node are ordered.  A walk takes them from left to right, and the arcs of a target
before the next one.  It goes to the target of a shared arc only once, whichever shared arc comes
first, and it stops at an arc that names what is on its own way: its target, or its key.

What a walk has shared when it is past an arc does not depend on the order (`Walk.shares`).  So a
walk stops just where it meets a cycle or a clash of a key (`Walk.ends`, `Walk.stops`), and where it
meets a clash is a matter of the graph alone.
-/

/-- An arc of a node. -/
structure Arc (V : Type*) where
  /-- what the way may not have, apart from the target -/
  key : V
  target : V
  shared : Bool

namespace Arc

open Relation

variable {V : Type*} {out : V → List (Arc V)} {a b : Arc V} {u v w : V} {done : Set V}

/-- An arc leads from `u` to `v`. -/
def Edge (out : V → List (Arc V)) (u v : V) : Prop := ∃ a ∈ out u, a.target = v

/-- A cycle can be reached. -/
def Cyclic (out : V → List (Arc V)) (v : V) : Prop :=
  ∃ w, ReflTransGen (Edge out) v w ∧ TransGen (Edge out) w w

/-- The targets of the shared arcs from `a` on. -/
def shares (out : V → List (Arc V)) (a : Arc V) : Set V :=
  {v | a.shared = true ∧ a.target = v ∨
    ∃ w, ReflTransGen (Edge out) a.target w ∧ ∃ b ∈ out w, b.shared = true ∧ b.target = v}

theorem edge_of_mem (h : a ∈ out u) : Edge out u a.target := ⟨a, h, rfl⟩

theorem mem_shares_iff : v ∈ shares out a ↔
    a.shared = true ∧ a.target = v ∨ ∃ b ∈ out a.target, v ∈ shares out b := by
  constructor
  · rintro (hself | ⟨w, hw, b, hb, hshared, htarget⟩)
    · exact .inl hself
    · right
      rcases hw.cases_head with rfl | ⟨x, ⟨c, hc, rfl⟩, hw⟩
      · exact ⟨b, hb, .inl ⟨hshared, htarget⟩⟩
      · exact ⟨c, hc, .inr ⟨w, hw, b, hb, hshared, htarget⟩⟩
  · rintro (hself | ⟨b, hb, ⟨hshared, htarget⟩ | ⟨w, hw, c, hc⟩⟩)
    · exact .inl hself
    · exact .inr ⟨a.target, .refl, b, hb, hshared, htarget⟩
    · exact .inr ⟨w, hw.head (edge_of_mem hb), c, hc⟩

/-- What is shared is reached. -/
theorem reaches_of_mem_shares (h : v ∈ shares out a) : ReflTransGen (Edge out) a.target v := by
  rcases h with ⟨-, rfl⟩ | ⟨w, hw, b, hb, -, rfl⟩
  · exact .refl
  · exact hw.tail (edge_of_mem hb)

theorem shares_subset (hv : ReflTransGen (Edge out) a.target v) (hb : b ∈ out v) :
    shares out b ⊆ shares out a := by
  rintro w (⟨hshared, rfl⟩ | ⟨x, hx, c, hc⟩)
  · exact .inr ⟨v, hv, b, hb, hshared, rfl⟩
  · exact .inr ⟨x, (hv.tail (edge_of_mem hb)).trans hx, c, hc⟩

/-- With a node there is all that is shared from it on. -/
def Closed (out : V → List (Arc V)) (done : Set V) : Prop :=
  ∀ v ∈ done, ∀ b ∈ out v, shares out b ⊆ done

theorem closed_empty : Closed out ∅ := fun _ hv => absurd hv (Set.notMem_empty _)

theorem Closed.union (h : Closed out done) (a : Arc V) : Closed out (done ∪ shares out a) := by
  rintro v (hdone | hshared) b hb
  · exact (h v hdone b hb).trans Set.subset_union_left
  · exact (shares_subset (reaches_of_mem_shares hshared) hb).trans Set.subset_union_right

/-- From a shared arc whose target is there, nothing is new. -/
theorem Closed.union_eq_self (h : Closed out done) (hdone : a.target ∈ done) :
    done ∪ shares out a = done := by
  refine Set.union_eq_self_of_subset_right ?_
  intro v hv
  rcases mem_shares_iff.mp hv with ⟨-, rfl⟩ | ⟨b, hb, hv⟩
  · exact hdone
  · exact h a.target hdone b hb hv

/-! ### The walk -/

/-- Whether a walk stops at an arc, `chain` being its way. -/
def Barred (chain : List V) (a : Arc V) : Prop := a.key ∈ chain ∨ a.target ∈ chain

/-- Whether a walk does not go to the target of an arc again. -/
def Known (done : Set V) (a : Arc V) : Prop := a.shared = true ∧ a.target ∈ done

/-- What is shared with the target of an arc. -/
def share (done : Set V) (a : Arc V) : Set V := {v | v ∈ done ∨ a.shared = true ∧ a.target = v}

/-- What is there when all that the arcs lead to is shared. -/
def sharedBy (out : V → List (Arc V)) (done : Set V) (arcs : List (Arc V)) : Set V :=
  {v | v ∈ done ∨ ∃ a ∈ arcs, v ∈ shares out a}

theorem sharedBy_nil : sharedBy out done [] = done :=
  Set.ext fun _ => or_iff_left fun ⟨_, ha, _⟩ => List.not_mem_nil ha

theorem sharedBy_cons (as : List (Arc V)) :
    sharedBy out done (a :: as) = sharedBy out (done ∪ shares out a) as := by
  ext v
  simp only [sharedBy, Set.mem_ofPred_eq, Set.mem_union, List.mem_cons, exists_eq_or_imp, or_assoc]

theorem share_sharedBy : share (sharedBy out done (out a.target)) a = done ∪ shares out a := by
  ext v
  rw [Set.mem_union, mem_shares_iff]
  exact or_assoc.trans (or_congr_right or_comm)

/-- `Walk out chain arcs done r`: on its way `chain`, with `done` shared, a walk takes the arcs, and
stops (`none`) or has `r` shared. -/
inductive Walk (out : V → List (Arc V)) :
    List V → List (Arc V) → Set V → Option (Set V) → Prop
  | nil {chain done} : Walk out chain [] done (some done)
  | stop {chain done a as} : Barred chain a → Walk out chain (a :: as) done none
  | skip {chain done a as r} : ¬ Barred chain a → Known done a → Walk out chain as done r →
      Walk out chain (a :: as) done r
  | fail {chain done a as} : ¬ Barred chain a → ¬ Known done a →
      Walk out (chain ++ [a.target]) (out a.target) done none → Walk out chain (a :: as) done none
  | down {chain done done' a as r} : ¬ Barred chain a → ¬ Known done a →
      Walk out (chain ++ [a.target]) (out a.target) done (some done') →
      Walk out chain as (share done' a) r → Walk out chain (a :: as) done r

/-- A walk comes to a node of which an arc has its key on the way. -/
inductive Clash (out : V → List (Arc V)) : List V → List (Arc V) → Set V → Prop
  | here {chain done a as} : a.key ∈ chain → Clash out chain (a :: as) done
  | deeper {chain done a as} : ¬ Known done a →
      Clash out (chain ++ [a.target]) (out a.target) done → Clash out chain (a :: as) done
  | after {chain done a as} : Clash out chain as (done ∪ shares out a) →
      Clash out chain (a :: as) done

variable {chain : List V} {arcs : List (Arc V)} {r : Option (Set V)}

/-- **What a walk shares**: what could be shared from its arcs on. -/
theorem Walk.shares (h : Walk out chain arcs done r) (hclosed : Closed out done) :
    ∀ done', r = some done' → done' = sharedBy out done arcs := by
  induction h with
  | nil =>
    rintro done' ⟨⟩
    rw [sharedBy_nil]
  | stop hbarred =>
    rintro done' ⟨⟩
  | fail hbarred hknown hbelow ih =>
    rintro done' ⟨⟩
  | skip hbarred hknown hrest ih =>
    intro done' hr
    rw [ih hclosed done' hr, sharedBy_cons, hclosed.union_eq_self hknown.2]
  | down hbarred hknown hbelow hrest ihbelow ihrest =>
    intro done' hr
    rw [ihbelow hclosed _ rfl, share_sharedBy] at ihrest
    rw [ihrest (hclosed.union _) done' hr, sharedBy_cons]

theorem Walk.share_eq {done' : Set V} (h : Walk out chain (out a.target) done (some done'))
    (hclosed : Closed out done) : share done' a = done ∪ Arc.shares out a := by
  rw [h.shares hclosed done' rfl, share_sharedBy]

/-- A walk that comes to its end meets no clash. -/
theorem Walk.not_clash (h : Walk out chain arcs done r) (hclosed : Closed out done) :
    r ≠ none → ¬ Clash out chain arcs done := by
  induction h with
  | nil => exact fun _ hclash => nomatch hclash
  | stop hbarred => exact fun hr => absurd rfl hr
  | fail hbarred hknown hbelow ih => exact fun hr => absurd rfl hr
  | skip hbarred hknown hrest ih =>
    intro hr hclash
    cases hclash with
    | here hkey => exact hbarred (.inl hkey)
    | deeper hunknown _ => exact hunknown hknown
    | after hafter =>
      rw [hclosed.union_eq_self hknown.2] at hafter
      exact ih hclosed hr hafter
  | down hbarred hknown hbelow hrest ihbelow ihrest =>
    intro hr hclash
    rw [hbelow.share_eq hclosed] at ihrest
    cases hclash with
    | here hkey => exact hbarred (.inl hkey)
    | deeper _ hclash => exact ihbelow hclosed (Option.some_ne_none _) hclash
    | after hafter => exact ihrest (hclosed.union _) hr hafter

/-- A walk that stops has met a cycle or a clash. -/
theorem Walk.cyclic_or_clash (h : Walk out chain arcs done r) (hclosed : Closed out done)
    (hchain : ∀ v ∈ chain, ∀ a ∈ arcs, TransGen (Edge out) v a.target) :
    r = none → (∃ a ∈ arcs, Cyclic out a.target) ∨ Clash out chain arcs done := by
  induction h with
  | nil => exact fun hr => absurd hr (Option.some_ne_none _)
  | @stop chain done a as hbarred =>
    intro _
    rcases hbarred with hkey | htarget
    · exact .inr (.here hkey)
    · have hcycle := hchain a.target htarget a List.mem_cons_self
      exact .inl ⟨a, List.mem_cons_self, a.target, .refl, hcycle⟩
  | skip hbarred hknown hrest ih =>
    intro hr
    rcases ih hclosed (fun v hv b hb => hchain v hv b (List.mem_cons_of_mem _ hb)) hr with
      ⟨b, hb, hcyclic⟩ | hclash
    · exact .inl ⟨b, List.mem_cons_of_mem _ hb, hcyclic⟩
    · rw [← hclosed.union_eq_self hknown.2] at hclash
      exact .inr (.after hclash)
  | @fail chain done a as hbarred hknown hbelow ih =>
    intro _
    have hway : ∀ v ∈ chain ++ [a.target], ∀ b ∈ out a.target, TransGen (Edge out) v b.target := by
      intro v hv b hb
      rcases List.mem_append.mp hv with hold | hnew
      · exact (hchain v hold a List.mem_cons_self).tail (edge_of_mem hb)
      · rw [List.mem_singleton.mp hnew]
        exact .single (edge_of_mem hb)
    rcases ih hclosed hway rfl with ⟨b, hb, w, hw, hcycle⟩ | hclash
    · exact .inl ⟨a, List.mem_cons_self, w, hw.head (edge_of_mem hb), hcycle⟩
    · exact .inr (.deeper hknown hclash)
  | down hbarred hknown hbelow hrest ihbelow ihrest =>
    intro hr
    rw [hbelow.share_eq hclosed] at ihrest
    rcases ihrest (hclosed.union _) (fun v hv b hb => hchain v hv b (List.mem_cons_of_mem _ hb)) hr
      with ⟨b, hb, hcyclic⟩ | hclash
    · exact .inl ⟨b, List.mem_cons_of_mem _ hb, hcyclic⟩
    · exact .inr (.after hclash)

/-! ### Cycles -/

/-- From a node whose ways all end no cycle is reached. -/
theorem not_cyclic_of_acc (h : Acc (fun v u => Edge out u v) v) : ¬ Cyclic out v := by
  induction h with
  | intro v _ ih =>
    rintro ⟨w, hw, hcycle⟩
    rcases hw.cases_head with rfl | ⟨x, hx, hw⟩
    · obtain ⟨x, hx, hback⟩ := TransGen.head'_iff.mp hcycle
      exact ih x hx ⟨v, hback, hcycle⟩
    · exact ih x hx ⟨w, hw, hcycle⟩

/-- From the arcs of a walk that comes to its end all ways end. -/
theorem Walk.acc (h : Walk out chain arcs done r)
    (hdone : ∀ v ∈ done, Acc (fun v u => Edge out u v) v) : ∀ done', r = some done' →
    (∀ a ∈ arcs, Acc (fun v u => Edge out u v) a.target) ∧
      ∀ v ∈ done', Acc (fun v u => Edge out u v) v := by
  induction h with
  | nil =>
    rintro done' ⟨⟩
    exact ⟨fun a ha => absurd ha List.not_mem_nil, hdone⟩
  | stop hbarred =>
    rintro done' ⟨⟩
  | fail hbarred hknown hbelow ih =>
    rintro done' ⟨⟩
  | skip hbarred hknown hrest ih =>
    intro done' hr
    obtain ⟨harcs, hdone'⟩ := ih hdone done' hr
    exact ⟨List.forall_mem_cons.mpr ⟨hdone _ hknown.2, harcs⟩, hdone'⟩
  | @down chain done done₁ a as r hbarred hknown hbelow hrest ihbelow ihrest =>
    intro done' hr
    obtain ⟨hbelow, hdone₁⟩ := ihbelow hdone done₁ rfl
    have htarget : Acc (fun v u => Edge out u v) a.target := by
      refine .intro _ ?_
      rintro v ⟨b, hb, rfl⟩
      exact hbelow b hb
    have hshare : ∀ v ∈ share done₁ a, Acc (fun v u => Edge out u v) v := by
      rintro v (hv | ⟨-, rfl⟩)
      · exact hdone₁ v hv
      · exact htarget
    obtain ⟨harcs, hdone'⟩ := ihrest hshare done' hr
    exact ⟨List.forall_mem_cons.mpr ⟨htarget, harcs⟩, hdone'⟩

/-- **A walk that comes to its end** has met no cycle and no clash. -/
theorem Walk.ends {done' : Set V} (h : Walk out [] (out v) ∅ (some done')) :
    ¬ Cyclic out v ∧ ¬ Clash out [] (out v) ∅ := by
  constructor
  · refine not_cyclic_of_acc (.intro _ ?_)
    rintro w ⟨a, ha, rfl⟩
    exact (h.acc (fun w hw => absurd hw (Set.notMem_empty w)) done' rfl).1 a ha
  · exact h.not_clash closed_empty (Option.some_ne_none _)

/-- **A walk that stops** has met one of them. -/
theorem Walk.stops (h : Walk out [] (out v) ∅ none) :
    Cyclic out v ∨ Clash out [] (out v) ∅ := by
  refine (h.cyclic_or_clash closed_empty (fun w hw => absurd hw List.not_mem_nil) rfl).imp_left ?_
  rintro ⟨a, ha, w, hw, hcycle⟩
  exact ⟨w, hw.head (edge_of_mem ha), hcycle⟩

end Arc
