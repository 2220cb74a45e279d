import Istos.Data.Lease
import Mathlib.Data.List.Basic
import Mathlib.Data.List.Induction

/-!
# The tenure of a leased record

A history lists what happened to one record: grants, releases, completions and reports of its
result. `Status.after` is the record after an event, `statusOf` the record after a history, and
`Legal` says that every event found the record as it needs it.

* `Legal.released_or_lapsed`: between two grants the record was released, or the lease of the first
  has lapsed.
* `Legal.first_mark`: a result that was reported is the one of the first completion.

`Owned` is about the holders: a grant that its holder has not given back has the record, as long as
its lease is live.
-/

namespace Lease

/-- What happens to a record. -/
inductive Event (T V : Type*)
  /-- a claim is granted at `now`, under a lease until `until'` -/
  | grant (now : T) (until' : WithTop T)
  /-- a release frees the record -/
  | release
  /-- a completion; `took` says whether it completed the record -/
  | mark (result : V) (took : Bool)
  /-- a claim finds the record done -/
  | report (result : V)

variable {T V : Type*}

/-- The record after an event. -/
def Status.after (st : Status T V) : Event T V → Status T V
  | .grant _ u => .held u
  | .release => .free
  | .mark v true => .done v
  | _ => st

/-- The record after a history, which is free at first. -/
def statusOf (es : List (Event T V)) : Status T V := es.foldl Status.after .free

@[simp] theorem statusOf_nil : statusOf ([] : List (Event T V)) = .free := rfl

@[simp] theorem statusOf_concat (es : List (Event T V)) (e : Event T V) :
    statusOf (es ++ [e]) = (statusOf es).after e := by
  rw [statusOf, statusOf, List.foldl_append]
  rfl

/-- When a claim was granted. -/
def Event.now? : Event T V → Option T
  | grant now _ => some now
  | _ => none

/-- The instants of the grants. -/
def nows (es : List (Event T V)) : List T := es.filterMap Event.now?

section Legal

variable [LinearOrder T]

/-- The event finds the record as it needs it. -/
def Status.Allows (st : Status T V) : Event T V → Prop
  | .grant now _ => st.grants now = true
  | .release => ∃ u, st = .held u
  | .mark _ took => took = true → st.result? = none
  | .report v => st = .done v

/-- Every event finds the record as it needs it, and the grants are in the order of time. -/
structure Legal (es : List (Event T V)) : Prop where
  allows : ∀ pre e, pre ++ [e] <+: es → (statusOf pre).Allows e
  ordered : (nows es).Pairwise (· ≤ ·)

theorem legal_nil : Legal ([] : List (Event T V)) where
  allows pre e h := absurd (List.prefix_nil.mp h) (by simp)
  ordered := List.Pairwise.nil

theorem Legal.concat {es : List (Event T V)} (h : Legal es) {e : Event T V}
    (he : (statusOf es).Allows e) (hnow : ∀ now, e.now? = some now → ∀ n ∈ nows es, n ≤ now) :
    Legal (es ++ [e]) where
  allows pre e' hpre := by
    rcases List.prefix_concat_iff.mp hpre with heq | hpre
    · obtain ⟨rfl, rfl⟩ := (List.append_inj' heq rfl).imp id List.singleton_inj.mp
      exact he
    · exact h.allows pre e' hpre
  ordered := by
    rw [nows, List.filterMap_append]
    refine List.pairwise_append.mpr ⟨h.ordered, ?_, ?_⟩
    · cases hopt : e.now? with
      | none => simp [hopt]
      | some now => simp [hopt]
    · intro n hn now hmem
      rw [List.filterMap_cons] at hmem
      cases hopt : e.now? with
      | none => simp [hopt] at hmem
      | some now' =>
        obtain rfl : now = now' := by simpa [hopt] using hmem
        exact hnow now hopt n hn

theorem Legal.of_prefix {es es' : List (Event T V)} (h : Legal es) (hpre : es' <+: es) :
    Legal es' where
  allows pre e hpre' := h.allows pre e (hpre'.trans hpre)
  ordered := h.ordered.sublist (hpre.sublist.filterMap _)

theorem Legal.left {es : List (Event T V)} {e : Event T V} (h : Legal (es ++ [e])) : Legal es :=
  h.of_prefix (List.prefix_append es [e])

theorem Legal.last {es : List (Event T V)} {e : Event T V} (h : Legal (es ++ [e])) :
    (statusOf es).Allows e :=
  h.allows es e (List.prefix_refl _)

/-- A record that is done stays so. -/
theorem after_done {v : V} {e : Event T V} (h : (Status.done v : Status T V).Allows e) :
    (Status.done v : Status T V).after e = .done v := by
  cases e with
  | grant now u => cases h
  | release =>
    obtain ⟨u, hu⟩ := h
    cases hu
  | mark w took =>
    cases took with
    | true => cases h rfl
    | false => rfl
  | report w => rfl

/-- After a grant, without a release: the lease still holds the record, or it has lapsed at a later
grant, or the record is done. -/
theorem Legal.after_grant {pre mid : List (Event T V)} {now : T} {u : WithTop T}
    (h : Legal (pre ++ .grant now u :: mid)) (hmid : Event.release ∉ mid) :
    statusOf (pre ++ .grant now u :: mid) = .held u ∨
      (∃ n ∈ nows mid, u ≤ n) ∨ ∃ v, statusOf (pre ++ .grant now u :: mid) = .done v := by
  induction mid using List.reverseRecOn with
  | nil =>
    left
    rw [statusOf_concat]
    rfl
  | append_singleton mid e ih =>
    rw [← List.cons_append, ← List.append_assoc] at h ⊢
    have hrest : Event.release ∉ mid := fun hmem => hmid (List.mem_append_left _ hmem)
    have hlast := h.last
    rw [statusOf_concat]
    rcases ih h.left hrest with hheld | ⟨n, hn, hle⟩ | ⟨v, hdone⟩
    · rw [hheld] at hlast ⊢
      cases e with
      | grant now' u' =>
        right; left
        have hle : u ≤ now' := of_decide_eq_true hlast
        exact ⟨now', by simp [nows, Event.now?], hle⟩
      | release => exact absurd (List.mem_append_right _ (List.mem_singleton.mpr rfl)) hmid
      | mark w took =>
        cases took with
        | true => exact Or.inr (Or.inr ⟨w, rfl⟩)
        | false => exact Or.inl rfl
      | report w => cases hlast
    · right; left
      refine ⟨n, ?_, hle⟩
      rw [nows, List.filterMap_append]
      exact List.mem_append_left _ hn
    · rw [hdone] at hlast ⊢
      exact Or.inr (Or.inr ⟨v, after_done hlast⟩)

/-- **Between two grants** the record was released, or the lease of the first has lapsed. -/
theorem Legal.released_or_lapsed {pre mid post : List (Event T V)} {now now' : T} {u u' : WithTop T}
    (h : Legal (pre ++ .grant now u :: mid ++ .grant now' u' :: post)) :
    Event.release ∈ mid ∨ u ≤ now' := by
  by_cases hmid : Event.release ∈ mid
  · exact Or.inl hmid
  · right
    have hpre : pre ++ .grant now u :: mid ++ [.grant now' u']
        <+: pre ++ .grant now u :: mid ++ .grant now' u' :: post := by
      rw [List.append_assoc, List.append_assoc, List.prefix_append_right_inj,
        List.prefix_append_right_inj]
      exact List.prefix_append [_] post
    have hgrants := (h.of_prefix hpre).last
    rcases (h.of_prefix hpre).left.after_grant hmid with hheld | ⟨n, hn, hle⟩ | ⟨v, hdone⟩
    · rw [hheld] at hgrants
      exact of_decide_eq_true hgrants
    · have hordered := (h.of_prefix hpre).ordered
      rw [nows, List.filterMap_append] at hordered
      have hle' : n ≤ now' := by
        apply (List.pairwise_append.mp hordered).2.2 n ?_ now' (by simp [Event.now?])
        rw [List.filterMap_append]
        exact List.mem_append_right _ (List.mem_of_mem_tail hn)
      exact hle.trans (WithTop.coe_le_coe.mpr hle')
    · rw [hdone] at hgrants
      cases hgrants

/-- A completion that took leaves the record done. -/
theorem Legal.done_of_mark {es : List (Event T V)} (h : Legal es) {v : V}
    (hmark : Event.mark v true ∈ es) : statusOf es = .done v := by
  induction es using List.reverseRecOn with
  | nil => cases hmark
  | append_singleton es e ih =>
    rw [statusOf_concat]
    rcases List.mem_append.mp hmark with hold | hnew
    · have hlast := h.last
      rw [ih h.left hold] at hlast ⊢
      exact after_done hlast
    · obtain rfl := List.mem_singleton.mp hnew
      rfl

/-- **The result** of a record that is done is the one of the first completion that took. -/
theorem Legal.first_mark {es : List (Event T V)} (h : Legal es) {v : V}
    (hdone : statusOf es = .done v) :
    ∃ pre post, es = pre ++ .mark v true :: post ∧ ∀ w, Event.mark w true ∉ pre := by
  induction es using List.reverseRecOn with
  | nil => cases hdone
  | append_singleton es e ih =>
    have hlast := h.last
    rw [statusOf_concat] at hdone
    have hnone : (statusOf es).result? = none → ∀ w, Event.mark w true ∉ es := by
      intro hst w hmem
      rw [h.left.done_of_mark hmem] at hst
      cases hst
    have hstays : statusOf es = .done v → ∃ pre post,
        es ++ [e] = pre ++ .mark v true :: post ∧ ∀ w, Event.mark w true ∉ pre := by
      intro hst
      obtain ⟨pre, post, rfl, hpre⟩ := ih h.left hst
      exact ⟨pre, post ++ [e], by rw [List.append_assoc, List.cons_append], hpre⟩
    cases e with
    | grant now u => cases hdone
    | release => cases hdone
    | mark w took =>
      cases took with
      | true =>
        obtain rfl := Status.done.inj hdone
        exact ⟨es, [], rfl, hnone (hlast rfl)⟩
      | false => exact hstays hdone
    | report w => exact hstays hdone

end Legal

/-! ### Holders -/

section Owned

variable {C : Type*} [LinearOrder T]

/-- The grants that their holders have not given back, the last one first, and the record `st`: a
grant under a live lease has the record, and no other grant came after it. -/
def Owned (st : Status T V) (now : T) (standing : List (C × WithTop T)) : Prop :=
  ∀ p ∈ standing, (now : WithTop T) < p.2 → st = .held p.2 ∧ standing.head? = some p

/-- The grants that stand once `c` has released or completed the record. -/
def leave [DecidableEq C] (c : C) (standing : List (C × WithTop T)) : List (C × WithTop T) :=
  standing.filter fun p => p.1 ≠ c

/-- Another caller than `c` has a grant under a live lease. -/
def Disturbs (c : C) (now : T) (standing : List (C × WithTop T)) : Prop :=
  ∃ p ∈ standing, p.1 ≠ c ∧ (now : WithTop T) < p.2

theorem owned_nil (st : Status T V) (now : T) : Owned st now ([] : List (C × WithTop T)) :=
  fun _ hp => absurd hp List.not_mem_nil

/-- Leases lapse. -/
theorem Owned.later {st : Status T V} {now now' : T} {standing : List (C × WithTop T)}
    (h : Owned st now standing) (hle : now ≤ now') : Owned st now' standing :=
  fun p hp hlive => h p hp ((WithTop.coe_le_coe.mpr hle).trans_lt hlive)

/-- A grant finds every other lease lapsed. -/
theorem Owned.grant {st : Status T V} {now : T} {standing : List (C × WithTop T)}
    (h : Owned st now standing) (hgrants : st.grants now = true) (c : C) (u : WithTop T) :
    Owned (.held u : Status T V) now ((c, u) :: standing) := by
  intro p hp hlive
  rcases List.mem_cons.mp hp with rfl | hold
  · exact ⟨rfl, rfl⟩
  · obtain ⟨rfl, -⟩ := h p hold hlive
    exact absurd (of_decide_eq_true hgrants) (not_le.mpr hlive)

/-- A live lease of `c` leaves no room for another. -/
theorem Owned.not_disturbs {st : Status T V} {now : T} {standing : List (C × WithTop T)}
    (h : Owned st now standing) {c : C} {u : WithTop T} (hc : (c, u) ∈ standing)
    (hlive : (now : WithTop T) < u) : ¬ Disturbs c now standing := by
  rintro ⟨p, hp, hne, hplive⟩
  have hhead := (h (c, u) hc hlive).2.symm.trans (h p hp hplive).2
  obtain rfl := Option.some.inj hhead
  exact hne rfl

variable [DecidableEq C]

/-- **The law of a release or a completion**: it keeps the holders' rights just when no other caller
has a live lease. -/
theorem Owned.leave_iff {st st' : Status T V} {now : T} {standing : List (C × WithTop T)}
    (h : Owned st now standing) (c : C)
    (hends : ∀ u, st = .held u → (now : WithTop T) < u → ∀ u', st' ≠ .held u') :
    Owned st' now (leave c standing) ↔ ¬ Disturbs c now standing := by
  constructor
  · rintro hafter ⟨p, hp, hne, hlive⟩
    have hstands : p ∈ leave c standing := List.mem_filter.mpr ⟨hp, decide_eq_true hne⟩
    exact hends p.2 (h p hp hlive).1 hlive p.2 (hafter p hstands hlive).1
  · intro hno p hp hlive
    obtain ⟨hold, hne⟩ := List.mem_filter.mp hp
    exact absurd ⟨p, hold, of_decide_eq_true hne, hlive⟩ hno

end Owned

end Lease
