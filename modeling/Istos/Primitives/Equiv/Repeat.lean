import Istos.Primitives.Handler

/-!
# A body that has returned

`HandlerCalls.OnceOnly` says that no body begins after one has returned for the key, as long as the
lease is live under which it returned, and that none begins after `mark_processed` has returned.

A call whose body has returned may still release the key: a return value may be invalid, a teardown
may raise, and the call may be cancelled.  And nobody looks at a lease again once it is granted.
`HandlerCalls.Late` are the steps that such a call takes.

* `body_not_repeated`: in a run without such a step, `OnceOnly` holds.
-/

namespace Istos

open Lease

/-- The lease of a call that has not given its grant back. -/
def CallPhase.working? {S : Type} : CallPhase S → Option (WithTop S)
  | resolving lease => some lease
  | outer lease _ => some lease
  | body lease _ => some lease
  | waiting lease _ => some lease
  | recording lease _ _ => some lease
  | _ => none

/-- The lease of a call that is about to end. -/
def CallPhase.leaving? {S : Type} : CallPhase S → Option (WithTop S)
  | closing lease _ => some lease
  | releasing lease _ => some lease
  | _ => none

/-- The second event is a body that must not begin after the first. -/
def CallEvent.Repeats {C S : Type} [LinearOrder S] : CallEvent C S → CallEvent C S → Prop
  | bodyReturned _ _ lease, started _ now => now < lease
  | marked _, started _ _ => True
  | _, _ => False

/-- Only the start of a body repeats one. -/
theorem CallEvent.not_repeats_of_ne {C S : Type} [LinearOrder S] {e e' : CallEvent C S}
    (hne : ∀ c now, e' ≠ .started c now) : ¬ e.Repeats e' := by
  intro hrepeats
  cases e' with
  | started c now => exact hne c now rfl
  | _ => cases e <;> exact hrepeats

/-- The call that begins its body. -/
def CallAction.starter {C T S F : Type} (h : HandlerWrapper F T) : CallAction C T S F → Option C
  | resolved c => if h.middleware then none else some c
  | wake c => if h.middleware then none else some c
  | next c => some c
  | _ => none

namespace HandlerCalls

variable {σ C T S F : Type} [DecidableEq C] [LinearOrder S]

/-- **No body is run again.** -/
def OnceOnly (m : HandlerCalls σ C S) : Prop := m.log.Pairwise fun e e' => ¬ e.Repeats e'

/-- The body of a call has returned under its lease. -/
def Returned (m : HandlerCalls σ C S) (c : C) (lease : WithTop S) : Prop :=
  ∃ v, .bodyReturned c v lease ∈ m.log

/-- The body of a call has returned, or its lease has lapsed. -/
def Spent (m : HandlerCalls σ C S) (c : C) (lease : WithTop S) (now : S) : Prop :=
  m.Returned c lease ∨ lease ≤ now

section Late

variable (B : LeasedStorage σ T S) (h : HandlerWrapper F T) (key : String)

/-- A lease on the key is live. -/
def Held (m : HandlerCalls σ C S) (now : S) : Prop :=
  ∃ lease, B.Has m.store key (.held lease) ∧ (now : WithTop S) < lease

/-- The key is done, or a lease on it is live. -/
def Taken (m : HandlerCalls σ C S) : Prop :=
  (∃ v, B.Has m.store key (.done v)) ∨ m.Held B key m.clock

/-- A call whose body has returned, or whose lease has lapsed, goes on as if it had the key:

* it begins the body, and the key is done, or there is a live lease on it;
* it releases the key, and there is a live lease on it;
* its lease has lapsed, it completes the key, and there is a live lease on it. -/
def Late (m : HandlerCalls σ C S) (a : CallAction C T S F) : Prop :=
  (∃ c lease, a.starter h = some c ∧ (m.phase c).working? = some lease ∧ m.Spent c lease m.clock ∧
    m.Taken B key) ∨
  match a with
  | .released c x end' => end'.applied = true ∧
    ∃ lease e, m.phase c = .releasing lease e ∧ m.Spent c lease (B.now x) ∧ m.Held B key (B.now x)
  | .written c x _ end' => end'.applied = true ∧
    ∃ lease v, m.phase c = .recording lease v .mark ∧ lease ≤ B.now x ∧ m.Held B key (B.now x)
  | _ => False

end Late

/-! ### What the storage keeps -/

/-- The record, the standing grants and what has happened fit. -/
structure Kept (st : Status S Value) (now : S) (standing : List (C × WithTop S))
    (log : List (CallEvent C S)) : Prop where
  owned : Owned st now standing
  returned : ∀ c v lease, .bodyReturned c v lease ∈ log → (now : WithTop S) < lease →
    (∃ w, st = .done w) ∨ (c, lease) ∈ standing
  marked : ∀ c, .marked c ∈ log → ∃ w, st = .done w

omit [DecidableEq C] in
theorem Kept.later {st : Status S Value} {now now' : S} {standing : List (C × WithTop S)}
    {log : List (CallEvent C S)} (hkept : Kept st now standing log) (hle : now ≤ now') :
    Kept st now' standing log where
  owned := hkept.owned.later hle
  returned c v lease hmem hlive :=
    hkept.returned c v lease hmem ((WithTop.coe_le_coe.mpr hle).trans_lt hlive)
  marked := hkept.marked

omit [DecidableEq C] in
/-- A claim that is granted finds no live lease and nothing done. -/
theorem Kept.grant {st : Status S Value} {now : S} {standing standing' : List (C × WithTop S)}
    {log : List (CallEvent C S)} (hkept : Kept st now standing log) (hgrants : st.grants now = true)
    {lease : WithTop S} (howned : Owned (.held lease : Status S Value) now standing')
    (hsub : ∀ p ∈ standing, p ∈ standing') : Kept (.held lease) now standing' log where
  owned := howned
  returned c v lease' hmem hlive := by
    rcases hkept.returned c v lease' hmem hlive with ⟨w, rfl⟩ | hstands
    · cases hgrants
    · exact Or.inr (hsub _ hstands)
  marked c hmem := by
    obtain ⟨w, rfl⟩ := hkept.marked c hmem
    cases hgrants

omit [DecidableEq C] in
/-- **A claim**, with or without a caller that is told. -/
theorem Kept.claim {st : Status S Value} {now : S} {standing : List (C × WithTop S)}
    {log : List (CallEvent C S)} (hkept : Kept st now standing log) (lease : WithTop S) :
    Kept (st.claim now lease) now standing log := by
  cases hgrants : st.grants now with
  | false =>
    rw [Status.claim_of_refuses hgrants]
    exact hkept
  | true =>
    rw [Status.claim_of_grants hgrants]
    refine hkept.grant hgrants (fun p hp hlive => ?_) fun p hp => hp
    -- a live lease would have refused the claim
    obtain ⟨rfl, -⟩ := hkept.owned p hp hlive
    rw [Status.grants_held_of_lt hlive] at hgrants
    cases hgrants

omit [DecidableEq C] in
/-- The grant of a call that is told. -/
theorem Kept.claimed {st : Status S Value} {now : S} {standing : List (C × WithTop S)}
    {log : List (CallEvent C S)} (hkept : Kept st now standing log) (hgrants : st.grants now = true)
    (c : C) (lease : WithTop S) : Kept (.held lease) now ((c, lease) :: standing) log :=
  hkept.grant hgrants (hkept.owned.grant hgrants c lease) fun _ hp => List.mem_cons_of_mem _ hp

/-- **A completion**. -/
theorem Kept.mark {st : Status S Value} {now : S} {standing : List (C × WithTop S)}
    {log : List (CallEvent C S)} (hkept : Kept st now standing log) (c : C)
    (hno : ¬ Disturbs c now standing) (v : Value) :
    Kept (st.mark v) now (leave c standing) log := by
  have hdone : ∃ w, st.mark v = .done w := by
    cases st with
    | done w => exact ⟨w, rfl⟩
    | _ => exact ⟨v, rfl⟩
  refine ⟨(hkept.owned.leave_iff c fun u _ _ u' heq => ?_).mpr hno, fun _ _ _ _ _ => Or.inl hdone,
    fun _ _ => hdone⟩
  obtain ⟨w, hw⟩ := hdone
  rw [hw] at heq
  cases heq

/-- **A release** by a call that may release. -/
theorem Kept.release {st : Status S Value} {now : S} {standing : List (C × WithTop S)}
    {log : List (CallEvent C S)} (hkept : Kept st now standing log) (c : C)
    (hno : ¬ Disturbs c now standing)
    (hunreturned : ∀ v lease, .bodyReturned c v lease ∈ log → (c, lease) ∈ standing →
      ¬ (now : WithTop S) < lease) (keeps : Bool) :
    Kept (if keeps && st.grants now then st else st.release) now (leave c standing) log where
  owned := by
    refine (hkept.owned.leave_iff c fun lease hst hlive lease' => ?_).mpr hno
    subst hst
    rw [Status.grants_held_of_lt hlive, Bool.and_false, if_neg Bool.false_ne_true]
    exact Status.free_ne_held
  returned d v lease hmem hlive := by
    rcases hkept.returned d v lease hmem hlive with ⟨w, rfl⟩ | hstands
    · exact Or.inl ⟨w, ite_self _⟩
    · by_cases hd : d = c
      · subst hd
        exact absurd hlive (hunreturned v lease hmem hstands)
      · exact absurd ⟨(d, lease), hstands, hd, hlive⟩ hno
  marked d hmem := by
    obtain ⟨w, rfl⟩ := hkept.marked d hmem
    exact ⟨w, ite_self _⟩

/-! ### The invariant -/

variable (B : LeasedStorage σ T S) (h : HandlerWrapper F T) (key : String)

/-- What holds in every state of a run. -/
structure Guarded (m : HandlerCalls σ C S) (st : Status S Value) : Prop where
  has : B.Has m.store key st
  kept : Kept st m.clock m.standing m.log
  working : ∀ c lease, (m.phase c).working? = some lease → (c, lease) ∈ m.standing
  leaving : ∀ c lease, (m.phase c).leaving? = some lease →
    (c, lease) ∈ m.standing ∨ ∃ w, st = .done w
  once : m.OnceOnly

variable {B h key}

omit [DecidableEq C] in
theorem guarded_init (clock : S) : Guarded B key (init B clock : HandlerCalls σ C S) .free where
  has := B.has_init key
  kept := ⟨owned_nil _ _, nofun, nofun⟩
  working := nofun
  leaving := nofun
  once := List.Pairwise.nil

theorem Guarded.goto {m : HandlerCalls σ C S} {st : Status S Value} (hm : Guarded B key m st)
    (c : C) {p : CallPhase S}
    (hworking : ∀ lease, p.working? = some lease → (c, lease) ∈ m.standing)
    (hleaving : ∀ lease, p.leaving? = some lease → (c, lease) ∈ m.standing ∨ ∃ w, st = .done w) :
    Guarded B key (m.goto c p) st where
  has := hm.has
  kept := hm.kept
  working d lease hphase := by
    show (d, lease) ∈ m.standing
    simp only [HandlerCalls.goto, Function.update_apply] at hphase
    split at hphase
    · rename_i hd
      subst hd
      exact hworking lease hphase
    · exact hm.working d lease hphase
  leaving d lease hphase := by
    show (d, lease) ∈ m.standing ∨ _
    simp only [HandlerCalls.goto, Function.update_apply] at hphase
    split at hphase
    · rename_i hd
      subst hd
      exact hleaving lease hphase
    · exact hm.leaving d lease hphase
  once := hm.once

/-- A call that keeps its grant goes on. -/
theorem Guarded.goto_of_mem {m : HandlerCalls σ C S} {st : Status S Value} (hm : Guarded B key m st)
    {c : C} {lease : WithTop S} (hc : (c, lease) ∈ m.standing) {p : CallPhase S}
    (hworking : p.working? = some lease ∨ p.working? = none)
    (hleaving : p.leaving? = some lease ∨ p.leaving? = none) : Guarded B key (m.goto c p) st := by
  refine hm.goto c (fun lease' hp => ?_) fun lease' hp => ?_
  · rcases hworking with hsome | hnone
    · obtain rfl := Option.some.inj (hsome.symm.trans hp)
      exact hc
    · cases hnone.symm.trans hp
  · rcases hleaving with hsome | hnone
    · obtain rfl := Option.some.inj (hsome.symm.trans hp)
      exact Or.inl hc
    · cases hnone.symm.trans hp

omit [DecidableEq C] in
theorem Guarded.add {m : HandlerCalls σ C S} {st : Status S Value} (hm : Guarded B key m st)
    {e : CallEvent C S} (hrepeats : ∀ e' ∈ m.log, ¬ e'.Repeats e)
    (hreturned : ∀ c v lease, e = .bodyReturned c v lease → (c, lease) ∈ m.standing)
    (hmarked : ∀ c, e = .marked c → ∃ w, st = .done w) : Guarded B key (m.add e) st where
  has := hm.has
  kept :=
    { owned := hm.kept.owned
      returned := fun c v lease hmem hlive => by
        rcases List.mem_append.mp hmem with hold | hnew
        · exact hm.kept.returned c v lease hold hlive
        · exact Or.inr (hreturned c v lease (List.mem_singleton.mp hnew).symm)
      marked := fun c hmem => by
        rcases List.mem_append.mp hmem with hold | hnew
        · exact hm.kept.marked c hold
        · exact hmarked c (List.mem_singleton.mp hnew).symm }
  working := hm.working
  leaving := hm.leaving
  once := by
    refine List.pairwise_append.mpr ⟨hm.once, List.pairwise_singleton _ _,
      fun e' he' e'' he'' => ?_⟩
    obtain rfl := List.mem_singleton.mp he''
    exact hrepeats e' he'

/-- A call ends. -/
theorem Guarded.finish {m : HandlerCalls σ C S} {st : Status S Value} (hm : Guarded B key m st)
    (c : C) (o : CallOutcome) : Guarded B key (m.finish c o) st := by
  have hended : Guarded B key (m.goto c .ended) st :=
    hm.goto c (fun _ hp => by cases hp) fun _ hp => by cases hp
  exact hended.add (fun e' _ => CallEvent.not_repeats_of_ne nofun) nofun nofun

/-- **A call that begins the body** has a live lease, so nothing has returned; or it may begin. -/
theorem Guarded.start {m : HandlerCalls σ C S} {st : Status S Value} (hm : Guarded B key m st)
    {c : C} {lease : WithTop S} (hphase : (m.phase c).working? = some lease) (n : ℕ)
    (hlate : ¬ (m.Spent c lease m.clock ∧ m.Taken B key)) :
    Guarded B key (m.start c lease n) st := by
  have hc := hm.working c lease hphase
  have htaken : ¬ m.Taken B key → ∀ e' ∈ m.log, ¬ e'.Repeats (.started c m.clock) := by
    intro hno e' he' hrepeats
    cases e' with
    | bodyReturned d v lease' =>
      rcases hm.kept.returned d v lease' he' hrepeats with ⟨w, rfl⟩ | hd
      · exact hno (Or.inl ⟨w, hm.has⟩)
      · -- the lease of a body that has returned is the one that the storage has
        obtain ⟨rfl, -⟩ := hm.kept.owned _ hd hrepeats
        exact hno (Or.inr ⟨lease', hm.has, hrepeats⟩)
    | marked d =>
      obtain ⟨w, rfl⟩ := hm.kept.marked d he'
      exact hno (Or.inl ⟨w, hm.has⟩)
    | _ => exact hrepeats
  refine (hm.goto_of_mem hc (Or.inl rfl) (Or.inr rfl)).add ?_ nofun nofun
  show ∀ e' ∈ m.log, ¬ e'.Repeats (.started c m.clock)
  by_cases hspent : m.Spent c lease m.clock
  · exact htaken fun h => hlate ⟨hspent, h⟩
  · have hlive : (m.clock : WithTop S) < lease := not_le.mp fun hle => hspent (Or.inr hle)
    obtain ⟨rfl, hhead⟩ := hm.kept.owned _ hc hlive
    intro e' he' hrepeats
    cases e' with
    | bodyReturned d v lease' =>
      rcases hm.kept.returned d v lease' he' hrepeats with ⟨w, hw⟩ | hd
      · cases hw
      · -- two live leases are one
        have hsame := Option.some.inj (hhead.symm.trans (hm.kept.owned _ hd hrepeats).2)
        obtain ⟨rfl, rfl⟩ := Prod.mk.inj hsame
        exact hspent (Or.inl ⟨v, he'⟩)
    | marked d =>
      obtain ⟨w, hw⟩ := hm.kept.marked d he'
      cases hw
    | _ => exact hrepeats

omit [DecidableEq C] in
/-- Another call with a live lease leaves one that is not spent no room. -/
theorem Guarded.not_disturbs {m : HandlerCalls σ C S} {st : Status S Value}
    (hm : Guarded B key m st) {c : C} {lease : WithTop S}
    (hc : (c, lease) ∈ m.standing ∨ ∃ w, st = .done w) {now : S}
    (hnow : m.clock ≤ now) (hlate : lease ≤ now → ¬ m.Held B key now) :
    ¬ Disturbs c now m.standing := by
  have howned := hm.kept.owned.later hnow
  rintro ⟨p, hp, hne, hlive⟩
  obtain ⟨rfl, -⟩ := howned p hp hlive
  have hheld : m.Held B key now := ⟨p.2, hm.has, hlive⟩
  rcases hc with hc | ⟨w, hw⟩
  · exact howned.not_disturbs hc (not_le.mp fun hle => hlate hle hheld) ⟨p, hp, hne, hlive⟩
  · cases hw

/-- **A storage call** of `c`, and where it gets to. -/
theorem Guarded.asked {m : HandlerCalls σ C S} {st st' : Status S Value} (hm : Guarded B key m st)
    {x : Clock T} (hready : m.Ready B x) {store : σ} (hhas : B.Has store key st')
    {standing : List (C × WithTop S)}
    (hkept : Kept st (B.now x) m.standing m.log → Kept st' (B.now x) standing m.log)
    (hdone : ∀ w, st = .done w → st' = .done w) {c : C}
    (hothers : ∀ d lease, d ≠ c → (d, lease) ∈ m.standing → (d, lease) ∈ standing) {p : CallPhase S}
    (hworking : ∀ lease, p.working? = some lease → (c, lease) ∈ standing)
    (hleaving : ∀ lease, p.leaving? = some lease → (c, lease) ∈ standing ∨ ∃ w, st' = .done w) :
    Guarded B key ⟨store, B.later x, Function.update m.phase c p, standing, m.log⟩ st' where
  has := hhas
  kept := (hkept (hm.kept.later hready.1)).later hready.2
  working d lease hphase := by
    simp only [Function.update_apply] at hphase
    split at hphase
    · rename_i hd
      subst hd
      exact hworking lease hphase
    · rename_i hd
      exact hothers d lease hd (hm.working d lease hphase)
  leaving d lease hphase := by
    simp only [Function.update_apply] at hphase
    split at hphase
    · rename_i hd
      subst hd
      exact hleaving lease hphase
    · rename_i hd
      rcases hm.leaving d lease hphase with hstands | ⟨w, hw⟩
      · exact Or.inl (hothers d lease hd hstands)
      · exact Or.inr ⟨w, hdone w hw⟩
  once := hm.once

/-- A storage call that leaves the record and the grants as they are. -/
theorem Guarded.asked_same {m : HandlerCalls σ C S} {st : Status S Value} (hm : Guarded B key m st)
    {x : Clock T} (hready : m.Ready B x) {store : σ} (hhas : B.Has store key st) {c : C}
    {lease : WithTop S} (hc : (c, lease) ∈ m.standing) {p : CallPhase S}
    (hworking : p.working? = some lease ∨ p.working? = none)
    (hleaving : p.leaving? = some lease ∨ p.leaving? = none) :
    Guarded B key ⟨store, B.later x, Function.update m.phase c p, m.standing, m.log⟩ st := by
  refine hm.asked hready hhas id (fun _ hw => hw) (fun _ _ _ hp => hp) (fun lease' hp => ?_)
    fun lease' hp => ?_
  · rcases hworking with hsome | hnone
    · obtain rfl := Option.some.inj (hsome.symm.trans hp)
      exact hc
    · cases hnone.symm.trans hp
  · rcases hleaving with hsome | hnone
    · obtain rfl := Option.some.inj (hsome.symm.trans hp)
      exact Or.inl hc
    · cases hnone.symm.trans hp

omit [DecidableEq C] in
theorem Guarded.ended {m : HandlerCalls σ C S} {st : Status S Value} (hm : Guarded B key m st)
    (c : C) (o : CallOutcome) : Guarded B key (m.add (.ended c o)) st :=
  hm.add (fun _ _ => CallEvent.not_repeats_of_ne nofun) nofun nofun

/-- A call that ends after its claim. -/
theorem Guarded.claimEnds {m : HandlerCalls σ C S} {st : Status S Value} (hm : Guarded B key m st)
    {x : Clock T} (hready : m.Ready B x) (c : C) (l : T) (applied : Bool) (o : CallOutcome) :
    ∃ st', Guarded B key ((m.ask B (.claim key l) x applied).finish c o) st' := by
  have hbuild : ∀ {store st'}, B.Has store key st' →
      (st' = st ∨ st' = st.claim (B.now x) (B.lapse x l)) →
      Guarded B key ⟨store, B.later x, Function.update m.phase c .ended, m.standing,
          m.log⟩ st' := by
    intro store st' hhas hst'
    refine hm.asked hready hhas (fun hkept => ?_) (fun w hw => ?_) (fun _ _ _ hp => hp)
      (fun _ hp => by cases hp) (fun _ hp => by cases hp)
    · rcases hst' with rfl | rfl
      · exact hkept
      · exact hkept.claim _
    · subst hw
      rcases hst' with rfl | rfl
      · rfl
      · rfl
  cases applied with
  | false => exact ⟨st, (hbuild hm.has (Or.inl rfl)).ended c o⟩
  | true =>
    rcases B.has_claim x l hm.has with ⟨-, hhas⟩ | ⟨-, hhas⟩
    · exact ⟨_, (hbuild hhas (Or.inr rfl)).ended c o⟩
    · exact ⟨st, (hbuild hhas (Or.inl rfl)).ended c o⟩

theorem Guarded.claim {m : HandlerCalls σ C S} {st : Status S Value} (hm : Guarded B key m st)
    {x : Clock T} (hready : m.Ready B x) (c : C) : ∃ st',
        Guarded B key (m.claim B h key c x) st' := by
  unfold HandlerCalls.claim
  split
  · exact hm.claimEnds hready c h.lease true _
  · exact hm.claimEnds hready c h.lease true _
  · rename_i hanswer
    rcases B.has_claim x h.lease hm.has with ⟨hclaim, hhas⟩ | ⟨hraised, -⟩
    · have hgrants : st.grants (B.now x) = true := by
        have hstate := LedgerAnswer.claim.inj (hclaim.symm.trans hanswer)
        cases st with
        | free => rfl
        | held u =>
          by_cases hle : u ≤ B.now x
          · exact Status.grants_held_of_le hle
          · rw [claimAnswer_of_lt (not_le.mp hle)] at hstate
            cases hstate
        | done v => cases hstate
      rw [Status.claim_of_grants hgrants] at hhas
      refine ⟨_, hm.asked hready hhas (fun hkept => hkept.claimed hgrants c (B.lapse x h.lease))
        (fun w hw => ?_) (fun d lease _ hp => List.mem_cons_of_mem _ hp) (fun lease hp => ?_)
        (fun _ hp => by cases hp)⟩
      · subst hw
        cases hgrants
      · obtain rfl := Option.some.inj hp
        exact List.mem_cons_self
    · rw [hraised] at hanswer
      cases hanswer
  · exact hm.claimEnds hready c h.lease true _

/-- The record and the grants after a completion, carried out or not. -/
theorem Guarded.askedMark {m : HandlerCalls σ C S} {st : Status S Value} (hm : Guarded B key m st)
    {x : Clock T} (hready : m.Ready B x) {c : C} {lease : WithTop S} (hc : (c, lease) ∈ m.standing)
    (v : Value) {applied : Bool}
    (hlate : applied = true → lease ≤ B.now x → ¬ m.Held B key (B.now x)) :
    ∃ st', (applied = true → (B.perform m.store (.mark key v) x).2 ≠ .raised → ∃ w, st' = .done w) ∧
      ∀ p : CallPhase S, p.working? = none → p.leaving? = some lease →
        Guarded B key ⟨(m.ask B (.mark key v) x applied).store, B.later x,
          Function.update m.phase c p, standingAfterWrite B m c (.mark key v) x applied,
              m.log⟩ st' := by
  cases applied with
  | false =>
    have hstanding : standingAfterWrite B m c (.mark key v) x false = m.standing := by
      unfold standingAfterWrite
      split
      · rfl
      · rfl
    rw [hstanding]
    exact ⟨st, nofun, fun p hworking hleaving =>
      hm.asked_same hready hm.has hc (Or.inr hworking) (Or.inl hleaving)⟩
  | true =>
    rcases B.has_mark x v hm.has with ⟨hunit, hhas⟩ | ⟨hraised, hhas⟩
    · have hno : ¬ Disturbs c (B.now x) m.standing :=
        hm.not_disturbs (Or.inl hc) hready.1 (hlate rfl)
      have hstanding : standingAfterWrite B m c (.mark key v) x true = leave c m.standing := by
        unfold standingAfterWrite
        rw [hunit]
        rfl
      rw [hstanding]
      have hdone : ∃ w, st.mark (B.stored v) = .done w := by
        cases st with
        | done w => exact ⟨w, rfl⟩
        | _ => exact ⟨_, rfl⟩
      refine ⟨_, fun _ _ => hdone, fun p hworking hleaving => ?_⟩
      refine hm.asked hready hhas (fun hkept => hkept.mark c hno _) (fun w hw => ?_)
        (fun d lease' hd hp => List.mem_filter.mpr ⟨hp, decide_eq_true hd⟩) (fun lease' hp => ?_)
        fun _ _ => Or.inr hdone
      · subst hw
        rfl
      · cases hworking.symm.trans hp
    · have hstanding : standingAfterWrite B m c (.mark key v) x true = m.standing := by
        unfold standingAfterWrite
        rw [hraised]
      rw [hstanding]
      exact ⟨st, fun _ hne => absurd hraised hne, fun p hworking hleaving =>
        hm.asked_same hready hhas hc (Or.inr hworking) (Or.inl hleaving)⟩

/-- **A completion** comes only while nobody else has a live lease. -/
theorem Guarded.writeMark {m : HandlerCalls σ C S} {st : Status S Value} (hm : Guarded B key m st)
    {x : Clock T} (hready : m.Ready B x) {c : C} {lease : WithTop S} (hc : (c, lease) ∈ m.standing)
    (v serialized : Value) {end' : StorageEnd}
    (hlate : end'.applied = true → lease ≤ B.now x → ¬ m.Held B key (B.now x)) :
    ∃ st', Guarded B key (m.write B h key c lease v .mark x serialized end') st' := by
  obtain ⟨st', hdone, hbuild⟩ := hm.askedMark hready hc v hlate
  refine ⟨st', ?_⟩
  unfold HandlerCalls.write
  cases end' with
  | cancelled applied => exact hbuild (.closing lease (.error .cancelled)) rfl rfl
  | raises applied => exact hbuild (.closing lease (.ok v)) rfl rfl
  | returns =>
    dsimp only
    split
    · exact hbuild (.closing lease (.ok v)) rfl rfl
    · rename_i hanswer
      refine (hbuild (.closing lease (.ok v)) rfl rfl).add
        (fun _ _ => CallEvent.not_repeats_of_ne nofun)
        nofun fun d hd => ?_
      exact hdone rfl hanswer

/-- The other two writes do not touch the key. -/
theorem Guarded.writeOther {m : HandlerCalls σ C S} {st : Status S Value} (hm : Guarded B key m st)
    {x : Clock T} (hready : m.Ready B x) {c : C} {lease : WithTop S} (hc : (c, lease) ∈ m.standing)
    (v serialized : Value) {w : Recording} (hw : w ≠ .mark) (end' : StorageEnd) :
    Guarded B key (m.write B h key c lease v w x serialized end') st := by
  have hbuild : ∀ p : CallPhase S, p.working? = some lease ∨ p.working? = none →
      p.leaving? = some lease ∨ p.leaving? = none →
      Guarded B key ⟨(m.ask B (writeOp h key v serialized w) x end'.applied).store, B.later x,
        Function.update m.phase c p,
        standingAfterWrite B m c (writeOp h key v serialized w) x end'.applied, m.log⟩ st := by
    have hstanding : standingAfterWrite B m c (writeOp h key v serialized w) x end'.applied
        = m.standing := by
      cases w with
      | mark => exact absurd rfl hw
      | _ => rfl
    have hhas : B.Has (m.ask B (writeOp h key v serialized w) x end'.applied).store key st := by
      show B.Has (if end'.applied then _ else m.store) key st
      split
      · cases w with
        | put => exact B.has_put x h.path serialized hm.has
        | log => exact B.has_log x h.path serialized (some key) hm.has
        | mark => exact absurd rfl hw
      · exact hm.has
    rw [hstanding]
    exact fun p => hm.asked_same hready hhas hc
  have hraises : Guarded B key ({ m.ask B (writeOp h key v serialized w) x end'.applied with
      standing :=
        standingAfterWrite B m c (writeOp h key v serialized w) x end'.applied }.writeRaises
          c lease v w) st := by
    cases w with
    | mark => exact absurd rfl hw
    | _ => exact hbuild (.recording lease v .mark) (Or.inl rfl) (Or.inr rfl)
  unfold HandlerCalls.write
  cases end' with
  | cancelled applied => exact hbuild (.closing lease (.error .cancelled)) (Or.inr rfl) (Or.inl rfl)
  | raises applied => exact hraises
  | returns =>
    dsimp only
    split
    · exact hraises
    · cases w with
      | put => exact hbuild (.recording lease v .log) (Or.inl rfl) (Or.inr rfl)
      | log => exact hbuild (.recording lease v .mark) (Or.inl rfl) (Or.inr rfl)
      | mark => exact absurd rfl hw

/-- **A release** comes from a call that is not spent, or nobody has a live lease. -/
theorem Guarded.release {m : HandlerCalls σ C S} {st : Status S Value} (hm : Guarded B key m st)
    {x : Clock T} (hready : m.Ready B x) {c : C} {lease : WithTop S} {e : PyError}
    (hphase : m.phase c = .releasing lease e) {end' : StorageEnd}
    (hlate : end'.applied = true → m.Spent c lease (B.now x) → ¬ m.Held B key (B.now x)) :
    ∃ st', Guarded B key (m.release B key c e x end') st' := by
  have hc : (c, lease) ∈ m.standing ∨ ∃ w, st = .done w := hm.leaving c lease (by rw [hphase]; rfl)
  have hbuild : ∃ st', Guarded B key ⟨(m.ask B (.release key) x end'.applied).store, B.later x,
      Function.update m.phase c .ended,
      if end'.applied then leave c m.standing else m.standing, m.log⟩ st' := by
    cases happlied : end'.applied with
    | false =>
      exact ⟨st, hm.asked hready hm.has id (fun _ hw => hw) (fun _ _ _ hp => hp)
        (fun _ hp => by cases hp) (fun _ hp => by cases hp)⟩
    | true =>
      have hlapsed : lease ≤ B.now x → ¬ m.Held B key (B.now x) :=
        fun hle => hlate happlied (Or.inr hle)
      have hno := hm.not_disturbs hc hready.1 hlapsed
      refine ⟨_, hm.asked hready (B.has_release x hm.has) (fun hkept => ?_) (fun w hw => ?_)
        (fun d lease' hd hp => List.mem_filter.mpr ⟨hp, decide_eq_true hd⟩)
          (fun _ hp => by cases hp)
        fun _ hp => by cases hp⟩
      · refine hkept.release c hno (fun v lease' hmem hstands hlive => ?_) B.keeps
        -- the key is held by this call, whose body has returned
        obtain ⟨rfl, hhead⟩ := hkept.owned _ hstands hlive
        have hheld : m.Held B key (B.now x) := ⟨lease', hm.has, hlive⟩
        rcases hc with hc | ⟨w, hw⟩
        · have hnow : (B.now x : WithTop S) < lease := not_le.mp fun hle => hlapsed hle hheld
          have hsame := Option.some.inj (hhead.symm.trans (hkept.owned _ hc hnow).2)
          obtain ⟨-, rfl⟩ := Prod.mk.inj hsame
          exact hlate happlied (Or.inl ⟨v, hmem⟩) hheld
        · cases hw
      · subst hw
        exact ite_self _
  obtain ⟨st', hbuild⟩ := hbuild
  refine ⟨st', ?_⟩
  unfold HandlerCalls.release
  cases end' with
  | returns => exact hbuild.ended c (.raises e)
  | raises applied => exact hbuild.ended c (.raises e)
  | cancelled applied => exact hbuild.ended c (.raises .cancelled)

variable [LinearOrder F] [Zero F] [One F] [Add F] [Mul F] [FloatPow F]

omit [LinearOrder F] [Zero F] [One F] [Add F] [Mul F] [FloatPow F] in
/-- An attempt begins. -/
theorem Guarded.beginAttempt {m : HandlerCalls σ C S} {st : Status S Value}
    (hm : Guarded B key m st) {c : C} {lease : WithTop S}
    (hphase : (m.phase c).working? = some lease) (n : ℕ)
    (hlate : h.middleware = false → ¬ (m.Spent c lease m.clock ∧ m.Taken B key)) :
    Guarded B key (m.beginAttempt h c lease n) st := by
  unfold HandlerCalls.beginAttempt
  split
  · exact hm.goto_of_mem (hm.working c lease hphase) (Or.inl rfl) (Or.inr rfl)
  · rename_i hmiddleware
    exact hm.start hphase n (hlate (Bool.eq_false_iff.mpr hmiddleware))

omit [LinearOrder F] [Zero F] [One F] [Add F] [Mul F] [FloatPow F] in
theorem Guarded.attemptReturns {m : HandlerCalls σ C S} {st : Status S Value}
    (hm : Guarded B key m st)
    {c : C} {lease : WithTop S} (hc : (c, lease) ∈ m.standing) (v : Value) :
    Guarded B key (m.attemptReturns h c lease v) st := by
  unfold HandlerCalls.attemptReturns
  split
  · exact hm.goto_of_mem hc (Or.inl rfl) (Or.inr rfl)
  · exact hm.goto_of_mem hc (Or.inr rfl) (Or.inl rfl)

theorem Guarded.attemptRaises {m : HandlerCalls σ C S} {st : Status S Value}
    (hm : Guarded B key m st)
    {c : C} {lease : WithTop S} (hc : (c, lease) ∈ m.standing) (n : ℕ) (e : PyError) (draw : F) :
    Guarded B key (m.attemptRaises h c lease n e draw) st := by
  unfold HandlerCalls.attemptRaises
  split
  · exact hm.goto_of_mem hc (Or.inl rfl) (Or.inr rfl)
  · exact hm.goto_of_mem hc (Or.inr rfl) (Or.inl rfl)

omit [DecidableEq C] in
theorem Guarded.tick {m : HandlerCalls σ C S} {st : Status S Value} (hm : Guarded B key m st)
    {t : S} (hle : m.clock ≤ t) : Guarded B key { m with clock := t } st where
  has := hm.has
  kept := hm.kept.later hle
  working := hm.working
  leaving := hm.leaving
  once := hm.once

/-- **One step**. -/
theorem guarded_step (m : HandlerCalls σ C S) (a : CallAction C T S F) (m' : HandlerCalls σ C S)
    (hstep : m.step B h key a = some m') (hlate : ¬ m.Late B h key a)
    (hinv : ∃ st, Guarded B key m st) : ∃ st, Guarded B key m' st := by
  obtain ⟨st, hm⟩ := hinv
  cases a with
  | tick t =>
    rw [step] at hstep
    split at hstep
    · rename_i hle
      obtain rfl := Option.some.inj hstep
      exact ⟨st, hm.tick hle⟩
    · cases hstep
  | call c x =>
    rw [step] at hstep
    split at hstep
    · split at hstep
      · rename_i hready
        obtain rfl := Option.some.inj hstep
        exact hm.claim hready c
      · cases hstep
    · cases hstep
  | callFails c x applied e =>
    rw [step] at hstep
    split at hstep
    · split at hstep
      · rename_i hready
        obtain rfl := Option.some.inj hstep
        exact hm.claimEnds hready c h.lease applied (.raises e)
      · cases hstep
    · cases hstep
  | resolved c =>
    rw [step] at hstep
    split at hstep
    · rename_i lease hphase
      obtain rfl := Option.some.inj hstep
      have hworking : (m.phase c).working? = some lease := by rw [hphase]; rfl
      refine ⟨st, hm.beginAttempt hworking 0 fun hmiddleware hspent => hlate (Or.inl ?_)⟩
      exact ⟨c, lease, if_neg (Bool.eq_false_iff.mp hmiddleware), hworking, hspent⟩
    · cases hstep
  | unresolved c e =>
    rw [step] at hstep
    split at hstep
    · rename_i lease hphase
      obtain rfl := Option.some.inj hstep
      have hc := hm.working c lease (by rw [hphase]; rfl)
      exact ⟨st, hm.goto_of_mem hc (Or.inr rfl) (Or.inl rfl)⟩
    · cases hstep
  | next c =>
    rw [step] at hstep
    split at hstep
    · rename_i lease n hphase
      obtain rfl := Option.some.inj hstep
      have hworking : (m.phase c).working? = some lease := by rw [hphase]; rfl
      exact ⟨st, hm.start hworking n fun hspent => hlate (Or.inl ⟨c, lease, rfl, hworking, hspent⟩)⟩
    · cases hstep
  | bodyReturns c v =>
    rw [step] at hstep
    split at hstep
    · rename_i lease n hphase
      obtain rfl := Option.some.inj hstep
      have hc := hm.working c lease (by rw [hphase]; rfl)
      have hadd : Guarded B key (m.add (.bodyReturned c v lease)) st := by
        refine hm.add (fun _ _ => CallEvent.not_repeats_of_ne nofun)
          (fun d w lease' heq => ?_) nofun
        obtain ⟨rfl, -, rfl⟩ := CallEvent.bodyReturned.inj heq
        exact hc
      refine ⟨st, ?_⟩
      split
      · exact hadd.goto_of_mem hc (Or.inl rfl) (Or.inr rfl)
      · exact hadd.attemptReturns hc v
    · cases hstep
  | bodyRaises c e draw =>
    rw [step] at hstep
    split at hstep
    · rename_i lease n hphase
      obtain rfl := Option.some.inj hstep
      have hc := hm.working c lease (by rw [hphase]; rfl)
      have hadd : Guarded B key (m.add (.bodyRaised c e)) st :=
        hm.add (fun _ _ => CallEvent.not_repeats_of_ne nofun) nofun nofun
      refine ⟨st, ?_⟩
      split
      · exact hadd.goto_of_mem hc (Or.inl rfl) (Or.inr rfl)
      · exact hadd.attemptRaises hc n e draw
    · cases hstep
  | attemptEnds c outcome draw =>
    rw [step] at hstep
    split at hstep
    · rename_i lease n hphase
      have hc := hm.working c lease (by rw [hphase]; rfl)
      cases outcome with
      | ok v =>
        obtain rfl := Option.some.inj hstep
        exact ⟨st, hm.attemptReturns hc v⟩
      | error e =>
        obtain rfl := Option.some.inj hstep
        exact ⟨st, hm.attemptRaises hc n e draw⟩
    · cases hstep
  | wake c =>
    rw [step] at hstep
    split at hstep
    · rename_i lease n hphase
      obtain rfl := Option.some.inj hstep
      have hworking : (m.phase c).working? = some lease := by rw [hphase]; rfl
      refine ⟨st, hm.beginAttempt hworking (n + 1) fun hmiddleware hspent => hlate (Or.inl ?_)⟩
      exact ⟨c, lease, if_neg (Bool.eq_false_iff.mp hmiddleware), hworking, hspent⟩
    · cases hstep
  | cancelSleep c =>
    rw [step] at hstep
    split at hstep
    · rename_i lease n hphase
      obtain rfl := Option.some.inj hstep
      have hc := hm.working c lease (by rw [hphase]; rfl)
      exact ⟨st, hm.goto_of_mem hc (Or.inr rfl) (Or.inl rfl)⟩
    · cases hstep
  | written c x serialized end' =>
    rw [step] at hstep
    split at hstep
    · rename_i lease v w hphase
      split at hstep
      · rename_i hready
        obtain rfl := Option.some.inj hstep
        have hc := hm.working c lease (by rw [hphase]; rfl)
        -- only the completion changes what the key stands at
        by_cases hw : w = .mark
        · subst hw
          refine hm.writeMark hready hc v serialized fun happlied hlapsed hheld => hlate (Or.inr ?_)
          exact ⟨happlied, lease, v, hphase, hlapsed, hheld⟩
        · exact ⟨st, hm.writeOther hready hc v serialized hw end'⟩
      · cases hstep
    · cases hstep
  | closed c end' =>
    rw [step] at hstep
    split at hstep
    · rename_i lease outcome hphase
      have hc := hm.leaving c lease (by rw [hphase]; rfl)
      have hreleasing : ∀ e, Guarded B key (m.goto c (.releasing lease e)) st := by
        refine fun e => hm.goto c (fun _ hp => by cases hp) fun lease' hp => ?_
        obtain rfl := Option.some.inj hp
        exact hc
      cases end' with
      | returns =>
        cases outcome with
        | ok v =>
          obtain rfl := Option.some.inj hstep
          exact ⟨st, hm.finish c (.returns v)⟩
        | error e =>
          obtain rfl := Option.some.inj hstep
          exact ⟨st, hreleasing e⟩
      | raises e =>
        obtain rfl := Option.some.inj hstep
        exact ⟨st, hreleasing e⟩
      | swallows =>
        cases outcome with
        | ok v => cases hstep
        | error e =>
          obtain rfl := Option.some.inj hstep
          exact ⟨st, hm.finish c (.returns .none)⟩
    · cases hstep
  | released c x end' =>
    rw [step] at hstep
    split at hstep
    · rename_i lease e hphase
      split at hstep
      · rename_i hready
        obtain rfl := Option.some.inj hstep
        refine hm.release hready hphase fun happlied hspent hheld => hlate (Or.inr ?_)
        exact ⟨happlied, lease, e, hphase, hspent, hheld⟩
      · cases hstep
    · cases hstep

end HandlerCalls

/-- **An exactly-once body is not run again** after it has returned: not while the lease is live
under which it returned, and not at all after its completion, in a run in which no call goes on as
if it had the key once its body has returned or its lease has lapsed. -/
theorem body_not_repeated {σ C T S F : Type} [DecidableEq C] [LinearOrder S] [LinearOrder F]
    [Zero F] [One F] [Add F] [Mul F] [FloatPow F] (B : LeasedStorage σ T S)
    (h : HandlerWrapper F T) (key : String) {clock : S} {as : List (CallAction C T S F)}
    {m : HandlerCalls σ C S}
    (hrun : Steps.run (HandlerCalls.step B h key) (HandlerCalls.init B clock) as = some m)
    (hlate : Steps.Along (HandlerCalls.step B h key) (fun m a => ¬ m.Late B h key a)
      (HandlerCalls.init B clock) as) : m.OnceOnly := by
  obtain ⟨st, hm⟩ := Steps.run_invariant HandlerCalls.guarded_step hrun hlate
    ⟨.free, HandlerCalls.guarded_init clock⟩
  exact hm.once

/-! ### A return value that is not valid -/

/-- `**` of whole numbers, as far as a float reaches. -/
@[reducible] def FloatPow.whole :
    FloatPow ℤ := ⟨fun x n => if |x ^ n| < 2 ^ 1024 then some (x ^ n) else none⟩

/-- A handler without retries and without middleware. -/
def plainHandler (validateReturn : Value → Option Value) : HandlerWrapper ℤ ℤ where
  path := "orders/pay"
  retryPolicy := ⟨0, 1, 2, 60, 0, none⟩
  middleware := false
  validateReturn := validateReturn
  lease := 10

/-- The readings of a storage call at an instant. -/
def Clock.at' (t : ℤ) : Clock ℤ := ⟨.nan, t, t, t, t, t⟩

/-- A call pays and is told so, and a second one is given its result. -/
def paidOnce : List (CallAction Bool ℤ ℤ ℤ) :=
  [.call false (.at' 0), .resolved false, .bodyReturns false (.json (.str "paid")),
    .written false (.at' 1) .none .returns, .written false (.at' 1) .none .returns,
    .written false (.at' 1) .none .returns, .closed false .returns, .call true (.at' 2)]

theorem body_not_repeated_paid :
    let _ := FloatPow.whole
    ∃ m, Steps.run (HandlerCalls.step (.inMemory ℤ) (plainHandler some) "k")
        (HandlerCalls.init (.inMemory ℤ) 0) paidOnce = some m ∧ m.OnceOnly := by
  intro _
  have hrun : ∃ m, Steps.run (HandlerCalls.step (.inMemory ℤ) (plainHandler some) "k")
      (HandlerCalls.init (.inMemory ℤ) 0) paidOnce = some m := ⟨_, rfl⟩
  obtain ⟨m, hrun⟩ := hrun
  refine ⟨m, hrun, body_not_repeated _ _ _ hrun ?_⟩
  refine ⟨?_, ?_, ?_, ?_, ?_, ?_, ?_, ?_, trivial⟩
  · rintro (⟨c, lease, hc, -⟩ | hlate)
    · cases hc
    · exact hlate
  · -- the body begins under a live lease, before anything has returned
    rintro (⟨c, lease, hc, hphase, ⟨v, hmem⟩ | hlapsed, -⟩ | hlate)
    · cases hmem
    · cases hc
      cases hphase
      exact absurd (WithTop.coe_le_coe.mp hlapsed) (show ¬ (10 : ℤ) ≤ 0 by decide)
    · exact hlate
  · rintro (⟨c, lease, hc, -⟩ | hlate)
    · cases hc
    · exact hlate
  · rintro (⟨c, lease, hc, -⟩ | ⟨-, lease, v, hphase, -⟩)
    · cases hc
    · cases hphase
  · rintro (⟨c, lease, hc, -⟩ | ⟨-, lease, v, hphase, -⟩)
    · cases hc
    · cases hphase
  · -- the key is completed under a live lease
    rintro (⟨c, lease, hc, -⟩ | ⟨-, lease, v, hphase, hlapsed, -⟩)
    · cases hc
    · cases hphase
      exact absurd (WithTop.coe_le_coe.mp hlapsed) (show ¬ (10 : ℤ) ≤ 1 by decide)
  · rintro (⟨c, lease, hc, -⟩ | hlate)
    · cases hc
    · exact hlate
  · rintro (⟨c, lease, hc, -⟩ | hlate)
    · cases hc
    · exact hlate

/-- **The return value of the first call is not valid**: the call fails and releases the key, and a
second call runs the body again, with the first one's lease live. -/
theorem invalid_return_repeated :
    let _ := FloatPow.whole
    ∃ m, Steps.run (HandlerCalls.step (.inMemory ℤ) (plainHandler fun _ => none) "k")
        (HandlerCalls.init (.inMemory ℤ) 0)
        [.call false (.at' 0), .resolved false, .bodyReturns false (.json (.str "paid")),
          .closed false .returns, .released false (.at' 1) .returns, .call true (.at' 2),
          .resolved true] = some m ∧
      m.log = [.started false 0, .bodyReturned false (.json (.str "paid")) ((10 : ℤ) : WithTop ℤ),
        .ended false (.raises .invalidReturn), .started true 2] ∧ ¬ m.OnceOnly := by
  intro _
  refine ⟨_, rfl, rfl, fun h => ?_⟩
  have hlast := (List.pairwise_cons.mp (List.pairwise_cons.mp h).2).1 (.started true 2)
    (List.mem_cons_of_mem _ List.mem_cons_self)
  exact hlast (WithTop.coe_lt_coe.mpr (show (2 : ℤ) < 10 by decide))

end Istos
