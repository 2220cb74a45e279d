import Istos.Agent.Approval
import Mathlib.Data.Int.ConditionallyCompleteOrder

/-!
# What was decided is what happens

A request leaves its pending state once (`ApprovalGate.settled_run`), and `ApprovalGate.Faithful`
says that a waiter ends as the state of its request says.

* `approval_verdicts`: so it is in every state of a run just when no timer fires for a request that
  was approved or denied already, and nobody waits for a pending request of an earlier run.

A request without an event is one that nobody waits for, so that what `Sound` says of events it says
of the requests with a waiter (`ApprovalGate.Awaited`).
-/

namespace Istos

/-- The state of a request that a verdict speaks of. -/
def Verdict.state? {T : Type} : Verdict T → Option ApprovalState
  | returned _ => some .approved
  | denied _ => some .denied
  | timedOut _ => some .expired
  | notFound _ => none

/-- A verdict is the one of the recorded request. -/
def Verdict.Fits {T : Type} (record : Option (ApprovalRequest T)) (v : Verdict T) : Prop :=
  (∀ st, v.state? = some st → record.map ApprovalRequest.state = some st) ∧
    ∀ req, v = .returned req → record = some req

theorem ApprovalRequest.settled_fits {T : Type} {req : ApprovalRequest T}
    (h : req.state ≠ .pending) :
    req.settled.Fits (some req) := by
  unfold ApprovalRequest.settled
  cases hst : req.state with
  | pending => exact absurd hst h
  | approved =>
    refine ⟨fun st hv => ?_, fun r hr => ?_⟩
    · rw [← Option.some.inj hv, Option.map_some, hst]
    · rw [Verdict.returned.inj hr]
  | denied =>
    refine ⟨fun st hv => ?_, nofun⟩
    rw [← Option.some.inj hv, Option.map_some, hst]
  | expired =>
    refine ⟨fun st hv => ?_, nofun⟩
    rw [← Option.some.inj hv, Option.map_some, hst]

namespace ApprovalGate

variable {C T : Type}

/-- A request that is not pending any more. -/
def Settled (m : ApprovalGate C T) (id : String) (req : ApprovalRequest T) : Prop :=
  m.requests id = some req ∧ req.state ≠ .pending

/-- A request that somebody waits for. -/
structure Awaited (m : ApprovalGate C T) (id : String) : Prop where
  filed : ∃ req, m.requests id = some req
  /-- while it is pending, it has its event -/
  listed : ∀ req, m.requests id = some req → req.state = .pending → m.waiters id = true
  /-- a decision sets the event, or is about to -/
  heard : ∀ req, m.requests id = some req → req.state = .approved ∨ req.state = .denied →
    m.isSet id = true ∨ ∃ c, m.phase c = .deciding id true

/-- What holds in every run. -/
structure Sound (m : ApprovalGate C T) : Prop where
  keyed : ∀ id req, m.requests id = some req → req.id = id
  waiting : ∀ c id timed, m.phase c = .waiting id timed → m.Awaited id
  expiring : ∀ c id, m.phase c = .expiring id → ∃ req, m.requests id = some req ∧
    req.state = .expired
  deciding : ∀ c id event, m.phase c = .deciding id event → ∃ req, m.Settled id req
  signalled : ∀ id, m.isSet id = true → ∃ req, m.Settled id req
  /-- what `decide` returned is what is recorded -/
  answered : ∀ id req, .decided id (some req) ∈ m.log → m.Settled id req

/-- Every waiter that has ended got the verdict of its request. -/
def Faithful (m : ApprovalGate C T) : Prop :=
  ∀ id v, .waited id v ∈ m.log → v.Fits (m.requests id)

theorem sound_init (clock : T) (timeout : Option T) :
    (init clock timeout : ApprovalGate C T).Sound where
  keyed := nofun
  waiting := nofun
  expiring := nofun
  deciding := nofun
  signalled := nofun
  answered := nofun

/-! ### What an action may do -/

/-- What a coroutine in this phase relies on. -/
structure Relies (m : ApprovalGate C T) (p : ApprovalPhase) : Prop where
  waiting : ∀ id timed, p = .waiting id timed → m.Awaited id
  expiring : ∀ id, p = .expiring id → ∃ req, m.requests id = some req ∧ req.state = .expired
  deciding : ∀ id event, p = .deciding id event → ∃ req, m.Settled id req

theorem relies_idle (m : ApprovalGate C T) : m.Relies .idle where
  waiting := nofun
  expiring := nofun
  deciding := nofun

theorem Sound.relies {m : ApprovalGate C T} (h : m.Sound) (c : C) : m.Relies (m.phase c) where
  waiting := h.waiting c
  expiring := h.expiring c
  deciding := h.deciding c

/-- A coroutine goes on, and no request changes: events are set and removed for settled requests
only, and a decision that goes on has set its event. -/
theorem Sound.move [DecidableEq C] {m m' : ApprovalGate C T} (h : m.Sound) (c : C)
    {p : ApprovalPhase} (hrequests : m'.requests = m.requests)
    (hphase : m'.phase = Function.update m.phase c p) (hp : m.Relies p)
    (hwaiters : ∀ id, m'.waiters id = m.waiters id ∨ ∃ req, m.Settled id req)
    (hset : ∀ id, m.isSet id = true → m'.isSet id = true)
    (hnew : ∀ id, m'.isSet id = true → m.isSet id = true ∨ ∃ req, m.Settled id req)
    (hgone : ∀ id, m.phase c = .deciding id true → m'.isSet id = true)
    (hlog : ∀ id req, .decided id (some req) ∈ m'.log →
      .decided id (some req) ∈ m.log ∨ m.Settled id req) : m'.Sound := by
  have hsettled : ∀ {id req}, m.Settled id req → m'.Settled id req := by
    rintro id req ⟨hreq, hst⟩
    exact ⟨by rw [hrequests, hreq], hst⟩
  have hrelies : ∀ c', m.Relies (m'.phase c') := by
    intro c'
    rw [hphase, Function.update_apply]
    split
    · exact hp
    · exact h.relies c'
  have hawaited : ∀ {id}, m.Awaited id → m'.Awaited id := by
    intro id hid
    refine ⟨by rw [hrequests]; exact hid.filed, fun req hreq hst => ?_, fun req hreq hst => ?_⟩
    · rw [hrequests] at hreq
      rcases hwaiters id with hsame | ⟨req', hreq', hst'⟩
      · rw [hsame]
        exact hid.listed req hreq hst
      · obtain rfl := Option.some.inj (hreq.symm.trans hreq')
        exact absurd hst hst'
    · rw [hrequests] at hreq
      rcases hid.heard req hreq hst with hold | ⟨c', hc'⟩
      · exact Or.inl (hset id hold)
      · by_cases hc : c' = c
        · subst hc
          exact Or.inl (hgone id hc')
        · right
          refine ⟨c', ?_⟩
          rw [hphase, Function.update_of_ne hc]
          exact hc'
  refine ⟨fun id req hreq => ?_, fun c' id timed hc => ?_, fun c' id hc => ?_,
    fun c' id event hc => ?_, fun id hid => ?_, fun id req hmem => ?_⟩
  · rw [hrequests] at hreq
    exact h.keyed id req hreq
  · exact hawaited ((hrelies c').waiting id timed hc)
  · rw [hrequests]
    exact (hrelies c').expiring id hc
  · obtain ⟨req, hreq⟩ := (hrelies c').deciding id event hc
    exact ⟨req, hsettled hreq⟩
  · rcases hnew id hid with hold | ⟨req, hreq⟩
    · obtain ⟨req, hreq⟩ := h.signalled id hold
      exact ⟨req, hsettled hreq⟩
    · exact ⟨req, hsettled hreq⟩
  · rcases hlog id req hmem with hold | hnow
    · exact hsettled (h.answered id req hold)
    · exact hsettled hnow

/-- A pending request is settled: as expired, or by a coroutine that goes to its write next. -/
theorem Sound.settle {m m' : ApprovalGate C T} (h : m.Sound) {id : String}
    {req : ApprovalRequest T} (req' : ApprovalRequest T) (hreq : m.requests id = some req)
    (hpending : req.state = .pending) (hid : req'.id = id) (hst : req'.state ≠ .pending)
    (hrequests : m'.requests = Function.update m.requests id (some req'))
    (hwaiters : m'.waiters = m.waiters) (hset : m'.isSet = m.isSet) (hlog : m'.log = m.log)
    (hphase : ∀ c, m'.phase c = m.phase c ∨ (∀ id', m.phase c ≠ .deciding id' true) ∧
      m'.Relies (m'.phase c))
    (hdecided : req'.state = .approved ∨ req'.state = .denied → m.waiters id = true →
      ∃ c, m'.phase c = .deciding id true) :
    m'.Sound := by
  have hself : m'.requests id = some req' := by rw [hrequests, Function.update_self]
  have hother : ∀ {id'}, id' ≠ id → m'.requests id' = m.requests id' := by
    intro id' hne
    rw [hrequests, Function.update_of_ne hne]
  -- the request was pending, so what was settled before is another one
  have hsettled : ∀ {id' r}, m.Settled id' r → m'.Settled id' r := by
    rintro id' r ⟨hr, hrst⟩
    have hne : id' ≠ id := by
      rintro rfl
      obtain rfl := Option.some.inj (hr.symm.trans hreq)
      exact hrst hpending
    exact ⟨by rw [hother hne, hr], hrst⟩
  have hawaited : ∀ {id'}, m.Awaited id' → m'.Awaited id' := by
    intro id' hid'
    by_cases hne : id' = id
    · subst hne
      refine ⟨⟨req', hself⟩, fun r hr hrst => ?_, fun r hr hrst => ?_⟩
      · obtain rfl := Option.some.inj (hr.symm.trans hself)
        exact absurd hrst hst
      · obtain rfl := Option.some.inj (hr.symm.trans hself)
        exact Or.inr (hdecided hrst (hid'.listed req hreq hpending))
    · refine ⟨by rw [hother hne]; exact hid'.filed, fun r hr hrst => ?_, fun r hr hrst => ?_⟩
      · rw [hother hne] at hr
        rw [hwaiters]
        exact hid'.listed r hr hrst
      · rw [hother hne] at hr
        rw [hset]
        rcases hid'.heard r hr hrst with hold | ⟨c, hc⟩
        · exact Or.inl hold
        · right
          refine ⟨c, ?_⟩
          rcases hphase c with hsame | ⟨hno, -⟩
          · rw [hsame]
            exact hc
          · exact absurd hc (hno id')
  have hrelies : ∀ c, m'.Relies (m'.phase c) := by
    intro c
    rcases hphase c with hsame | ⟨-, hp⟩
    · rw [hsame]
      refine ⟨fun id' timed hc => hawaited (h.waiting c id' timed hc), fun id' hc => ?_,
        fun id' event hc => ?_⟩
      · obtain ⟨r, hr, hrst⟩ := h.expiring c id' hc
        have hold : m.Settled id' r := ⟨hr, by rw [hrst]; decide⟩
        exact ⟨r, (hsettled hold).1, hrst⟩
      · obtain ⟨r, hr⟩ := h.deciding c id' event hc
        exact ⟨r, hsettled hr⟩
    · exact hp
  refine ⟨fun id' r hr => ?_, fun c => (hrelies c).waiting, fun c => (hrelies c).expiring,
    fun c => (hrelies c).deciding, fun id' hid' => ?_, fun id' r hmem => ?_⟩
  · by_cases hne : id' = id
    · subst hne
      obtain rfl := Option.some.inj (hr.symm.trans hself)
      exact hid
    · rw [hother hne] at hr
      exact h.keyed id' r hr
  · rw [hset] at hid'
    obtain ⟨r, hr⟩ := h.signalled id' hid'
    exact ⟨r, hsettled hr⟩
  · rw [hlog] at hmem
    exact hsettled (h.answered id' r hmem)

/-- Old verdicts fit a request that changes only when it is settled. -/
theorem Faithful.settle {m m' : ApprovalGate C T} (h : m.Faithful) {id : String}
    (hopen : ∀ req, m.requests id = some req → req.state = .pending) {req' : ApprovalRequest T}
    (hrequests : m'.requests = Function.update m.requests id (some req')) (hlog : m'.log = m.log) :
    m'.Faithful := by
  intro id' v hmem
  rw [hlog] at hmem
  have hold := h id' v hmem
  by_cases hne : id' = id
  · subst hne
    have hnone : v.state? = none := by
      cases hv : v.state? with
      | none => rfl
      | some st =>
        have hrecord := hold.1 st hv
        cases hreq : m.requests id' with
        | none =>
          rw [hreq] at hrecord
          cases hrecord
        | some req =>
          rw [hreq, Option.map_some, hopen req hreq] at hrecord
          obtain rfl := Option.some.inj hrecord
          cases v <;> cases hv
    refine ⟨fun st hv => ?_, fun r hr => ?_⟩
    · rw [hnone] at hv
      cases hv
    · subst hr
      cases hnone
  · rw [hrequests, Function.update_of_ne hne]
    exact hold

/-- A coroutine is answered, and no request changes. -/
theorem Faithful.move {m m' : ApprovalGate C T} (h : m.Faithful)
    (hrequests : m'.requests = m.requests)
    (hlog : ∀ id v, .waited id v ∈ m'.log → .waited id v ∈ m.log ∨ v.Fits (m.requests id)) :
    m'.Faithful := by
  intro id v hmem
  rw [hrequests]
  rcases hlog id v hmem with hold | hnow
  · exact h id v hold
  · exact hnow

variable [DecidableEq C]

/-- A request stays settled. -/
def Keeps (m m' : ApprovalGate C T) : Prop := ∀ id req, m.Settled id req → m'.Settled id req

omit [DecidableEq C] in
theorem Keeps.of_requests {m m' : ApprovalGate C T} (h : m'.requests = m.requests) :
    m.Keeps m' := by
  rintro id req ⟨hreq, hst⟩
  exact ⟨by rw [h, hreq], hst⟩

omit [DecidableEq C] in
theorem Keeps.of_update {m m' : ApprovalGate C T} {id : String}
    (hopen : ∀ req, m.requests id = some req → req.state = .pending)
    {req' : Option (ApprovalRequest T)}
    (h : m'.requests = Function.update m.requests id req') : m.Keeps m' := by
  rintro id' req ⟨hreq, hst⟩
  have hne : id' ≠ id := by
    rintro rfl
    exact hst (hopen req hreq)
  exact ⟨by rw [h, Function.update_of_ne hne, hreq], hst⟩

/-- A waiter times out on a request that was approved or denied, or `wait` meets a pending request
that has no event, as an earlier run has filed it. -/
def Late (m : ApprovalGate C T) : ApprovalAction C T → Prop
  | .timeOut c => ∃ id req, m.phase c = .waiting id true ∧ m.requests id = some req ∧
      (req.state = .approved ∨ req.state = .denied)
  | .wait _ id _ => ∃ req, m.requests id = some req ∧ req.state = .pending ∧ m.waiters id = false
  | _ => False

/-- What an action preserves. -/
def Correct (m : ApprovalGate C T) : Prop := m.Sound ∧ m.Faithful

/-- A coroutine goes on without a change of any request: it is answered, or not. -/
theorem Correct.move {m m' : ApprovalGate C T} (h : m.Correct) (c : C) {p : ApprovalPhase}
    (hrequests : m'.requests = m.requests) (hphase : m'.phase = Function.update m.phase c p)
    (hp : m.Relies p) (hwaiters : ∀ id, m'.waiters id = m.waiters id ∨ ∃ req, m.Settled id req)
    (hset : m'.isSet = m.isSet) (hold : ∀ id, m.phase c ≠ .deciding id true)
    (hlog : ∀ e ∈ m'.log, e ∈ m.log ∨ (∀ id v, e = .waited id v → v.Fits (m.requests id)) ∧
      ∀ id req, e = .decided id (some req) → m.Settled id req) : m'.Correct := by
  refine ⟨h.1.move c hrequests hphase hp hwaiters ?_ ?_ (fun id hid => absurd hid (hold id)) ?_,
    h.2.move hrequests ?_⟩
  · intro id hid
    rw [hset]
    exact hid
  · intro id hid
    rw [hset] at hid
    exact Or.inl hid
  · intro id req hmem
    exact (hlog _ hmem).imp_right fun hnew => hnew.2 id req rfl
  · intro id v hmem
    exact (hlog _ hmem).imp_right fun hnew => hnew.1 id v rfl

theorem Correct.goto {m : ApprovalGate C T} (h : m.Correct) {c : C} {p : ApprovalPhase}
    (hold : ∀ id, m.phase c ≠ .deciding id true) (hp : m.Relies p) : (m.goto c p).Correct := by
  refine h.move c rfl rfl hp (fun id => Or.inl rfl) rfl hold fun e he => Or.inl he

theorem Correct.waited {m : ApprovalGate C T} (h : m.Correct) {c : C} {id : String} {v : Verdict T}
    (hold : ∀ id', m.phase c ≠ .deciding id' true) (hv : v.Fits (m.requests id)) :
    (m.answer c (.waited id v)).Correct := by
  refine h.move c rfl rfl m.relies_idle (fun id => Or.inl rfl) rfl hold fun e he => ?_
  rcases List.mem_append.mp he with he | he
  · exact Or.inl he
  · obtain rfl := List.mem_singleton.mp he
    refine Or.inr ⟨fun id' v' heq => ?_, nofun⟩
    obtain ⟨rfl, rfl⟩ := ApprovalEvent.waited.inj heq
    exact hv

/-- The end of `wait`. -/
theorem Correct.ended {m : ApprovalGate C T} (h : m.Correct) {c : C} {id : String}
    {req : ApprovalRequest T} (hsettled : m.Settled id req) {v : Verdict T}
    (hold : ∀ id', m.phase c ≠ .deciding id' true) (hv : v.Fits (some req)) :
    (m.ended c id v).Correct := by
  refine h.move c rfl rfl m.relies_idle (fun id' => ?_) rfl hold fun e he => ?_
  · by_cases hne : id' = id
    · subst hne
      exact Or.inr ⟨req, hsettled⟩
    · exact Or.inl (Function.update_of_ne hne ..)
  · rcases List.mem_append.mp he with he | he
    · exact Or.inl he
    · obtain rfl := List.mem_singleton.mp he
      refine Or.inr ⟨fun id' v' heq => ?_, nofun⟩
      obtain ⟨rfl, rfl⟩ := ApprovalEvent.waited.inj heq
      rw [hsettled.1]
      exact hv

/-- A timeout does not fit a request that was approved or denied. -/
theorem not_faithful_lapse {m : ApprovalGate C T} {c : C} {req : ApprovalRequest T}
    (hreq : m.requests req.id = some req) (hst : req.state = .approved ∨ req.state = .denied) :
    ¬ (m.lapse c req).Faithful := by
  intro hfaithful
  unfold lapse at hfaithful
  split at hfaithful
  · rename_i hpending
    rw [hpending] at hst
    revert hst
    decide
  · have hfits := hfaithful req.id (undecided req)
      (List.mem_append_right _ (List.mem_singleton.mpr rfl))
    have hrecord : (m.requests req.id).map ApprovalRequest.state = some .expired :=
      hfits.1 .expired rfl
    rw [hreq, Option.map_some] at hrecord
    rw [Option.some.inj hrecord] at hst
    revert hst
    decide

/-- **The end of a waiter's time** fits just when nobody has approved or denied its request. -/
theorem Correct.lapse_iff {m : ApprovalGate C T} (h : m.Correct) {c : C} {id : String}
    {req : ApprovalRequest T} (hreq : m.requests id = some req)
    (hold : ∀ id', m.phase c ≠ .deciding id' true) :
    (m.lapse c req).Correct ↔ ¬ (req.state = .approved ∨ req.state = .denied) := by
  have hid : req.id = id := h.1.keyed id req hreq
  subst hid
  constructor
  · exact fun hafter hst => not_faithful_lapse hreq hst hafter.2
  · intro hno
    unfold lapse
    split
    · rename_i hpending
      have hopen : ∀ r, m.requests req.id = some r → r.state = .pending := by
        intro r hr
        obtain rfl := Option.some.inj (hreq.symm.trans hr)
        exact hpending
      refine ⟨h.1.settle (m.expired req) hreq hpending rfl
        (show ApprovalState.expired ≠ .pending by decide) rfl rfl rfl rfl (fun c' => ?_)
        (fun hst _ => ?_), h.2.settle hopen rfl rfl⟩
      · by_cases hc : c' = c
        · subst hc
          right
          refine ⟨hold, ?_⟩
          show Relies _ (Function.update m.phase c' (.expiring req.id) c')
          rw [Function.update_self]
          refine ⟨nofun, fun id' hid' => ?_, nofun⟩
          obtain rfl := ApprovalPhase.expiring.inj hid'
          exact ⟨m.expired req, Function.update_self .., rfl⟩
        · left
          exact Function.update_of_ne hc ..
      · rcases hst with hst | hst
        · cases hst
        · cases hst
    · rename_i hst
      refine h.ended ⟨hreq, hst⟩ hold ⟨fun st hv => ?_, nofun⟩
      rw [← Option.some.inj hv, Option.map_some]
      cases hstate : req.state with
      | expired => rfl
      | pending => exact absurd hstate hst
      | approved => exact absurd (Or.inl hstate) hno
      | denied => exact absurd (Or.inr hstate) hno

omit [DecidableEq C] in
/-- A new request, filed or recovered: nobody waits for it yet. -/
theorem Correct.file {m m' : ApprovalGate C T} (h : m.Correct) {req : ApprovalRequest T}
    (hnone : m.requests req.id = none)
    (hrequests : m'.requests = Function.update m.requests req.id (some req))
    (hwaiters : ∀ id, id ≠ req.id → m'.waiters id = m.waiters id) (hset : m'.isSet = m.isSet)
    (hphase : m'.phase = m.phase) (hlog : m'.log = m.log) : m'.Correct := by
  have hopen : ∀ r, m.requests req.id = some r → r.state = .pending := by
    intro r hr
    rw [hnone] at hr
    cases hr
  have hkeeps : m.Keeps m' := Keeps.of_update hopen hrequests
  have hself : m'.requests req.id = some req := by rw [hrequests, Function.update_self]
  have hother : ∀ {id}, id ≠ req.id → m'.requests id = m.requests id := by
    intro id hne
    rw [hrequests, Function.update_of_ne hne]
  refine ⟨⟨fun id r hr => ?_, fun c id timed hc => ?_, fun c id hc => ?_,
    fun c id event hc => ?_, fun id hid => ?_, fun id r hmem => ?_⟩,
    h.2.settle hopen hrequests hlog⟩
  · by_cases hne : id = req.id
    · subst hne
      obtain rfl := Option.some.inj (hr.symm.trans hself)
      rfl
    · rw [hother hne] at hr
      exact h.1.keyed id r hr
  · rw [hphase] at hc
    obtain ⟨⟨r, hr⟩, hlisted, hheard⟩ := h.1.waiting c id timed hc
    have hne : id ≠ req.id := by
      rintro rfl
      rw [hnone] at hr
      cases hr
    refine ⟨⟨r, by rw [hother hne, hr]⟩, ?_, ?_⟩
    · rw [hother hne, hwaiters id hne]
      exact hlisted
    · rw [hother hne, hset, hphase]
      exact hheard
  · rw [hphase] at hc
    obtain ⟨r, hr, hrst⟩ := h.1.expiring c id hc
    have hsettled : m.Settled id r := ⟨hr, by rw [hrst]; decide⟩
    exact ⟨r, (hkeeps id r hsettled).1, hrst⟩
  · rw [hphase] at hc
    obtain ⟨r, hr⟩ := h.1.deciding c id event hc
    exact ⟨r, hkeeps id r hr⟩
  · rw [hset] at hid
    obtain ⟨r, hr⟩ := h.1.signalled id hid
    exact ⟨r, hkeeps id r hr⟩
  · rw [hlog] at hmem
    exact hkeeps id r (h.1.answered id r hmem)

/-- The end of `decide`, which sets the event if it has found one. -/
theorem Correct.written {m : ApprovalGate C T} (h : m.Correct) {c : C} {id : String} {event : Bool}
    (hphase : m.phase c = .deciding id event) :
    ApprovalGate.Correct { m.answer c (.decided id (m.requests id)) with
      isSet := if event then Function.update m.isSet id true else m.isSet } := by
  obtain ⟨req, hsettled⟩ := h.1.deciding c id event hphase
  have hset : ∀ id', (if event then Function.update m.isSet id true else m.isSet) id' = true ↔
      event = true ∧ id' = id ∨ m.isSet id' = true := by
    intro id'
    cases event with
    | false => simp
    | true =>
      rw [if_pos rfl, Function.update_apply]
      by_cases hne : id' = id
      · simp [hne]
      · simp [hne]
  refine ⟨h.1.move c rfl rfl m.relies_idle (fun id' => Or.inl rfl) (fun id' hid' => ?_)
    (fun id' hid' => ?_) (fun id' hid' => ?_) (fun id' r hmem => ?_),
      h.2.move rfl fun id' v hmem => ?_⟩
  · exact (hset id').mpr (Or.inr hid')
  · rcases (hset id').mp hid' with ⟨-, rfl⟩ | hold
    · exact Or.inr ⟨req, hsettled⟩
    · exact Or.inl hold
  · obtain ⟨rfl, rfl⟩ := ApprovalPhase.deciding.inj (hphase.symm.trans hid')
    exact (hset id).mpr (Or.inl ⟨rfl, rfl⟩)
  · rcases List.mem_append.mp hmem with hold | hnew
    · exact Or.inl hold
    · obtain ⟨rfl, hr⟩ := ApprovalEvent.decided.inj (List.mem_singleton.mp hnew)
      right
      obtain rfl := Option.some.inj (hr.trans hsettled.1)
      exact hsettled
  · rcases List.mem_append.mp hmem with hold | hnew
    · exact Or.inl hold
    · cases List.mem_singleton.mp hnew

omit [DecidableEq C] in
/-- A stale request expires. -/
theorem Correct.expire {m : ApprovalGate C T} (h : m.Correct) {id : String}
    {req : ApprovalRequest T} (hreq : m.requests id = some req) (hpending : req.state = .pending) :
    (m.store (m.expired req)).Correct := by
  have hid : req.id = id := h.1.keyed id req hreq
  subst hid
  have hopen : ∀ r, m.requests req.id = some r → r.state = .pending := by
    intro r hr
    obtain rfl := Option.some.inj (hreq.symm.trans hr)
    exact hpending
  have hexpired : ApprovalState.expired ≠ .pending := by decide
  refine ⟨h.1.settle (m.expired req) hreq hpending rfl hexpired rfl rfl rfl rfl
    (fun c => Or.inl rfl) (fun hst _ => ?_), h.2.settle hopen rfl rfl⟩
  rcases hst with hst | hst
  · cases hst
  · cases hst

/-! ### Every action -/

variable [LinearOrder T] [Zero T] [One T] [Neg T] [Add T] [Sub T]

omit [Add T] in
/-- A pending request without an event is not one whose time is over. -/
theorem not_faithful_wait {m : ApprovalGate C T} {id : String} {req : ApprovalRequest T}
    (hreq : m.requests id = some req) (hpending : req.state = .pending)
    (hwaiters : m.waiters id = false) (c : C) (timeout : Option T) :
    ¬ (m.wait c id timeout).Faithful := by
  intro hfaithful
  unfold ApprovalGate.wait at hfaithful
  rw [hreq] at hfaithful
  dsimp only at hfaithful
  rw [if_neg (not_not.mpr hpending), if_pos hwaiters] at hfaithful
  have hfits := hfaithful id _ (List.mem_append_right _ (List.mem_singleton.mpr rfl))
  have hrecord : (m.requests id).map ApprovalRequest.state = some .expired := hfits.1 .expired rfl
  rw [hreq, Option.map_some, hpending] at hrecord
  cases hrecord

omit [Add T] in
/-- **A call of `wait`** fits just when the request has its event while it is pending. -/
theorem Correct.wait_iff {m : ApprovalGate C T} (h : m.Correct) {c : C} (hidle : m.phase c = .idle)
    (id : String) (timeout : Option T) :
    (m.wait c id timeout).Correct ↔ ¬ m.Late (.wait c id timeout) := by
  have hold : ∀ id', m.phase c ≠ .deciding id' true := by
    intro id'
    rw [hidle]
    exact ApprovalPhase.noConfusion
  constructor
  · rintro hafter ⟨req, hreq, hpending, hwaiters⟩
    exact not_faithful_wait hreq hpending hwaiters c timeout hafter.2
  intro hlate
  unfold ApprovalGate.wait
  cases hreq : m.requests id with
  | none =>
    refine h.waited hold ⟨nofun, nofun⟩
  | some req =>
    dsimp only
    by_cases hst : req.state = .pending
    · rw [if_neg (not_not.mpr hst)]
      have hlisted : m.waiters id = true := by
        cases hwaiters : m.waiters id with
        | true => rfl
        | false => exact absurd ⟨req, hreq, hst, hwaiters⟩ hlate
      have hawaited : m.Awaited id := by
        refine ⟨⟨req, hreq⟩, fun _ _ _ => hlisted, fun r hr hrst => ?_⟩
        obtain rfl := Option.some.inj (hreq.symm.trans hr)
        rw [hst] at hrst
        rcases hrst with hrst | hrst
        · cases hrst
        · cases hrst
      rw [if_neg (by rw [hlisted]; exact Bool.noConfusion)]
      have hgoto : ∀ timed, (m.goto c (.waiting id timed)).Correct := by
        intro timed
        refine h.goto hold ⟨fun id' timed' hw => ?_, nofun, nofun⟩
        obtain ⟨rfl, -⟩ := ApprovalPhase.waiting.inj hw
        exact hawaited
      cases m.budget req timeout with
      | none => exact hgoto false
      | some left =>
        dsimp only
        split
        · apply (h.lapse_iff hreq hold).mpr
          rw [hst]
          decide
        · exact hgoto true
    · rw [if_pos hst]
      apply h.waited hold
      rw [hreq]
      exact req.settled_fits hst

omit [One T] [Neg T] [Add T] [Sub T] in
theorem Correct.decide {m : ApprovalGate C T} (h : m.Correct) {c : C} (hidle : m.phase c = .idle)
    (id : String) (approved : Bool) (by' note : Option String) (arguments : Option Json) :
    (m.decide c id approved by' note arguments).Correct := by
  have hold : ∀ id', m.phase c ≠ .deciding id' true := by
    intro id'
    rw [hidle]
    exact ApprovalPhase.noConfusion
  have hanswer : ∀ answer, (∀ req, answer = some req → m.Settled id req) →
      (m.answer c (.decided id answer)).Correct := by
    intro answer hsettled
    refine h.move c rfl rfl m.relies_idle (fun id => Or.inl rfl) rfl hold fun e he => ?_
    rcases List.mem_append.mp he with he | he
    · exact Or.inl he
    · obtain rfl := List.mem_singleton.mp he
      refine Or.inr ⟨nofun, fun id' req heq => ?_⟩
      obtain ⟨rfl, rfl⟩ := ApprovalEvent.decided.inj heq
      exact hsettled req rfl
  unfold ApprovalGate.decide
  cases hreq : m.requests id with
  | none => exact hanswer none nofun
  | some req =>
    dsimp only
    by_cases hst : req.state = .pending
    · rw [if_neg (not_not.mpr hst)]
      have hid : req.id = id := h.1.keyed id req hreq
      have hopen : ∀ r, m.requests id = some r → r.state = .pending := by
        intro r hr
        obtain rfl := Option.some.inj (hreq.symm.trans hr)
        exact hst
      have hverdict : (m.verdict req approved by' note arguments).state ≠ .pending := by
        show (if m.isExpired req then ApprovalState.expired else if approved
          then .approved else .denied)
          ≠ .pending
        split
        · decide
        · split
          · decide
          · decide
      have hstore : (m.store (m.verdict req approved by' note arguments)).requests
          = Function.update m.requests id (some (m.verdict req approved by' note arguments)) := by
        rw [← hid]
        rfl
      refine ⟨h.1.settle (m.verdict req approved by' note arguments) hreq hst hid hverdict hstore
        rfl rfl rfl (fun c' => ?_) (fun _ hlisted => ?_), h.2.settle hopen hstore rfl⟩
      · by_cases hc : c' = c
        · subst hc
          right
          refine ⟨hold, ?_⟩
          show Relies _ (Function.update m.phase c' (.deciding id (m.waiters id)) c')
          rw [Function.update_self]
          refine ⟨nofun, nofun, fun id' event hd => ?_⟩
          obtain ⟨rfl, -⟩ := ApprovalPhase.deciding.inj hd
          refine ⟨m.verdict req approved by' note arguments, ?_, hverdict⟩
          exact (congrFun hstore id).trans (Function.update_self ..)
        · left
          exact Function.update_of_ne hc ..
      · rw [hlisted]
        exact ⟨c, Function.update_self ..⟩
    · rw [if_pos hst]
      apply hanswer
      intro r hr
      obtain rfl := Option.some.inj hr
      exact ⟨hreq, hst⟩

/-- **Exactly the actions that are not late keep the gate correct.** -/
theorem correct_step_iff (m : ApprovalGate C T) (a : ApprovalAction C T) (m' : ApprovalGate C T)
    (hstep : m.step a = some m') (h : m.Correct) : m'.Correct ↔ ¬ m.Late a := by
  cases a with
  | tick t =>
    rw [step] at hstep
    split at hstep
    · obtain rfl := Option.some.inj hstep
      refine iff_of_true ⟨⟨h.1.keyed, fun c id timed hc => ?_, h.1.expiring, h.1.deciding,
        h.1.signalled, h.1.answered⟩, h.2⟩ id
      obtain ⟨hfiled, hlisted, hheard⟩ := h.1.waiting c id timed hc
      exact ⟨hfiled, hlisted, hheard⟩
    · cases hstep
  | request id tool arguments timeout =>
    rw [step] at hstep
    split at hstep
    · cases hstep
    · rename_i hnone
      obtain rfl := Option.some.inj hstep
      refine iff_of_true ?_ fun hlate => hlate
      refine h.file ?_ rfl (fun id' hne => Function.update_of_ne hne ..) rfl rfl rfl
      exact hnone
  | wait c id timeout =>
    rw [step] at hstep
    split at hstep
    · rename_i hidle
      obtain rfl := Option.some.inj hstep
      exact h.wait_iff hidle id timeout
    · cases hstep
  | wake c =>
    rw [step] at hstep
    split at hstep
    · rename_i id timed hphase
      split at hstep
      · rename_i req hreq
        split at hstep
        · rename_i hset
          obtain rfl := Option.some.inj hstep
          -- an event is set for a settled request only
          obtain ⟨r, hsettled⟩ := h.1.signalled id hset
          obtain rfl := Option.some.inj (hreq.symm.trans hsettled.1)
          refine iff_of_true (h.ended hsettled (fun id' => ?_) (req.settled_fits hsettled.2))
            fun hlate => hlate
          rw [hphase]
          exact ApprovalPhase.noConfusion
        · cases hstep
      · cases hstep
    · cases hstep
  | timeOut c =>
    rw [step] at hstep
    split at hstep
    · rename_i id hphase
      cases hreq : m.requests id with
      | none =>
        rw [hreq] at hstep
        cases hstep
      | some req =>
        rw [hreq] at hstep
        obtain rfl := Option.some.inj hstep
        have hlapse := h.lapse_iff (c := c) hreq
          (by rw [hphase]; exact fun _ => ApprovalPhase.noConfusion)
        rw [hlapse, not_iff_not]
        constructor
        · exact fun hst => ⟨id, req, hphase, hreq, hst⟩
        · rintro ⟨id', req', hphase', hreq', hst⟩
          obtain ⟨rfl, -⟩ := ApprovalPhase.waiting.inj (hphase.symm.trans hphase')
          obtain rfl := Option.some.inj (hreq.symm.trans hreq')
          exact hst
    · cases hstep
  | decide c id approved by' note arguments =>
    rw [step] at hstep
    split at hstep
    · rename_i hidle
      obtain rfl := Option.some.inj hstep
      exact iff_of_true (h.decide hidle id approved by' note arguments)
        fun hlate => hlate
    · cases hstep
  | written c =>
    rw [step] at hstep
    split at hstep
    · rename_i id hphase
      obtain ⟨req, hreq, hst⟩ := h.1.expiring c id hphase
      rw [hreq] at hstep
      obtain rfl := Option.some.inj hstep
      refine iff_of_true
        (h.ended ⟨hreq, by rw [hst]; decide⟩ (fun id' => ?_) ⟨fun st hv => ?_, nofun⟩)
        fun hlate => hlate
      · rw [hphase]
        exact ApprovalPhase.noConfusion
      · rw [← Option.some.inj hv, Option.map_some, hst]
    · rename_i id event hphase
      obtain rfl := Option.some.inj hstep
      exact iff_of_true (h.written hphase) fun hlate => hlate
    · cases hstep
  | expire id =>
    rw [step] at hstep
    split at hstep
    · rename_i req hreq
      split at hstep
      · obtain rfl := Option.some.inj hstep
        refine iff_of_true ?_ fun hlate => hlate
        split
        · rename_i hpending
          exact h.expire hreq hpending
        · exact h
      · cases hstep
    · cases hstep
  | recover req =>
    rw [step] at hstep
    split at hstep
    · cases hstep
    · rename_i hnone
      obtain rfl := Option.some.inj hstep
      exact iff_of_true (h.file hnone rfl (fun _ _ => rfl) rfl rfl rfl) fun hlate => hlate

/-- A late timeout shows. -/
theorem Late.not_faithful {m m' : ApprovalGate C T} {a : ApprovalAction C T} (h : m.Sound)
    (hlate : m.Late a) (hstep : m.step a = some m') : ¬ m'.Faithful := by
  cases a with
  | timeOut c =>
    obtain ⟨id, req, hphase, hreq, hst⟩ := hlate
    rw [step, hphase] at hstep
    simp only [hreq, Option.map_some] at hstep
    obtain rfl := Option.some.inj hstep
    rw [← h.keyed id req hreq] at hreq
    exact not_faithful_lapse hreq hst
  | wait c id timeout =>
    obtain ⟨req, hreq, hpending, hwaiters⟩ := hlate
    rw [step] at hstep
    split at hstep
    · obtain rfl := Option.some.inj hstep
      exact not_faithful_wait hreq hpending hwaiters c timeout
    · cases hstep
  | _ => exact absurd hlate id

/-! ### Settled requests -/

/-- An action changes at most one request, and this one only while it is pending. -/
def Rewrites (m m' : ApprovalGate C T) : Prop :=
  m'.requests = m.requests ∨ ∃ id req, m'.requests = Function.update m.requests id (some req) ∧
    req.id = id ∧ ∀ r, m.requests id = some r → r.state = .pending

omit [DecidableEq C] [LinearOrder T] [Zero T] [One T] [Neg T] [Add T] [Sub T] in
theorem rewrites_store {m m' : ApprovalGate C T} {id : String} {r : ApprovalRequest T}
    (req : ApprovalRequest T) (hkeyed : r.id = id) (hr : m.requests id = some r)
    (hpending : r.state = .pending)
    (hreq : req.id = r.id) (hm' : m'.requests = (m.store req).requests) : m.Rewrites m' := by
  refine Or.inr ⟨req.id, req, hm', rfl, fun r' hr' => ?_⟩
  rw [hreq, hkeyed] at hr'
  obtain rfl := Option.some.inj (hr.symm.trans hr')
  exact hpending

omit [LinearOrder T] [Zero T] [One T] [Neg T] [Add T] [Sub T] in
theorem rewrites_lapse {m : ApprovalGate C T} {id : String} {req : ApprovalRequest T} (c : C)
    (hkeyed : req.id = id) (hreq : m.requests id = some req) : m.Rewrites (m.lapse c req) := by
  unfold lapse
  split
  · rename_i hpending
    exact rewrites_store (m.expired req) hkeyed hreq hpending rfl rfl
  · exact Or.inl rfl

theorem rewrites_step {m m' : ApprovalGate C T} {a : ApprovalAction C T}
    (hkeyed : ∀ id req, m.requests id = some req → req.id = id) (hstep : m.step a = some m') :
    m.Rewrites m' := by
  cases a with
  | tick t =>
    rw [step] at hstep
    split at hstep
    · obtain rfl := Option.some.inj hstep
      exact Or.inl rfl
    · cases hstep
  | request id tool arguments timeout =>
    rw [step] at hstep
    split at hstep
    · cases hstep
    · rename_i hnone
      obtain rfl := Option.some.inj hstep
      refine Or.inr ⟨id, _, rfl, rfl, fun r hr => ?_⟩
      rw [hnone] at hr
      cases hr
  | wait c id timeout =>
    rw [step] at hstep
    split at hstep
    · obtain rfl := Option.some.inj hstep
      unfold ApprovalGate.wait
      split
      · exact Or.inl rfl
      · rename_i req hreq
        repeat' split
        -- a budget that is used up is the one case that writes
        all_goals first | exact Or.inl rfl | exact rewrites_lapse c (hkeyed id req hreq) hreq
    · cases hstep
  | wake c =>
    rw [step] at hstep
    split at hstep
    · split at hstep
      · split at hstep
        · obtain rfl := Option.some.inj hstep
          exact Or.inl rfl
        · cases hstep
      · cases hstep
    · cases hstep
  | timeOut c =>
    rw [step] at hstep
    split at hstep
    · rename_i id hphase
      cases hreq : m.requests id with
      | none =>
        rw [hreq] at hstep
        cases hstep
      | some req =>
        rw [hreq] at hstep
        obtain rfl := Option.some.inj hstep
        exact rewrites_lapse c (hkeyed id req hreq) hreq
    · cases hstep
  | decide c id approved by' note arguments =>
    rw [step] at hstep
    split at hstep
    · obtain rfl := Option.some.inj hstep
      unfold ApprovalGate.decide
      split
      · exact Or.inl rfl
      · rename_i req hreq
        split
        · exact Or.inl rfl
        · rename_i hpending
          exact rewrites_store (m.verdict req approved by' note arguments) (hkeyed id req hreq) hreq
            (not_not.mp hpending) rfl rfl
    · cases hstep
  | written c =>
    rw [step] at hstep
    split at hstep
    · rename_i id hphase
      cases hreq : m.requests id with
      | none =>
        rw [hreq] at hstep
        cases hstep
      | some req =>
        rw [hreq] at hstep
        obtain rfl := Option.some.inj hstep
        exact Or.inl rfl
    · obtain rfl := Option.some.inj hstep
      exact Or.inl rfl
    · cases hstep
  | expire id =>
    rw [step] at hstep
    split at hstep
    · rename_i req hreq
      split at hstep
      · obtain rfl := Option.some.inj hstep
        split
        · rename_i hpending
          exact rewrites_store (m.expired req) (hkeyed id req hreq) hreq hpending rfl rfl
        · exact Or.inl rfl
      · cases hstep
    · cases hstep
  | recover req =>
    rw [step] at hstep
    split at hstep
    · cases hstep
    · rename_i hnone
      obtain rfl := Option.some.inj hstep
      refine Or.inr ⟨req.id, req, rfl, rfl, fun r hr => ?_⟩
      rw [hnone] at hr
      cases hr

theorem settled_step (id : String) (req : ApprovalRequest T) (m : ApprovalGate C T)
    (a : ApprovalAction C T) (m' : ApprovalGate C T) (hstep : m.step a = some m')
    (h : (∀ id req, m.requests id = some req → req.id = id) ∧ m.Settled id req) :
    (∀ id req, m'.requests id = some req → req.id = id) ∧ m'.Settled id req := by
  rcases rewrites_step h.1 hstep with hsame | ⟨id', req', hupdate, hid', hopen⟩
  · refine ⟨fun id r hr => ?_, Keeps.of_requests hsame id req h.2⟩
    rw [hsame] at hr
    exact h.1 id r hr
  · refine ⟨fun id r hr => ?_, Keeps.of_update hopen hupdate id req h.2⟩
    rw [hupdate, Function.update_apply] at hr
    split at hr
    · rename_i heq
      obtain rfl := Option.some.inj hr
      rw [hid', heq]
    · exact h.1 id r hr

/-- **A request that is not pending any more stays as it is.** -/
theorem settled_run {m m' : ApprovalGate C T} (hm : m.Sound) {id : String} {req : ApprovalRequest T}
    (h : m.Settled id req) {as : List (ApprovalAction C T)} (hrun : Steps.run step m as = some m') :
    m'.Settled id req :=
  (Steps.run_invariant_true (settled_step id req) hrun ⟨hm.keyed, h⟩).2

/-- Decisions and what happens agree. -/
structure Verdicts (m : ApprovalGate C T) : Prop where
  /-- a request that has left its pending state stays as it is -/
  final : ∀ id req, m.Settled id req → ∀ as m', Steps.run step m as = some m' → m'.Settled id req
  /-- `wait` returns an approved request, raises `ApprovalDenied` for a denied one and
  `ApprovalTimeout` for an expired one -/
  faithful : m.Faithful
  /-- what `decide` returned as approved is returned to a waiter that still waits: its event is set,
  or another decision is about to set it -/
  approved : ∀ id req, .decided id (some req) ∈ m.log → req.state = .approved →
    ∀ c timed, m.phase c = .waiting id timed →
      (m.isSet id = true ∨ ∃ d, m.phase d = .deciding id true) ∧
      (m.isSet id = true → m.step (.wake c) = some (m.ended c id (.returned req)))

theorem Sound.verdicts {m : ApprovalGate C T} (h : m.Sound) (hfaithful : m.Faithful) :
    m.Verdicts where
  final _ _ hsettled _ _ hrun := settled_run h hsettled hrun
  faithful := hfaithful
  approved id req hmem hst c timed hphase := by
    obtain ⟨hreq, -⟩ := h.answered id req hmem
    refine ⟨(h.waiting c id timed hphase).heard req hreq (Or.inl hst), fun hset => ?_⟩
    rw [step, hphase]
    simp only [hreq, if_pos hset, ApprovalRequest.settled, hst]

end ApprovalGate

/-- **Approval verdicts agree with what happens**, in every state of a run, just when no waiter
times out on a request that was approved or denied already, and nobody waits for a pending request
that an earlier run has filed. -/
theorem approval_verdicts {C T : Type} [DecidableEq C] [LinearOrder T] [Zero T] [One T] [Neg T]
    [Add T] [Sub T] {clock : T} {timeout : Option T} {as : List (ApprovalAction C T)}
    {m : ApprovalGate C T}
    (hrun : Steps.run ApprovalGate.step (ApprovalGate.init clock timeout) as = some m) :
    (∀ pre, pre <+: as → ∀ m',
        Steps.run ApprovalGate.step (ApprovalGate.init clock timeout) pre = some m' → m'.Verdicts) ↔
      Steps.Along ApprovalGate.step (fun m a => ¬ m.Late a)
        (ApprovalGate.init clock timeout) as := by
  have hinit : (ApprovalGate.init clock timeout : ApprovalGate C T).Correct :=
    ⟨ApprovalGate.sound_init clock timeout, nofun⟩
  constructor
  · intro h
    -- a late action shows in the very next state
    refine Steps.along_of_forall_prefix (fun m a m' hstep hm hverdicts => ?_) hrun hinit h
    have hnot : ¬ m.Late a := fun hlate => hlate.not_faithful hm.1 hstep hverdicts.faithful
    exact ⟨hnot, (ApprovalGate.correct_step_iff m a m' hstep hm).mpr hnot⟩
  · intro h pre hpre m' hm'
    have hcorrect :=
      (Steps.forall_prefix_iff ApprovalGate.correct_step_iff hrun hinit).mpr h pre hpre m' hm'
    exact hcorrect.1.verdicts hcorrect.2

/-- An agent waits at most five seconds, an operator approves, and the agent goes on. -/
def approvedInTime : List (ApprovalAction ℕ ℤ) :=
  [.request "r" "refund" .null (some 5), .wait 0 "r" (some (-1)), .tick 4,
    .decide 1 "r" true (some "amir") none none, .written 1, .wake 0]

theorem approval_verdicts_in_time :
    ∃ m, Steps.run ApprovalGate.step (ApprovalGate.init 0 none) approvedInTime = some m ∧
        m.Verdicts := by
  have hrun : ∃ m, Steps.run ApprovalGate.step (ApprovalGate.init 0 none) approvedInTime = some m :=
    ⟨_, rfl⟩
  obtain ⟨m, hrun⟩ := hrun
  refine ⟨m, hrun, (approval_verdicts hrun).mpr ?_ _ (List.prefix_refl _) m hrun⟩
  -- nothing here is a timeout, and the request has its event
  exact ⟨id, nofun, id, id, id, id, trivial⟩

/-- The operator approves in time, and the write of the decision is slow: the decision is returned
as approved, and the agent has timed out. -/
theorem approved_and_timed_out :
    ∃ m, Steps.run ApprovalGate.step (ApprovalGate.init 0 none)
        [.request "r" "refund" .null (some 5), .wait 0 "r" (some (-1)), .tick 4,
          .decide (1 : ℕ) "r" true (some "amir") none none, .tick (5 : ℤ), .timeOut 0, .written 1]
        = some m ∧
      m.log = [.waited "r" (.timedOut "Nobody decided approval r in time; refund did not run"),
        .decided "r" (some ⟨"r", "refund", .null, .approved, 5, some "amir", 4, none⟩)] ∧
      ¬ m.Verdicts := by
  refine ⟨_, rfl, rfl, fun h => ?_⟩
  have hfits := h.faithful "r" (.timedOut "Nobody decided approval r in time; refund did not run")
    List.mem_cons_self
  cases hfits.1 .expired rfl

end Istos
