import Istos.Agent.Equiv.Approval

/-!
# One request at its gate

The steps of a gate as a relation, and what they make of one request.

* `becomes_step`: a pending request may expire, or be denied or approved by a decision on it; a
  settled one stays as it is.
* `Attended.step`: a request that was filed in this run keeps its event until it is settled, and a
  decision on it sets that event.
-/

namespace Istos.ApprovalGate

variable {C T : Type}

/-- Every request is stored under its id. -/
def Keyed (m : ApprovalGate C T) : Prop := ∀ id req, m.requests id = some req → req.id = id

theorem settled_returned {req r : ApprovalRequest T} (h : req.settled = .returned r) :
    r = req ∧ req.state = .approved := by
  unfold ApprovalRequest.settled at h
  split at h
  · next hst => exact ⟨(Verdict.returned.inj h).symm, hst⟩
  · cases h
  · cases h

theorem Keyed.store {m : ApprovalGate C T} (h : m.Keyed) (req : ApprovalRequest T) :
    (m.store req).Keyed := by
  intro id r hr
  have hr' : Function.update m.requests req.id (some req) id = some r := hr
  rw [Function.update_apply] at hr'
  split at hr'
  · next hid =>
    obtain rfl := Option.some.inj hr'
    exact hid.symm
  · exact h id r hr'

/-! ### What becomes of a request -/

/-- What an action may make of a request. -/
inductive Becomes (a : ApprovalAction C T) (req : ApprovalRequest T) : ApprovalRequest T → Prop
  | same : Becomes a req req
  | refused {req' : ApprovalRequest T} (hpending : req.state = .pending)
    (htool : req'.tool = req.tool) (harguments : req'.arguments = req.arguments)
    (hst : req'.state = .expired ∨ req'.state = .denied) : Becomes a req req'
  /-- approved, with the approver's arguments or with its own -/
  | approved {req' : ApprovalRequest T} {c : C} {by' note : Option String} {arguments : Option Json}
    (hpending : req.state = .pending) (ha : a = .decide c req.id true by' note arguments)
    (htool : req'.tool = req.tool) (harguments : req'.arguments = arguments.getD req.arguments)
    (hst : req'.state = .approved) : Becomes a req req'

/-- A settled request stays as it is. -/
theorem Becomes.eq_of_settled {a : ApprovalAction C T} {req req' : ApprovalRequest T}
    (h : Becomes a req req') (hst : req.state ≠ .pending) : req' = req := by
  cases h with
  | same => rfl
  | refused hpending => exact absurd hpending hst
  | approved hpending => exact absurd hpending hst

/-- A request is stored in the place of one. -/
theorem becomes_store {m : ApprovalGate C T} {a : ApprovalAction C T} {id : String}
    {req r r' : ApprovalRequest T} (hreq : m.requests id = some req) (hr : m.requests r.id = some r)
    (hid : r'.id = r.id) (hbecomes : Becomes a r r') :
    ∃ req', (m.store r').requests id = some req' ∧ Becomes a req req' := by
  by_cases heq : id = r.id
  · obtain rfl := heq
    obtain rfl := Option.some.inj (hreq.symm.trans hr)
    refine ⟨r', ?_, hbecomes⟩
    show Function.update m.requests r'.id (some r') req.id = some r'
    rw [hid, Function.update_self]
  · refine ⟨req, ?_, .same⟩
    show Function.update m.requests r'.id (some r') id = some req
    rw [hid, Function.update_of_ne heq]
    exact hreq

/-- A decision on a pending request. -/
theorem becomes_verdict [LinearOrder T] [Zero T] {m : ApprovalGate C T} {c : C}
    {req : ApprovalRequest T} (hpending : req.state = .pending) (approved : Bool)
    (by' note : Option String) (arguments : Option Json) :
    Becomes (.decide c req.id approved by' note arguments) req
      (m.verdict req approved by' note arguments) := by
  cases hexpired : m.isExpired req with
  | true =>
    refine .refused hpending rfl ?_ (.inl ?_)
    · show (if m.isExpired req then req.arguments else _) = _
      rw [hexpired, if_pos rfl]
    · show (if m.isExpired req then ApprovalState.expired else _) = _
      rw [hexpired, if_pos rfl]
  | false =>
    cases approved with
    | true =>
      refine .approved hpending rfl rfl ?_ ?_
      · show (if m.isExpired req then req.arguments else _) = _
        rw [hexpired]
        rfl
      · show (if m.isExpired req then ApprovalState.expired else _) = _
        rw [hexpired]
        rfl
    | false =>
      refine .refused hpending rfl ?_ (.inr ?_)
      · show (if m.isExpired req then req.arguments else _) = _
        rw [hexpired]
        rfl
      · show (if m.isExpired req then ApprovalState.expired else _) = _
        rw [hexpired]
        rfl

/-! ### Who hears of a decision -/

/-- A request that was filed in this run: it has its event while it is pending, and a decision on it
sets that event or is about to. -/
structure Attended (m : ApprovalGate C T) (id : String) : Prop where
  filed : ∃ req, m.requests id = some req
  listed : ∀ req, m.requests id = some req → req.state = .pending → m.waiters id = true
  settled : m.isSet id = true ∨ (∃ c event, m.phase c = .deciding id event) ∨
    (∃ c, m.phase c = .expiring id) → ∀ req, m.requests id = some req → req.state ≠ .pending
  event : ∀ c event, m.phase c = .deciding id event → event = true
  heard : ∀ req, m.requests id = some req → req.state = .approved ∨ req.state = .denied →
    m.isSet id = true ∨ ∃ c, m.phase c = .deciding id true

/-- A settled request only needs somebody who sets its event. -/
theorem attended_of_settled {m : ApprovalGate C T} {id : String} (req : ApprovalRequest T)
    (hreq : m.requests id = some req) (hst : req.state ≠ .pending)
    (hevent : ∀ c event, m.phase c = .deciding id event → event = true)
    (hheard : req.state = .approved ∨ req.state = .denied →
      m.isSet id = true ∨ ∃ c, m.phase c = .deciding id true) : m.Attended id := by
  refine ⟨⟨req, hreq⟩, fun r hr hpending => ?_, fun _ r hr => ?_, hevent, fun r hr hst' => ?_⟩
  · obtain rfl := Option.some.inj (hreq.symm.trans hr)
    exact absurd hpending hst
  · obtain rfl := Option.some.inj (hreq.symm.trans hr)
    exact hst
  · obtain rfl := Option.some.inj (hreq.symm.trans hr)
    exact hheard hst'

/-- A new request has its event. -/
theorem attended_request {m : ApprovalGate C T} {id : String} (hset : m.isSet id = false)
    (hphase : ∀ c, (∀ event, m.phase c ≠ .deciding id event) ∧ m.phase c ≠ .expiring id)
    {req : ApprovalRequest T} (hid : req.id = id) (hpending : req.state = .pending) :
    ApprovalGate.Attended
      { m.store req with waiters := Function.update m.waiters id true } id where
  filed := ⟨req, by rw [← hid]; exact Function.update_self _ _ _⟩
  listed _ _ _ := Function.update_self _ _ _
  settled := by
    rintro (htrue | ⟨c, event, hc⟩ | ⟨c, hc⟩)
    · rw [show m.isSet id = true from htrue] at hset
      cases hset
    · exact absurd hc ((hphase c).1 event)
    · exact absurd hc (hphase c).2
  event c event hc := absurd hc ((hphase c).1 event)
  heard r hr hst := by
    have hr' : Function.update m.requests req.id (some req) id = some r := hr
    rw [hid, Function.update_self] at hr'
    obtain rfl := Option.some.inj hr'
    rcases hst with hst | hst
    · rw [hpending] at hst
      cases hst
    · rw [hpending] at hst
      cases hst

/-- Another request is stored. -/
theorem Attended.store_of_ne {m : ApprovalGate C T} {id : String} (h : m.Attended id)
    {req : ApprovalRequest T} (hne : id ≠ req.id) : (m.store req).Attended id := by
  have hrequests : (m.store req).requests id = m.requests id := Function.update_of_ne hne _ _
  exact ⟨by rw [hrequests]; exact h.filed, by rw [hrequests]; exact h.listed,
    by rw [hrequests]; exact h.settled, h.event, by rw [hrequests]; exact h.heard⟩

variable [DecidableEq C]

@[simp]
theorem goto_phase_self (m : ApprovalGate C T) (c : C) (p : ApprovalPhase) :
    (m.goto c p).phase c = p :=
  Function.update_self _ _ _

theorem goto_phase_of_ne (m : ApprovalGate C T) {c c' : C} (h : c' ≠ c) (p : ApprovalPhase) :
    (m.goto c p).phase c' = m.phase c' :=
  Function.update_of_ne h _ _

omit T in
/-- Only the coroutine that goes on gets to its new phase. -/
theorem phase_of_update {phase : C → ApprovalPhase} {c c' : C} {p q : ApprovalPhase} (hq : q ≠ p)
    (h : Function.update phase c p c' = q) : phase c' = q := by
  rw [Function.update_apply] at h
  split at h
  · exact absurd h.symm hq
  · exact h

/-- A coroutine goes on, and the request is as it was. -/
theorem Attended.move {m m' : ApprovalGate C T} {id : String} (h : m.Attended id) {c : C}
    {p : ApprovalPhase} (hrequests : m'.requests id = m.requests id)
    (hphase : m'.phase = Function.update m.phase c p)
    (hdeciding : ∀ event, m.phase c ≠ .deciding id event) (hp : ∀ event, p ≠ .deciding id event)
    (hexpiring : p ≠ .expiring id) (hset : m'.isSet id = m.isSet id)
    (hwaiters : m'.waiters id = m.waiters id ∨
      ∀ req, m.requests id = some req → req.state ≠ .pending) : m'.Attended id := by
  have hold : ∀ c' q, q ≠ p → m'.phase c' = q → m.phase c' = q := by
    intro c' q hq hc'
    rw [hphase] at hc'
    exact phase_of_update hq hc'
  refine ⟨?_, fun req hreq hpending => ?_, fun hover req hreq => ?_, fun c' event hc' => ?_,
    fun req hreq hst => ?_⟩
  · rw [hrequests]
    exact h.filed
  · rw [hrequests] at hreq
    rcases hwaiters with hsame | hsettled
    · rw [hsame]
      exact h.listed req hreq hpending
    · exact absurd hpending (hsettled req hreq)
  · rw [hrequests] at hreq
    refine h.settled ?_ req hreq
    rw [hset] at hover
    rcases hover with hover | ⟨c', event, hc'⟩ | ⟨c', hc'⟩
    · exact .inl hover
    · exact .inr (.inl ⟨c', event, hold c' _ (hp event).symm hc'⟩)
    · exact .inr (.inr ⟨c', hold c' _ hexpiring.symm hc'⟩)
  · exact h.event c' event (hold c' _ (hp event).symm hc')
  · rw [hrequests] at hreq
    rw [hset]
    rcases h.heard req hreq hst with hset' | ⟨c', hc'⟩
    · exact .inl hset'
    · refine .inr ⟨c', ?_⟩
      rw [hphase, Function.update_of_ne, hc']
      rintro rfl
      exact hdeciding true hc'

/-! ### What a gate knows of -/

/-- Whatever a gate knows of is a stored request. -/
structure Grounded (m : ApprovalGate C T) : Prop where
  keyed : m.Keyed
  isSet : ∀ id, m.isSet id = true → ∃ req, m.requests id = some req
  deciding : ∀ c id event, m.phase c = .deciding id event → ∃ req, m.requests id = some req
  expiring : ∀ c id, m.phase c = .expiring id → ∃ req, m.requests id = some req

omit [DecidableEq C] in
/-- A request is stored, and nothing else is new. -/
theorem Grounded.store {m : ApprovalGate C T} (h : m.Grounded) (req : ApprovalRequest T) :
    (m.store req).Grounded := by
  have hkeeps : ∀ id, (∃ r, m.requests id = some r) → ∃ r, (m.store req).requests id = some r := by
    rintro id ⟨r, hr⟩
    by_cases heq : id = req.id
    · exact ⟨req, heq ▸ Function.update_self _ _ _⟩
    · exact ⟨r, (Function.update_of_ne heq _ _).trans hr⟩
  exact ⟨h.keyed.store req, fun id hid => hkeeps id (h.isSet id hid),
    fun c id event hc => hkeeps id (h.deciding c id event hc),
    fun c id hc => hkeeps id (h.expiring c id hc)⟩

/-- A coroutine goes on to something that is about a stored request. -/
theorem Grounded.goto {m : ApprovalGate C T} (h : m.Grounded) {c : C} {p : ApprovalPhase}
    (hdeciding : ∀ id event, p = .deciding id event → ∃ req, m.requests id = some req)
    (hexpiring : ∀ id, p = .expiring id → ∃ req, m.requests id = some req) :
    (m.goto c p).Grounded := by
  refine ⟨h.keyed, h.isSet, fun c' id event hc => ?_, fun c' id hc => ?_⟩
  · by_cases hp : p = .deciding id event
    · exact hdeciding id event hp
    · exact h.deciding c' id event (phase_of_update (Ne.symm hp) hc)
  · by_cases hp : p = .expiring id
    · exact hexpiring id hp
    · exact h.expiring c' id (phase_of_update (Ne.symm hp) hc)

/-! ### The steps -/

variable [LinearOrder T] [Zero T] [One T] [Neg T] [Add T]

/-- The steps of a gate. -/
inductive Moves (m : ApprovalGate C T) : ApprovalAction C T → ApprovalGate C T → Prop
  | tick {t : T} : Moves m (.tick t) { m with clock := t }
  | request {id tool : String} {arguments : Json} {timeout : Option T}
    (hnone : m.requests id = none) :
    Moves m (.request id tool arguments timeout)
      { m.store ⟨id, tool, arguments, .pending, m.deadline timeout, none, 0, none⟩ with
        waiters := Function.update m.waiters id true }
  /-- a call is answered at once -/
  | answer {a : ApprovalAction C T} {c : C} {e : ApprovalEvent T} (hidle : m.phase c = .idle)
    (he : ∀ id req, e = .waited id (.returned req) → m.requests id = some req ∧
      req.state = .approved)
    (ha : (∃ id timeout v, a = .wait c id timeout ∧ e = .waited id v) ∨
      ∃ id approved by' note arguments r, a = .decide c id approved by' note arguments ∧
        e = .decided id r) :
    Moves m a (m.answer c e)
  | waits {c : C} {id : String} {timeout : Option T} {timed : Bool} (hidle : m.phase c = .idle)
    (htimed : timed = false → m.ttl timeout = none) :
    Moves m (.wait c id timeout) (m.goto c (.waiting id timed))
  | lapse {a : ApprovalAction C T} {c : C} {req : ApprovalRequest T}
    (hreq : m.requests req.id = some req) (hpending : req.state = .pending)
    (ha : (∃ timeout, a = .wait c req.id timeout ∧ m.phase c = .idle) ∨
      a = .timeOut c ∧ m.phase c = .waiting req.id true) :
    Moves m a ((m.store (m.expired req)).goto c (.expiring req.id))
  /-- `wait` ends -/
  | ended {a : ApprovalAction C T} {c : C} {id : String} {req : ApprovalRequest T} {v : Verdict T}
    (hreq : m.requests id = some req)
    (hover : m.isSet id = true ∨ req.state ≠ .pending ∨ m.phase c = .expiring id)
    (hv : ∀ r, v = .returned r → r = req ∧ req.state = .approved)
    (ha : ((a = .wake c ∨ a = .timeOut c) ∧ ∃ timed, m.phase c = .waiting id timed) ∨
      a = .written c ∧ m.phase c = .expiring id) :
    Moves m a (m.ended c id v)
  | decide {c : C} {req : ApprovalRequest T} {approved : Bool} {by' note : Option String}
    {arguments : Option Json} (hidle : m.phase c = .idle) (hreq : m.requests req.id = some req)
    (hpending : req.state = .pending) :
    Moves m (.decide c req.id approved by' note arguments)
      ((m.store (m.verdict req approved by' note arguments)).goto c
        (.deciding req.id (m.waiters req.id)))
  | written {c : C} {id : String} {event : Bool} (hphase : m.phase c = .deciding id event) :
    Moves m (.written c)
      { m.answer c (.decided id (m.requests id)) with
        isSet := if event then Function.update m.isSet id true else m.isSet }
  | expire {id : String} {req : ApprovalRequest T} (hreq : m.requests req.id = some req)
    (hpending : req.state = .pending) : Moves m (.expire id) (m.store (m.expired req))
  | stale {id : String} : Moves m (.expire id) m
  | recover {req : ApprovalRequest T} (hnone : m.requests req.id = none) :
    Moves m (.recover req) (m.store req)

/-- **What an action makes of a request.** -/
theorem Moves.becomes {m m' : ApprovalGate C T} {a : ApprovalAction C T} (h : m.Moves a m')
    {id : String} {req : ApprovalRequest T} (hreq : m.requests id = some req) :
    ∃ req', m'.requests id = some req' ∧ Becomes a req req' := by
  cases h with
  | tick | answer | waits | ended | written | stale => exact ⟨req, hreq, .same⟩
  | @request id' tool arguments timeout hnone =>
    refine ⟨req, ?_, .same⟩
    have hne : id ≠ id' := by
      rintro rfl
      rw [hnone] at hreq
      cases hreq
    exact (Function.update_of_ne hne _ _).trans hreq
  | lapse hr hpending ha => exact becomes_store hreq hr rfl (.refused hpending rfl rfl (.inl rfl))
  | decide hidle hr hpending => exact becomes_store hreq hr rfl (becomes_verdict hpending _ _ _ _)
  | expire hr hpending => exact becomes_store hreq hr rfl (.refused hpending rfl rfl (.inl rfl))
  | @recover r hnone =>
    refine ⟨req, ?_, .same⟩
    have hne : id ≠ r.id := by
      rintro rfl
      rw [hnone] at hreq
      cases hreq
    exact (Function.update_of_ne hne _ _).trans hreq

theorem Grounded.step {m m' : ApprovalGate C T} {a : ApprovalAction C T} (h : m.Grounded)
    (hmove : m.Moves a m') : m'.Grounded := by
  have hidle : ∀ c, (m.goto c .idle).Grounded := fun c => h.goto (by rintro _ _ ⟨⟩) (by rintro _ ⟨⟩)
  cases hmove with
  | tick | stale => exact ⟨h.keyed, h.isSet, h.deciding, h.expiring⟩
  | @request id tool arguments timeout hnone =>
    have hstore := h.store ⟨id, tool, arguments, .pending, m.deadline timeout, none, 0, none⟩
    exact ⟨hstore.keyed, hstore.isSet, hstore.deciding, hstore.expiring⟩
  | @answer a c | @ended a c =>
    exact ⟨(hidle c).keyed, (hidle c).isSet, (hidle c).deciding, (hidle c).expiring⟩
  | waits => exact h.goto (by rintro _ _ ⟨⟩) (by rintro _ ⟨⟩)
  | lapse hreq hpending ha =>
    refine (h.store _).goto (by rintro _ _ ⟨⟩) ?_
    rintro _ ⟨⟩
    exact ⟨_, Function.update_self _ _ _⟩
  | decide hc hreq hpending =>
    refine (h.store _).goto ?_ (by rintro _ ⟨⟩)
    rintro _ _ ⟨⟩
    exact ⟨_, Function.update_self _ _ _⟩
  | @written c id event hphase =>
    refine ⟨(hidle c).keyed, fun id' hset => ?_, (hidle c).deciding, (hidle c).expiring⟩
    have hset' : (if event then Function.update m.isSet id true else m.isSet) id' = true := hset
    split at hset'
    · by_cases heq : id' = id
      · rw [heq]
        exact h.deciding c id event hphase
      · exact h.isSet id' ((Function.update_of_ne heq _ _).symm.trans hset')
    · exact h.isSet id' hset'
  | expire hreq hpending => exact h.store _
  | recover hnone => exact h.store _

/-- The loop's own requests are new. -/
theorem Grounded.attended {m m' : ApprovalGate C T} (h : m.Grounded) {id tool : String}
    {arguments : Json}
    {timeout : Option T} (hmove : m.Moves (.request id tool arguments timeout) m') :
    m'.Attended id := by
  cases hmove with
  | request hnone =>
    have hfresh : ∀ {P : Prop}, (P → ∃ req, m.requests id = some req) → ¬ P := by
      intro P hP hp
      obtain ⟨req, hreq⟩ := hP hp
      rw [hnone] at hreq
      cases hreq
    refine attended_request (Bool.eq_false_iff.mpr (hfresh (h.isSet id)))
      (fun c => ⟨fun event => hfresh (h.deciding c id event), hfresh (h.expiring c id)⟩) rfl rfl
  | answer hidle he ha =>
    obtain (⟨id', timeout', v, ⟨⟩, -⟩ | ⟨id', approved, by', note, arguments', r, ⟨⟩, -⟩) := ha
  | lapse hreq hpending ha =>
    obtain (⟨timeout', ⟨⟩, -⟩ | ⟨⟨⟩, -⟩) := ha
  | ended hreq hover hv ha =>
    obtain (⟨⟨⟨⟩⟩ | ⟨⟨⟩⟩, -⟩ | ⟨⟨⟩, -⟩) := ha

/-- **A request stays attended.** -/
theorem Attended.step {m m' : ApprovalGate C T} {a : ApprovalAction C T} {id : String}
    (h : m.Attended id) (hmove : m.Moves a m') : m'.Attended id := by
  cases hmove with
  | tick | stale => exact ⟨h.filed, h.listed, h.settled, h.event, h.heard⟩
  | @request id' tool arguments timeout hnone =>
    obtain ⟨req, hreq⟩ := h.filed
    have hne : id ≠ id' := by
      rintro rfl
      rw [hnone] at hreq
      cases hreq
    let filed : ApprovalRequest T :=
      ⟨id', tool, arguments, .pending, m.deadline timeout, none, 0, none⟩
    have hrequests : (m.store filed).requests id = m.requests id := Function.update_of_ne hne _ _
    refine ⟨⟨req, hrequests.trans hreq⟩, fun r hr hpending => ?_, fun hover r hr => ?_, h.event,
      fun r hr hst => ?_⟩
    · exact (Function.update_of_ne hne _ _).trans (h.listed r (hrequests.symm.trans hr) hpending)
    · exact h.settled hover r (hrequests.symm.trans hr)
    · exact h.heard r (hrequests.symm.trans hr) hst
  | answer hidle he ha =>
    refine h.move (c := _) (p := .idle) rfl rfl (fun event => ?_) (by rintro _ ⟨⟩)
      (by rintro ⟨⟩) rfl (.inl rfl)
    rw [hidle]
    rintro ⟨⟩
  | waits hidle htimed =>
    refine h.move (c := _) rfl rfl (fun event => ?_) (by rintro _ ⟨⟩) (by rintro ⟨⟩) rfl (.inl rfl)
    rw [hidle]
    rintro ⟨⟩
  | @ended a c id' req v hreq hover hv ha =>
    refine h.move (c := c) (p := .idle) rfl rfl (fun event => ?_) (by rintro _ ⟨⟩)
      (by rintro ⟨⟩) rfl ?_
    · rcases ha with ⟨-, timed, hphase⟩ | ⟨-, hphase⟩ <;> rw [hphase] <;> rintro ⟨⟩
    · by_cases heq : id = id'
      · obtain rfl := heq
        refine .inr fun r hr => ?_
        obtain rfl := Option.some.inj (hreq.symm.trans hr)
        -- whichever way the wait has ended, the request is settled
        rcases hover with hset | hst | hphase
        · exact h.settled (.inl hset) _ hr
        · exact hst
        · exact h.settled (.inr (.inr ⟨c, hphase⟩)) _ hr
      · exact .inl (Function.update_of_ne heq _ _)
  | @lapse a c req hreq hpending ha =>
    by_cases heq : id = req.id
    · obtain rfl := heq
      refine attended_of_settled (m.expired req) (Function.update_self _ _ _) (by rintro ⟨⟩)
        (fun c' event hc' => ?_) (by rintro (⟨⟨⟩⟩ | ⟨⟨⟩⟩))
      exact h.event c' event (phase_of_update (by rintro ⟨⟩) hc')
    · refine h.move (c := c) (Function.update_of_ne heq _ _) rfl (fun event => ?_)
        (by rintro _ ⟨⟩) ?_ rfl (.inl rfl)
      · rcases ha with ⟨timeout, -, hphase⟩ | ⟨-, hphase⟩ <;> rw [hphase] <;> rintro ⟨⟩
      · rintro ⟨⟩
        exact heq rfl
  | @decide c req approved by' note arguments hidle hreq hpending =>
    by_cases heq : id = req.id
    · obtain rfl := heq
      -- the request has its event, so this decision finds it
      have hlisted : m.waiters req.id = true := h.listed req hreq hpending
      have hst : (m.verdict req approved by' note arguments).state ≠ .pending := by
        show (if m.isExpired req then ApprovalState.expired else if approved then .approved
          else .denied) ≠ _
        repeat' split
        all_goals rintro ⟨⟩
      refine attended_of_settled (m.verdict req approved by' note arguments)
        (Function.update_self _ _ _) hst (fun c' event hc' => ?_) fun _ => .inr ⟨c, ?_⟩
      · have hc'' : Function.update m.phase c (.deciding req.id (m.waiters req.id)) c' =
            .deciding req.id event := hc'
        rw [Function.update_apply] at hc''
        split at hc''
        · rw [← (ApprovalPhase.deciding.inj hc'').2, hlisted]
        · exact h.event c' event hc''
      · rw [← hlisted]
        exact Function.update_self _ _ _
    · refine h.move (c := c) (Function.update_of_ne heq _ _) rfl (fun event => ?_) ?_
        (by rintro ⟨⟩) rfl (.inl rfl)
      · rw [hidle]
        rintro ⟨⟩
      · rintro event ⟨⟩
        exact heq rfl
  | @written c id' event hphase =>
    by_cases heq : id = id'
    · obtain rfl := heq
      obtain rfl := h.event c event hphase
      obtain ⟨req, hreq⟩ := h.filed
      refine attended_of_settled req hreq (h.settled (.inr (.inl ⟨c, true, hphase⟩)) req hreq)
        (fun c' event hc' => ?_) fun _ => .inl (Function.update_self _ _ _)
      exact h.event c' event (phase_of_update (by rintro ⟨⟩) hc')
    · refine h.move (c := c) (p := .idle) rfl rfl (fun event' => ?_) (by rintro _ ⟨⟩)
        (by rintro ⟨⟩) ?_ (.inl rfl)
      · rw [hphase]
        rintro ⟨⟩
        exact heq rfl
      · show (if event then Function.update m.isSet id' true else m.isSet) id = m.isSet id
        split
        · exact Function.update_of_ne heq _ _
        · rfl
  | @expire id' req hreq hpending =>
    by_cases heq : id = req.id
    · obtain rfl := heq
      exact attended_of_settled (m.expired req) (Function.update_self _ _ _) (by rintro ⟨⟩) h.event
        (by rintro (⟨⟨⟩⟩ | ⟨⟨⟩⟩))
    · exact h.store_of_ne heq
  | recover hnone =>
    obtain ⟨req, hreq⟩ := h.filed
    refine h.store_of_ne ?_
    rintro rfl
    rw [hnone] at hreq
    cases hreq

variable [Sub T]

theorem moves_wait {m : ApprovalGate C T} (hkeyed : m.Keyed) {c : C} (hidle : m.phase c = .idle)
    (id : String) (timeout : Option T) : m.Moves (.wait c id timeout) (m.wait c id timeout) := by
  have hanswer : ∀ v : Verdict T, (∀ req, v = .returned req → m.requests id = some req ∧
      req.state = .approved) → m.Moves (.wait c id timeout) (m.answer c (.waited id v)) := by
    intro v hv
    refine .answer hidle ?_ (.inl ⟨id, timeout, v, rfl, rfl⟩)
    rintro id' req he
    obtain ⟨rfl, rfl⟩ := ApprovalEvent.waited.inj he
    exact hv req rfl
  unfold ApprovalGate.wait
  split
  · exact hanswer _ (by rintro _ ⟨⟩)
  · next req hreq =>
    obtain rfl := hkeyed id req hreq
    split
    · refine hanswer _ fun r hr => ?_
      obtain ⟨rfl, hst⟩ := settled_returned hr
      exact ⟨hreq, hst⟩
    · next hpending =>
      split
      · exact hanswer _ (by rintro _ ⟨⟩)
      · split
        · split
          · rw [ApprovalGate.lapse, if_pos (not_not.mp hpending)]
            exact .lapse hreq (not_not.mp hpending) (.inl ⟨timeout, rfl, hidle⟩)
          · exact .waits hidle (by rintro ⟨⟩)
        · next hbudget =>
          refine .waits hidle fun _ => ?_
          unfold budget at hbudget
          split at hbudget
          · exact hbudget
          · split at hbudget <;> cases hbudget

/-- A step of a gate is one of these. -/
theorem moves {m m' : ApprovalGate C T} (hkeyed : m.Keyed) {a : ApprovalAction C T}
    (h : m.step a = some m') : m.Moves a m' := by
  cases a with
  | tick t =>
    rw [step] at h
    split at h
    · obtain rfl := Option.some.inj h
      exact .tick
    · cases h
  | request id tool arguments timeout =>
    rw [step] at h
    split at h
    · cases h
    · next hnone =>
      obtain rfl := Option.some.inj h
      exact .request hnone
  | wait c id timeout =>
    rw [step] at h
    split at h
    · next hidle =>
      obtain rfl := Option.some.inj h
      exact moves_wait hkeyed hidle id timeout
    · cases h
  | wake c =>
    rw [step] at h
    split at h
    · next id timed hphase =>
      split at h
      · next req hreq =>
        split at h
        · next hset =>
          obtain rfl := Option.some.inj h
          exact .ended hreq (.inl hset) (fun r hr => settled_returned hr)
            (.inl ⟨.inl rfl, timed, hphase⟩)
        · cases h
      · cases h
    · cases h
  | timeOut c =>
    rw [step] at h
    split at h
    · next id hphase =>
      obtain ⟨req, hreq, rfl⟩ := Option.map_eq_some_iff.mp h
      obtain rfl := hkeyed id req hreq
      unfold ApprovalGate.lapse
      split
      · next hpending => exact .lapse hreq hpending (.inr ⟨rfl, hphase⟩)
      · next hpending =>
        exact .ended hreq (.inr (.inl hpending)) (by rintro _ ⟨⟩) (.inl ⟨.inr rfl, true, hphase⟩)
    · cases h
  | decide c id approved by' note arguments =>
    rw [step] at h
    split at h
    · next hidle =>
      obtain rfl := Option.some.inj h
      have hanswer : ∀ r, m.Moves (.decide c id approved by' note arguments)
          (m.answer c (.decided id r)) :=
        fun r => .answer hidle (by rintro _ _ ⟨⟩)
          (.inr ⟨id, approved, by', note, arguments, r, rfl, rfl⟩)
      unfold ApprovalGate.decide
      split
      · exact hanswer none
      · next req hreq =>
        obtain rfl := hkeyed id req hreq
        split
        · exact hanswer (some req)
        · next hpending => exact .decide hidle hreq (not_not.mp hpending)
    · cases h
  | written c =>
    rw [step] at h
    split at h
    · next id hphase =>
      obtain ⟨req, hreq, rfl⟩ := Option.map_eq_some_iff.mp h
      exact .ended hreq (.inr (.inr hphase)) (by rintro _ ⟨⟩) (.inr ⟨rfl, hphase⟩)
    · next id event hphase =>
      obtain rfl := Option.some.inj h
      exact .written hphase
    · cases h
  | expire id =>
    rw [step] at h
    split at h
    · next req hreq =>
      obtain rfl := hkeyed id req hreq
      split at h
      · obtain rfl := Option.some.inj h
        split
        · next hpending => exact .expire hreq hpending
        · exact .stale
      · cases h
    · cases h
  | recover req =>
    rw [step] at h
    split at h
    · cases h
    · next hnone =>
      obtain rfl := Option.some.inj h
      exact .recover hnone

end Istos.ApprovalGate
