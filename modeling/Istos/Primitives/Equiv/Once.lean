import Istos.Primitives.Equiv.Repeat

/-!
# Exactly once, under concurrency

Calls with one idempotency key, on a storage in memory, of a handler without return annotation and
without middleware.  `HandlerCalls.Ordinary` is what is assumed of a run: no call is cancelled,
storage calls and teardowns succeed, and every call ends within its lease.

Three things make a call end otherwise than its body did, and one more takes the body's place
(`HandlerCalls.Astray`): a dependency that raises; a back-off that is too large for a float; a hook
that raises; and a dependency that takes the error of the body and does not raise it again.

* `exactly_once`: in a run without these, `HandlerCalls.ExactlyOnce` holds in every state.
-/

namespace Istos

open Lease

/-- The lease of a call that holds the key. -/
def CallPhase.holder? {S : Type} : CallPhase S → Option (WithTop S)
  | resolving lease => some lease
  | outer lease _ => some lease
  | body lease _ => some lease
  | waiting lease _ => some lease
  | recording lease _ _ => some lease
  | closing lease (.error _) => some lease
  | releasing lease _ => some lease
  | _ => none

/-- What a body returned. -/
def CallEvent.returned? {C S : Type} : CallEvent C S → Option (C × Value)
  | bodyReturned c v _ => some (c, v)
  | _ => none

namespace HandlerCalls

variable {C T F : Type} [DecidableEq C]

/-- The bodies that returned, and what they returned. -/
def results {σ S : Type} (m : HandlerCalls σ C S) : List (C × Value) :=
  m.log.filterMap CallEvent.returned?

/-- The call holds the key. -/
def Holds {σ S : Type} (m : HandlerCalls σ C S) (c : C) : Prop :=
  ∃ lease, (m.phase c).holder? = some lease

/-- Every call that holds the key does so within its lease. -/
def InTime {σ S : Type} [LinearOrder S] (m : HandlerCalls σ C S) : Prop :=
  ∀ c lease, (m.phase c).holder? = some lease → (m.clock : WithTop S) < lease

variable [LinearOrder T] [Zero T] [Add T] [LinearOrder F] [Zero F] [One F] [Add F] [Mul F]
    [FloatPow F]
variable (h : HandlerWrapper F T) (key : String)

/-- A step of calls on a storage in memory. -/
abbrev stepInMemory (m : HandlerCalls (InMemoryStorage T) C T) (a : CallAction C T T F) :
    Option (HandlerCalls (InMemoryStorage T) C T) :=
  m.step (.inMemory T) h key a

/-- No call is cancelled, its storage calls and its teardown succeed, and it ends within its lease.
-/
def Ordinary (m : HandlerCalls (InMemoryStorage T) C T) (a : CallAction C T T F) : Prop :=
  (match a with
    | .callFails .. => False
    | .cancelSleep _ => False
    | .written _ _ _ end' => end' = .returns
    | .released _ _ end' => end' = .returns
    | .closed _ (.raises _) => False
    | _ => True) ∧
  ∀ m', m.stepInMemory h key a = some m' → m'.InTime

omit [LinearOrder T] [Zero T] [Add T] in
/-- A dependency raises, or takes an error; or what follows an attempt that raised is another error.
-/
def Astray (m : HandlerCalls (InMemoryStorage T) C T) : CallAction C T T F → Prop
  | .unresolved _ _ => True
  | .closed _ .swallows => True
  | .bodyRaises c e draw =>
    ∃ lease n e', m.phase c = .body lease n ∧ h.retryPolicy.after n e draw = .fail e' ∧ e' ≠ e
  | _ => False

/-- **Exactly once.** -/
structure ExactlyOnce (m : HandlerCalls (InMemoryStorage T) C T) : Prop where
  /-- at most one body returns -/
  once : m.results.length ≤ 1
  /-- a call that returns gets its result -/
  returns : ∀ c v, .ended c (.returns v) ∈ m.log → ∃ d, (d, v) ∈ m.results
  /-- a call that raises raises what its own body raised -/
  raises : ∀ c e, .ended c (.raises e) ∈ m.log → .bodyRaised c e ∈ m.log
  /-- a call gets a `ConflictError` only while another one holds the key -/
  conflict : ∀ (c : C) x m', m.stepInMemory h key (.call c x) = some m' →
    m'.log = m.log ++ [.ended c .refused] → ∃ d, d ≠ c ∧ m.Holds d
  /-- no two bodies run at the same time -/
  alone : ∀ c d lease n lease' n', m.phase c = .body lease n → m.phase d = .body lease' n' → c = d
  /-- while no body has returned and nobody holds the key, a call runs the body -/
  again : m.results = [] → (∀ d, ¬ m.Holds d) → ∀ (c : C) x m₁,
    m.stepInMemory h key (.call c x) = some m₁ →
      ∃ lease m₂, m₁.stepInMemory h key (.resolved c) = some m₂ ∧ m₂.phase c = .body lease 0

/-! ### The invariant -/

/-- What holds in every state of a run. -/
structure Exact (m : HandlerCalls (InMemoryStorage T) C T) : Prop where
  holder : ∀ c lease, (m.phase c).holder? = some lease → m.store.status key = .held lease
  inTime : m.InTime
  single : ∀ c d, m.Holds c → m.Holds d → c = d
  held : ∀ lease, m.store.status key = .held lease → ∃ c, (m.phase c).holder? = some lease
  done : ∀ v, m.store.status key = .done v → ∃ c, m.results = [(c, v)]
  recording : ∀ c lease v w, m.phase c = .recording lease v w → m.results = [(c, v)]
  closing : ∀ c lease v, m.phase c = .closing lease (.ok v) → m.store.status key = .done v
  open' : (∀ v, m.store.status key ≠ .done v) → (∀ c lease v w, m.phase c ≠ .recording lease v w) →
    m.results = []
  returns : ∀ c v, .ended c (.returns v) ∈ m.log → m.store.status key = .done v
  raises : ∀ c e, .ended c (.raises e) ∈ m.log → .bodyRaised c e ∈ m.log
  failing : ∀ c lease e, m.phase c = .closing lease (.error e) ∨ m.phase c = .releasing lease e →
    .bodyRaised c e ∈ m.log
  outer : ∀ c lease n, m.phase c ≠ .outer lease n

variable {h key}

omit [DecidableEq C] in
theorem exact_init (clock : T) : (init (.inMemory T) clock : HandlerCalls _ C T).Exact key where
  holder := nofun
  inTime := nofun
  single := nofun
  held := nofun
  done := nofun
  recording := nofun
  closing := nofun
  open' _ _ := rfl
  returns := nofun
  raises := nofun
  failing _ _ _ h := by rcases h with h | h <;> cases h
  outer := nofun

omit [Zero T] [Add T] in
/-- A holder that goes on holding the key. -/
theorem Exact.keep {m : HandlerCalls (InMemoryStorage T) C T} (hm : m.Exact key) {c : C}
    {lease : WithTop T} (hc : (m.phase c).holder? = some lease) {p : CallPhase T}
    (hp : p.holder? = some lease) {m' : HandlerCalls (InMemoryStorage T) C T}
    (hphase : m'.phase = Function.update m.phase c p)
    (hstatus : m'.store.status key = m.store.status key) (hin : m'.InTime)
    {es : List (CallEvent C T)} (hlog : m'.log = m.log ++ es) (hes : ∀ d o, .ended d o ∉ es)
    (houter : ∀ n, p ≠ .outer lease n)
    (hrecording : ∀ v w, p = .recording lease v w → m'.results = [(c, v)])
    (hopen : (∀ v w, p ≠ .recording lease v w) → m'.results = [])
    (hfailing : ∀ e, p = .closing lease (.error e) ∨ p = .releasing lease e →
      .bodyRaised c e ∈ m'.log) :
    m'.Exact key := by
  have hheld := hm.holder c lease hc
  have hnew : m'.phase c = p := by rw [hphase, Function.update_self]
  have hold : ∀ d, d ≠ c → m'.phase d = m.phase d := fun d hd => by
    rw [hphase, Function.update_of_ne hd]
  -- nobody else holds the key
  have honly : ∀ d u, (m'.phase d).holder? = some u → d = c := by
    intro d u hd
    by_contra hne
    rw [hold d hne] at hd
    exact hne (hm.single d c ⟨u, hd⟩ ⟨lease, hc⟩)
  have hlease : ∀ {u}, p.holder? = some u → u = lease :=
    fun hu => Option.some.inj (hu.symm.trans hp)
  have hmem : ∀ {d o}, .ended d o ∈ m'.log → .ended d o ∈ m.log := by
    intro d o hd
    rw [hlog] at hd
    exact (List.mem_append.mp hd).resolve_right (hes d o)
  have hmono : ∀ {e}, e ∈ m.log → e ∈ m'.log := fun he => by
    rw [hlog]
    exact List.mem_append_left _ he
  refine
    { holder := fun d u hd => ?_
      inTime := hin
      single := fun d d' ⟨u, hd⟩ ⟨u', hd'⟩ => (honly d u hd).trans (honly d' u' hd').symm
      held := fun u hu => ⟨c, ?_⟩
      done := fun v hv => ?_
      recording := fun d u v w hd => ?_
      closing := fun d u v hd => ?_
      open' := fun _ hno => hopen fun v w heq => hno c lease v w (hnew.trans heq)
      returns := fun d v hd => hstatus.trans (hm.returns d v (hmem hd))
      raises := fun d e hd => hmono (hm.raises d e (hmem hd))
      failing := fun d u e hd => ?_
      outer := fun d u n hd => ?_ }
  · obtain rfl := honly d u hd
    rw [hnew] at hd
    rw [hstatus, hlease hd]
    exact hheld
  · rw [hnew, hp, ← hheld.symm.trans (hstatus.symm.trans hu) |> Status.held.inj]
  · rw [hstatus, hheld] at hv
    cases hv
  · obtain rfl := honly d u (by rw [hd]; rfl)
    have heq := hnew.symm.trans hd
    obtain rfl := hlease (by rw [heq]; rfl)
    exact hrecording v w heq
  · by_cases hne : d = c
    · subst hne
      have heq := hnew.symm.trans hd
      rw [heq] at hp
      cases hp
    · rw [hold d hne] at hd
      rw [hstatus]
      exact hm.closing d u v hd
  · by_cases hne : d = c
    · subst hne
      have heq : p = .closing u (.error e) ∨ p = .releasing u e := by rwa [hnew] at hd
      obtain rfl : u = lease := hlease (by rcases heq with rfl | rfl <;> rfl)
      exact hfailing e heq
    · rw [hold d hne] at hd
      exact hmono (hm.failing d u e hd)
  · by_cases hne : d = c
    · subst hne
      have heq := hnew.symm.trans hd
      obtain rfl := hlease (by rw [heq]; rfl)
      exact houter n heq
    · rw [hold d hne] at hd
      exact hm.outer d u n hd

omit [DecidableEq C] [Zero T] [Add T] in
/-- A holder leaves no room for another. -/
theorem Exact.only {m : HandlerCalls (InMemoryStorage T) C T} (hm : m.Exact key) {c d : C}
    (hc : m.Holds c) (hd : d ≠ c) : (m.phase d).holder? = none := by
  cases hphase : (m.phase d).holder? with
  | none => rfl
  | some lease => exact absurd (hm.single d c ⟨lease, hphase⟩ hc) hd

omit [Zero T] [Add T] in
/-- **A holder gives the key back**, completed or released. -/
theorem Exact.giveBack {m : HandlerCalls (InMemoryStorage T) C T} (hm : m.Exact key) {c : C}
    {lease : WithTop T} (hc : (m.phase c).holder? = some lease) {p : CallPhase T}
    (hp : p.holder? = none) {m' : HandlerCalls (InMemoryStorage T) C T}
    (hphase : m'.phase = Function.update m.phase c p) {e : CallEvent C T}
    (hlog : m'.log = m.log ++ [e]) (he : e.returned? = none)
    (hreturns : ∀ d v, e ≠ .ended d (.returns v))
    (hraises : ∀ d e', e = .ended d (.raises e') → .bodyRaised d e' ∈ m.log)
    (hstatus : (m'.store.status key = .free ∧ m.results = [] ∧ ∀ u v, p ≠ .closing u (.ok v)) ∨
      ∃ v, m'.store.status key = .done v ∧ m.results = [(c, v)] ∧ ∀ u w, p = .closing u (.ok w) →
        w = v) :
    m'.Exact key := by
  have hheld := hm.holder c lease hc
  have hnew : m'.phase c = p := by rw [hphase, Function.update_self]
  have hold : ∀ d, d ≠ c → m'.phase d = m.phase d := fun d hd => by
    rw [hphase, Function.update_of_ne hd]
  have hnone : ∀ d, (m'.phase d).holder? = none := by
    intro d
    by_cases hne : d = c
    · rw [hne, hnew, hp]
    · rw [hold d hne]
      exact hm.only ⟨lease, hc⟩ hne
  have hno : ∀ {d u}, (m'.phase d).holder? ≠ some u := fun {d u} hd => by
    rw [hnone d] at hd
    cases hd
  have hundone : ∀ {v}, m.store.status key ≠ .done v := fun {v} hv => by
    rw [hheld] at hv
    cases hv
  have hresults : m'.results = m.results := by
    rw [results, hlog, List.filterMap_append, results]
    simp [he]
  refine
    { holder := fun d u hd => absurd hd hno
      inTime := fun d u hd => absurd hd hno
      single := fun d d' ⟨u, hd⟩ _ => absurd hd hno
      held := fun u hu => ?_
      done := fun v hv => ?_
      recording := fun d u v w hd => absurd (by rw [hd]; rfl) (hno (d := d) (u := u))
      closing := fun d u v hd => ?_
      open' := fun hopen _ => ?_
      returns := fun d v hd => ?_
      raises := fun d e' hd => ?_
      failing := fun d u e' hd => absurd (by rcases hd with hd | hd <;> rw [hd] <;> rfl)
        (hno (d := d) (u := u))
      outer := fun d u n hd => absurd (by rw [hd]; rfl) (hno (d := d) (u := u)) }
  · rcases hstatus with ⟨hfree, -, -⟩ | ⟨v, hdone, -, -⟩
    · cases hfree.symm.trans hu
    · cases hdone.symm.trans hu
  · rcases hstatus with ⟨hfree, -, -⟩ | ⟨w, hdone, hone, -⟩
    · cases hfree.symm.trans hv
    · obtain rfl := Status.done.inj (hdone.symm.trans hv)
      exact ⟨c, hresults.trans hone⟩
  · by_cases hne : d = c
    · subst hne
      have heq := hnew.symm.trans hd
      rcases hstatus with ⟨-, -, hnever⟩ | ⟨w, hdone, -, hsame⟩
      · exact absurd heq (hnever u v)
      · rw [hdone, hsame u v heq]
    · rw [hold d hne] at hd
      exact absurd (hm.closing d u v hd) hundone
  · rcases hstatus with ⟨-, hnil, -⟩ | ⟨v, hdone, -, -⟩
    · exact hresults.trans hnil
    · exact absurd hdone (hopen v)
  · rw [hlog] at hd
    rcases List.mem_append.mp hd with hd | hd
    · exact absurd (hm.returns d v hd) hundone
    · exact absurd (List.mem_singleton.mp hd).symm (hreturns d v)
  · rw [hlog] at hd ⊢
    refine List.mem_append_left _ ?_
    rcases List.mem_append.mp hd with hd | hd
    · exact hm.raises d e' hd
    · exact hraises d e' (List.mem_singleton.mp hd).symm

omit [Zero T] [Add T] in
/-- **A call that does not hold the key ends**. -/
theorem Exact.finish {m : HandlerCalls (InMemoryStorage T) C T} (hm : m.Exact key) {c : C}
    (hc : (m.phase c).holder? = none) {m' : HandlerCalls (InMemoryStorage T) C T}
    (hphase : m'.phase = Function.update m.phase c .ended)
    (hstatus : m'.store.status key = m.store.status key) (hin : m'.InTime) {o : CallOutcome}
    (hlog : m'.log = m.log ++ [.ended c o])
    (hreturns : ∀ v, o = .returns v → m.store.status key = .done v) (hraises : ∀ e, o ≠ .raises e) :
    m'.Exact key := by
  have hnew : m'.phase c = .ended := by rw [hphase, Function.update_self]
  have hold : ∀ d, d ≠ c → m'.phase d = m.phase d := fun d hd => by
    rw [hphase, Function.update_of_ne hd]
  have hne : ∀ {d p}, m'.phase d = p → p ≠ .ended → d ≠ c := by
    rintro d p hd hp rfl
    exact hp (hd.symm.trans hnew)
  have hholder : ∀ {d u}, (m'.phase d).holder? = some u → (m.phase d).holder? = some u := by
    intro d u hd
    by_cases heq : d = c
    · subst heq
      rw [hnew] at hd
      cases hd
    · rwa [hold d heq] at hd
  -- only the phase of `c` and the log change, and `c` holds nothing
  have hresults : m'.results = m.results := by
    rw [results, hlog, List.filterMap_append, results]
    exact List.append_nil _
  refine
    { holder := fun d u hd => hstatus.trans (hm.holder d u (hholder hd))
      inTime := hin
      single := fun d d' ⟨u, hd⟩ ⟨u', hd'⟩ => hm.single d d' ⟨u, hholder hd⟩ ⟨u', hholder hd'⟩
      held := fun u hu => ?_
      done := fun v hv => ?_
      recording := fun d u v w hd => ?_
      closing := fun d u v hd => ?_
      open' := fun hopen hno => ?_
      returns := fun d v hd => ?_
      raises := fun d e hd => ?_
      failing := fun d u e hd => ?_
      outer := fun d u n hd => ?_ }
  · obtain ⟨d, hd⟩ := hm.held u (hstatus.symm.trans hu)
    refine ⟨d, ?_⟩
    rw [hold d ?_]
    · exact hd
    · rintro rfl
      cases hc.symm.trans hd
  · obtain ⟨d, hd⟩ := hm.done v (hstatus.symm.trans hv)
    exact ⟨d, hresults.trans hd⟩
  · rw [hold d (hne hd nofun)] at hd
    exact hresults.trans (hm.recording d u v w hd)
  · rw [hold d (hne hd nofun)] at hd
    exact hstatus.trans (hm.closing d u v hd)
  · refine hresults.trans (hm.open' (fun v hv => hopen v (hstatus.trans hv)) fun d u v w hd => ?_)
    by_cases heq : d = c
    · subst heq
      rw [hd] at hc
      cases hc
    · exact hno d u v w ((hold d heq).trans hd)
  · rw [hstatus]
    rw [hlog] at hd
    rcases List.mem_append.mp hd with hd | hd
    · exact hm.returns d v hd
    · obtain ⟨rfl, rfl⟩ := CallEvent.ended.inj (List.mem_singleton.mp hd)
      exact hreturns v rfl
  · rw [hlog] at hd ⊢
    rcases List.mem_append.mp hd with hd | hd
    · exact List.mem_append_left _ (hm.raises d e hd)
    · obtain ⟨-, rfl⟩ := CallEvent.ended.inj (List.mem_singleton.mp hd)
      exact absurd rfl (hraises e)
  · have hdc : d ≠ c := by
      rcases hd with hd | hd
      · exact hne hd nofun
      · exact hne hd nofun
    rw [hold d hdc] at hd
    rw [hlog]
    exact List.mem_append_left _ (hm.failing d u e hd)
  · rw [hold d (hne hd nofun)] at hd
    exact hm.outer d u n hd

omit [Zero T] [Add T] in
/-- **A call is granted the key**, which nobody holds. -/
theorem Exact.grant {m : HandlerCalls (InMemoryStorage T) C T} (hm : m.Exact key) {c : C}
    {lease : WithTop T} (hfree : m.store.status key = .free)
    {m' : HandlerCalls (InMemoryStorage T) C T}
    (hphase : m'.phase = Function.update m.phase c (.resolving lease))
    (hstatus : m'.store.status key = .held lease) (hin : m'.InTime) (hlog : m'.log = m.log) :
    m'.Exact key := by
  have hnew : m'.phase c = .resolving lease := by rw [hphase, Function.update_self]
  have hold : ∀ d, d ≠ c → m'.phase d = m.phase d := fun d hd => by
    rw [hphase, Function.update_of_ne hd]
  have hnone : ∀ d u, (m.phase d).holder? ≠ some u := fun d u hd => by
    cases hfree.symm.trans (hm.holder d u hd)
  have honly : ∀ {d u}, (m'.phase d).holder? = some u → d = c := by
    intro d u hd
    by_contra hne
    rw [hold d hne] at hd
    exact hnone d u hd
  have hundone : ∀ {v}, m.store.status key ≠ .done v := fun {v} hv => by
    rw [hfree] at hv
    cases hv
  have hresolving : ∀ {p}, m'.phase c = p → p = .resolving lease := fun hp => hp.symm.trans hnew
  refine
    { holder := fun d u hd => ?_
      inTime := hin
      single := fun d d' ⟨u, hd⟩ ⟨u', hd'⟩ => (honly hd).trans (honly hd').symm
      held := fun u hu => ⟨c, ?_⟩
      done := fun v hv => ?_
      recording := fun d u v w hd => ?_
      closing := fun d u v hd => ?_
      open' := fun _ _ => ?_
      returns := fun d v hd => ?_
      raises := fun d e hd => ?_
      failing := fun d u e hd => ?_
      outer := fun d u n hd => ?_ }
  · obtain rfl := honly hd
    rw [hnew] at hd
    obtain rfl := Option.some.inj hd
    exact hstatus
  · rw [hnew, ← Status.held.inj (hstatus.symm.trans hu)]
    rfl
  · cases hstatus.symm.trans hv
  · obtain rfl := honly (show (m'.phase d).holder? = some u by rw [hd]; rfl)
    cases hresolving hd
  · by_cases hne : d = c
    · subst hne
      cases hresolving hd
    · rw [hold d hne] at hd
      exact absurd (hm.closing d u v hd) hundone
  · rw [results, hlog]
    refine hm.open' (fun v => hundone) fun d u v w hd => hnone d u ?_
    rw [hd]
    rfl
  · rw [hlog] at hd
    exact absurd (hm.returns d v hd) hundone
  · rw [hlog] at hd ⊢
    exact hm.raises d e hd
  · have hholds : (m'.phase d).holder? = some u := by rcases hd with hd | hd <;> rw [hd] <;> rfl
    obtain rfl := honly hholds
    rcases hd with hd | hd
    · cases hresolving hd
    · cases hresolving hd
  · obtain rfl := honly (show (m'.phase d).holder? = some u by rw [hd]; rfl)
    cases hresolving hd

/-! ### One step -/

omit [LinearOrder F] [Zero F] [One F] [Add F] [Mul F] [FloatPow F] in
/-- **A claim**: it is refused, or answered with the result, or the key is free and granted. -/
theorem Exact.claim {m : HandlerCalls (InMemoryStorage T) C T} (hm : m.Exact key) {c : C}
    (hidle : m.phase c = .idle) {x : Clock T} (hready : m.Ready (.inMemory T) x)
    (hin : (m.claim (.inMemory T) h key c x).InTime) :
    (m.claim (.inMemory T) h key c x).Exact key := by
  have hnone : (m.phase c).holder? = none := by rw [hidle]; rfl
  have hstatus : (m.ask (.inMemory T) (.claim key h.lease) x true).store.status key
      = (m.store.status key).claim x.monotonic ((x.monotonic' + h.lease : T) : WithTop T) :=
    (InMemoryStorage.status_perform m.store (.claim key h.lease) x key).trans (if_pos rfl)
  have hanswer : ((LeasedStorage.inMemory T).perform m.store (.claim key h.lease) x).2
      = .claim (claimAnswer x.monotonic (m.store.status key)) :=
    InMemoryStorage.claim_answer m.store key h.lease x
  rw [HandlerCalls.claim, hanswer] at hin ⊢
  cases hst : m.store.status key with
  | free =>
    rw [hst] at hin hstatus
    exact hm.grant hst rfl hstatus hin rfl
  | done v =>
    rw [hst] at hin hstatus
    refine hm.finish hnone rfl (hstatus.trans hst.symm) hin rfl (fun w hw => ?_) nofun
    rw [hst, CallOutcome.returns.inj hw]
  | held u =>
    rw [hst] at hin hstatus
    by_cases hle : u ≤ x.monotonic
    · -- its holder would be late
      rw [claimAnswer_of_le hle] at hin
      obtain ⟨d, hd⟩ := hm.held u hst
      have hdc : d ≠ c := by
        rintro rfl
        cases hnone.symm.trans hd
      have hlive := hin d u (by
        show (Function.update m.phase c _ d).holder? = some u
        rw [Function.update_of_ne hdc]
        exact hd)
      have hlater : (x.monotonic : WithTop T) ≤ x.monotonic' := WithTop.coe_le_coe.mpr hready.2
      exact absurd (hle.trans hlater) (not_le.mpr hlive)
    · rw [claimAnswer_of_lt (not_le.mp hle)] at hin ⊢
      rw [Status.claim_of_refuses (Status.grants_held_of_lt (not_le.mp hle))] at hstatus
      exact hm.finish hnone rfl (hstatus.trans hst.symm) hin rfl nofun nofun

omit [DecidableEq C] [Zero T] [Add T] in
/-- While a call that is not at a write holds the key, no body has returned. -/
theorem Exact.results_nil {m : HandlerCalls (InMemoryStorage T) C T} (hm : m.Exact key) {c : C}
    {lease : WithTop T} (hc : (m.phase c).holder? = some lease)
    (hno : ∀ u v w, m.phase c ≠ .recording u v w) : m.results = [] := by
  refine hm.open' (fun v hv => ?_) fun d u v w hd => ?_
  · cases (hm.holder c lease hc).symm.trans hv
  · obtain rfl := hm.single d c ⟨u, by rw [hd]; rfl⟩ ⟨lease, hc⟩
    exact hno u v w hd

omit [DecidableEq C] [LinearOrder T] [Zero T] [Add T] in
theorem results_append {m m' : HandlerCalls (InMemoryStorage T) C T} {es : List (CallEvent C T)}
    (hlog : m'.log = m.log ++ es) : m'.results = m.results ++ es.filterMap CallEvent.returned? := by
  rw [results, hlog, List.filterMap_append]
  rfl

omit [Zero T] [Add T] in
/-- A holder begins its body. -/
theorem Exact.begins {m : HandlerCalls (InMemoryStorage T) C T} (hm : m.Exact key) {c : C}
    {lease : WithTop T} (hc : (m.phase c).holder? = some lease)
    (hno : ∀ u v w, m.phase c ≠ .recording u v w) (n : ℕ) (hin : (m.start c lease n).InTime) :
    (m.start c lease n).Exact key := by
  have hnil : (m.start c lease n).results = [] := by
    rw [results_append (m := m) rfl, hm.results_nil hc hno]
    rfl
  refine hm.keep hc (p := .body lease n) rfl rfl rfl hin rfl ?_ nofun nofun (fun _ => hnil) nofun
  intro d o hmem
  cases List.mem_singleton.mp hmem

omit [LinearOrder F] [Zero F] [One F] [Add F] [Mul F] [FloatPow F] in
/-- **A write**: the last one completes the key. -/
theorem Exact.write {m : HandlerCalls (InMemoryStorage T) C T} (hm : m.Exact key) {c : C}
    {lease : WithTop T} {v : Value} {w : Recording} (hphase : m.phase c = .recording lease v w)
    {x : Clock T} {serialized : Value}
    (hin : (m.write (.inMemory T) h key c lease v w x serialized .returns).InTime) :
    (m.write (.inMemory T) h key c lease v w x serialized .returns).Exact key := by
  have hc : (m.phase c).holder? = some lease := by rw [hphase]; rfl
  have hone := hm.recording c lease v w hphase
  cases w with
  | put =>
    refine hm.keep hc (p := .recording lease v .log) rfl rfl
      (InMemoryStorage.status_perform m.store (.put h.path serialized) x key) hin
      (List.append_nil _).symm (fun _ _ => List.not_mem_nil) nofun (fun v' _ heq => ?_)
      (fun hno => absurd rfl (hno v .log)) nofun
    cases heq
    exact hone
  | log =>
    refine hm.keep hc (p := .recording lease v .mark) rfl rfl
      (InMemoryStorage.status_perform m.store (.log h.path serialized (some key)) x key) hin
      (List.append_nil _).symm (fun _ _ => List.not_mem_nil) nofun (fun v' _ heq => ?_)
      (fun hno => absurd rfl (hno v .mark)) nofun
    cases heq
    exact hone
  | mark =>
    refine hm.giveBack hc (p := .closing lease (.ok v)) rfl rfl (e := .marked c) rfl rfl nofun nofun
      (Or.inr ⟨v, ?_, hone, fun u w' heq => ?_⟩)
    · show (m.store.perform (.mark key v) x).1.status key = .done v
      rw [InMemoryStorage.status_perform, hm.holder c lease hc]
      exact if_pos rfl
    · obtain ⟨-, heq⟩ := CallPhase.closing.inj heq
      injection heq with heq
      exact heq.symm

theorem exact_step (hmiddleware : h.middleware = false) (hreturn : h.validateReturn = some)
    (m : HandlerCalls (InMemoryStorage T) C T) (a : CallAction C T T F)
    (m' : HandlerCalls (InMemoryStorage T) C T) (hstep : m.stepInMemory h key a = some m')
    (ha : m.Ordinary h key a ∧ ¬ m.Astray h a) (hm : m.Exact key) : m'.Exact key := by
  obtain ⟨⟨hordinary, hintime⟩, hastray⟩ := ha
  have hin := hintime m' hstep
  unfold stepInMemory at hstep
  cases a with
  | tick t =>
    rw [step] at hstep
    split at hstep
    · obtain rfl := Option.some.inj hstep
      exact { hm with inTime := hin }
    · cases hstep
  | call c x =>
    rw [step] at hstep
    split at hstep
    · rename_i hidle
      split at hstep
      · rename_i hready
        obtain rfl := Option.some.inj hstep
        exact hm.claim hidle hready hin
      · cases hstep
    · cases hstep
  | callFails c x applied e => exact absurd hordinary id
  | resolved c =>
    rw [step] at hstep
    split at hstep
    · rename_i lease hphase
      obtain rfl := Option.some.inj hstep
      rw [beginAttempt, if_neg (Bool.eq_false_iff.mp hmiddleware)] at hin ⊢
      exact hm.begins (by rw [hphase]; rfl) (hphase ▸ fun _ _ _ hp => by cases hp) 0 hin
    · cases hstep
  | unresolved c e => exact absurd trivial hastray
  | next c =>
    rw [step] at hstep
    split at hstep
    · rename_i lease n hphase
      exact absurd hphase (hm.outer c lease n)
    · cases hstep
  | bodyReturns c v =>
    rw [step] at hstep
    split at hstep
    · rename_i lease n hphase
      obtain rfl := Option.some.inj hstep
      rw [if_neg (Bool.eq_false_iff.mp hmiddleware), attemptReturns, hreturn] at hin ⊢
      have hc : (m.phase c).holder? = some lease := by rw [hphase]; rfl
      have hnil := hm.results_nil hc (hphase ▸ fun _ _ _ hp => by cases hp)
      have hone : ((m.add (.bodyReturned c v lease)).goto c (.recording lease v .put)).results
          = [(c, v)] := by
        rw [results_append (m := m) rfl, hnil]
        rfl
      refine hm.keep hc (p := .recording lease v .put) rfl rfl rfl hin rfl ?_
        (fun _ hp => by cases hp) (fun w _ heq => ?_) (fun hno => absurd rfl (hno v .put))
        fun _ hp => by rcases hp with hp | hp <;> cases hp
      · intro d o hmem
        cases List.mem_singleton.mp hmem
      · cases heq
        exact hone
    · cases hstep
  | bodyRaises c e draw =>
    rw [step] at hstep
    split at hstep
    · rename_i lease n hphase
      obtain rfl := Option.some.inj hstep
      rw [if_neg (Bool.eq_false_iff.mp hmiddleware)] at hin ⊢
      have hc : (m.phase c).holder? = some lease := by rw [hphase]; rfl
      have hnil : (m.add (.bodyRaised c e)).results = [] := by
        rw [results_append (m := m) rfl, hm.results_nil hc (hphase ▸ fun _ _ _ hp => by cases hp)]
        rfl
      have hes : ∀ d o, CallEvent.ended d o ∉ [CallEvent.bodyRaised (S := T) c e] := by
        intro d o hmem
        cases List.mem_singleton.mp hmem
      unfold attemptRaises at hin ⊢
      split at hin
      · rename_i wait hafter
        exact hm.keep hc (p := .waiting lease n) rfl rfl rfl hin rfl hes (fun _ hp => by cases hp)
          (fun _ _ hp => by cases hp) (fun _ => hnil)
          fun _ hp => by rcases hp with hp | hp <;> cases hp
      · rename_i e' hafter
        refine hm.keep hc (p := .closing lease (.error e')) rfl rfl rfl hin rfl hes
          (fun _ hp => by cases hp) (fun _ _ hp => by cases hp) (fun _ => hnil) fun e'' heq => ?_
        -- what the call raises is what the body raised
        have hsame : e' = e := by
          by_contra hne
          exact hastray ⟨lease, n, e', hphase, hafter, hne⟩
        rcases heq with heq | heq
        · obtain rfl : e' = e'' := by injection heq with _ heq; injection heq
          rw [hsame]
          exact List.mem_append_right _ (List.mem_singleton.mpr rfl)
        · cases heq
    · cases hstep
  | attemptEnds c outcome draw =>
    rw [step] at hstep
    split at hstep
    · rename_i lease n hphase
      exact absurd hphase (hm.outer c lease n)
    · cases hstep
  | wake c =>
    rw [step] at hstep
    split at hstep
    · rename_i lease n hphase
      obtain rfl := Option.some.inj hstep
      rw [beginAttempt, if_neg (Bool.eq_false_iff.mp hmiddleware)] at hin ⊢
      exact hm.begins (by rw [hphase]; rfl) (hphase ▸ fun _ _ _ hp => by cases hp) (n + 1) hin
    · cases hstep
  | cancelSleep c => exact absurd hordinary id
  | written c x serialized end' =>
    obtain rfl : end' = .returns := hordinary
    rw [step] at hstep
    split at hstep
    · rename_i lease v w hphase
      split at hstep
      · rename_i hready
        obtain rfl := Option.some.inj hstep
        exact hm.write hphase hin
      · cases hstep
    · cases hstep
  | closed c end' =>
    rw [step] at hstep
    split at hstep
    · rename_i lease outcome hphase
      cases end' with
      | returns =>
        cases outcome with
        | ok v =>
          obtain rfl := Option.some.inj hstep
          refine hm.finish (by rw [hphase]; rfl) rfl rfl hin rfl (fun w hw => ?_)
            fun _ ho => by cases ho
          rw [← CallOutcome.returns.inj hw]
          exact hm.closing c lease v hphase
        | error e =>
          obtain rfl := Option.some.inj hstep
          have hc : (m.phase c).holder? = some lease := by rw [hphase]; rfl
          refine hm.keep hc (p := .releasing lease e) rfl rfl rfl hin (List.append_nil _).symm
            (fun _ _ => List.not_mem_nil) (fun _ hp => by cases hp) (fun _ _ hp => by cases hp)
            (fun _ => hm.results_nil hc (hphase ▸ fun _ _ _ hp => by cases hp)) fun e' heq => ?_
          rcases heq with heq | heq
          · cases heq
          · obtain ⟨-, rfl⟩ := CallPhase.releasing.inj heq
            exact hm.failing c lease e (Or.inl hphase)
      | raises e => exact absurd hordinary id
      | swallows => exact absurd trivial hastray
    · cases hstep
  | released c x end' =>
    obtain rfl : end' = .returns := hordinary
    rw [step] at hstep
    split at hstep
    · rename_i lease e hphase
      split at hstep
      · obtain rfl := Option.some.inj hstep
        have hc : (m.phase c).holder? = some lease := by rw [hphase]; rfl
        refine hm.giveBack hc (p := .ended) rfl rfl (e := .ended c (.raises e)) rfl rfl
          (fun _ _ heq => by cases heq) (fun d e' heq => ?_)
          (Or.inl ⟨?_, hm.results_nil hc (hphase ▸ fun _ _ _ hp => by cases hp),
            fun _ _ hp => by cases hp⟩)
        · obtain ⟨rfl, ho⟩ := CallEvent.ended.inj heq
          obtain rfl := CallOutcome.raises.inj ho
          exact hm.failing c lease e (Or.inr hphase)
        · show (m.store.perform (.release key) x).1.status key = .free
          rw [InMemoryStorage.status_perform, hm.holder c lease hc]
          exact if_pos rfl
      · cases hstep
    · cases hstep

/-! ### The claim -/

/-- What a call does, by the record it finds. -/
theorem step_call {m m' : HandlerCalls (InMemoryStorage T) C T} {c : C} {x : Clock T}
    (hcall : m.stepInMemory h key (.call c x) = some m') :
    m.phase c = .idle ∧ m' = m.claim (.inMemory T) h key c x := by
  unfold stepInMemory at hcall
  rw [step] at hcall
  split at hcall
  · rename_i hidle
    split at hcall
    · exact ⟨hidle, (Option.some.inj hcall).symm⟩
    · cases hcall
  · cases hcall

omit [LinearOrder F] [Zero F] [One F] [Add F] [Mul F] [FloatPow F] in
theorem claim_of_free {m : HandlerCalls (InMemoryStorage T) C T}
    (hfree : m.store.status key = .free) (c : C) (x : Clock T) :
    (m.claim (.inMemory T) h key c x).phase c
      = .resolving ((x.monotonic' + h.lease : T) : WithTop T) := by
  have hanswer : ((LeasedStorage.inMemory T).perform m.store (.claim key h.lease) x).2
      = .claim { state := .claimed } := by
    have hclaim := InMemoryStorage.claim_answer m.store key h.lease x
    rwa [hfree] at hclaim
  rw [HandlerCalls.claim, hanswer]
  exact Function.update_self ..

/-- A call that begins while nobody holds the key. -/
theorem Exact.again {m m₁ : HandlerCalls (InMemoryStorage T) C T} (hm : m.Exact key)
    (hmiddleware : h.middleware = false) (hnil : m.results = []) (hnobody : ∀ d, ¬ m.Holds d)
    {c : C} {x : Clock T} (hcall : m.stepInMemory h key (.call c x) = some m₁) :
    ∃ lease m₂, m₁.stepInMemory h key (.resolved c) = some m₂ ∧ m₂.phase c = .body lease 0 := by
  obtain ⟨-, rfl⟩ := step_call hcall
  have hfree : m.store.status key = .free := by
    cases hst : m.store.status key with
    | free => rfl
    | held u =>
      obtain ⟨d, hd⟩ := hm.held u hst
      exact absurd ⟨u, hd⟩ (hnobody d)
    | done v =>
      obtain ⟨d, hd⟩ := hm.done v hst
      cases hnil.symm.trans hd
  refine ⟨((x.monotonic' + h.lease : T) : WithTop T), ?_⟩
  unfold stepInMemory
  rw [step, claim_of_free hfree]
  refine ⟨_, rfl, ?_⟩
  rw [beginAttempt, if_neg (Bool.eq_false_iff.mp hmiddleware)]
  exact Function.update_self ..

/-- A call that is refused finds a holder, and does not hold the key itself. -/
theorem Exact.conflict {m m' : HandlerCalls (InMemoryStorage T) C T} (hm : m.Exact key) {c : C}
    {x : Clock T} (hcall : m.stepInMemory h key (.call c x) = some m')
    (hlog : m'.log = m.log ++ [.ended c .refused]) : ∃ d, d ≠ c ∧ m.Holds d := by
  obtain ⟨hidle, rfl⟩ := step_call hcall
  have hanswer : ((LeasedStorage.inMemory T).perform m.store (.claim key h.lease) x).2
      = .claim (claimAnswer x.monotonic (m.store.status key)) :=
    InMemoryStorage.claim_answer m.store key h.lease x
  rw [HandlerCalls.claim, hanswer] at hlog
  cases hst : m.store.status key with
  | held u =>
    obtain ⟨d, hd⟩ := hm.held u hst
    refine ⟨d, ?_, u, hd⟩
    rintro rfl
    rw [hidle] at hd
    cases hd
  | free =>
    rw [hst] at hlog
    have hlength := congrArg List.length hlog
    rw [List.length_append] at hlength
    exact absurd hlength (Nat.ne_of_lt (Nat.lt_succ_self _))
  | done v =>
    rw [hst] at hlog
    have hsame := List.append_cancel_left hlog
    cases hsame

theorem Exact.exactlyOnce {m : HandlerCalls (InMemoryStorage T) C T} (hm : m.Exact key)
    (hmiddleware : h.middleware = false) : m.ExactlyOnce h key where
  once := by
    by_cases hdone : ∃ v, m.store.status key = .done v
    · obtain ⟨v, hv⟩ := hdone
      obtain ⟨c, hc⟩ := hm.done v hv
      rw [hc]
      exact le_rfl
    · by_cases hrecording : ∃ c lease v w, m.phase c = .recording lease v w
      · obtain ⟨c, lease, v, w, hphase⟩ := hrecording
        rw [hm.recording c lease v w hphase]
        exact le_rfl
      · rw [hm.open' (fun v hv => hdone ⟨v, hv⟩) fun c lease v w hphase =>
          hrecording ⟨c, lease, v, w, hphase⟩]
        exact Nat.zero_le 1
  returns c v hmem := by
    obtain ⟨d, hd⟩ := hm.done v (hm.returns c v hmem)
    exact ⟨d, by rw [hd]; exact List.mem_singleton.mpr rfl⟩
  raises := hm.raises
  conflict _ _ _ hcall hlog := hm.conflict hcall hlog
  alone c d lease n lease' n' hc hd :=
    hm.single c d ⟨lease, by rw [hc]; rfl⟩ ⟨lease', by rw [hd]; rfl⟩
  again hnil hnobody _ _ _ hcall := hm.again hmiddleware hnil hnobody hcall

end HandlerCalls

/-- **An exactly-once handler on a storage in memory**, without return annotation and without
middleware, under any retry policy: in every run without a dependency that raises or takes an error
and without an attempt that is followed by another error, every state is `ExactlyOnce`. -/
theorem exactly_once {C T F : Type} [DecidableEq C] [LinearOrder T] [Zero T] [Add T] [LinearOrder F]
    [Zero F] [One F] [Add F] [Mul F] [FloatPow F] {h : HandlerWrapper F T} {key : String}
    (hmiddleware : h.middleware = false) (hreturn : h.validateReturn = some) {clock : T}
    {as : List (CallAction C T T F)} {m : HandlerCalls (InMemoryStorage T) C T}
    (hrun : Steps.run (HandlerCalls.stepInMemory h key) (HandlerCalls.init (.inMemory T) clock) as
      = some m)
    (hordinary : Steps.Along (HandlerCalls.stepInMemory h key)
      (fun m a => m.Ordinary h key a ∧ ¬ m.Astray h a) (HandlerCalls.init (.inMemory T) clock) as) :
    m.ExactlyOnce h key := by
  have hm := Steps.run_invariant (HandlerCalls.exact_step hmiddleware hreturn) hrun hordinary
    (HandlerCalls.exact_init clock)
  exact hm.exactlyOnce hmiddleware

/-! ### A dependency that takes an error -/

/-- The calls `false` and `true`, of which the first may hold the key until 10. -/
theorem HandlerCalls.inTime_of_first {m : HandlerCalls (InMemoryStorage ℤ) Bool ℤ}
    (hfirst : (m.phase false).holder? = none ∨
      (m.phase false).holder? = some ((10 : ℤ) : WithTop ℤ))
    (hsecond : (m.phase true).holder? = none) (hclock : m.clock < 10) : m.InTime := by
  intro c lease hc
  cases c with
  | true => cases hsecond.symm.trans hc
  | false =>
    rcases hfirst with hnone | hsome
    · cases hnone.symm.trans hc
    · rw [← Option.some.inj (hsome.symm.trans hc)]
      exact WithTop.coe_lt_coe.mpr hclock

theorem exactly_once_paid :
    let _ := FloatPow.whole
    ∃ m, Steps.run (HandlerCalls.stepInMemory (plainHandler some) "k")
        (HandlerCalls.init (.inMemory ℤ) 0) paidOnce = some m ∧
      m.ExactlyOnce (plainHandler some) "k" := by
  intro _
  have hrun : ∃ m, Steps.run (HandlerCalls.stepInMemory (plainHandler some) "k")
      (HandlerCalls.init (.inMemory ℤ) 0) paidOnce = some m := ⟨_, rfl⟩
  obtain ⟨m, hrun⟩ := hrun
  refine ⟨m, hrun, exactly_once rfl rfl hrun ?_⟩
  refine ⟨⟨⟨trivial, ?_⟩, id⟩, ⟨⟨trivial, ?_⟩, id⟩, ⟨⟨trivial, ?_⟩, id⟩, ⟨⟨rfl, ?_⟩, id⟩,
    ⟨⟨rfl, ?_⟩, id⟩, ⟨⟨rfl, ?_⟩, id⟩, ⟨⟨trivial, ?_⟩, id⟩, ⟨⟨trivial, ?_⟩, id⟩, trivial⟩
  · rintro m' hstep
    obtain rfl := Option.some.inj hstep
    exact HandlerCalls.inTime_of_first (Or.inr rfl) rfl (show (0 : ℤ) < 10 by decide)
  · rintro m' hstep
    obtain rfl := Option.some.inj hstep
    exact HandlerCalls.inTime_of_first (Or.inr rfl) rfl (show (0 : ℤ) < 10 by decide)
  · rintro m' hstep
    obtain rfl := Option.some.inj hstep
    exact HandlerCalls.inTime_of_first (Or.inr rfl) rfl (show (0 : ℤ) < 10 by decide)
  · rintro m' hstep
    obtain rfl := Option.some.inj hstep
    exact HandlerCalls.inTime_of_first (Or.inr rfl) rfl (show (1 : ℤ) < 10 by decide)
  · rintro m' hstep
    obtain rfl := Option.some.inj hstep
    exact HandlerCalls.inTime_of_first (Or.inr rfl) rfl (show (1 : ℤ) < 10 by decide)
  · rintro m' hstep
    obtain rfl := Option.some.inj hstep
    exact HandlerCalls.inTime_of_first (Or.inl rfl) rfl (show (1 : ℤ) < 10 by decide)
  · rintro m' hstep
    obtain rfl := Option.some.inj hstep
    exact HandlerCalls.inTime_of_first (Or.inl rfl) rfl (show (1 : ℤ) < 10 by decide)
  · rintro m' hstep
    obtain rfl := Option.some.inj hstep
    exact HandlerCalls.inTime_of_first (Or.inl rfl) rfl (show (2 : ℤ) < 10 by decide)

/-- An error that nothing but the body raises. -/
def PyError.outOfStock : PyError := ⟨"out of stock", true, none⟩

/-- **The body raises, and a dependency takes the error** (an `except` around its `yield`): the call
returns `None`, its claim stays, and the next call gets a `ConflictError` although nobody holds the
key. -/
theorem error_swallowed :
    let _ := FloatPow.whole
    ∃ m, Steps.run (HandlerCalls.stepInMemory (plainHandler some) "k")
        (HandlerCalls.init (.inMemory ℤ) 0)
        [.call false (.at' 0), .resolved false, .bodyRaises false .outOfStock 0,
            .closed false .swallows,
          .call true (.at' 2)] = some m ∧
      Steps.Along (HandlerCalls.stepInMemory (plainHandler some) "k")
        (fun m a => m.Ordinary (plainHandler some) "k" a) (HandlerCalls.init (.inMemory ℤ) 0)
        [.call false (.at' 0), .resolved false, .bodyRaises false .outOfStock 0,
            .closed false .swallows,
          .call true (.at' 2)] ∧
      m.log = [.started false 0, .bodyRaised false .outOfStock, .ended false (.returns .none),
        .ended true .refused] ∧ ¬ m.ExactlyOnce (plainHandler some) "k" := by
  intro _
  refine ⟨_, rfl, ⟨⟨trivial, ?_⟩, ⟨trivial, ?_⟩, ⟨trivial, ?_⟩, ⟨trivial, ?_⟩, ⟨trivial, ?_⟩,
      trivial⟩,
    rfl, fun hm => ?_⟩
  · rintro m' hstep
    obtain rfl := Option.some.inj hstep
    exact HandlerCalls.inTime_of_first (Or.inr rfl) rfl (show (0 : ℤ) < 10 by decide)
  · rintro m' hstep
    obtain rfl := Option.some.inj hstep
    exact HandlerCalls.inTime_of_first (Or.inr rfl) rfl (show (0 : ℤ) < 10 by decide)
  · rintro m' hstep
    obtain rfl := Option.some.inj hstep
    exact HandlerCalls.inTime_of_first (Or.inr rfl) rfl (show (0 : ℤ) < 10 by decide)
  · rintro m' hstep
    obtain rfl := Option.some.inj hstep
    exact HandlerCalls.inTime_of_first (Or.inl rfl) rfl (show (0 : ℤ) < 10 by decide)
  · rintro m' hstep
    obtain rfl := Option.some.inj hstep
    exact HandlerCalls.inTime_of_first (Or.inl rfl) rfl (show (2 : ℤ) < 10 by decide)
  · obtain ⟨d, hd⟩ := hm.returns false .none (List.mem_cons_of_mem _ (List.mem_cons_of_mem _
      List.mem_cons_self))
    cases hd

end Istos
