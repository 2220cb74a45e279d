import Istos.Queue.Equiv.Board

/-!
# Lease fencing

A claim hands out the attempt number of the record as a token, and `_holds_lease` accepts an ack or
nack only with the token of the lease that is current.  `fencing` says what this buys over a whole
run: tokens of a job strictly increase, the current one is the only one accepted, and an accepted
ack is the last thing that ever happens to a job.

Nothing here depends on the clock or on the heaps; it follows from `Move`, job by job.  The one
thing it needs is that `add` never draws an id twice.
-/

namespace Istos

variable {T : Type} [LinearOrder T] [Zero T] [Add T] {c : QueueConfig T}

/-! ### One call -/

/-- A job that is over, or was never there: no claim returns it, and no ack or nack of it is
accepted. -/
def Closed (r? : Option (JobRecord T)) : Prop := ∀ r, r? = some r → r.state = .done ∨
    r.state = .dead

omit [LinearOrder T] [Zero T] [Add T] in
theorem closed_none : Closed (none : Option (JobRecord T)) := by
  intro r h
  cases h

omit [LinearOrder T] [Zero T] [Add T] in
theorem not_closed_of_leased {r : JobRecord T} (h : r.state = .leased) : ¬ Closed (some r) := by
  intro hc
  rcases hc r rfl with h' | h'
  · exact JobState.noConfusion (h.symm.trans h')
  · exact JobState.noConfusion (h.symm.trans h')

omit [Add T] in
/-- A record that was aged into a claimable one was not over. -/
theorem not_closed_of_claimable {now : T} {r r' : JobRecord T} (aged : r.Aged now r')
    (claimable : r'.claimable now = true) : ¬ Closed (some r) := by
  rcases aged with rfl | ⟨hx, -⟩
  · intro hc
    have hready : r'.state = .ready := (JobRecord.claimable_iff.mp claimable).1
    rcases hc r' rfl with h | h
    · exact JobState.noConfusion (hready.symm.trans h)
    · exact JobState.noConfusion (hready.symm.trans h)
  · exact not_closed_of_leased (JobRecord.expired_iff.mp hx).1

/-- **Over is over**: unless its id is drawn again, nothing happens to a job that is over. -/
theorem Move.closed {id : String} {ev : Event T} {r? r?' : Option (JobRecord T)}
    (h : Move c id ev r? r?') (hc : Closed r?) (hadd : ev.effect id ≠ some .added) :
    ev.effect id = none ∧ Closed r?' := by
  cases h with
  | stay _ quiet => exact ⟨quiet, hc⟩
  | lapsed quiet clock expired =>
    exact absurd hc (not_closed_of_leased (JobRecord.expired_iff.mp expired).1)
  | added _ seq add => exact absurd (Event.effect_add add) hadd
  | claimed clock aged claimable effect => exact absurd hc (not_closed_of_claimable aged claimable)
  | completed res t held effect => exact absurd hc (not_closed_of_leased held.leased)
  | forgotten held effect => exact absurd hc (not_closed_of_leased held.leased)
  | buried error t held last effect => exact absurd hc (not_closed_of_leased held.leased)
  | requeued error t held more effect => exact absurd hc (not_closed_of_leased held.leased)
  | purged sweep aged old =>
    obtain ⟨op, answer⟩ := ev
    obtain rfl : op = .sweep _ := sweep
    exact ⟨rfl, closed_none⟩

omit [LinearOrder T] [Add T] in
@[simp] theorem JobRecord.attempts_lapse (now : T) (r : JobRecord T) :
    (r.lapse now).attempts = r.attempts := by
  unfold JobRecord.lapse
  split <;> rfl

omit [Add T] in
theorem JobRecord.Aged.attempts {now : T} {r r' : JobRecord T} (h : r.Aged now r') :
    r'.attempts = r.attempts := by
  rcases h with rfl | ⟨-, rfl⟩
  · rfl
  · exact r.attempts_lapse now

/-- Unless its id is drawn again, the attempts of a job never go down. -/
theorem Move.attempts_le {id : String} {ev : Event T} {r r' : JobRecord T}
    (h : Move c id ev (some r) (some r')) (hadd : ev.effect id ≠ some .added) :
    r.attempts ≤ r'.attempts := by
  cases h with
  | stay _ quiet => exact le_refl _
  | lapsed quiet clock expired => exact (r.attempts_lapse _).ge
  | added _ seq add => exact absurd (Event.effect_add add) hadd
  | claimed clock aged claimable effect =>
    rw [JobRecord.attempts_lease, aged.attempts]
    omega
  | completed res t held effect => exact le_refl _
  | buried error t held last effect => exact le_refl _
  | requeued error t held more effect => exact le_refl _

/-- What a claim returns is the record it leaves behind, with one attempt more than before. -/
theorem Move.claim {id : String} {ev : Event T} {r? r?' : Option (JobRecord T)} {q : JobRecord T}
    (h : Move c id ev r? r?') (hq : ev.effect id = some (.claimed q)) :
    r?' = some q ∧ ∃ r, r? = some r ∧ q.attempts = r.attempts + 1 := by
  cases h with
  | @claimed _ _ r r' clock aged claimable effect =>
    rw [effect, Option.some.injEq, Effect.claimed.injEq] at hq
    subst hq
    refine ⟨rfl, r, rfl, ?_⟩
    rw [JobRecord.attempts_lease, aged.attempts]
  | added _ seq add =>
    rw [Event.effect_add add] at hq
    cases hq
  | purged sweep aged old =>
    obtain ⟨op, answer⟩ := ev
    obtain rfl : op = .sweep _ := sweep
    cases hq
  | _ => simp_all

/-- A job appears only when its id is drawn. -/
theorem Move.of_none {id : String} {ev : Event T} {r?' : Option (JobRecord T)}
    (h : Move c id ev none r?') (hadd : ev.effect id ≠ some .added) : r?' = none := by
  cases h with
  | stay _ quiet => rfl
  | added _ seq add => exact absurd (Event.effect_add add) hadd

/-- An accepted ack finds the job leased and leaves it over. -/
theorem Move.acked {id : String} {ev : Event T} {r? r?' : Option (JobRecord T)}
    (h : Move c id ev r? r?') (hack : ev.effect id = some .acked) :
    (∃ r, r? = some r ∧ r.state = .leased) ∧ Closed r?' := by
  cases h with
  | @completed r res t held effect =>
    refine ⟨⟨r, rfl, held.leased⟩, fun r' hr' => Or.inl ?_⟩
    obtain rfl := Option.some.inj hr'
    rfl
  | @forgotten r held effect => exact ⟨⟨r, rfl, held.leased⟩, closed_none⟩
  | added _ seq add =>
    rw [Event.effect_add add] at hack
    cases hack
  | purged sweep aged old =>
    obtain ⟨op, answer⟩ := ev
    obtain rfl : op = .sweep _ := sweep
    cases hack
  | _ => simp_all

/-! ### Runs -/

/-- The ids a history adds, in order. -/
def added (hist : List (Event T)) : List String := addedIds (hist.map Prod.fst)

omit [LinearOrder T] [Zero T] [Add T] in
theorem added_cons (ev : Event T) (evs : List (Event T)) :
    added (ev :: evs) = ev.1.addedId?.toList ++ added evs := by
  unfold added addedIds
  rw [List.map_cons, List.filterMap_cons]
  cases ev.1.addedId? <;> rfl

omit [LinearOrder T] [Zero T] [Add T] in
theorem mem_addedId_of_effect {id : String} {ev : Event T} (h : ev.effect id = some .added) :
    id ∈ ev.1.addedId?.toList := by
  unfold Event.effect at h
  split at h <;> simp_all [Op.addedId?]

omit [LinearOrder T] [Zero T] [Add T] in
/-- A history does not draw an id that is not among those it adds. -/
theorem effect_ne_added {id : String} {ev : Event T} {evs : List (Event T)}
    (h : id ∉ added (ev :: evs)) : ev.effect id ≠ some .added := by
  intro heff
  rw [added_cons, List.mem_append, not_or] at h
  exact h.1 (mem_addedId_of_effect heff)

/-- The ids a history draws are distinct and not in use. -/
def Fresh (b : Board T) (hist : List (Event T)) : Prop :=
  (added hist).Nodup ∧ ∀ id ∈ added hist, b id = none

theorem Fresh.step {b b' : Board T} {ev : Event T} {evs : List (Event T)}
    (h : Fresh b (ev :: evs)) (hs : Board.Step c b ev b') : Fresh b' evs := by
  obtain ⟨hnodup, hnone⟩ := h
  rw [added_cons] at hnodup hnone
  refine ⟨(List.nodup_append.mp hnodup).2.1, fun id hid => ?_⟩
  have hmove := hs id
  rw [hnone id (List.mem_append_right _ hid)] at hmove
  refine hmove.of_none fun heff => ?_
  exact (List.nodup_append.mp hnodup).2.2 id (mem_addedId_of_effect heff) id hid rfl

omit [LinearOrder T] [Zero T] [Add T] in
theorem Fresh.not_mem {b : Board T} {hist : List (Event T)} {id : String} {r : JobRecord T}
    (h : Fresh b hist) (hr : b id = some r) : id ∉ added hist := by
  intro hid
  rw [h.2 id hid] at hr
  cases hr

/-- **A closed job stays closed**, whatever the calls. -/
theorem Board.Run.closed {b b' : Board T} {hist : List (Event T)} (h : Board.Run c b hist b')
    {id : String} (hc : Closed (b id)) (hid : id ∉ added hist) :
    (∀ ev ∈ hist, ev.effect id = none) ∧ Closed (b' id) := by
  induction h with
  | nil b => exact ⟨by simp, hc⟩
  | @cons b b' b'' ev evs hs hrun ih =>
    obtain ⟨hquiet, hc'⟩ := (hs id).closed hc (effect_ne_added hid)
    rw [added_cons, List.mem_append, not_or] at hid
    obtain ⟨hrest, hc''⟩ := ih hc' hid.2
    refine ⟨fun ev' hev' => ?_, hc''⟩
    rcases List.mem_cons.mp hev' with rfl | hev'
    · exact hquiet
    · exact hrest ev' hev'

omit [LinearOrder T] [Zero T] [Add T] in
theorem claims_cons (id : String) (ev : Event T) (evs : List (Event T)) :
    claims id (ev :: evs) = claims id [ev] ++ claims id evs := by
  unfold claims
  rw [← List.filterMap_append, List.singleton_append]

omit [LinearOrder T] [Zero T] [Add T] in
theorem mem_claims_singleton {id : String} {ev : Event T} {q : JobRecord T} :
    q ∈ claims id [ev] ↔ ev.effect id = some (.claimed q) := by
  unfold claims
  cases h : ev.effect id with
  | none => simp [h]
  | some e => cases e <;> simp [h, eq_comm]

omit [LinearOrder T] [Zero T] [Add T] in
theorem claims_eq_nil {id : String} {hist : List (Event T)}
    (h : ∀ ev ∈ hist, ev.effect id = none) : claims id hist = [] := by
  rw [claims, List.filterMap_eq_nil_iff]
  intro ev hev
  rw [h ev hev]

omit [LinearOrder T] [Zero T] [Add T] in
theorem claims_singleton_pairwise (id : String) (ev : Event T) :
    ((claims id [ev]).map JobRecord.attempts).Pairwise (· < ·) := by
  unfold claims
  rw [List.filterMap_cons, List.filterMap_nil]
  split <;> simp

/-- **Tokens increase**, and exceed the attempts the job starts with. -/
theorem Board.Run.claims {b b' : Board T} {hist : List (Event T)} (h : Board.Run c b hist b')
    (hf : Fresh b hist) (id : String) :
    ((claims id hist).map JobRecord.attempts).Pairwise (· < ·) ∧
      ∀ r, b id = some r → ∀ q ∈ Istos.claims id hist, r.attempts < q.attempts := by
  induction h with
  | nil b => exact ⟨List.Pairwise.nil, by simp [Istos.claims]⟩
  | @cons b b' b'' ev evs hs hrun ih =>
    obtain ⟨ihpair, ihbound⟩ := ih (hf.step hs)
    have hfirst : ∀ q ∈ Istos.claims id [ev], ∀ q' ∈ Istos.claims id evs,
        q.attempts < q'.attempts := by
      intro q hq
      exact ihbound q ((hs id).claim (mem_claims_singleton.mp hq)).1
    rw [claims_cons]
    refine ⟨?_, fun r hr q hq => ?_⟩
    · rw [List.map_append, List.pairwise_append]
      refine ⟨claims_singleton_pairwise id ev, ihpair, ?_⟩
      simpa using hfirst
    · rcases List.mem_append.mp hq with hq | hq
      · obtain ⟨-, r₀, hr₀, hstep⟩ := (hs id).claim (mem_claims_singleton.mp hq)
        have hrr : r₀ = r := Option.some.inj (hr₀.symm.trans hr)
        rw [hstep, hrr]
        exact lt_add_one r.attempts
      · have hid : id ∉ added (ev :: evs) := hf.not_mem hr
        have hmove := hs id
        rw [hr] at hmove
        cases hr' : b' id with
        | some r' =>
          rw [hr'] at hmove
          exact (hmove.attempts_le (effect_ne_added hid)).trans_lt (ihbound r' hr' q hq)
        | none =>
          -- the job is gone, and its id is not drawn again
          rw [added_cons, List.mem_append, not_or] at hid
          have hquiet := (hrun.closed (hr' ▸ closed_none) hid.2).1
          rw [claims_eq_nil hquiet] at hq
          cases hq

theorem Board.Run.append_inv {b b' : Board T} {hist hist' : List (Event T)}
    (h : Board.Run c b (hist ++ hist') b') :
    ∃ b₁, Board.Run c b hist b₁ ∧ Board.Run c b₁ hist' b' := by
  induction hist generalizing b with
  | nil => exact ⟨b, .nil b, h⟩
  | cons ev hist ih =>
    cases h with
    | cons hs hrun =>
      obtain ⟨b₁, h₁, h₂⟩ := ih hrun
      exact ⟨b₁, .cons hs h₁, h₂⟩

theorem Fresh.run {b b' : Board T} {hist hist' : List (Event T)} (h : Board.Run c b hist b')
    (hf : Fresh b (hist ++ hist')) : Fresh b' hist' := by
  induction h with
  | nil b => exact hf
  | cons hs hrun ih => exact ih (Fresh.step hf hs)

/-- **After an accepted ack** nothing happens to the job any more. -/
theorem Board.Run.after_ack {b b' : Board T} {pre post : List (Event T)} {ev : Event T}
    (h : Board.Run c b (pre ++ ev :: post) b') (hf : Fresh b (pre ++ ev :: post)) {id : String}
    (hack : ev.effect id = some .acked) : ∀ ev' ∈ post, ev'.effect id = none := by
  obtain ⟨b₁, hpre, hrest⟩ := h.append_inv
  have hf₁ : Fresh b₁ (ev :: post) := hf.run hpre
  cases hrest with
  | cons hs hpost =>
    obtain ⟨⟨r, hr, -⟩, hclosed⟩ := (hs id).acked hack
    have hid : id ∉ added (ev :: post) := hf₁.not_mem hr
    rw [added_cons, List.mem_append, not_or] at hid
    exact (hpost.closed hclosed hid.2).1

/-! ### The store -/

/-- The job is known, leased, and its current attempt number is `k`. -/
def QueueStore.Holds (s : QueueStore T) (id : String) (k : ℤ) : Prop :=
  ∃ r, s.job id = some r ∧ r.state = .leased ∧ r.attempts = k

omit [Zero T] [Add T] in
theorem holds_iff (s : QueueStore T) (id : String) (k : ℤ) :
    s.Holds id k ↔ ∃ r, s.job id = some r ∧ r.holdsLease (some k) = true := by
  unfold QueueStore.Holds JobRecord.holdsLease
  simp only [Bool.and_eq_true, decide_eq_true_eq]

theorem ack_accepted (c : QueueConfig T) (s : QueueStore T) (id : String) (res : Option Bytes)
    (k : ℤ) (now : T) : (s.ack c id res (some k) now).answer = true ↔ s.Holds id k := by
  rw [holds_iff]
  rcases ack_cases c s id res (some k) now with ⟨hnot, h⟩ | ⟨r, hr, hold, ⟨-, h⟩ | ⟨-, h⟩⟩
  · rw [h]
    constructor
    · exact fun h' => absurd h' Bool.false_ne_true
    · rintro ⟨r, hr, hold⟩
      exact (Bool.false_ne_true ((hnot r hr).symm.trans hold)).elim
  · rw [h]
    exact iff_of_true rfl ⟨r, hr, hold⟩
  · rw [h]
    exact iff_of_true rfl ⟨r, hr, hold⟩

theorem nack_accepted (s : QueueStore T) (id : String) (error : Option String) (delay : T)
    (k : ℤ) (t₁ t₂ : T) :
    (s.nack id error delay (some k) t₁ t₂).answer ≠ none ↔ s.Holds id k := by
  rw [holds_iff]
  rcases nack_cases s id error delay (some k) t₁ t₂ with
    ⟨hnot, h⟩ | ⟨r, hr, hold, ⟨-, h⟩ | ⟨-, h⟩⟩
  · rw [h]
    constructor
    · exact fun h' => absurd rfl h'
    · rintro ⟨r, hr, hold⟩
      exact (Bool.false_ne_true ((hnot r hr).symm.trans hold)).elim
  · rw [h]
    exact iff_of_true (Option.some_ne_none _) ⟨r, hr, hold⟩
  · rw [h]
    exact iff_of_true (Option.some_ne_none _) ⟨r, hr, hold⟩

theorem added_history (c : QueueConfig T) (s : QueueStore T) (ops : List (Op T)) :
    added (s.history c ops) = addedIds ops := by
  have h : (s.history c ops).map Prod.fst = ops := by
    induction ops generalizing s with
    | nil => rfl
    | cons op ops ih => rw [QueueStore.history, List.map_cons, ih]
  rw [added, h]

theorem fresh_history (c : QueueConfig T) {ops : List (Op T)} (h : (addedIds ops).Nodup) :
    Fresh QueueStore.init.job (QueueStore.init.history c ops) := by
  refine ⟨?_, fun id _ => rfl⟩
  rw [added_history]
  exact h

/-- **Single delivery and lease fencing**: over every run of the store,

* the attempt numbers that successive claims of a job return strictly increase;
* in the state reached, an ack or nack is accepted exactly when the job is leased under the attempt
  it carries, so two attempts are never accepted at once;
* after an accepted ack of a job no claim returns it, and no ack or nack of it is accepted. -/
theorem fencing (c : QueueConfig T) (ops : List (Op T)) (fresh : (addedIds ops).Nodup) :
    (∀ id, ((claims id (QueueStore.init.history c ops)).map JobRecord.attempts).Pairwise (· < ·)) ∧
    (∀ id k,
      (∀ res t, ((QueueStore.init.run c ops).ack c id res (some k) t).answer = true ↔
        (QueueStore.init.run c ops).Holds id k) ∧
      (∀ error delay t₁ t₂,
        ((QueueStore.init.run c ops).nack id error delay (some k) t₁ t₂).answer ≠ none ↔
          (QueueStore.init.run c ops).Holds id k) ∧
      ∀ k', (QueueStore.init.run c ops).Holds id k → (QueueStore.init.run c ops).Holds id k' →
        k = k') ∧
    ∀ id pre ev post, QueueStore.init.history c ops = pre ++ ev :: post →
      ev.effect id = some .acked → ∀ ev' ∈ post, ev'.effect id = none := by
  have hrun := run_board c QueueStore.init ops
  have hfresh := fresh_history c fresh
  refine ⟨fun id => (hrun.claims hfresh id).1, fun id k => ⟨?_, ?_, ?_⟩, ?_⟩
  · exact fun res t => ack_accepted c _ id res k t
  · exact fun error delay t₁ t₂ => nack_accepted _ id error delay k t₁ t₂
  · rintro k' ⟨r, hr, -, rfl⟩ ⟨r', hr', -, rfl⟩
    exact congrArg JobRecord.attempts (Option.some.inj (hr.symm.trans hr'))
  · intro id pre ev post hist hack
    rw [hist] at hrun hfresh
    exact hrun.after_ack hfresh hack

/-- A lease runs out and the job is claimed again; the ack of the first claim comes too late. -/
def lateAck : List (Op ℤ) :=
  [.add ⟨[], 2, 0, 0, none, none, none⟩ "a" 0 0 0, .claim 0 10, .claim 10 10,
    .ack "a" none (some 1) 11, .ack "a" none (some 2) 12]

theorem fencing_lateAck :
    (claims "a" (QueueStore.init.history .defaults lateAck)).map JobRecord.attempts = [1, 2] ∧
      ((claims "a" (QueueStore.init.history .defaults lateAck)).map JobRecord.attempts).Pairwise
        (· < ·) :=
  ⟨by decide, (fencing .defaults lateAck (by decide)).1 "a"⟩

end Istos
