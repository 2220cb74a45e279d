import Istos.Queue.Backoff
import Istos.Queue.Equiv.Token
import Mathlib.Algebra.Order.Ring.Rat
import Mathlib.Tactic.Linarith
import Mathlib.Tactic.NormNum

/-!
# The cap on retry delays

`_backoff` caps the exponential delay first and spreads it afterwards, so a draw above zero can lift
a delay above `retry_backoff_max_s`: `delay_le_iff` says when.  The attempt number it starts from is
the token of the query, and one for a query without a token, so a nack without a token may wait less
than the nack before it: `asked_le_asked_iff`.
-/

namespace Istos

variable {K : Type} [CommRing K] [LinearOrder K]

/-- Settings as the documentation has them. -/
structure QueueRetry.Sane (p : QueueRetry K) : Prop where
  retryBackoff : 0 ≤ p.retryBackoff
  retryBackoffMax : 0 ≤ p.retryBackoffMax
  retryJitter : 0 ≤ p.retryJitter
  retryJitter_lt : p.retryJitter < 1

/-! ### The bound -/

theorem QueueRetry.delay_nonneg (p : QueueRetry K) (attempts : ℤ) (draw : K) :
    0 ≤ p.delay attempts draw := by
  unfold QueueRetry.delay
  split
  · exact le_rfl
  · exact le_max_left _ _

variable [IsStrictOrderedRing K] {p : QueueRetry K}

theorem QueueRetry.exponential_nonneg (h : p.Sane) (attempts : ℤ) : 0 ≤ p.exponential attempts :=
  mul_nonneg h.retryBackoff (pow_nonneg zero_le_two _)

/-- The delay is the capped exponential, spread by the draw. -/
theorem QueueRetry.delay_eq (h : p.Sane) (attempts : ℤ) {draw : K} (hlow : -p.retryJitter ≤ draw)
    (hhigh : draw ≤ p.retryJitter) :
    p.delay attempts draw = min (p.exponential attempts) p.retryBackoffMax * (1 + draw) := by
  have hspread : 0 ≤ 1 + draw := by
    have hlt := h.retryJitter_lt
    linarith
  have hcapped : 0 ≤ min (p.exponential attempts) p.retryBackoffMax :=
    le_min (p.exponential_nonneg h attempts) h.retryBackoffMax
  unfold QueueRetry.delay
  split
  · rename_i hoff
    have hzero : p.retryBackoff = 0 := le_antisymm hoff h.retryBackoff
    rw [QueueRetry.exponential, hzero, zero_mul, min_eq_left h.retryBackoffMax, zero_mul]
  · dsimp only
    rw [← QueueRetry.exponential]
    split
    · exact max_eq_right (mul_nonneg hcapped hspread)
    · rename_i hjitter
      have hdraw : draw = 0 := by
        rw [not_not] at hjitter
        rw [hjitter] at hlow hhigh
        linarith
      rw [hdraw, add_zero, mul_one]
      exact max_eq_right hcapped

/-- **The delay respects the cap exactly when** the draw is not positive, or the cap is zero, or the
exponential delay is within the cap even when it is spread. -/
theorem QueueRetry.delay_le_iff (h : p.Sane) (attempts : ℤ) {draw : K}
    (hlow : -p.retryJitter ≤ draw) (hhigh : draw ≤ p.retryJitter) :
    p.delay attempts draw ≤ p.retryBackoffMax ↔
      draw ≤ 0 ∨ p.retryBackoffMax = 0 ∨
        p.exponential attempts * (1 + draw) ≤ p.retryBackoffMax := by
  rw [p.delay_eq h attempts hlow hhigh]
  have hmax := h.retryBackoffMax
  have hexp := p.exponential_nonneg h attempts
  rcases le_or_gt draw 0 with hdraw | hdraw
  · apply iff_of_true _ (Or.inl hdraw)
    have hspread : 0 ≤ 1 + draw := by
      have hlt := h.retryJitter_lt
      linarith
    calc min (p.exponential attempts) p.retryBackoffMax * (1 + draw)
        ≤ p.retryBackoffMax * (1 + draw) := mul_le_mul_of_nonneg_right (min_le_right _ _) hspread
      _ ≤ p.retryBackoffMax * 1 := mul_le_mul_of_nonneg_left (by linarith) hmax
      _ = p.retryBackoffMax := mul_one _
  · rw [or_iff_right (not_le.mpr hdraw)]
    rcases le_total (p.exponential attempts) p.retryBackoffMax with hle | hle
    · rw [min_eq_left hle]
      constructor
      · exact Or.inr
      · rintro (hzero | hwithin)
        · have hexp0 : p.exponential attempts = 0 := le_antisymm (hzero ▸ hle) hexp
          rw [hexp0, zero_mul]
          exact hmax
        · exact hwithin
    · rw [min_eq_right hle]
      constructor
      · intro hwithin
        -- the cap times a factor above one is within the cap only if it is zero
        have hprod : p.retryBackoffMax * draw ≤ 0 := by
          rw [mul_add, mul_one] at hwithin
          linarith
        exact Or.inl (le_antisymm (nonpos_of_mul_nonpos_left hprod hdraw) hmax)
      · rintro (hzero | hwithin)
        · rw [hzero, zero_mul]
        · have hspread : 0 ≤ 1 + draw := by linarith
          exact (mul_le_mul_of_nonneg_right hle hspread).trans hwithin

/-- A requeued job becomes eligible as soon as its delay is over. -/
theorem claimable_requeue {r : JobRecord K}
    {error : Option String} {t delay cap : K} (epoch : 0 ≤ t) (hcap : 0 ≤ cap)
    (hdelay : 0 ≤ delay) :
    (r.requeue error (startTime t delay)).claimable (t + cap) = true ↔ delay ≤ cap := by
  rw [JobRecord.claimable_iff]
  simp only [JobRecord.requeue, true_and, startTime]
  split
  · exact add_le_add_iff_left t
  · rename_i hnot
    have hzero : delay = 0 := le_antisymm (not_lt.mp hnot) hdelay
    exact iff_of_true (add_nonneg epoch hcap) (hzero ▸ hcap)

/-! ### One attempt after the other -/

/-- Without jitter the delay does not depend on a draw. -/
theorem QueueRetry.delay_of_steady (h : p.Sane) (hjitter : p.retryJitter = 0) (attempts : ℤ)
    {draw : K} (hlow : -p.retryJitter ≤ draw) (hhigh : draw ≤ p.retryJitter) :
    p.delay attempts draw = min (p.exponential attempts) p.retryBackoffMax := by
  have hdraw : draw = 0 := by
    rw [hjitter] at hlow hhigh
    linarith
  rw [p.delay_eq h attempts hlow hhigh, hdraw, add_zero, mul_one]

theorem QueueRetry.exponential_mono (h : p.Sane) {m n : ℤ} (hle : m ≤ n) :
    p.exponential m ≤ p.exponential n := by
  apply mul_le_mul_of_nonneg_left _ h.retryBackoff
  apply pow_le_pow_right₀ one_le_two
  omega

/-- From the second attempt on the delay is above the first, unless the first is at the cap. -/
theorem QueueRetry.exponential_one_lt (h : p.Sane) {n : ℤ} (hn : 1 < n)
    (hpos : p.retryBackoff ≠ 0) :
    p.retryBackoff < p.exponential n := by
  have hbackoff : 0 < p.retryBackoff := lt_of_le_of_ne h.retryBackoff hpos.symm
  have hpow : (1 : K) < 2 ^ (max 0 (n - 1)).toNat := one_lt_pow₀ one_lt_two (by omega)
  calc p.retryBackoff = p.retryBackoff * 1 := (mul_one _).symm
    _ < p.exponential n := mul_lt_mul_of_pos_left hpow hbackoff

omit [CommRing K] [LinearOrder K] [IsStrictOrderedRing K] in
/-- The attempt number of the back-off is that of the lease, or one without a token. -/
theorem asInt_attempt {params : Params} {r : JobRecord K}
    (hold : r.holdsLease (fence params) = true) :
    asInt params "attempt" 1 = if fence params = none then 1 else r.attempts := by
  have hread : asInt params "attempt" 1 = (fence params).getD 1 := by
    unfold asInt fence
    cases params.lookup "attempt" <;> rfl
  rw [hread]
  cases hf : fence params with
  | none => rfl
  | some k =>
    rw [hf, JobRecord.holdsLease, Bool.and_eq_true] at hold
    rw [if_neg (Option.some_ne_none k), of_decide_eq_true hold.2]
    rfl

/-- **The delays of two attempts in a row do not decrease exactly when** the later nack carries a
token, or the earlier one carries none, or it was the first attempt, or the exponential delay does
not grow. -/
theorem asked_le_asked_iff (h : p.Sane) (hjitter : p.retryJitter = 0) {params₁ params₂ : Params}
    {draw₁ draw₂ : K} (hlow₁ : -p.retryJitter ≤ draw₁) (hhigh₁ : draw₁ ≤ p.retryJitter)
    (hlow₂ : -p.retryJitter ≤ draw₂) (hhigh₂ : draw₂ ≤ p.retryJitter) {r₁ r₂ : JobRecord K}
    (hold₁ : r₁.holdsLease (fence params₁) = true) (hold₂ : r₂.holdsLease (fence params₂) = true)
    (hissued : 1 ≤ r₁.attempts) (hnext : r₂.attempts = r₁.attempts + 1) :
    p.asked params₁ draw₁ ≤ p.asked params₂ draw₂ ↔
      fence params₂ ≠ none ∨ fence params₁ = none ∨ r₁.attempts = 1 ∨ p.retryBackoff = 0 ∨
        p.retryBackoffMax ≤ p.retryBackoff := by
  have hone : p.exponential 1 = p.retryBackoff := by
    rw [QueueRetry.exponential]
    norm_num
  unfold QueueRetry.asked
  rw [p.delay_of_steady h hjitter _ hlow₁ hhigh₁, p.delay_of_steady h hjitter _ hlow₂ hhigh₂,
    asInt_attempt hold₁, asInt_attempt hold₂]
  by_cases h₂ : fence params₂ = none
  · rw [if_pos h₂, hone, or_iff_right (not_not.mpr h₂)]
    by_cases h₁ : fence params₁ = none
    · rw [if_pos h₁, hone]
      exact iff_of_true le_rfl (Or.inl h₁)
    · rw [if_neg h₁, or_iff_right h₁]
      constructor
      · intro hle
        by_contra hno
        simp only [not_or, not_le] at hno
        obtain ⟨hfirst, hpos, hbelow⟩ := hno
        have hgrows := p.exponential_one_lt h (n := r₁.attempts) (by omega) hpos
        rw [min_eq_left hbelow.le] at hle
        exact absurd hle (not_le.mpr (lt_min hgrows hbelow))
      · rintro (hfirst | hzero | hcap)
        · rw [hfirst, hone]
        · rw [QueueRetry.exponential, hzero, zero_mul]
        · rw [min_eq_right hcap]
          exact min_le_right _ _
  · rw [if_neg h₂]
    apply iff_of_true _ (Or.inl h₂)
    apply min_le_min_right
    apply p.exponential_mono h
    split <;> omega

/-! ### Accepted nacks -/

/-- An accepted nack query, its draw within the jitter, takes a store to another. -/
def QueueRole.Nacks (role : QueueRole K) (p : QueueRetry K) (f : FloatText K) (s : QueueStore K)
    (params : Params) (draw : K) (x : Readings K) (d : Disposition) (s' : QueueStore K) : Prop :=
  -p.retryJitter ≤ draw ∧ draw ≤ p.retryJitter ∧ ∃ payload op,
    role.onNack p f params payload draw x = some op ∧
      (s.perform role.config op).answer = .nacked (some d) ∧ s' = (s.perform role.config op).store

omit [IsStrictOrderedRing K] in
/-- An accepted nack comes from the holder of the lease; the job it requeues waits for the delay
that was asked for. -/
theorem QueueRole.Nacks.held {role : QueueRole K} {f : FloatText K} {s s' : QueueStore K}
    {params : Params} {draw : K} {x : Readings K} {d : Disposition}
    (h : role.Nacks p f s params draw x d s') :
    ∃ r, s.job (queryJob params) = some r ∧ r.holdsLease (fence params) = true ∧
      (d = .requeued → ∃ error, s'.job (queryJob params)
        = some (r.requeue error (startTime x.t₁ (p.asked params draw)))) := by
  obtain ⟨-, -, payload, op, hop, hanswer, rfl⟩ := h
  obtain ⟨error, -, rfl⟩ := Option.map_eq_some_iff.mp hop
  rcases nack_cases s (queryJob params) (orNone error) (p.asked params draw)
    (fence params) x.t₁ x.t₂
    with ⟨-, hnack⟩ | ⟨r, hr, hold, ⟨-, hnack⟩ | ⟨-, hnack⟩⟩
  · have hrefused : (s.nack (queryJob params) (orNone error) (p.asked params draw) (fence params)
        x.t₁ x.t₂).answer = some d := Answer.nacked.inj hanswer
    rw [hnack] at hrefused
    cases hrefused
  · have hdead : (s.nack (queryJob params) (orNone error) (p.asked params draw) (fence params)
        x.t₁ x.t₂).answer = some d := Answer.nacked.inj hanswer
    rw [hnack] at hdead
    obtain rfl := Option.some.inj hdead
    exact ⟨r, hr, hold, fun hbad => by cases hbad⟩
  · refine ⟨r, hr, hold, fun _ => ⟨orNone error, ?_⟩⟩
    have hid : r.id = queryJob params := QueueStore.id_of_job hr
    show (s.nack (queryJob params) (orNone error) (p.asked params draw) (fence params)
      x.t₁ x.t₂).store.job (queryJob params) = _
    rw [hnack]
    dsimp only
    rw [job_offerReady]
    have hput := get?_put_eq_update s.jobs
      (r := r.requeue (orNone error) (startTime x.t₁ (p.asked params draw))) hid
    exact (congrFun hput _).trans (Function.update_self _ _ _)

/-- **Retry delays and the cap.**  A requeued job is eligible when the cap is over **exactly when**
the draw is not positive, or the cap is zero, or the exponential delay stays within the cap when it
is spread.  Without jitter the delay of an attempt is at least that of the attempt before **exactly
when** the later nack carries a token, or the earlier one carries none, or was that of the first
attempt, or the exponential delay does not grow. -/
theorem retry_delay_iff (role : QueueRole K) (sane : p.Sane) (f : FloatText K) :
    (∀ s params draw x s', role.Nacks p f s params draw x .requeued s' → 0 ≤ x.t₁ →
      ((∃ r, s'.job (queryJob params) = some r ∧
          r.claimable (x.t₁ + p.retryBackoffMax) = true) ↔
        draw ≤ 0 ∨ p.retryBackoffMax = 0 ∨
          p.exponential (asInt params "attempt" 1) * (1 + draw) ≤ p.retryBackoffMax)) ∧
    (p.retryJitter = 0 → ∀ s₁ s₂ params₁ params₂ draw₁ draw₂ x₁ x₂ d₁ d₂ s₁' s₂' r₁ r₂,
      role.Nacks p f s₁ params₁ draw₁ x₁ d₁ s₁' → role.Nacks p f s₂ params₂ draw₂ x₂ d₂ s₂' →
      s₁.job (queryJob params₁) = some r₁ → s₂.job (queryJob params₂) = some r₂ →
      1 ≤ r₁.attempts → r₂.attempts = r₁.attempts + 1 →
      (p.asked params₁ draw₁ ≤ p.asked params₂ draw₂ ↔
        fence params₂ ≠ none ∨ fence params₁ = none ∨ r₁.attempts = 1 ∨ p.retryBackoff = 0 ∨
          p.retryBackoffMax ≤ p.retryBackoff)) := by
  refine ⟨?_, ?_⟩
  · intro s params draw x s' h epoch
    obtain ⟨r, -, -, hrequeued⟩ := h.held
    obtain ⟨error, hjob⟩ := hrequeued rfl
    have hwithin := p.delay_le_iff sane (asInt params "attempt" 1) h.1 h.2.1
    rw [← hwithin]
    constructor
    · rintro ⟨q, hq, hclaim⟩
      obtain rfl := Option.some.inj (hq.symm.trans hjob)
      exact (claimable_requeue epoch sane.retryBackoffMax (p.delay_nonneg _ draw)).mp hclaim
    · intro hdelay
      exact ⟨_, hjob,
        (claimable_requeue epoch sane.retryBackoffMax (p.delay_nonneg _ draw)).mpr hdelay⟩
  · intro hjitter s₁ s₂ params₁ params₂ draw₁ draw₂ x₁ x₂ d₁ d₂ s₁' s₂' r₁ r₂ h₁ h₂ hr₁ hr₂ hissued
      hnext
    obtain ⟨q₁, hq₁, hold₁, -⟩ := h₁.held
    obtain ⟨q₂, hq₂, hold₂, -⟩ := h₂.held
    obtain rfl := Option.some.inj (hr₁.symm.trans hq₁)
    obtain rfl := Option.some.inj (hr₂.symm.trans hq₂)
    exact asked_le_asked_iff sane hjitter h₁.1 h₁.2.1 h₂.1 h₂.2.1 hold₁ hold₂ hissued hnext

/-! ### A delay above the cap -/

/-- The owner of a queue. -/
def retryRole : QueueRole ℚ :=
  ⟨"jobs", 30, 5, ⟨false, 3600, none, none, .insertion⟩⟩

/-- A job on its first delivery. -/
def firstDelivery : JobRecord ℚ :=
  ⟨"a", [], .leased, 1, 5, 0, 30, 0, 0, 1, none, none, 0, none, none, none⟩

/-- The store that holds the job. -/
def retryStore : QueueStore ℚ := { QueueStore.init with jobs := Table.put ∅ firstDelivery }

/-- Times are not read as text here. -/
def noText : FloatText ℚ := ⟨fun _ => "", fun _ => none⟩

/-- What the owner reads. -/
def retryReadings : Readings ℚ := ⟨"", 7, 7, 7, 0, none, none⟩

/-- Every retry waits for the cap, give or take the jitter. -/
def flatRetry (jitter : ℚ) : QueueRetry ℚ := ⟨10, 10, jitter⟩

theorem flatRetry_sane {jitter : ℚ} (h : 0 ≤ jitter) (hlt : jitter < 1) : (flatRetry jitter).Sane :=
  ⟨by norm_num [flatRetry], by norm_num [flatRetry], h, hlt⟩

/-- The nack of the first delivery. -/
theorem flatRetry_nacks {jitter draw : ℚ} (hlow : -jitter ≤ draw) (hhigh : draw ≤ jitter) :
    retryRole.Nacks (flatRetry jitter) noText retryStore [("job_id", "a"), ("attempt", "1")] draw
      retryReadings .requeued
      (retryStore.perform retryRole.config (.nack "a" none
        ((flatRetry jitter).asked [("job_id", "a"), ("attempt", "1")] draw) (some 1) 7 7)).store :=
  ⟨hlow, hhigh, [], _, rfl, rfl, rfl⟩

/-- Without jitter the delay is the cap. -/
theorem retry_delay_steady :
    (∃ r, (retryStore.perform retryRole.config (.nack "a" none
        ((flatRetry 0).asked [("job_id", "a"), ("attempt", "1")] 0) (some 1) 7 7)).store.job "a"
          = some r ∧ r.claimable (7 + 10) = true) ↔
      (0 : ℚ) ≤ 0 ∨ (flatRetry 0).retryBackoffMax = 0 ∨
        (flatRetry 0).exponential (asInt [("job_id", "a"), ("attempt", "1")] "attempt" 1) * (1 + 0)
          ≤ (flatRetry 0).retryBackoffMax :=
  (retry_delay_iff retryRole (flatRetry_sane le_rfl zero_lt_one) noText).1 retryStore
    [("job_id", "a"), ("attempt", "1")] 0 retryReadings _
    (flatRetry_nacks (by norm_num) (by norm_num)) (by norm_num [retryReadings])

/-- With a draw above zero the job waits longer than the cap. -/
theorem retry_delay_above_cap :
    let params := [("job_id", "a"), ("attempt", "1")]
    let later := (retryStore.perform retryRole.config (.nack "a" none
      ((flatRetry (1 / 10)).asked params (1 / 10)) (some 1) 7 7)).store
    retryRole.Nacks (flatRetry (1 / 10)) noText retryStore params (1 / 10) retryReadings .requeued
      later ∧
    ¬ ∃ r, later.job "a" = some r ∧
        r.claimable (retryReadings.t₁ + (flatRetry (1 / 10)).retryBackoffMax) = true := by
  intro params later
  have hsane : (flatRetry (1 / 10)).Sane := flatRetry_sane (by norm_num) (by norm_num)
  have hlow : -(1 / 10 : ℚ) ≤ 1 / 10 := by norm_num
  have h := flatRetry_nacks hlow le_rfl
  refine ⟨h, ?_⟩
  rintro ⟨r, hr, hclaim⟩
  obtain ⟨q, -, -, hrequeued⟩ := h.held
  obtain ⟨error, hjob⟩ := hrequeued rfl
  obtain rfl := Option.some.inj (hr.symm.trans hjob)
  have epoch : (0 : ℚ) ≤ retryReadings.t₁ := by norm_num [retryReadings]
  unfold QueueRetry.asked at hclaim
  rw [claimable_requeue epoch hsane.retryBackoffMax (QueueRetry.delay_nonneg _ _ _)] at hclaim
  have hone : asInt [("job_id", "a"), ("attempt", "1")] "attempt" 1 = 1 := by decide
  have hwithin := (QueueRetry.delay_le_iff hsane _ h.1 h.2.1).mp hclaim
  rw [hone] at hwithin
  norm_num [flatRetry, QueueRetry.exponential] at hwithin

end Istos
