import Istos.Data.Bucket
import Istos.Middleware.RateLimit
import Mathlib.Tactic.FieldSimp

/-!
# What the rate limiter promises

The limiter keeps a token bucket per key.  What it has stored matters only through `tokens`, and an
eviction keeps that of every key; so a limiter that evicts and one that does not decide alike.
-/

namespace Istos

namespace RateLimitMiddleware

variable {M : Type} (m : RateLimitMiddleware M)

/-- The bucket of a key. -/
def bucket : TokenBucket ℚ := ⟨m.burst, m.rate / m.per⟩

theorem refill_pos : 0 < m.rate / m.per := div_pos m.positive.1 m.positive.2

theorem refill_nonneg : 0 ≤ m.bucket.refill := m.refill_pos.le

/-- The answer to a request of a key whose bucket holds so much. -/
def answer [PyText] (key : String) (level : ℚ) : Except RateLimitError Unit :=
  if level < 1 then
    .error ⟨"Rate limit exceeded for " ++ PyText.repr key,
      roundMillis ((1 - level) * (m.per / m.rate))⟩
  else .ok ()

/-- From some time on the limiter has the bucket `b` for a key. -/
def Tracks (buckets : Buckets) (key : String) (b : ℚ × ℚ) (now : ℚ) : Prop :=
  ∀ t, now ≤ t → m.tokens buckets key t = m.bucket.levelAt b t

variable {m}

/-- A key without an entry has a full bucket. -/
theorem tokens_of_get?_eq_none {buckets : Buckets} {key : String} (h : buckets.get? key = none)
    (now : ℚ) : m.tokens buckets key now = m.burst := by
  simp [tokens, h]

theorem tracks_of_get? {buckets : Buckets} {key : String} {b : ℚ × ℚ} {now : ℚ}
    (h : buckets.get? key = some (key, b)) : m.Tracks buckets key b now := by
  intro t _
  simp [tokens, h, TokenBucket.levelAt, bucket]

theorem tracks_empty (key : String) (now : ℚ) : m.Tracks ∅ key (m.burst, now) now := by
  intro t ht
  rw [tokens_of_get?_eq_none rfl]
  exact (TokenBucket.levelAt_full m.refill_nonneg ht).symm

/-- **An eviction changes no level.** -/
theorem tokens_evict {buckets : Buckets} {key : String} {now t : ℚ} (h : now ≤ t) :
    m.tokens (m.evict buckets now) key t = m.tokens buckets key t := by
  unfold evict
  split
  · rfl
  · cases hget : buckets.get? key with
    | none =>
      have hnone : (buckets.filter fun b => !decide (m.idle ≤ now - b.2.2 ∧
          m.burst ≤ b.2.1 + (now - b.2.2) * (m.rate / m.per))).get? key = none := by
        rw [Table.get?_filter, hget, Option.filter_none]
      rw [tokens_of_get?_eq_none hnone, tokens_of_get?_eq_none hget]
    | some b =>
      by_cases hstale : m.idle ≤ now - b.2.2 ∧ m.burst ≤ b.2.1 + (now - b.2.2) * (m.rate / m.per)
      · -- the bucket is full, as is that of a key without an entry
        have hnone : (buckets.filter fun b => !decide (m.idle ≤ now - b.2.2 ∧
            m.burst ≤ b.2.1 + (now - b.2.2) * (m.rate / m.per))).get? key = none := by
          rw [Table.get?_filter, hget]
          simp [Option.filter, hstale]
        have hmore : (now - b.2.2) * (m.rate / m.per) ≤ (t - b.2.2) * (m.rate / m.per) :=
          mul_le_mul_of_nonneg_right (by linarith) m.refill_pos.le
        rw [tokens_of_get?_eq_none hnone, tokens, hget]
        exact (min_eq_left (hstale.2.trans (by simpa using hmore))).symm
      · have hsome : (buckets.filter fun b => !decide (m.idle ≤ now - b.2.2 ∧
            m.burst ≤ b.2.1 + (now - b.2.2) * (m.rate / m.per))).get? key = some b := by
          rw [Table.get?_filter, hget]
          simp only [Option.filter, hstale, decide_false, Bool.not_false, if_true]
        rw [tokens, tokens, hsome, hget]

/-! ### What a request does -/

variable [PyText]

/-- What a limiter does with a request, as far as it matters. -/
structure Serves (m : RateLimitMiddleware M)
    (step : Buckets → TimedRequest M → Buckets × Except RateLimitError Unit) : Prop where
  answer : ∀ s r, (step s r).2 = m.answer (m.key r.scope) (m.tokens s (m.key r.scope) r.time)
  /-- it draws from the bucket of its key -/
  self : ∀ s r b, m.Tracks s (m.key r.scope) b r.time →
    m.Tracks (step s r).1 (m.key r.scope) (m.bucket.draw b r.time) r.time
  other : ∀ s r k t, k ≠ m.key r.scope → r.time ≤ t →
    m.tokens (step s r).1 k t = m.tokens s k t

theorem serves_serve : Serves m m.serve where
  answer s r := by
    unfold serve answer
    simp only
    split <;> rfl
  self s r b hb := by
    have hlevel := hb r.time le_rfl
    unfold serve TokenBucket.draw
    simp only [hlevel]
    split
    · exact tracks_of_get? (Table.get?_put_self _ _)
    · exact tracks_of_get? (Table.get?_put_self _ _)
  other s r k t hk _ := by
    have hget : (m.serve s r).1.get? k = s.get? k := by
      unfold serve
      simp only
      split
      · exact Table.get?_put_of_ne s hk
      · exact Table.get?_put_of_ne s hk
    rw [tokens, tokens, hget]

theorem serves_call : Serves m m.call where
  answer s r := by
    rw [call, serves_serve.answer, tokens_evict le_rfl]
  self s r b hb := by
    have hevict : m.Tracks (m.evict s r.time) (m.key r.scope) b r.time := by
      intro t ht
      rw [tokens_evict ht]
      exact hb t ht
    exact serves_serve.self _ r b hevict
  other s r k t hk ht := by
    rw [call, serves_serve.other _ r k t hk ht, tokens_evict ht]

end RateLimitMiddleware

open RateLimitMiddleware

namespace Requests

variable {M : Type} {m : RateLimitMiddleware M} [PyText]
  {step step' : Buckets → TimedRequest M → Buckets × Except RateLimitError Unit}

omit [PyText] in
theorem ordered_cons {r : TimedRequest M} {rs : List (TimedRequest M)} (h : Ordered (r :: rs)) :
    (∀ r' ∈ rs, r.time ≤ r'.time) ∧ Ordered rs := by
  obtain ⟨hfirst, hrest⟩ := List.pairwise_cons.mp h
  exact ⟨fun r' hr' => hfirst _ (List.mem_map_of_mem hr'), hrest⟩

omit [PyText] in
theorem after_append (s : Buckets) (rs rs' : List (TimedRequest M)) :
    after step s (rs ++ rs') = after step (after step s rs) rs' :=
  List.foldl_append

/-- Requests of other keys leave a bucket alone. -/
theorem tokens_after (h : Serves m step) {s : Buckets} {rs : List (TimedRequest M)} {key : String}
    {t : ℚ} (hkey : ∀ r ∈ rs, m.key r.scope ≠ key) (ht : ∀ r ∈ rs, r.time ≤ t) :
    m.tokens (after step s rs) key t = m.tokens s key t := by
  induction rs generalizing s with
  | nil => rfl
  | cons r rs ih =>
    obtain ⟨hkey₁, hkeys⟩ := List.forall_mem_cons.mp hkey
    obtain ⟨ht₁, hts⟩ := List.forall_mem_cons.mp ht
    exact (ih hkeys hts).trans (h.other s r key t hkey₁.symm ht₁)

/-- A request is passed on just when its bucket holds a token. -/
theorem answer_toBool (h : Serves m step) (s : Buckets) (r : TimedRequest M) :
    (step s r).2.toBool = decide (1 ≤ m.tokens s (m.key r.scope) r.time) := by
  rw [h.answer, answer]
  split
  · rename_i hlow
    exact (decide_eq_false (not_le.mpr hlow)).symm
  · rename_i hhigh
    exact (decide_eq_true (not_lt.mp hhigh)).symm

/-- **Key by key the limiter is a token bucket.** -/
theorem times_admitted (h : Serves m step) {s : Buckets} {rs : List (TimedRequest M)} {key : String}
    {b : ℚ × ℚ} {now : ℚ} (hb : m.Tracks s key b now) (hnow : ∀ r ∈ rs, now ≤ r.time)
    (hordered : Ordered rs) :
    ((admitted step s rs).filter fun r => m.key r.scope = key).map TimedRequest.time =
      m.bucket.taken b ((rs.filter fun r => m.key r.scope = key).map TimedRequest.time) := by
  induction rs generalizing s b now with
  | nil => rfl
  | cons r rs ih =>
    obtain ⟨hfirst, hrest⟩ := ordered_cons hordered
    have hr : now ≤ r.time := hnow r List.mem_cons_self
    have hcons : admitted step s (r :: rs) =
        if 1 ≤ m.tokens s (m.key r.scope) r.time then r :: admitted step (step s r).1 rs
        else admitted step (step s r).1 rs := by
      simp only [admitted, answers, List.filter_cons, answer_toBool h, decide_eq_true_eq]
      split <;> rfl
    rw [hcons]
    by_cases hkey : m.key r.scope = key
    · have hself : m.Tracks s (m.key r.scope) b r.time := by
        intro t ht
        rw [hkey]
        exact hb t (hr.trans ht)
      have hnext := h.self s r b hself
      rw [hkey] at hnext
      have hlater := ih hnext hfirst hrest
      rw [hself r.time le_rfl, List.filter_cons_of_pos (by simpa using hkey), List.map_cons]
      unfold TokenBucket.taken
      by_cases hone : m.bucket.levelAt b r.time < 1
      · rw [if_neg (not_le.mpr hone), if_pos hone]
        exact hlater
      · rw [if_pos (not_lt.mp hone), if_neg hone, List.filter_cons_of_pos (by simpa using hkey),
          List.map_cons, hlater]
    · have hother : m.Tracks (step s r).1 key b r.time := by
        intro t ht
        rw [h.other s r key t (Ne.symm hkey) ht]
        exact hb t (hr.trans ht)
      have hlater := ih hother hfirst hrest
      rw [List.filter_cons_of_neg (by simpa using hkey), ← hlater]
      split
      · rw [List.filter_cons_of_neg (by simpa using hkey)]
      · rfl

omit [PyText] in
/-- Every key has its bucket. -/
theorem exists_tracks (s : Buckets) (key : String) (now : ℚ) : ∃ b, m.Tracks s key b now := by
  cases hget : s.get? key with
  | none =>
    refine ⟨(m.burst, now), fun t ht => ?_⟩
    rw [tokens_of_get?_eq_none hget]
    exact (TokenBucket.levelAt_full m.refill_nonneg ht).symm
  | some row =>
    obtain ⟨k, b⟩ := row
    obtain rfl : k = key := Table.key_of_get? hget
    exact ⟨b, tracks_of_get? hget⟩

/-- Limiters whose buckets hold the same decide alike. -/
theorem answers_eq (h : Serves m step) (h' : Serves m step') {s s' : Buckets}
    {rs : List (TimedRequest M)} {now : ℚ}
    (hsame : ∀ key t, now ≤ t → m.tokens s key t = m.tokens s' key t)
    (hnow : ∀ r ∈ rs, now ≤ r.time) (hordered : Ordered rs) :
    answers step s rs = answers step' s' rs := by
  induction rs generalizing s s' now with
  | nil => rfl
  | cons r rs ih =>
    obtain ⟨hfirst, hrest⟩ := ordered_cons hordered
    have hr : now ≤ r.time := hnow r List.mem_cons_self
    have hanswer : (step s r).2 = (step' s' r).2 := by
      rw [h.answer, h'.answer, hsame _ _ hr]
    have hnext : ∀ key t, r.time ≤ t →
        m.tokens (step s r).1 key t = m.tokens (step' s' r).1 key t := by
      intro key t ht
      by_cases hkey : key = m.key r.scope
      · obtain ⟨b, hb⟩ := exists_tracks (m := m) s (m.key r.scope) r.time
        have hb' : m.Tracks s' (m.key r.scope) b r.time := by
          intro t ht
          rw [← hsame _ t (hr.trans ht)]
          exact hb t ht
        rw [hkey, h.self s r b hb t ht, h'.self s' r b hb' t ht]
      · rw [h.other s r key t hkey ht, h'.other s' r key t hkey ht, hsame key t (hr.trans ht)]
    rw [answers, answers, hanswer, ih hnext hfirst hrest]

end Requests

/-! ### The rate -/

namespace RateLimitMiddleware

variable {M : Type} [PyText]

open Requests

/-- **The rate is enforced, and evictions do not show**: of no key are more requests passed on in an
interval than `burst` and what the interval brings, and every request is answered as by a limiter
that evicts nothing. -/
theorem enforces_rate (m : RateLimitMiddleware M) (hburst : 0 ≤ m.burst)
    (requests : List (TimedRequest M)) (hordered : Ordered requests) :
    (∀ key start d, 0 ≤ d →
      (((admitted m.call ∅ requests).filter fun r =>
        m.key r.scope = key ∧ start ≤ r.time ∧ r.time ≤ start + d).length : ℚ) ≤
          m.burst + d * m.rate / m.per) ∧
      answers m.call ∅ requests = answers m.serve ∅ requests := by
  obtain ⟨now, hnow⟩ : ∃ now : ℚ, ∀ r ∈ requests, now ≤ r.time := by
    cases requests with
    | nil => exact ⟨0, List.forall_mem_nil _⟩
    | cons r rs => exact ⟨r.time, List.forall_mem_cons.mpr ⟨le_rfl, (ordered_cons hordered).1⟩⟩
  refine ⟨fun key start d hd => ?_,
    answers_eq (serves_call (m := m)) serves_serve (fun _ _ _ => rfl) hnow hordered⟩
  have htimes := times_admitted (serves_call (m := m)) (tracks_empty key now) hnow hordered
  have hdraws : (now :: (requests.filter fun r => m.key r.scope = key).map
      TimedRequest.time).Pairwise (· ≤ ·) := by
    refine List.pairwise_cons.mpr ⟨fun t ht => ?_,
      List.Pairwise.sublist (List.filter_sublist.map _) hordered⟩
    obtain ⟨r, hr, rfl⟩ := List.mem_map.mp ht
    exact hnow r (List.mem_of_mem_filter hr)
  have hbound := TokenBucket.length_taken_within_le (B := m.bucket) (b := (m.burst, now)) hburst
    m.refill_nonneg hburst hdraws (le_add_of_nonneg_right hd : start ≤ start + d)
  rw [← htimes, List.filter_map, List.length_map, List.filter_filter] at hbound
  -- the bucket counts times, and the middleware requests
  have hcount : ((admitted m.call ∅ requests).filter fun r =>
      m.key r.scope = key ∧ start ≤ r.time ∧ r.time ≤ start + d) =
      (admitted m.call ∅ requests).filter fun r =>
        ((fun t => decide (start ≤ t ∧ t ≤ start + d)) ∘ TimedRequest.time) r &&
          decide (m.key r.scope = key) := by
    refine List.filter_congr fun r _ => ?_
    simp only [Function.comp, Bool.decide_and]
    ac_rfl
  have hgain : (start + d - start) * m.bucket.refill = d * m.rate / m.per := by
    rw [add_sub_cancel_left]
    exact (mul_div_assoc d m.rate m.per).symm
  rw [hcount]
  rw [hgain] at hbound
  exact hbound

/-- Ten requests a second, in bursts of two, of one key. -/
def tenPerSecond : RateLimitMiddleware Unit := ⟨10, 1, 2, fun _ => "key", by norm_num⟩

/-- A request of that key. -/
def requestAt (time : ℚ) : TimedRequest Unit := ⟨time, "op", none, ()⟩

omit [PyText] in
theorem enforces_rate_tenPerSecond :
    let _ := PyText.plain
    let requests := [requestAt 0, requestAt 0, requestAt 0, requestAt (1 / 10)]
    (((admitted tenPerSecond.call ∅ requests).filter fun r =>
      tenPerSecond.key r.scope = "key" ∧ 0 ≤ r.time ∧ r.time ≤ 0 + 1 / 10).length : ℚ) ≤
        2 + 1 / 10 * 10 / 1 ∧
      answers tenPerSecond.call ∅ requests = answers tenPerSecond.serve ∅ requests := by
  intro _ requests
  have hordered : Ordered requests := by decide +kernel
  have h := enforces_rate tenPerSecond (by decide +kernel) requests hordered
  exact ⟨h.1 "key" 0 (1 / 10) (by norm_num), h.2⟩

/-! ### The wait that a refusal asks for -/

/-- `round(x, 3)` is less than `x`. -/
def RoundsDown (x : ℚ) : Prop :=
  Int.fract (x * 1000) ≠ 0 ∧
    (Int.fract (x * 1000) < 1 / 2 ∨ Int.fract (x * 1000) = 1 / 2 ∧ Even ⌊x * 1000⌋)

instance (x : ℚ) : Decidable (RoundsDown x) :=
  inferInstanceAs (Decidable (_ ∧ (_ ∨ _)))

omit [PyText] in
theorem le_roundMillis_iff (x : ℚ) : x ≤ roundMillis x ↔ ¬ RoundsDown x := by
  have hscale : x ≤ roundMillis x ↔ x * 1000 ≤ roundHalfEven (x * 1000) := by
    rw [roundMillis, le_div_iff₀ (by norm_num)]
  rw [hscale]
  unfold RoundsDown roundHalfEven
  generalize x * 1000 = y
  have hfloor : (⌊y⌋ : ℚ) + Int.fract y = y := Int.floor_add_fract y
  have hfract : Int.fract y < 1 := Int.fract_lt_one y
  have hfract₀ : 0 ≤ Int.fract y := Int.fract_nonneg y
  have hdown : y ≤ (⌊y⌋ : ℚ) ↔ Int.fract y = 0 := by
    constructor
    · intro h
      linarith
    · intro h
      linarith
  have hup : y ≤ ((⌊y⌋ + 1 : ℤ) : ℚ) := by
    push_cast
    linarith
  split
  · rename_i hlow
    rw [hdown]
    refine ⟨fun h hdrop => hdrop.1 h, fun h => ?_⟩
    by_contra hne
    exact h ⟨hne, Or.inl hlow⟩
  · rename_i hlow
    split
    · rename_i hhigh
      exact iff_of_true hup fun hdrop => hdrop.2.elim hlow fun h => hhigh.ne' h.1
    · rename_i hhigh
      have hhalf : Int.fract y = 1 / 2 := le_antisymm (not_lt.mp hhigh) (not_lt.mp hlow)
      split
      · rename_i heven
        rw [hdown]
        refine ⟨fun h hdrop => hdrop.1 h, fun h => ?_⟩
        by_contra hne
        exact h ⟨hne, Or.inr ⟨hhalf, heven⟩⟩
      · rename_i hodd
        exact iff_of_true hup fun hdrop => hdrop.2.elim hlow fun h => hodd h.2

omit [PyText] in
theorem roundMillis_nonneg {x : ℚ} (h : 0 ≤ x) : 0 ≤ roundMillis x := by
  have hfloor : 0 ≤ ⌊x * 1000⌋ := Int.floor_nonneg.mpr (by linarith)
  have hround : 0 ≤ roundHalfEven (x * 1000) := by
    unfold roundHalfEven
    split_ifs <;> omega
  exact div_nonneg (Int.cast_nonneg hround) (by norm_num)

variable (m : RateLimitMiddleware M)

/-- The refusal of `r` after `history` is honest: a request of its key that comes `retryAfter`
later, with no other of its key in between, is passed on. -/
def Honest (history : List (TimedRequest M)) (r : TimedRequest M) (retryAfter : ℚ) : Prop :=
  ∀ between later, Ordered (r :: (between ++ [later])) →
    (∀ b ∈ between, m.key b.scope ≠ m.key r.scope) → m.key later.scope = m.key r.scope →
    r.time + retryAfter ≤ later.time →
    (m.call (after m.call ∅ (history ++ r :: between)) later).2 = .ok ()

/-- How long it takes until the bucket of the request holds a token. -/
def wait (history : List (TimedRequest M)) (r : TimedRequest M) : ℚ :=
  (1 - m.tokens (after m.call ∅ history) (m.key r.scope) r.time) * (m.per / m.rate)

variable {m}

/-- A refused request is told its wait, rounded, and its bucket stays as it is. -/
theorem refused {history : List (TimedRequest M)} {r : TimedRequest M} {e : RateLimitError}
    (h : (m.call (after m.call ∅ history) r).2 = .error e) :
    0 < m.wait history r ∧ e.retryAfter = roundMillis (m.wait history r) ∧
      ∀ t, r.time ≤ t → m.tokens (after m.call ∅ (history ++ [r])) (m.key r.scope) t =
        min m.burst (m.tokens (after m.call ∅ history) (m.key r.scope) r.time +
          (t - r.time) * (m.rate / m.per)) := by
  rw [serves_call.answer, answer] at h
  split at h
  · rename_i hlow
    refine ⟨mul_pos (sub_pos.mpr hlow) (div_pos m.positive.2 m.positive.1),
      by rw [← Except.error.inj h]; rfl, fun t ht => ?_⟩
    obtain ⟨b, hb⟩ := exists_tracks (m := m) (after m.call ∅ history) (m.key r.scope) r.time
    rw [hb r.time le_rfl] at hlow ⊢
    rw [after_append]
    refine (serves_call.self _ r b hb t ht).trans ?_
    rw [TokenBucket.draw, if_pos hlow]
    rfl
  · cases h

/-- **When a refusal is honest**: just when the wait is not rounded down. -/
theorem honest_iff (hburst : 1 ≤ m.burst) {history : List (TimedRequest M)} {r : TimedRequest M}
    {e : RateLimitError} (h : (m.call (after m.call ∅ history) r).2 = .error e) :
    m.Honest history r e.retryAfter ↔ ¬ RoundsDown (m.wait history r) := by
  obtain ⟨hwait, hretry, hlevel⟩ := refused h
  -- the level reaches one just when the wait is over
  have hreach : ∀ t, r.time ≤ t →
      (1 ≤ m.tokens (after m.call ∅ (history ++ [r])) (m.key r.scope) t ↔
        m.wait history r ≤ t - r.time) := by
    intro t ht
    rw [hlevel t ht, le_min_iff, and_iff_right hburst, wait, ← sub_le_iff_le_add',
      ← div_le_iff₀ m.refill_pos, div_div_eq_mul_div, mul_div_assoc]
  have hpassed : ∀ between later, Ordered (r :: (between ++ [later])) →
      (∀ b ∈ between, m.key b.scope ≠ m.key r.scope) → m.key later.scope = m.key r.scope →
      ((m.call (after m.call ∅ (history ++ r :: between)) later).2 = .ok () ↔
        m.wait history r ≤ later.time - r.time) := by
    intro between later hordered hother hkey
    obtain ⟨hfirst, hrest⟩ := ordered_cons hordered
    have hlater : r.time ≤ later.time := hfirst later (List.mem_append_right _ List.mem_cons_self)
    have hbefore : ∀ b ∈ between, b.time ≤ later.time := by
      intro b hb
      rw [Ordered, List.map_append, List.pairwise_append] at hrest
      exact hrest.2.2 _ (List.mem_map_of_mem hb) _ List.mem_cons_self
    have hsplit : after m.call ∅ (history ++ r :: between) =
        after m.call (after m.call ∅ (history ++ [r])) between := by
      rw [← after_append, List.append_assoc, List.singleton_append]
    rw [hsplit, ← hreach later.time hlater, serves_call.answer, hkey,
      tokens_after serves_call hother hbefore, answer]
    split
    · rename_i hlow
      exact iff_of_false (fun hok => by cases hok) (not_le.mpr hlow)
    · rename_i hhigh
      exact iff_of_true rfl (not_lt.mp hhigh)
  rw [← le_roundMillis_iff, ← hretry]
  constructor
  · intro hhonest
    -- the next request comes at the promised time, with nothing in between
    have hretry₀ : 0 ≤ e.retryAfter := hretry ▸ roundMillis_nonneg hwait.le
    have hordered : Ordered (r :: ([] ++ [⟨r.time + e.retryAfter, r.scope⟩])) := by
      simp [Ordered, hretry₀]
    have hnow := (hpassed [] _ hordered (List.forall_mem_nil _) rfl).mp
      (hhonest [] _ hordered (List.forall_mem_nil _) rfl le_rfl)
    simpa using hnow
  · intro hle between later hordered hother hkey hlate
    refine (hpassed between later hordered hother hkey).mpr ?_
    linarith

omit [PyText] in
/-- A tenth of a second is not rounded. -/
theorem honest_iff_tenPerSecond :
    let _ := PyText.plain
    let history := [requestAt 0, requestAt 0]
    ¬ RoundsDown (tenPerSecond.wait history (requestAt 0)) ∧
      tenPerSecond.Honest history (requestAt 0) (1 / 10) := by
  intro _ history
  have hexact : ¬ RoundsDown (tenPerSecond.wait history (requestAt 0)) := by decide +kernel
  have hrefused : (tenPerSecond.call (after tenPerSecond.call ∅ history) (requestAt 0)).2 =
      .error ⟨"Rate limit exceeded for 'key'", 1 / 10⟩ := by decide +kernel
  exact ⟨hexact, (honest_iff (by decide +kernel) hrefused).mpr hexact⟩

/-- Three requests a second, of one key. -/
def threePerSecond : RateLimitMiddleware Unit := ⟨3, 1, 3, fun _ => "key", by norm_num⟩

omit [PyText] in
/-- A third of a second is rounded down, and the request that comes then is refused again. -/
theorem not_honest_threePerSecond :
    let _ := PyText.plain
    let history := [requestAt 0, requestAt 0, requestAt 0]
    (threePerSecond.call (after threePerSecond.call ∅ history) (requestAt 0)).2 =
        .error ⟨"Rate limit exceeded for 'key'", 333 / 1000⟩ ∧
      ¬ threePerSecond.Honest history (requestAt 0) (333 / 1000) := by
  intro _ history
  refine ⟨by decide +kernel, fun hhonest => ?_⟩
  have hpassed := hhonest [] (requestAt (333 / 1000)) (by decide +kernel)
    (List.forall_mem_nil _) rfl (by decide +kernel)
  exact absurd hpassed (by decide +kernel)

end RateLimitMiddleware

end Istos
