import Istos.Codec.PyText
import Istos.Data.Table
import Mathlib.Algebra.Order.Floor.Ring
import Mathlib.Algebra.Order.Field.Rat
import Mathlib.Data.Rat.Floor

/-!
# The rate limiter

`RateLimitMiddleware` with exact numbers.  A request is what its key function reads and the time at
which it gets the lock; `call` is what happens under the lock.
-/

namespace Istos

/-! ### Who asks -/

/-- An identity that an authorizer resolved: a string, or another object with what it has as `id`.
-/
inductive Principal
  | str (text : String)
  | object (id : Option Json)

/-- The string, or the text of the `id`; `none` where that is falsy. -/
def Principal.ident [PyText] : Principal → Option String
  | str text => if text = "" then none else some text
  | object none => none
  | object (some id) => if id.truthy then some (PyText.str id) else none

/-- `RequestScope`; `rest` is what the limiter does not read by itself. -/
structure RequestScope (M : Type) where
  path : String
  principal : Option Principal
  rest : M

/-- `_default_key`. -/
def defaultKey {M : Type} [PyText] (scope : RequestScope M) : String :=
  match scope.principal.bind Principal.ident with
  | some ident => ident
  | none => "anonymous:" ++ scope.path

/-! ### Numbers -/

/-- The nearest integer; of two, the even one. -/
def roundHalfEven (x : ℚ) : ℤ :=
  if Int.fract x < 1 / 2 then ⌊x⌋
  else if 1 / 2 < Int.fract x then ⌊x⌋ + 1
  else if Even ⌊x⌋ then ⌊x⌋ else ⌊x⌋ + 1

/-- `round(x, 3)`. -/
def roundMillis (x : ℚ) : ℚ := roundHalfEven (x * 1000) / 1000

/-! ### The middleware -/

/-- `RateLimitMiddleware`. -/
structure RateLimitMiddleware (M : Type) where
  rate : ℚ
  per : ℚ
  burst : ℚ
  key : RequestScope M → String
  positive : 0 < rate ∧ 0 < per

/-- `RateLimitError`, with the `retry_after` of its details. -/
structure RateLimitError where
  message : String
  retryAfter : ℚ
  deriving DecidableEq

/-- `_buckets`: of every key the tokens that it had, and when. -/
abbrev Buckets := Table (Prod.fst : String × ℚ × ℚ → String)

/-- A request, and the time at which it gets the lock. -/
structure TimedRequest (M : Type) where
  time : ℚ
  scope : RequestScope M

namespace RateLimitMiddleware

variable {M : Type}

/-- `__init__`. -/
def init [PyText] (rate per : ℚ) (burst : Option ℚ) (key : Option (RequestScope M → String)) :
    Except String (RateLimitMiddleware M) :=
  if h : rate ≤ 0 ∨ per ≤ 0 then .error "rate and per must be positive"
  else .ok {
    rate, per
    burst := burst.getD rate
    key := key.getD defaultKey
    positive := by simpa using h }

variable (m : RateLimitMiddleware M)

/-- `_idle_s`. -/
def idle : ℚ := max 60 (m.per * 10)

/-- `_evict`. -/
def evict (buckets : Buckets) (now : ℚ) : Buckets :=
  if buckets.rows.length < 1024 then buckets
  else buckets.filter fun b => !decide (m.idle ≤ now - b.2.2 ∧
    m.burst ≤ b.2.1 + (now - b.2.2) * (m.rate / m.per))

/-- What the bucket of a key holds now. -/
def tokens (buckets : Buckets) (key : String) (now : ℚ) : ℚ :=
  let b := ((buckets.get? key).map Prod.snd).getD (m.burst, now)
  min m.burst (b.1 + (now - b.2) * (m.rate / m.per))

variable [PyText]

/-- `__call__` after the eviction, up to `call_next`. -/
def serve (buckets : Buckets) (r : TimedRequest M) : Buckets × Except RateLimitError Unit :=
  let key := m.key r.scope
  let tokens := m.tokens buckets key r.time
  if tokens < 1 then
    let retryAfter := roundMillis ((1 - tokens) * (m.per / m.rate))
    (buckets.put (key, tokens, r.time),
      .error ⟨"Rate limit exceeded for " ++ PyText.repr key, retryAfter⟩)
  else (buckets.put (key, tokens - 1, r.time), .ok ())

/-- `__call__`, up to `call_next`. -/
def call (buckets : Buckets) (r : TimedRequest M) : Buckets × Except RateLimitError Unit :=
  m.serve (m.evict buckets r.time) r

end RateLimitMiddleware

/-! ### Sequences of requests -/

namespace Requests

variable {M : Type}

/-- The requests get the lock in the order of the clock. -/
def Ordered (requests : List (TimedRequest M)) : Prop :=
  (requests.map TimedRequest.time).Pairwise (· ≤ ·)

instance (requests : List (TimedRequest M)) : Decidable (Ordered requests) :=
  inferInstanceAs (Decidable (List.Pairwise _ _))

variable (step : Buckets → TimedRequest M → Buckets × Except RateLimitError Unit)

/-- The buckets after some requests. -/
def after (buckets : Buckets) (requests : List (TimedRequest M)) : Buckets :=
  requests.foldl (fun s r => (step s r).1) buckets

/-- The requests, each with its answer. -/
def answers (buckets : Buckets) :
    List (TimedRequest M) → List (TimedRequest M × Except RateLimitError Unit)
  | [] => []
  | r :: rs => (r, (step buckets r).2) :: answers (step buckets r).1 rs

/-- The requests that are passed on. -/
def admitted (buckets : Buckets) (requests : List (TimedRequest M)) : List (TimedRequest M) :=
  ((answers step buckets requests).filter fun a => a.2.toBool).map Prod.fst

end Requests

end Istos
