import Istos.Consistency.Storage

/-!
# The ledger that the backends stand for

`Ledger` is what a storage is for, apart from leases and encodings: a value for some keys, a log for
every key, and for every idempotency key whether it is free, held or done with a result.
`Ledger.after` is what a call does and `Ledger.answer` what it answers.  The backends differ in one
thing, which calls of `log` they skip, so this is an argument.

`LedgerAnswer.observe` is what a caller sees of an answer, timestamps aside.
-/

namespace Istos

/-- What a caller sees of an answer. -/
inductive Observation
  | unit
  | value (v : Value)
  | entries (es : List (Value × Option String))
  | claim (c : Claim)
  | raised

/-- An answer without its timestamps. -/
def LedgerAnswer.observe : LedgerAnswer → Observation
  | unit => .unit
  | value v => .value v
  | entries es => .entries (es.map fun e => (e.value, e.idempotencyKey))
  | claim c => .claim c
  | raised => .raised

/-- An idempotency key, leases aside. -/
inductive Mode
  | free
  | held
  | done (result : Json)

/-- The state of `key` after a call: the first result wins. -/
def Mode.after {T : Type} (key : String) : LedgerOp T → Mode → Mode
  | .claim k _, free => if k = key then held else free
  | .release k, held => if k = key then free else held
  | .mark _ _, done v => done v
  | .mark k (.json v), m => if k = key then done v else m
  | _, m => m

/-- The value under `key` after a call. -/
def valueAfter {T : Type} (key : String) : LedgerOp T → Option Json → Option Json
  | .put k (.json j), v => if k = key then some j else v
  | .delete k, v => if k = key then none else v
  | _, v => v

/-- The log of `key` after a call. -/
def logAfter {T : Type} (key : String) (skips : Bool) :
    LedgerOp T → List (Json × Option String) → List (Json × Option String)
  | .log k (.json j) i, es => if k = key ∧ skips = false then es ++ [(j, i)] else es
  | _, es => es

/-- What a storage holds. -/
structure Ledger where
  value : String → Option Json
  /-- oldest first -/
  log : String → List (Json × Option String)
  mode : String → Mode

namespace Ledger

variable {T : Type}

/-- The ledger that holds nothing. -/
def init : Ledger := ⟨fun _ => none, fun _ => [], fun _ => .free⟩

/-- What a call answers. -/
def answer (L : Ledger) : LedgerOp T → Observation
  | .get key => .value (((L.value key).map .json).getD .none)
  | .getLog key limit => .entries ((newest (L.log key) limit).map fun e => (.json e.1, e.2))
  | .claim key _ =>
    match L.mode key with
    | .free => .claim { state := .claimed }
    | .held => .claim { state := .inFlight }
    | .done v => .claim ⟨.done, .json v⟩
  | .check key =>
    match L.mode key with
    | .done v => .value (.json v)
    | _ => .value .none
  | _ => .unit

/-- What a call with a JSON value does; `skips` says whether a call of `log` is skipped. -/
def after (L : Ledger) (skips : Bool) (op : LedgerOp T) : Ledger where
  value key := valueAfter key op (L.value key)
  log key := logAfter key skips op (L.log key)
  mode key := (L.mode key).after key op

/-- The rule of two backends: a call of `log` is skipped once its idempotency key is done. -/
def Finished (L : Ledger) (i : Option String) : Prop :=
  ∃ k v, i = some k ∧ k ≠ "" ∧ L.mode k = .done v

/-- The rule of the third: a call of `log` is skipped once its idempotency key is in a log. -/
def Logged (L : Ledger) (i : Option String) : Prop :=
  ∃ k key, i = some k ∧ ∃ e ∈ L.log key, e.2 = some k

end Ledger

end Istos
