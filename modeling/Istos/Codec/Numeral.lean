import Mathlib.Data.Option.Basic
import Mathlib.Data.Nat.Notation

/-!
# Floats as text

A float is known by what `repr` writes for it: `nan`, an infinity, or a decimal numeral with a
fraction or an exponent.  Which float is nearest to a numeral, and so what `repr(float(text))` is,
belongs to the interpreter: `Rounding` stands for it.
-/

/-- Where the reader of a fraction or an exponent stands. -/
inductive Tail
  /-- after the digits before the point -/
  | start
  | point
  | fraction
  /-- after the letter of an exponent -/
  | exponent
  | sign
  | power
  deriving DecidableEq

namespace Tail

/-- One character of a fraction or an exponent. -/
def step : Tail → Char → Option Tail
  | start, c =>
    if c = '.' then some point else if c = 'e' ∨ c = 'E' then some exponent else none
  | point, c => if c.isDigit then some fraction else none
  | fraction, c =>
    if c.isDigit then some fraction else if c = 'e' ∨ c = 'E' then some exponent else none
  | exponent, c =>
    if c.isDigit then some power else if c = '+' ∨ c = '-' then some sign else none
  | sign, c => if c.isDigit then some power else none
  | power, c => if c.isDigit then some power else none

/-- The numeral may end here. -/
def done : Tail → Bool
  | fraction => true
  | power => true
  | _ => false

/-- The characters of a text, one after the other. -/
def run : Tail → List Char → Option Tail
  | st, [] => some st
  | st, c :: cs => (step st c).bind fun st' => run st' cs

/-- A fraction, an exponent, or both. -/
def accepts (cs : List Char) : Bool := (run start cs).any done

theorem accepts_iff {cs : List Char} :
    accepts cs = true ↔ ∃ st, run start cs = some st ∧ st.done = true := by
  rw [accepts, Option.any_eq_true]

end Tail

/-- A decimal numeral with a fraction or an exponent. -/
structure Numeral where
  negative : Bool
  /-- the digits before the point -/
  whole : ℕ
  /-- the rest -/
  tail : List Char
  wellFormed : Tail.accepts tail = true
  deriving DecidableEq

/-- A float, by what `repr` writes for it. -/
inductive PyFloat
  | nan
  | infinity (negative : Bool)
  | finite (x : Numeral)
  deriving DecidableEq

/-- `repr(float(text))` of a numeral. -/
class Rounding where
  nearest : Numeral → PyFloat

/-- `repr` that writes every numeral as it was read. -/
abbrev Rounding.verbatim : Rounding := ⟨.finite⟩

/-- `repr` writes this float so, and no shorter: it is what reading its text gives. -/
def PyFloat.Repr [Rounding] : PyFloat → Prop
  | .finite x => Rounding.nearest x = .finite x
  | _ => True
