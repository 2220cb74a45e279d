import Istos.Queue.Cron

/-!
# The grammar of cron expressions

What an expression means, apart from how it is parsed.  A field is a list of parts, `*`, `n`, `a-b`,
`*/s` or `a-b/s`; it denotes the numbers that one of its parts covers.  The numerals stay as they
are written, and `num` reads them.

When neither day field starts with a `*` a day is admitted by either of them, else by both.
-/

namespace Istos

open Calendar

/-- What a part ranges over. -/
inductive CronRange
  | all
  | value (n : List Char)
  | between (a b : List Char)

/-- One part of a field. -/
structure CronPart where
  range : CronRange
  step : Option (List Char)

/-- The fields of an expression. -/
structure CronExpr where
  minute : List CronPart
  hour : List CronPart
  dom : List CronPart
  month : List CronPart
  dow : List CronPart

/-! ### Writing -/

namespace CronRange

/-- A range as it is written. -/
def text : CronRange → List Char
  | all => ['*']
  | value n => n
  | between a b => a ++ '-' :: b

/-- The numerals of a range. -/
def numerals : CronRange → List (List Char)
  | all => []
  | value n => [n]
  | between a b => [a, b]

end CronRange

namespace CronPart

/-- A part as it is written: the range, and the step behind a slash. -/
def text (p : CronPart) : List Char :=
  p.range.text ++ match p.step with
    | none => []
    | some s => '/' :: s

/-- The numerals of a part, that of the step last. -/
def numerals (p : CronPart) : List (List Char) := p.range.numerals ++ p.step.toList

/-- A part of the documented grammar: its numerals are decimal, and a single value has no step. -/
def Documented (p : CronPart) : Prop :=
  (∀ n ∈ p.numerals, n ≠ [] ∧ ∀ c ∈ n, c.isDigit = true) ∧
    ∀ n, p.range = .value n → p.step = none

end CronPart

/-- The text of a field. -/
def fieldText (field : List CronPart) : List Char := [','].intercalate (field.map CronPart.text)

namespace CronExpr

/-- The fields in the order in which they are written. -/
def fields (e : CronExpr) : List (List CronPart) := [e.minute, e.hour, e.dom, e.month, e.dow]

/-- The expression is written with these fields. -/
def Writes (e : CronExpr) (expr : String) : Prop := words expr.toList = e.fields.map fieldText

/-- An expression of the documented grammar. -/
def Documented (e : CronExpr) : Prop :=
  ∀ field ∈ e.fields, field ≠ [] ∧ ∀ p ∈ field, p.Documented

end CronExpr

/-! ### Meaning -/

section

variable (num : List Char → ℤ)

/-- The first and the last number of a range. -/
def CronRange.bounds (lo hi : ℕ) : CronRange → ℤ × ℤ
  | all => (lo, hi)
  | value n => (num n, num n)
  | between a b => (num a, num b)

/-- The step of a part. -/
def CronPart.stride (p : CronPart) : ℤ :=
  match p.step with
  | none => 1
  | some s => num s

/-- The numbers of a part are in range, its range ascends, and its step is positive. -/
def CronPart.InRange (lo hi : ℕ) (p : CronPart) : Prop :=
  1 ≤ p.stride num ∧ lo ≤ (p.range.bounds num lo hi).1 ∧ (p.range.bounds num lo hi).2 ≤ hi ∧
    (p.range.bounds num lo hi).1 ≤ (p.range.bounds num lo hi).2

/-- The part covers a number. -/
def CronPart.Covers (lo hi : ℕ) (p : CronPart) (n : ℕ) : Prop :=
  (p.range.bounds num lo hi).1 ≤ n ∧ n ≤ (p.range.bounds num lo hi).2 ∧
    p.stride num ∣ n - (p.range.bounds num lo hi).1

instance (lo hi : ℕ) (p : CronPart) (n : ℕ) : Decidable (p.Covers num lo hi n) :=
  inferInstanceAs (Decidable (_ ∧ _ ∧ _))

/-- The field denotes a number. -/
def Denotes (lo hi : ℕ) (field : List CronPart) (n : ℕ) : Prop :=
  ∃ p ∈ field, p.Covers num lo hi n

instance (lo hi : ℕ) (field : List CronPart) (n : ℕ) : Decidable (Denotes num lo hi field n) :=
  inferInstanceAs (Decidable (∃ p ∈ field, _))

/-- The field starts with a `*`. -/
def Starred (field : List CronPart) : Prop := (fieldText field).head? = some '*'

instance (field : List CronPart) : Decidable (Starred field) :=
  inferInstanceAs (Decidable (_ = _))

namespace CronExpr

/-- Each field is in range; Sunday is 0 or 7. -/
def InRange (e : CronExpr) : Prop :=
  (∀ p ∈ e.minute, p.InRange num 0 59) ∧ (∀ p ∈ e.hour, p.InRange num 0 23) ∧
    (∀ p ∈ e.dom, p.InRange num 1 31) ∧ (∀ p ∈ e.month, p.InRange num 1 12) ∧
    ∀ p ∈ e.dow, p.InRange num 0 7

/-- A weekday that the last field denotes, with Sunday 0. -/
def DenotesWeekday (e : CronExpr) (w : ℕ) : Prop :=
  Denotes num 0 7 e.dow w ∨ w = 0 ∧ Denotes num 0 7 e.dow 7

instance (e : CronExpr) (w : ℕ) : Decidable (e.DenotesWeekday num w) :=
  inferInstanceAs (Decidable (_ ∨ _))

/-- The times of an expression. -/
def Admits (e : CronExpr) (t : Time) : Prop :=
  Denotes num 0 59 e.minute t.minute ∧ Denotes num 0 23 e.hour t.hour ∧
    Denotes num 1 12 e.month t.date.month ∧
    if ¬ Starred e.dom ∧ ¬ Starred e.dow then
      Denotes num 1 31 e.dom t.date.day ∨ e.DenotesWeekday num ((t.date.weekday + 1) % 7)
    else Denotes num 1 31 e.dom t.date.day ∧ e.DenotesWeekday num ((t.date.weekday + 1) % 7)

instance (e : CronExpr) (t : Time) : Decidable (e.Admits num t) :=
  inferInstanceAs (Decidable (_ ∧ _ ∧ _ ∧ _))

end CronExpr

end

/-- The number that decimal digits spell. -/
def decimal (n : List Char) : ℤ := PyInt.value (n.map fun c => c.toNat - 48)

/-- What `int` makes of a numeral. -/
def pythonic (n : List Char) : ℤ := (PyInt.parse n).getD 0

/-- `int` reads each numeral. -/
def CronPart.Readable (p : CronPart) : Prop := ∀ n ∈ p.numerals, PyInt.parse n ≠ none

/-- The separators are where a part is split. -/
def CronPart.Separated (p : CronPart) : Prop :=
  ',' ∉ p.text ∧ '/' ∉ p.range.text ∧
    match p.range with
    | .all => True
    | .value n => '-' ∉ n ∧ n ≠ ['*']
    | .between a _ => '-' ∉ a

/-- An expression as the parser reads it: any numeral that `int` reads will do, also one with a sign
or underscores, and a single value may have a step. -/
def CronExpr.Loose (e : CronExpr) : Prop :=
  ∀ field ∈ e.fields, field ≠ [] ∧ ∀ p ∈ field, p.Separated ∧ p.Readable

end Istos
