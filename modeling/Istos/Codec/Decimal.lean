import Mathlib.Data.Int.Basic

/-!
# Decimal numerals

`text` is `str(n)` of a Python integer.  `number` is `int(s)` on such numerals; the other forms
that Python reads (blanks around the digits, underscores between them, a plus sign, digits of other
scripts) are sent by nothing in the package.
-/

namespace Decimal

/-- The digits of a natural number. -/
def digits (n : ℕ) : List Char := Nat.toDigits 10 n

/-- `str(n)`. -/
def text : ℤ → List Char
  | .ofNat n => digits n
  | .negSucc n => '-' :: digits (n + 1)

/-- The value of a non-empty string of digits. -/
def natural (cs : List Char) : Option ℕ :=
  if cs ≠ [] ∧ cs.all Char.isDigit then some (Nat.ofDigitChars 10 cs 0) else none

/-- `int(s)`; `none` where it raises. -/
def number (cs : List Char) : Option ℤ :=
  match cs with
  | '-' :: ds => (natural ds).map fun n => -(n : ℤ)
  | _ => (natural cs).map fun n => (n : ℤ)

theorem digits_ne_nil (n : ℕ) : digits n ≠ [] :=
  List.ne_nil_of_length_pos Nat.length_toDigits_pos

theorem isDigit_of_mem_digits {n : ℕ} {c : Char} (h : c ∈ digits n) : c.isDigit = true :=
  Nat.isDigit_of_mem_toDigits (by decide) (by decide) h

/-- A leading zero stands alone. -/
theorem digits_eq_zero_cons {n : ℕ} {ds : List Char} (h : digits n = '0' :: ds) : ds = [] := by
  induction n using Nat.strong_induction_on generalizing ds with
  | _ n ih =>
    unfold digits at h ih
    by_cases hn : n < 10
    · rw [Nat.toDigits_of_lt_base hn] at h
      exact (List.cons.inj h).2.symm
    · rw [Nat.toDigits_of_base_le (by decide) (by omega)] at h
      cases hrest : Nat.toDigits 10 (n / 10) with
      | nil => exact absurd hrest (digits_ne_nil (n / 10))
      | cons c cs =>
        rw [hrest, List.cons_append] at h
        obtain ⟨rfl, -⟩ := List.cons.inj h
        -- then the digits before the last are a zero, and the number has one digit
        obtain rfl := ih (n / 10) (by omega) hrest
        have hvalue : Nat.ofDigitChars 10 (Nat.toDigits 10 (n / 10)) 0 = n / 10 :=
          Nat.ofDigitChars_ten_toDigits
        rw [hrest] at hvalue
        have hzero : Nat.ofDigitChars 10 ['0'] 0 = 0 := by decide
        omega

@[simp] theorem natural_digits (n : ℕ) : natural (digits n) = some n := by
  have hall : (digits n).all Char.isDigit = true :=
    List.all_eq_true.mpr fun c hc => isDigit_of_mem_digits hc
  rw [natural, if_pos ⟨digits_ne_nil n, hall⟩, digits, Nat.ofDigitChars_ten_toDigits]

/-- **Round trip**: every integer survives `str` and `int`. -/
@[simp] theorem number_text (n : ℤ) : number (text n) = some n := by
  cases n with
  | ofNat n =>
    show number (digits n) = some (n : ℤ)
    -- a digit is not a sign
    cases h : digits n with
    | nil => exact absurd h (digits_ne_nil n)
    | cons c cs =>
      have hc : c.isDigit = true := isDigit_of_mem_digits (h ▸ List.mem_cons_self)
      have hne : c ≠ '-' := by
        rintro rfl
        exact absurd hc (by decide)
      unfold number
      split
      · rename_i heq
        exact absurd (List.cons.inj heq).1 hne
      · rw [← h, natural_digits]
        rfl
  | negSucc n =>
    rw [text, number, natural_digits]
    rfl

end Decimal
