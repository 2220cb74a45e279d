import Mathlib.Data.List.Basic

/-!
# Hexadecimal digits
-/

namespace Hex

/-- The digit for a four-bit value, in lower case. -/
def lower (n : ℕ) : Char := "0123456789abcdef".toList.getD n '0'

/-- The digit for a four-bit value, in upper case. -/
def upper (n : ℕ) : Char := "0123456789ABCDEF".toList.getD n '0'

/-- The value of a digit, in either case. -/
def value? (c : Char) : Option ℕ :=
  if 48 ≤ c.toNat ∧ c.toNat ≤ 57 then some (c.toNat - 48)
  else if 97 ≤ c.toNat ∧ c.toNat ≤ 102 then some (c.toNat - 87)
  else if 65 ≤ c.toNat ∧ c.toNat ≤ 70 then some (c.toNat - 55)
  else none

@[simp] theorem value?_lower {n : ℕ} (h : n < 16) : value? (lower n) = some n := by
  have key : ∀ i : Fin 16, value? (lower i) = some i.val := by decide +kernel
  exact key ⟨n, h⟩

@[simp] theorem value?_upper {n : ℕ} (h : n < 16) : value? (upper n) = some n := by
  have key : ∀ i : Fin 16, value? (upper i) = some i.val := by decide +kernel
  exact key ⟨n, h⟩

theorem isAlphanum_upper {n : ℕ} (h : n < 16) : (upper n).isAlphanum = true := by
  have key : ∀ i : Fin 16, (upper i).isAlphanum = true := by decide +kernel
  exact key ⟨n, h⟩

end Hex
