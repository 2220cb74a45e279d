import Istos.Codec.Decimal
import Istos.Data.Lex
import Mathlib.Data.String.Basic

/-!
# Padded decimal numerals

`padded w n` is `f"{n:0wd}"` of a Python integer.  Numerals that fit into their width are ordered as
the numbers are (`zeros_lt_zeros`).
-/

namespace Decimal

/-- The digits of a natural number, with zeros in front up to a width. -/
def zeros (w n : ℕ) : List Char := List.replicate (w - (digits n).length) '0' ++ digits n

/-- `f"{n:0wd}"`: a sign counts for the width, and stands before the zeros. -/
def padded (w : ℕ) : ℤ → List Char
  | .ofNat n => zeros w n
  | .negSucc n => '-' :: zeros (w - 1) (n + 1)

theorem isDigit_of_mem_zeros {w n : ℕ} {c : Char} (h : c ∈ zeros w n) : c.isDigit = true := by
  rcases List.mem_append.mp h with hzero | hdigit
  · obtain rfl := List.eq_of_mem_replicate hzero
    rfl
  · exact isDigit_of_mem_digits hdigit

theorem mem_padded {w : ℕ} {n : ℤ} {c : Char} (h : c ∈ padded w n) : c.isDigit = true ∨
    c = '-' := by
  cases n with
  | ofNat n => exact .inl (isDigit_of_mem_zeros h)
  | negSucc n =>
    rcases List.mem_cons.mp h with rfl | hrest
    · exact .inr rfl
    · exact .inl (isDigit_of_mem_zeros hrest)

theorem length_digits_le {w n : ℕ} (hw : 0 < w) : (digits n).length ≤ w ↔ n < 10 ^ w :=
  Nat.length_toDigits_le_iff (by decide) hw

theorem length_zeros {w n : ℕ} (hw : 0 < w) (hn : n < 10 ^ w) : (zeros w n).length = w := by
  have hlen := (length_digits_le hw).mpr hn
  rw [zeros, List.length_append, List.length_replicate]
  omega

/-- The last digit stands behind the others. -/
theorem zeros_succ {w n : ℕ} (hw : 0 < w) :
    zeros (w + 1) n = zeros w (n / 10) ++ [Nat.digitChar (n % 10)] := by
  by_cases hn : n < 10
  · have hdiv : n / 10 = 0 := by omega
    have hmod : n % 10 = n := by omega
    have hone : digits n = [Nat.digitChar n] := Nat.toDigits_of_lt_base hn
    have hzero : digits 0 = ['0'] := rfl
    obtain ⟨v, rfl⟩ : ∃ v, w = v + 1 := ⟨w - 1, by omega⟩
    rw [zeros, zeros, hdiv, hmod, hone, hzero, List.length_singleton, List.length_singleton,
      Nat.add_sub_cancel, Nat.add_sub_cancel, ← List.replicate_succ']
  · have hdigits : digits n = digits (n / 10) ++ [Nat.digitChar (n % 10)] :=
      Nat.toDigits_of_base_le (by decide) (by omega)
    rw [zeros, zeros, hdigits, List.length_append, List.length_singleton, Nat.add_sub_add_right,
      List.append_assoc]

theorem digitChar_lt_digitChar {m n : ℕ} (hm : m < 10) (hn : n < 10) :
    Nat.digitChar m < Nat.digitChar n ↔ m < n := by
  have key : ∀ i j : Fin 10, Nat.digitChar i.val < Nat.digitChar j.val ↔ i.val < j.val := by decide
  exact key ⟨m, hm⟩ ⟨n, hn⟩

/-- What is ordered alike is equal alike. -/
theorem eq_iff_of_lt_iff {u v : List Char} {m n : ℕ} (hlt : u < v ↔ m < n) (hgt : v < u ↔ n < m)
    (heq : m = n → u = v) : u = v ↔ m = n := by
  refine ⟨?_, heq⟩
  rintro rfl
  have h₁ := mt hlt.mpr (List.lt_irrefl u)
  have h₂ := mt hgt.mpr (List.lt_irrefl u)
  omega

/-- **Numerals that fit** are ordered as the numbers are. -/
theorem zeros_lt_zeros {w m n : ℕ} (hw : 0 < w) (hm : m < 10 ^ w) (hn : n < 10 ^ w) :
    zeros w m < zeros w n ↔ m < n := by
  induction w generalizing m n with
  | zero => exact absurd hw (lt_irrefl 0)
  | succ w ih =>
    by_cases hw' : 0 < w
    · have hm' : m / 10 < 10 ^ w := by
        rw [Nat.pow_succ] at hm
        omega
      have hn' : n / 10 < 10 ^ w := by
        rw [Nat.pow_succ] at hn
        omega
      have hlt := ih hw' hm' hn'
      have hgt := ih hw' hn' hm'
      have heq := eq_iff_of_lt_iff hlt hgt (congrArg (zeros w))
      have hlen : (zeros w (m / 10)).length = (zeros w (n / 10)).length :=
        (length_zeros hw' hm').trans (length_zeros hw' hn').symm
      have hlast : [Nat.digitChar (m % 10)] < [Nat.digitChar (n % 10)] ↔ m % 10 < n % 10 := by
        rw [Lex.cons_lt_cons, digitChar_lt_digitChar (by omega) (by omega)]
        simp
      rw [zeros_succ hw', zeros_succ hw', Lex.append_lt_append hlen, hlt, heq, hlast]
      omega
    · obtain rfl : w = 0 := by omega
      have hm' : m < 10 := hm
      have hn' : n < 10 := hn
      have hone : ∀ k < 10, zeros 1 k = [Nat.digitChar k] := by decide
      rw [show 0 + 1 = 1 from rfl, hone m hm', hone n hn', Lex.cons_lt_cons,
        digitChar_lt_digitChar hm' hn']
      simp

theorem zeros_inj {w m n : ℕ} (hw : 0 < w) (hm : m < 10 ^ w) (hn : n < 10 ^ w) :
    zeros w m = zeros w n ↔ m = n :=
  eq_iff_of_lt_iff (zeros_lt_zeros hw hm hn) (zeros_lt_zeros hw hn hm) (congrArg (zeros w))

end Decimal
