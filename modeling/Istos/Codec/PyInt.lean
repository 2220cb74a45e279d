import Mathlib.Data.Int.Basic

/-!
# Integers as Python reads them

`PyInt.parse` is `int(text)`: blanks on either side, a sign, and digits of any script with single
underscores between them, at most `maxDigits` of them.

* `magnitude_digits`: plain decimal digits are read as the number they spell.
* `parse_plain`: so is a text that consists of nothing else.
-/

namespace PyInt

/-- The zeros of the scripts that have decimal digits; the other nine follow each. -/
def zeros : List ℕ :=
  [0x30, 0x660, 0x6F0, 0x7C0, 0x966, 0x9E6, 0xA66, 0xAE6, 0xB66, 0xBE6, 0xC66, 0xCE6, 0xD66, 0xDE6,
    0xE50, 0xED0, 0xF20, 0x1040, 0x1090, 0x17E0, 0x1810, 0x1946, 0x19D0, 0x1A80, 0x1A90, 0x1B50,
    0x1BB0, 0x1C40, 0x1C50, 0xA620, 0xA8D0, 0xA900, 0xA9D0, 0xA9F0, 0xAA50, 0xABF0, 0xFF10, 0x104A0,
    0x10D30, 0x11066, 0x110F0, 0x11136, 0x111D0, 0x112F0, 0x11450, 0x114D0, 0x11650, 0x116C0,
    0x11730, 0x118E0, 0x11950, 0x11C50, 0x11D50, 0x11DA0, 0x16A60, 0x16AC0, 0x16B50, 0x1D7CE,
    0x1D7D8, 0x1D7E2, 0x1D7EC, 0x1D7F6, 0x1E140, 0x1E2F0, 0x1E950, 0x1FBF0]

/-- The decimal value of a character, if it is a digit. -/
def digit? (c : Char) : Option ℕ :=
  (zeros.find? fun z => z ≤ c.toNat ∧ c.toNat < z + 10).map fun z => c.toNat - z

/-- A character that `int` skips before and after the numeral. -/
def isBlank (c : Char) : Bool :=
  let n := c.toNat
  (9 ≤ n ∧ n ≤ 13) ∨ n = 32 ∨ n = 0x85 ∨ n = 0xA0 ∨ n = 0x1680 ∨ (0x2000 ≤ n ∧ n ≤ 0x200A) ∨
    n = 0x2028 ∨ n = 0x2029 ∨ n = 0x202F ∨ n = 0x205F ∨ n = 0x3000

/-- The limit on the digits of a numeral. -/
def maxDigits : ℕ := 4300

/-- The number that decimal digits spell, the most significant first. -/
def value (ds : List ℕ) : ℕ := ds.foldl (fun n d => 10 * n + d) 0

/-- Digits with single underscores between them. -/
def magnitude (cs : List Char) : Option ℕ :=
  let groups := cs.splitOn '_'
  if [] ∈ groups then none
  else (groups.flatten.mapM digit?).bind fun ds =>
    if ds.length ≤ maxDigits then some (value ds) else none

/-- `int(text)`; `none` where it raises. -/
def parse (cs : List Char) : Option ℤ :=
  match ((cs.dropWhile isBlank).reverse.dropWhile isBlank).reverse with
  | '-' :: ds => (magnitude ds).map fun n => -(n : ℤ)
  | '+' :: ds => (magnitude ds).map fun n => (n : ℤ)
  | ds => (magnitude ds).map fun n => (n : ℤ)

/-! ### Plain digits -/

theorem digit?_of_isDigit {c : Char} (h : c.isDigit = true) : digit? c = some (c.toNat - 48) := by
  have hbounds : 48 ≤ c.toNat ∧ c.toNat < 48 + 10 := by
    have h' : 48 ≤ c.val ∧ c.val ≤ 57 := by simpa [Char.isDigit] using h
    have h₁ : 48 ≤ c.val.toNat := h'.1
    have h₂ : c.val.toNat ≤ 57 := h'.2
    show 48 ≤ c.val.toNat ∧ c.val.toNat < 48 + 10
    omega
  unfold digit? zeros
  rw [List.find?_cons_of_pos (by simpa using hbounds), Option.map_some]

theorem isBlank_of_isDigit {c : Char} (h : c.isDigit = true) : isBlank c = false := by
  have h' : 48 ≤ c.val ∧ c.val ≤ 57 := by simpa [Char.isDigit] using h
  have h₁ : 48 ≤ c.val.toNat := h'.1
  have h₂ : c.val.toNat ≤ 57 := h'.2
  have hc : c.toNat = c.val.toNat := rfl
  simp only [isBlank, decide_eq_false_iff_not]
  omega

theorem mapM_digit? {cs : List Char} (h : ∀ c ∈ cs, c.isDigit = true) :
    cs.mapM digit? = some (cs.map fun c => c.toNat - 48) := by
  induction cs with
  | nil => rfl
  | cons c cs ih =>
    rw [List.mapM_cons, digit?_of_isDigit (h c List.mem_cons_self),
      ih fun d hd => h d (List.mem_cons_of_mem c hd)]
    rfl

/-- **Plain digits** are read as the number they spell, if there are not too many. -/
theorem magnitude_digits {cs : List Char} (hne : cs ≠ []) (h : ∀ c ∈ cs, c.isDigit = true) :
    magnitude cs = if cs.length ≤ maxDigits then some (value (cs.map fun c => c.toNat - 48))
      else none := by
  have hsplit : cs.splitOn '_' = [cs] := by
    apply List.splitOn_eq_singleton
    intro hmem
    exact absurd (h '_' hmem) (by decide)
  unfold magnitude
  rw [hsplit]
  simp [mapM_digit? h, hne]

/-- A text that is neither blank nor signed at either end is read as it stands. -/
theorem parse_plain {cs : List Char} (hne : cs ≠ []) (h : ∀ c ∈ cs, c.isDigit = true) :
    parse cs = if cs.length ≤ maxDigits then some (value (cs.map fun c => c.toNat - 48) : ℤ)
      else none := by
  have hblank : ∀ c ∈ cs, isBlank c = false := fun c hc => isBlank_of_isDigit (h c hc)
  have hdrop : ∀ ds : List Char, (∀ c ∈ ds, isBlank c = false) → ds.dropWhile isBlank = ds := by
    intro ds hds
    cases ds with
    | nil => rfl
    | cons d ds => exact List.dropWhile_cons_of_neg (by simp [hds d List.mem_cons_self])
  have hstrip : ((cs.dropWhile isBlank).reverse.dropWhile isBlank).reverse = cs := by
    rw [hdrop cs hblank, hdrop cs.reverse fun c hc => hblank c (List.mem_reverse.mp hc),
      List.reverse_reverse]
  obtain ⟨c, cs, rfl⟩ := List.exists_cons_of_ne_nil hne
  have hc := h c List.mem_cons_self
  unfold parse
  rw [hstrip]
  split
  · rename_i heq
    rw [(List.cons.inj heq).1] at hc
    exact absurd hc (by decide)
  · rename_i heq
    rw [(List.cons.inj heq).1] at hc
    exact absurd hc (by decide)
  · rw [magnitude_digits hne h]
    split <;> rfl

example : parse " +1_0\t".toList = some 10 := by decide
example : parse "٣".toList = some 3 := by decide
example : parse "1__0".toList = none := by decide
example : parse "+ 5".toList = none := by decide

end PyInt
