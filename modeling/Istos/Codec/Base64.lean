import Mathlib.Data.List.Basic
import Mathlib.Tactic.IntervalCases

/-!
# Base64

`b64encode` and `b64decode` are the two functions of Python's `base64` module.  The decoder is the
lenient one: characters outside the alphabet are skipped, a padding character that completes a
group of four ends the input, and an input that stops inside a group is an error.  It is a machine
with the position in the group, the bits left over from the last character and the number of
padding characters seen.

`b64decode_b64encode`: decoding gives back every byte string.
-/

/-- `bytes`. -/
abbrev Bytes := List UInt8

namespace Base64

/-- The sixty-four digits. -/
def alphabet : List Char :=
  "ABCDEFGHIJKLMNOPQRSTUVWXYZabcdefghijklmnopqrstuvwxyz0123456789+/".toList

/-- The digit for a six-bit value. -/
def digit (n : ℕ) : Char := alphabet.getD n 'A'

/-- The six-bit value of a digit. -/
def value? (c : Char) : Option ℕ :=
  if 65 ≤ c.toNat ∧ c.toNat ≤ 90 then some (c.toNat - 65)
  else if 97 ≤ c.toNat ∧ c.toNat ≤ 122 then some (c.toNat - 71)
  else if 48 ≤ c.toNat ∧ c.toNat ≤ 57 then some (c.toNat + 4)
  else if c = '+' then some 62
  else if c = '/' then some 63
  else none

/-- Three bytes become four digits; a shorter last group is padded with `=`. -/
def encodeChars : Bytes → List Char
  | [] => []
  | [a] => [digit (a.toNat / 4), digit (a.toNat % 4 * 16), '=', '=']
  | [a, b] =>
    [digit (a.toNat / 4), digit (a.toNat % 4 * 16 + b.toNat / 16), digit (b.toNat % 16 * 4), '=']
  | a :: b :: c :: rest =>
    digit (a.toNat / 4) :: digit (a.toNat % 4 * 16 + b.toNat / 16) ::
      digit (b.toNat % 16 * 4 + c.toNat / 64) :: digit (c.toNat % 64) :: encodeChars rest

/-- The decoding machine: `quad` characters of the group are read, `left` holds their bits that
are not yet output, and `pads` padding characters stand since the last digit. -/
def decodeFrom : ℕ → ℕ → ℕ → List Char → Option Bytes
  | quad, _, _, [] => if quad = 0 then some [] else none
  | quad, left, pads, c :: cs =>
    if c = '=' then
      if 2 ≤ quad then
        if 4 ≤ quad + (pads + 1) then some [] else decodeFrom quad left (pads + 1) cs
      else decodeFrom quad left pads cs
    else
      match value? c with
      | none => decodeFrom quad left pads cs
      | some v =>
        match quad with
        | 0 => decodeFrom 1 v 0 cs
        | 1 => (UInt8.ofNat (left * 4 + v / 16) :: ·) <$> decodeFrom 2 (v % 16) 0 cs
        | 2 => (UInt8.ofNat (left * 16 + v / 4) :: ·) <$> decodeFrom 3 (v % 4) 0 cs
        | _ => (UInt8.ofNat (left * 64 + v) :: ·) <$> decodeFrom 0 0 0 cs

/-- `base64.b64encode(data).decode("ascii")`. -/
def b64encode (data : Bytes) : String := String.ofList (encodeChars data)

/-- `base64.b64decode(s)` of a `str`; `none` where it raises.  Text that is not ASCII raises. -/
def b64decode (s : String) : Option Bytes :=
  if s.toList.all (fun c => c.toNat < 128) then decodeFrom 0 0 0 s.toList else none

/-! ### The digits -/

theorem value?_digit {n : ℕ} (h : n < 64) : value? (digit n) = some n := by
  have key : ∀ i : Fin 64, value? (digit i) = some i.val := by decide +kernel
  exact key ⟨n, h⟩

theorem digit_ne_pad {n : ℕ} (h : n < 64) : digit n ≠ '=' := by
  have key : ∀ i : Fin 64, digit i ≠ '=' := by decide +kernel
  exact key ⟨n, h⟩

theorem digit_mem_alphabet (n : ℕ) : digit n ∈ alphabet := by
  unfold digit
  rw [List.getD_eq_getElem?_getD]
  cases h : alphabet[n]? with
  | none => decide
  | some c => exact List.mem_of_getElem? h

theorem alphabet_ascii : ∀ c ∈ alphabet, c.toNat < 128 := by
  have h : alphabet.all (fun c => decide (c.toNat < 128)) = true := by decide
  intro c hc
  exact of_decide_eq_true (List.all_eq_true.mp h c hc)

/-! ### One digit through the machine -/

theorem decodeFrom_zero {v : ℕ} (hv : v < 64) (left pads : ℕ) (cs : List Char) :
    decodeFrom 0 left pads (digit v :: cs) = decodeFrom 1 v 0 cs := by
  simp only [decodeFrom, if_neg (digit_ne_pad hv), value?_digit hv]

theorem decodeFrom_one {v : ℕ} (hv : v < 64) (left pads : ℕ) (cs : List Char) :
    decodeFrom 1 left pads (digit v :: cs)
      = (UInt8.ofNat (left * 4 + v / 16) :: ·) <$> decodeFrom 2 (v % 16) 0 cs := by
  simp only [decodeFrom, if_neg (digit_ne_pad hv), value?_digit hv]

theorem decodeFrom_two {v : ℕ} (hv : v < 64) (left pads : ℕ) (cs : List Char) :
    decodeFrom 2 left pads (digit v :: cs)
      = (UInt8.ofNat (left * 16 + v / 4) :: ·) <$> decodeFrom 3 (v % 4) 0 cs := by
  simp only [decodeFrom, if_neg (digit_ne_pad hv), value?_digit hv]

theorem decodeFrom_three {v : ℕ} (hv : v < 64) (left pads : ℕ) (cs : List Char) :
    decodeFrom 3 left pads (digit v :: cs)
      = (UInt8.ofNat (left * 64 + v) :: ·) <$> decodeFrom 0 0 0 cs := by
  simp only [decodeFrom, if_neg (digit_ne_pad hv), value?_digit hv]

theorem decodeFrom_two_pad (left : ℕ) : decodeFrom 2 left 0 ['=', '='] = some [] := rfl

theorem decodeFrom_three_pad (left : ℕ) : decodeFrom 3 left 0 ['='] = some [] := rfl

/-! ### The round trip -/

theorem ofNat_eq_of_eq_toNat {n : ℕ} {a : UInt8} (h : n = a.toNat) : UInt8.ofNat n = a := by
  rw [h, UInt8.ofNat_toNat]

/-- **Round trip** of the digit lists: the machine inverts the encoder group by group. -/
theorem decodeFrom_encodeChars (data : Bytes) :
    decodeFrom 0 0 0 (encodeChars data) = some data := by
  induction data using encodeChars.induct with
  | case1 => rfl
  | case2 a =>
    have ha := a.toNat_lt
    rw [encodeChars, decodeFrom_zero (by omega), decodeFrom_one (by omega), decodeFrom_two_pad]
    simp only [Option.map_eq_map, Option.map_some, Option.some.injEq, List.cons.injEq, and_true]
    exact ofNat_eq_of_eq_toNat (by omega)
  | case3 a b =>
    have ha := a.toNat_lt
    have hb := b.toNat_lt
    rw [encodeChars, decodeFrom_zero (by omega), decodeFrom_one (by omega),
      decodeFrom_two (by omega), decodeFrom_three_pad]
    simp only [Option.map_eq_map, Option.map_some, Option.some.injEq, List.cons.injEq, and_true]
    exact ⟨ofNat_eq_of_eq_toNat (by omega), ofNat_eq_of_eq_toNat (by omega)⟩
  | case4 a b c rest ih =>
    have ha := a.toNat_lt
    have hb := b.toNat_lt
    have hc := c.toNat_lt
    rw [encodeChars, decodeFrom_zero (by omega), decodeFrom_one (by omega),
      decodeFrom_two (by omega), decodeFrom_three (by omega), ih]
    simp only [Option.map_eq_map, Option.map_some, Option.some.injEq, List.cons.injEq, and_true]
    exact ⟨ofNat_eq_of_eq_toNat (by omega), ofNat_eq_of_eq_toNat (by omega),
      ofNat_eq_of_eq_toNat (by omega)⟩

/-- The encoder writes digits and padding only. -/
theorem mem_encodeChars {data : Bytes} {c : Char} (h : c ∈ encodeChars data) :
    c ∈ alphabet ∨ c = '=' := by
  induction data using encodeChars.induct with
  | case1 => cases h
  | case2 a =>
    simp only [encodeChars, List.mem_cons, List.not_mem_nil, or_false] at h
    rcases h with rfl | rfl | rfl | rfl
    · exact Or.inl (digit_mem_alphabet _)
    · exact Or.inl (digit_mem_alphabet _)
    · exact Or.inr rfl
    · exact Or.inr rfl
  | case3 a b =>
    simp only [encodeChars, List.mem_cons, List.not_mem_nil, or_false] at h
    rcases h with rfl | rfl | rfl | rfl
    · exact Or.inl (digit_mem_alphabet _)
    · exact Or.inl (digit_mem_alphabet _)
    · exact Or.inl (digit_mem_alphabet _)
    · exact Or.inr rfl
  | case4 a b c' rest ih =>
    simp only [encodeChars, List.mem_cons] at h
    rcases h with rfl | rfl | rfl | rfl | h
    · exact Or.inl (digit_mem_alphabet _)
    · exact Or.inl (digit_mem_alphabet _)
    · exact Or.inl (digit_mem_alphabet _)
    · exact Or.inl (digit_mem_alphabet _)
    · exact ih h

/-- **Round trip**: every byte string survives `b64encode` and `b64decode`. -/
@[simp] theorem b64decode_b64encode (data : Bytes) : b64decode (b64encode data) = some data := by
  unfold b64decode b64encode
  rw [String.toList_ofList, if_pos, decodeFrom_encodeChars]
  rw [List.all_eq_true]
  intro c hc
  rw [decide_eq_true_eq]
  rcases mem_encodeChars hc with h | rfl
  · exact alphabet_ascii c h
  · decide

end Base64
