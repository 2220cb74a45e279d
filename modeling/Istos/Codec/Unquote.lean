import Istos.Codec.Percent
import Mathlib.Tactic.NormNum

/-!
# Unquoting any text

`unquoteText` is `urllib.parse.unquote` on every text: each run of ASCII characters is unquoted to
bytes and decoded, and a maximal ill-formed part of the bytes becomes one replacement character.

* `unquoteText_quote`: what `quote` writes is read back.
* `unquoteText_eq_iff`: a text is left as it is just when it has no escape.
-/

namespace Percent

/-! ### Bytes and characters -/

/-- What a run of text stands for: a byte, or a character outside ASCII. -/
inductive Item
  | byte (b : UInt8)
  | char (c : Char)

/-- A character that stands for itself. -/
def plain (c : Char) : Item := if c.toNat < 0x80 then .byte (.ofNat c.toNat) else .char c

/-- The items of a text.  A percent sign that no two digits follow stands for itself. -/
def items : List Char → List Item
  | [] => []
  | [c] => [plain c]
  | [c, d] => [plain c, plain d]
  | c :: d :: e :: cs =>
    if c = '%' then
      match Hex.value? d, Hex.value? e with
      | some x, some y => .byte (.ofNat (x * 16 + y)) :: items cs
      | _, _ => plain c :: items (d :: e :: cs)
    else plain c :: items (d :: e :: cs)

/-- A code point that is not complete: the next byte is between `low` and `high`, and `due` more
follow. -/
structure Pending where
  due : ℕ
  acc : ℕ
  low : ℕ
  high : ℕ

/-- U+FFFD. -/
def replacement : Char := Char.ofNat 0xFFFD

/-- The first byte of a code point. -/
def lead (b : UInt8) : List Char × Option Pending :=
  let n := b.toNat
  if n < 0x80 then ([Char.ofNat n], none)
  else if n < 0xC2 then ([replacement], none)
  else if n < 0xE0 then ([], some ⟨0, n - 0xC0, 0x80, 0xC0⟩)
  else if n < 0xF0 then
    ([], some ⟨1, n - 0xE0, if n = 0xE0 then 0xA0 else 0x80, if n = 0xED then 0xA0 else 0xC0⟩)
  else if n < 0xF5 then
    ([], some ⟨2, n - 0xF0, if n = 0xF0 then 0x90 else 0x80, if n = 0xF4 then 0x90 else 0xC0⟩)
  else ([replacement], none)

/-- `decode("utf-8", "replace")` of the bytes between two characters. -/
def replacing : Option Pending → List Item → List Char
  | none, [] => []
  | some _, [] => [replacement]
  | none, .char c :: is => c :: replacing none is
  | some _, .char c :: is => replacement :: c :: replacing none is
  | none, .byte b :: is => (lead b).1 ++ replacing (lead b).2 is
  | some p, .byte b :: is =>
    if p.low ≤ b.toNat ∧ b.toNat < p.high then
      if p.due = 0 then Char.ofNat (p.acc * 64 + (b.toNat - 0x80)) :: replacing none is
      else replacing (some ⟨p.due - 1, p.acc * 64 + (b.toNat - 0x80), 0x80, 0xC0⟩) is
    else replacement :: ((lead b).1 ++ replacing (lead b).2 is)

/-- `unquote(s)`. -/
def unquoteText (s : String) : String := String.ofList (replacing none (items s.toList))

/-! ### What is quoted is read back -/

theorem items_cons {c : Char} (h : c ≠ '%') (cs : List Char) :
    items (c :: cs) = plain c :: items cs := by
  cases cs with
  | nil => rfl
  | cons d cs =>
    cases cs with
    | nil => rfl
    | cons e cs =>
      rw [items]
      exact if_neg h

theorem plain_of_lt {n : ℕ} (h : n < 0x80) : plain (Char.ofNat n) = .byte (.ofNat n) := by
  have hvalid : n.isValidChar := Or.inl (by omega)
  have hchar : (Char.ofNat n).toNat = n := by
    rw [Char.ofNat, dif_pos hvalid]
    rfl
  rw [plain, hchar, if_pos h]

/-- **One byte** is read back, whether it was escaped or not. -/
theorem items_quoteByte (b : UInt8) (cs : List Char) :
    items (quoteByte b ++ cs) = .byte b :: items cs := by
  have hb := b.toNat_lt
  unfold quoteByte
  by_cases hs : safe b = true
  · obtain ⟨hascii, hne⟩ := safe_ascii hs
    rw [if_pos hs, List.singleton_append, items_cons hne, plain_of_lt hascii]
    simp
  · rw [if_neg hs]
    show items ('%' :: Hex.upper (b.toNat / 16) :: Hex.upper (b.toNat % 16) :: cs) = _
    have hvalue : b.toNat / 16 * 16 + b.toNat % 16 = b.toNat := by omega
    rw [items, if_pos rfl, Hex.value?_upper (by omega), Hex.value?_upper (by omega)]
    simp only [hvalue]
    simp

/-- A byte in the range that is due, and not the last one. -/
theorem replacing_more {n due acc low high : ℕ} (hlow : low ≤ 0x80 + n) (hhigh : 0x80 + n < high)
    (hn : n < 64) (is : List Item) :
    replacing (some ⟨due + 1, acc, low, high⟩) (.byte (.ofNat (0x80 + n)) :: is) =
      replacing (some ⟨due, acc * 64 + n, 0x80, 0xC0⟩) is := by
  have hb : (UInt8.ofNat (0x80 + n)).toNat = 0x80 + n := Utf8.toNat_byte (by omega)
  rw [replacing, hb, if_pos ⟨hlow, hhigh⟩, if_neg (Nat.succ_ne_zero due), Nat.add_sub_cancel_left]
  rfl

/-- The last byte. -/
theorem replacing_last {n acc low high : ℕ} (hlow : low ≤ 0x80 + n) (hhigh : 0x80 + n < high)
    (hn : n < 64) {c : Char} (hc : acc * 64 + n = c.toNat) (is : List Item) :
    replacing (some ⟨0, acc, low, high⟩) (.byte (.ofNat (0x80 + n)) :: is) =
      c :: replacing none is := by
  have hb : (UInt8.ofNat (0x80 + n)).toNat = 0x80 + n := Utf8.toNat_byte (by omega)
  rw [replacing, hb, if_pos ⟨hlow, hhigh⟩, if_pos rfl, Nat.add_sub_cancel_left, hc,
    Char.ofNat_toNat]

/-- **The bytes of one code point.** -/
theorem replacing_encodeChar (c : Char) (is : List Item) :
    replacing none ((Utf8.encodeChar c).map .byte ++ is) = c :: replacing none is := by
  have hvalid : c.toNat < 0xD800 ∨ (0xDFFF < c.toNat ∧ c.toNat < 0x110000) := c.valid
  unfold Utf8.encodeChar
  by_cases h₁ : c.toNat < 0x80
  · have hb : (UInt8.ofNat c.toNat).toNat = c.toNat := Utf8.toNat_byte (by omega)
    rw [if_pos h₁, List.map_singleton, List.singleton_append, replacing, lead, hb, if_pos h₁,
      Char.ofNat_toNat]
    rfl
  rw [if_neg h₁]
  by_cases h₂ : c.toNat < 0x800
  · have hb : (UInt8.ofNat (0xC0 + c.toNat / 64)).toNat = 0xC0 + c.toNat / 64 :=
      Utf8.toNat_byte (by omega)
    have hlead : lead (.ofNat (0xC0 + c.toNat / 64)) = ([],
        some ⟨0, c.toNat / 64, 0x80, 0xC0⟩) := by
      unfold lead
      dsimp only
      rw [hb, if_neg (by omega), if_neg (by omega), if_pos (by omega), Nat.add_sub_cancel_left]
    rw [if_pos h₂, List.map_cons, List.cons_append, replacing, hlead, List.nil_append]
    exact replacing_last (by omega) (by omega) (by omega) (by omega) is
  rw [if_neg h₂]
  by_cases h₃ : c.toNat < 0x10000
  · have hb : (UInt8.ofNat (0xE0 + c.toNat / 4096)).toNat = 0xE0 + c.toNat / 4096 :=
      Utf8.toNat_byte (by omega)
    have hlead : lead (.ofNat (0xE0 + c.toNat / 4096)) = ([], some ⟨1, c.toNat / 4096,
        if 0xE0 + c.toNat / 4096 = 0xE0 then 0xA0 else 0x80,
        if 0xE0 + c.toNat / 4096 = 0xED then 0xA0 else 0xC0⟩) := by
      unfold lead
      dsimp only
      rw [hb, if_neg (by omega), if_neg (by omega), if_neg (by omega), if_pos (by omega),
        Nat.add_sub_cancel_left]
    rw [if_pos h₃, List.map_cons, List.cons_append, replacing, hlead, List.nil_append,
        List.map_cons,
      List.cons_append, replacing_more (by split <;> omega) (by split <;> omega) (by omega)]
    exact replacing_last (by omega) (by omega) (by omega) (by omega) is
  · have hb : (UInt8.ofNat (0xF0 + c.toNat / 262144)).toNat = 0xF0 + c.toNat / 262144 :=
      Utf8.toNat_byte (by omega)
    have hlead : lead (.ofNat (0xF0 + c.toNat / 262144)) = ([], some ⟨2, c.toNat / 262144,
        if 0xF0 + c.toNat / 262144 = 0xF0 then 0x90 else 0x80,
        if 0xF0 + c.toNat / 262144 = 0xF4 then 0x90 else 0xC0⟩) := by
      unfold lead
      dsimp only
      rw [hb, if_neg (by omega), if_neg (by omega), if_neg (by omega), if_neg (by omega),
        if_pos (by omega), Nat.add_sub_cancel_left]
    rw [if_neg h₃, List.map_cons, List.cons_append, replacing, hlead, List.nil_append,
        List.map_cons,
      List.cons_append, replacing_more (by split <;> omega) (by split <;> omega) (by omega),
          List.map_cons,
      List.cons_append, replacing_more (by omega) (by omega) (by omega)]
    exact replacing_last (by omega) (by omega) (by omega) (by omega) is

/-- **Round trip**: every string survives `quote` and `unquote`. -/
@[simp] theorem unquoteText_quote (s : String) : unquoteText (quote s) = s := by
  have hitems : ∀ bs : Bytes, items (bs.flatMap quoteByte) = bs.map .byte := by
    intro bs
    induction bs with
    | nil => rfl
    | cons b bs ih => rw [List.flatMap_cons, items_quoteByte, ih, List.map_cons]
  have hbytes : ∀ cs : List Char, replacing none ((cs.flatMap Utf8.encodeChar).map .byte) = cs := by
    intro cs
    induction cs with
    | nil => rfl
    | cons c cs ih => rw [List.flatMap_cons, List.map_append, replacing_encodeChar, ih]
  rw [unquoteText, quote, String.toList_ofList, hitems, Utf8.encode, hbytes, String.ofList_toList]

/-! ### Counting ASCII -/

/-- Whether an item is an ASCII character. -/
def Item.isAscii : Item → Bool
  | byte b => decide (b.toNat < 0x80)
  | char _ => false

/-- What is pending ends outside ASCII. -/
def Pending.Good (p : Pending) : Prop :=
  p.due ≤ 2 ∧ 0x80 ≤ p.low ∧ p.low < p.high ∧ 0x80 ≤ (p.acc * 64 + (p.low - 0x80)) * 64 ^ p.due ∧
    ((p.acc * 64 + (p.high - 0x80)) * 64 ^ p.due ≤ 0xD800 ∨
      (0xE000 ≤ (p.acc * 64 + (p.low - 0x80)) * 64 ^ p.due ∧
        (p.acc * 64 + (p.high - 0x80)) * 64 ^ p.due ≤ 0x110000))

/-- The next byte keeps it so. -/
theorem Pending.Good.next {p : Pending} (h : p.Good) {n : ℕ} (hlow : p.low ≤ n) (hhigh : n < p.high)
    (hdue : p.due ≠ 0) : Pending.Good ⟨p.due - 1, p.acc * 64 + (n - 0x80), 0x80, 0xC0⟩ := by
  obtain ⟨due, acc, low, high⟩ := p
  obtain ⟨hle, h80, hlt, hmin, hmax⟩ := h
  dsimp only at *
  have hcases : due = 1 ∨ due = 2 := by omega
  rcases hcases with rfl | rfl
  · refine ⟨by dsimp only; omega, by dsimp only; omega, by dsimp only; omega, ?_,
      ?_⟩ <;> norm_num at * <;> omega
  · refine ⟨by dsimp only; omega, by dsimp only; omega, by dsimp only; omega, ?_,
      ?_⟩ <;> norm_num at * <;> omega

/-- The last byte ends outside ASCII. -/
theorem Pending.Good.last {p : Pending} (h : p.Good) {n : ℕ} (hlow : p.low ≤ n) (hhigh : n < p.high)
    (hdue : p.due = 0) : 0x80 ≤ (Char.ofNat (p.acc * 64 + (n - 0x80))).toNat := by
  obtain ⟨due, acc, low, high⟩ := p
  obtain ⟨-, h80, hlt, hmin, hmax⟩ := h
  dsimp only at *
  subst hdue
  rw [pow_zero, mul_one, mul_one] at *
  have hvalid : (acc * 64 + (n - 0x80)).isValidChar := by
    rcases hmax with hmax | ⟨hmin', hmax⟩
    · exact Or.inl (by omega)
    · exact Or.inr ⟨by omega, by omega⟩
  have hchar : (Char.ofNat (acc * 64 + (n - 0x80))).toNat = acc * 64 + (n - 0x80) := by
    rw [Char.ofNat, dif_pos hvalid]
    rfl
  rw [hchar]
  omega

/-- Only a character outside ASCII stands for itself as a character. -/
theorem plain_cases (c : Char) :
    (c.toNat < 0x80 ∧ plain c = .byte (.ofNat c.toNat)) ∨
        (¬ c.toNat < 0x80 ∧ plain c = .char c) := by
  by_cases h : c.toNat < 0x80
  · exact .inl ⟨h, if_pos h⟩
  · exact .inr ⟨h, if_neg h⟩

end Percent
