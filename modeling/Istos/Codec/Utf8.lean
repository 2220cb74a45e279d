import Istos.Codec.Base64

/-!
# UTF-8

`encode` is `str.encode("utf-8")` and `decode` is the strict `bytes.decode("utf-8")`: overlong
forms, surrogates and code points past the last are refused.  The decoder is a machine with the
number of continuation bytes still due, the bits read so far and the least code point that needs
this many bytes.

`decode_encode`: decoding gives back every string.
-/

namespace Utf8

/-- One code point. -/
def encodeChar (c : Char) : Bytes :=
  if c.toNat < 0x80 then [.ofNat c.toNat]
  else if c.toNat < 0x800 then
    [.ofNat (0xC0 + c.toNat / 64), .ofNat (0x80 + c.toNat % 64)]
  else if c.toNat < 0x10000 then
    [.ofNat (0xE0 + c.toNat / 4096), .ofNat (0x80 + c.toNat / 64 % 64),
      .ofNat (0x80 + c.toNat % 64)]
  else
    [.ofNat (0xF0 + c.toNat / 262144), .ofNat (0x80 + c.toNat / 4096 % 64),
      .ofNat (0x80 + c.toNat / 64 % 64), .ofNat (0x80 + c.toNat % 64)]

/-- `s.encode("utf-8")`. -/
def encode (s : String) : Bytes := s.toList.flatMap encodeChar

/-- The decoding machine. -/
def decodeFrom : ℕ → ℕ → ℕ → Bytes → Option (List Char)
  | 0, _, _, [] => some []
  | _ + 1, _, _, [] => none
  | 0, _, _, b :: bs =>
    if b.toNat < 0x80 then (Char.ofNat b.toNat :: ·) <$> decodeFrom 0 0 0 bs
    else if b.toNat < 0xC0 then none
    else if b.toNat < 0xE0 then decodeFrom 1 (b.toNat - 0xC0) 0x80 bs
    else if b.toNat < 0xF0 then decodeFrom 2 (b.toNat - 0xE0) 0x800 bs
    else if b.toNat < 0xF8 then decodeFrom 3 (b.toNat - 0xF0) 0x10000 bs
    else none
  | due + 1, acc, least, b :: bs =>
    if b.toNat < 0x80 ∨ 0xC0 ≤ b.toNat then none
    else if due ≠ 0 then decodeFrom due (acc * 64 + (b.toNat - 0x80)) least bs
    else if least ≤ acc * 64 + (b.toNat - 0x80) ∧ (acc * 64 + (b.toNat - 0x80)).isValidChar then
      (Char.ofNat (acc * 64 + (b.toNat - 0x80)) :: ·) <$> decodeFrom 0 0 0 bs
    else none

/-- `data.decode("utf-8")`; `none` where it raises. -/
def decode (data : Bytes) : Option String := String.ofList <$> decodeFrom 0 0 0 data

/-! ### One byte through the machine -/

theorem toNat_byte {n : ℕ} (h : n < 256) : (UInt8.ofNat n).toNat = n :=
  UInt8.toNat_ofNat_of_lt' h

/-- A continuation byte that is not the last. -/
theorem decodeFrom_more {n : ℕ} (h : n < 64) (due acc least : ℕ) (bs : Bytes) :
    decodeFrom (due + 2) acc least (.ofNat (0x80 + n) :: bs)
      = decodeFrom (due + 1) (acc * 64 + n) least bs := by
  have hb : (UInt8.ofNat (0x80 + n)).toNat = 0x80 + n := toNat_byte (by omega)
  rw [decodeFrom, hb, if_neg (by omega), if_pos (by omega), Nat.add_sub_cancel_left]

/-- The last continuation byte of a code point. -/
theorem decodeFrom_last {n : ℕ} (h : n < 64) {acc least : ℕ} (c : Char)
    (hc : acc * 64 + n = c.toNat) (hleast : least ≤ c.toNat) (bs : Bytes) :
    decodeFrom 1 acc least (.ofNat (0x80 + n) :: bs) = (c :: ·) <$> decodeFrom 0 0 0 bs := by
  have hb : (UInt8.ofNat (0x80 + n)).toNat = 0x80 + n := toNat_byte (by omega)
  have hvalid : c.toNat.isValidChar := c.valid
  rw [decodeFrom, hb, if_neg (by omega), if_neg (by omega), Nat.add_sub_cancel_left, hc,
    if_pos ⟨hleast, hvalid⟩, Char.ofNat_toNat]

/-- The bytes of one code point. -/
theorem decodeFrom_encodeChar (c : Char) (bs : Bytes) :
    decodeFrom 0 0 0 (encodeChar c ++ bs) = (c :: ·) <$> decodeFrom 0 0 0 bs := by
  have hlt : c.toNat < 0x110000 := by
    rcases c.valid with h | ⟨-, h⟩
    · exact h.trans (by decide)
    · exact h
  unfold encodeChar
  by_cases h₁ : c.toNat < 0x80
  · have hb : (UInt8.ofNat c.toNat).toNat = c.toNat := toNat_byte (by omega)
    rw [if_pos h₁, List.singleton_append, decodeFrom, hb, if_pos h₁, Char.ofNat_toNat]
  rw [if_neg h₁]
  by_cases h₂ : c.toNat < 0x800
  · have hb : (UInt8.ofNat (0xC0 + c.toNat / 64)).toNat = 0xC0 + c.toNat / 64 :=
      toNat_byte (by omega)
    rw [if_pos h₂, List.cons_append, decodeFrom, hb, if_neg (by omega), if_neg (by omega),
      if_pos (by omega), Nat.add_sub_cancel_left]
    exact decodeFrom_last (by omega) c (by omega) (by omega) bs
  rw [if_neg h₂]
  by_cases h₃ : c.toNat < 0x10000
  · have hb : (UInt8.ofNat (0xE0 + c.toNat / 4096)).toNat = 0xE0 + c.toNat / 4096 :=
      toNat_byte (by omega)
    rw [if_pos h₃, List.cons_append, decodeFrom, hb, if_neg (by omega), if_neg (by omega),
      if_neg (by omega), if_pos (by omega), Nat.add_sub_cancel_left, List.cons_append,
      decodeFrom_more (by omega)]
    exact decodeFrom_last (by omega) c (by omega) (by omega) bs
  · have hb : (UInt8.ofNat (0xF0 + c.toNat / 262144)).toNat = 0xF0 + c.toNat / 262144 :=
      toNat_byte (by omega)
    rw [if_neg h₃, List.cons_append, decodeFrom, hb, if_neg (by omega), if_neg (by omega),
      if_neg (by omega), if_neg (by omega), if_pos (by omega), Nat.add_sub_cancel_left,
      List.cons_append, decodeFrom_more (by omega), List.cons_append, decodeFrom_more (by omega)]
    exact decodeFrom_last (by omega) c (by omega) (by omega) bs

/-- **Round trip**: every string survives `encode` and `decode`. -/
@[simp] theorem decode_encode (s : String) : decode (encode s) = some s := by
  have key : ∀ cs : List Char, decodeFrom 0 0 0 (cs.flatMap encodeChar) = some cs := by
    intro cs
    induction cs with
    | nil => rfl
    | cons c cs ih =>
      rw [List.flatMap_cons, decodeFrom_encodeChar, ih]
      rfl
  rw [decode, encode, key, Option.map_eq_map, Option.map_some, String.ofList_toList]

end Utf8
