import Istos.Codec.Json
import Istos.Codec.Utf8

/-!
# JSON from bytes

`json.loads` of bytes looks at the first of them to find the encoding, UTF-8, UTF-16 or UTF-32, and
reads the text that they decode to.  A string that was stored as its bytes is read so too, whatever
it says: `"1"` comes back as a number, and `"1\x00"` does as well.
-/

/-- An encoding of JSON text, and how many bytes of a mark come first. -/
inductive Encoding
  | utf8 (mark : ℕ)
  | utf16 (big : Bool) (mark : ℕ)
  | utf32 (big : Bool) (mark : ℕ)
  deriving DecidableEq

namespace Encoding

/-- `detect_encoding` without a mark. -/
def detectUnmarked : Bytes → Encoding
  | b₀ :: b₁ :: b₂ :: b₃ :: _ =>
    if b₀ = 0 then (if b₁ = 0 then .utf32 true 0 else .utf16 true 0)
    else if b₁ = 0 then (if b₂ = 0 ∧ b₃ = 0 then .utf32 false 0 else .utf16 false 0)
    else .utf8 0
  | [b₀, b₁] =>
    if b₀ = 0 then .utf16 true 0 else if b₁ = 0 then .utf16 false 0 else .utf8 0
  | _ => .utf8 0

/-- `detect_encoding`. -/
def detect : Bytes → Encoding
  | 0x00 :: 0x00 :: 0xFE :: 0xFF :: _ => .utf32 true 4
  | 0xFF :: 0xFE :: 0x00 :: 0x00 :: _ => .utf32 false 4
  | 0xFE :: 0xFF :: _ => .utf16 true 2
  | 0xFF :: 0xFE :: _ => .utf16 false 2
  | 0xEF :: 0xBB :: 0xBF :: _ => .utf8 3
  | data => detectUnmarked data

/-- The code units of UTF-16. -/
def units16 (big : Bool) : Bytes → Option (List ℕ)
  | [] => some []
  | [_] => none
  | a :: b :: bs =>
    ((if big then a.toNat * 256 + b.toNat else b.toNat * 256 + a.toNat) :: ·) <$> units16 big bs

/-- The characters of UTF-16. -/
def join16 : List ℕ → Option (List Char)
  | [] => some []
  | u :: us =>
    if 0xD800 ≤ u ∧ u < 0xDC00 then
      match us with
      | v :: vs =>
        if 0xDC00 ≤ v ∧ v < 0xE000 then
          (Char.ofNat (0x10000 + (u - 0xD800) * 1024 + (v - 0xDC00)) :: ·) <$> join16 vs
        else none
      | [] => none
    else if 0xDC00 ≤ u ∧ u < 0xE000 then none
    else (Char.ofNat u :: ·) <$> join16 us

/-- The number of four bytes. -/
def word32 (big : Bool) (a b c d : UInt8) : ℕ :=
  if big then ((a.toNat * 256 + b.toNat) * 256 + c.toNat) * 256 + d.toNat
  else ((d.toNat * 256 + c.toNat) * 256 + b.toNat) * 256 + a.toNat

/-- The characters of UTF-32. -/
def decode32 (big : Bool) : Bytes → Option (List Char)
  | [] => some []
  | a :: b :: c :: d :: bs =>
    if (word32 big a b c d).isValidChar then
      (Char.ofNat (word32 big a b c d) :: ·) <$> decode32 big bs
    else none
  | _ => none

/-- `data.decode(encoding)`; `none` where it raises. -/
def decode (data : Bytes) : Encoding → Option (List Char)
  | utf8 mark => String.toList <$> Utf8.decode (data.drop mark)
  | utf16 big mark => (units16 big (data.drop mark)).bind join16
  | utf32 big mark => decode32 big (data.drop mark)

end Encoding

/-- `json.loads(data)` of bytes; `none` where it raises. -/
def Json.loadb [Rounding] (data : Bytes) : Option Json :=
  ((Encoding.detect data).decode data).bind fun cs => Json.loads (String.ofList cs)
