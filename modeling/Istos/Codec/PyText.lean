import Istos.Codec.Json

/-!
# What `str` and `repr` write

A list or a dictionary is written token by token, as `json.dumps` writes it, with other tokens for
`None`, `True`, `False`, `nan`, `inf` and for a text.  Which characters outside ASCII are printable
is a parameter (`PyText`).
-/

namespace Istos

/-- What `repr` reads of the Unicode database. -/
class PyText where
  /-- `str.isprintable` of a character outside ASCII -/
  isprintable : Char → Bool

/-- Every character outside ASCII is printable. -/
@[reducible] def PyText.plain : PyText := ⟨fun _ => true⟩

namespace PyText

/-- The escape of a character below U+0100. -/
def hexEscape (code : ℕ) : List Char :=
  ['\\', 'x', Hex.lower (code / 16), Hex.lower (code % 16)]

/-- The escape of a character from U+10000 on. -/
def longEscape (code : ℕ) : List Char :=
  ['\\', 'U', '0', '0', Hex.lower (code / 1048576), Hex.lower (code / 65536 % 16),
    Hex.lower (code / 4096 % 16), Hex.lower (code / 256 % 16), Hex.lower (code / 16 % 16),
    Hex.lower (code % 16)]

/-- The quotes of a text: single ones, unless it has a single quote and no double one. -/
def quote (cs : List Char) : Char := if '\'' ∈ cs ∧ '"' ∉ cs then '"' else '\''

variable [PyText]

/-- One character between the quotes `q`. -/
def reprChar (q c : Char) : List Char :=
  if c = q ∨ c = '\\' then ['\\', c]
  else if c = '\t' then ['\\', 't']
  else if c = '\n' then ['\\', 'n']
  else if c = '\r' then ['\\', 'r']
  else if c.toNat < 0x20 ∨ c.toNat = 0x7F then hexEscape c.toNat
  else if c.toNat < 0x7F then [c]
  else if isprintable c then [c]
  else if c.toNat < 0x100 then hexEscape c.toNat
  else if c.toNat < 0x10000 then Json.unicodeEscape c.toNat
  else longEscape c.toNat

/-- `repr(s)`, as characters. -/
def reprChars (cs : List Char) : List Char :=
  quote cs :: (cs.flatMap (reprChar (quote cs)) ++ [quote cs])

/-- `repr(s)`. -/
def repr (s : String) : String := String.ofList (reprChars s.toList)

/-- The text of a token, with the blank that follows it. -/
def token : Json.Token → List Char
  | .null => "None".toList
  | .bool true => "True".toList
  | .bool false => "False".toList
  | .float .nan => "nan".toList
  | .float (.infinity false) => "inf".toList
  | .float (.infinity true) => "-inf".toList
  | .str s => reprChars s.toList
  | t => t.text

/-- `repr(value)`. -/
def reprJson (j : Json) : String := String.ofList (j.tokens.flatMap token)

/-- `str(value)`. -/
def str : Json → String
  | .str s => s
  | j => reprJson j

theorem str_str (s : String) : str (.str s) = s := rfl

end PyText

end Istos
