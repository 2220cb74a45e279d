import Istos.Codec.Json

/-!
# The round trip of JSON

The reader of characters undoes the text of a token, whatever follows it that cannot be part of a
number (`scanAll_text`), so it gives back the tokens of a value (`scanAll_tokens`).  The reader of
tokens puts the value of those tokens on its stack (`parseAll_tokens`), by recursion on the value.

* `loads_dumps`: a value whose objects have distinct keys survives `dumps` and `loads`.
-/

namespace Json

/-! ### Characters -/

theorem scanAll_cons (st : Scan) (c : Char) (cs : List Char) :
    scanAll st (c :: cs)
      = match scan st c with
        | none => none
        | some (ts, st') => (scanAll st' cs).map (ts ++ ·) := rfl

theorem scanAll_of_scan {st st' : Scan} {c : Char} {ts : List Token}
    (h : scan st c = some (ts, st')) (cs : List Char) :
    scanAll st (c :: cs) = (scanAll st' cs).map (ts ++ ·) := by
  rw [scanAll_cons, h]

/-- A character that completes no token. -/
theorem scanAll_silent {st st' : Scan} {c : Char} (h : scan st c = some ([], st'))
    (cs : List Char) : scanAll st (c :: cs) = scanAll st' cs := by
  rw [scanAll_of_scan h]
  exact Option.map_id'

/-- A digit of a `\u` escape that is not the last. -/
theorem scanAll_digit {d : ℕ} (h : d < 16) (read : List Char) (high : Option ℕ) (due value : ℕ)
    (cs : List Char) :
    scanAll (.unicode read high (due + 2) value) (Hex.lower d :: cs)
      = scanAll (.unicode read high (due + 1) (value * 16 + d)) cs := by
  apply scanAll_silent
  simp only [scan, Hex.value?_lower h]
  rw [if_neg (by omega)]
  rfl

/-- The four digits of a `\u` escape. -/
theorem scanAll_digits {unit : ℕ} (hu : unit < 65536) {read : List Char} {high : Option ℕ}
    {st : Scan} (h : codeUnit read high unit = some st) (cs : List Char) :
    scanAll (.unicode read high 4 0) ((unicodeEscape unit).drop 2 ++ cs) = scanAll st cs := by
  show scanAll (.unicode read high 4 0) (Hex.lower (unit / 4096) :: Hex.lower (unit / 256 % 16) ::
    Hex.lower (unit / 16 % 16) :: Hex.lower (unit % 16) :: cs) = scanAll st cs
  rw [scanAll_digit (by omega), scanAll_digit (by omega), scanAll_digit (by omega)]
  apply scanAll_silent
  have hvalue : (((0 * 16 + unit / 4096) * 16 + unit / 256 % 16) * 16 + unit / 16 % 16) * 16
      + unit % 16 = unit := by omega
  simp only [scan, Hex.value?_lower (show unit % 16 < 16 by omega)]
  rw [if_pos (by omega), hvalue, h]
  rfl

/-- A backslash and the letter after it. -/
theorem scanAll_backslash {read : List Char} {c : Char} {st : Scan}
    (h : scan (.escape read) c = some ([], st)) (cs : List Char) :
    scanAll (.string read) ('\\' :: c :: cs) = scanAll st cs := by
  have hslash : scan (.string read) '\\' = some ([], .escape read) := rfl
  rw [scanAll_silent hslash, scanAll_silent h]

/-- **One character inside a string** is read back, however it was escaped. -/
theorem scanAll_escape (c : Char) (read cs : List Char) :
    scanAll (.string read) (escape c ++ cs) = scanAll (.string (c :: read)) cs := by
  have hvalid : c.toNat < 0xD800 ∨ 0xDFFF < c.toNat ∧ c.toNat < 0x110000 := c.valid
  unfold escape
  by_cases hquote : c = '"'
  · subst hquote
    rw [if_pos rfl]
    exact scanAll_backslash rfl cs
  rw [if_neg hquote]
  by_cases hslash : c = '\\'
  · subst hslash
    rw [if_pos rfl]
    exact scanAll_backslash rfl cs
  rw [if_neg hslash]
  by_cases hplain : 0x20 ≤ c.toNat ∧ c.toNat < 0x7F
  · rw [if_pos hplain]
    apply scanAll_silent
    simp only [scan, if_neg hquote, if_neg hslash]
    exact if_neg (by omega)
  rw [if_neg hplain]
  by_cases hn : c = '\n'
  · subst hn
    rw [if_pos rfl]
    exact scanAll_backslash rfl cs
  rw [if_neg hn]
  by_cases hr : c = '\r'
  · subst hr
    rw [if_pos rfl]
    exact scanAll_backslash rfl cs
  rw [if_neg hr]
  by_cases ht : c = '\t'
  · subst ht
    rw [if_pos rfl]
    exact scanAll_backslash rfl cs
  rw [if_neg ht]
  by_cases hf : c.toNat = 0x0C
  · have hc : Char.ofNat 0x0C = c := by rw [← hf, Char.ofNat_toNat]
    rw [if_pos hf, ← hc]
    exact scanAll_backslash rfl cs
  rw [if_neg hf]
  by_cases hb : c.toNat = 0x08
  · have hc : Char.ofNat 0x08 = c := by rw [← hb, Char.ofNat_toNat]
    rw [if_pos hb, ← hc]
    exact scanAll_backslash rfl cs
  rw [if_neg hb]
  have hopen : ∀ (unit : ℕ) (rest : List Char), scanAll (.string read) (unicodeEscape unit ++ rest)
      = scanAll (.unicode read none 4 0) ((unicodeEscape unit).drop 2 ++ rest) := by
    intro unit rest
    have hscan : scan (.escape read) 'u' = some ([], .unicode read none 4 0) := rfl
    exact scanAll_backslash hscan _
  by_cases hbmp : c.toNat < 0x10000
  · rw [if_pos hbmp, hopen]
    apply scanAll_digits hbmp
    simp only [codeUnit]
    rw [if_neg (by omega), if_neg (by omega), Char.ofNat_toNat]
  · -- a character beyond the basic plane is written as a pair of surrogates
    have hhigh : codeUnit read none (0xD800 + (c.toNat - 0x10000) / 1024)
        = some (.surrogate read (0xD800 + (c.toNat - 0x10000) / 1024)) := by
      simp only [codeUnit]
      exact if_pos (by omega)
    have hslash : ∀ high, scan (.surrogate read high) '\\'
        = some ([], .surrogateEscape read high) := fun _ => rfl
    have hletter : ∀ high, scan (.surrogateEscape read high) 'u'
        = some ([], .unicode read (some high) 4 0) := fun _ => rfl
    have hpair : ∀ (high unit : ℕ) (rest : List Char),
        scanAll (.surrogate read high) (unicodeEscape unit ++ rest)
          = scanAll (.unicode read (some high) 4 0) ((unicodeEscape unit).drop 2 ++ rest) := by
      intro high unit rest
      exact (scanAll_silent (hslash high) _).trans (scanAll_silent (hletter high) _)
    rw [if_neg hbmp, List.append_assoc, hopen, scanAll_digits (by omega) hhigh, hpair]
    apply scanAll_digits (by omega)
    simp only [codeUnit]
    rw [if_pos (by omega)]
    have hvalue : 0x10000 + (0xD800 + (c.toNat - 0x10000) / 1024 - 0xD800) * 1024
        + (0xDC00 + (c.toNat - 0x10000) % 1024 - 0xDC00) = c.toNat := by omega
    rw [hvalue, Char.ofNat_toNat]

/-- The characters of a string, up to its closing quotation mark. -/
theorem scanAll_string (s read cs : List Char) :
    scanAll (.string read) (s.flatMap escape ++ '"' :: cs)
      = (scanAll .start cs).map (Token.str (String.ofList (read.reverse ++ s)) :: ·) := by
  induction s generalizing read with
  | nil =>
    have hclose : scan (.string read) '"' = some ([.str (String.ofList read.reverse)], .start) :=
      rfl
    rw [List.append_nil]
    exact scanAll_of_scan hclose cs
  | cons c s ih =>
    rw [List.flatMap_cons, List.append_assoc, scanAll_escape, ih, List.reverse_cons,
      List.append_assoc, List.singleton_append]

/-! ### Tokens -/

/-- A token that is a number. -/
def Token.isNumber : Token → Bool
  | num _ => true
  | float _ => true
  | _ => false

/-- A token that a number may stand before. -/
def Token.ends : Token → Bool
  | closeArr => true
  | closeObj => true
  | comma => true
  | _ => false

/-- Every number is followed by a token that ends it. -/
def Separated : List Token → Prop
  | t :: ts => (t.isNumber = true → ∀ t' ∈ ts.head?, t'.ends = true) ∧ Separated ts
  | [] => True

/-- A text that does not go on with a number. -/
def EndsNumber (cs : List Char) : Prop :=
  ∀ c ∈ cs.head?, c.isDigit = false ∧ c ≠ '.' ∧ c ≠ 'e' ∧ c ≠ 'E'

/-- The digits of a number. -/
theorem scanAll_number (negative zero : Bool) (value : ℕ) (ds : List Char)
    (hds : ∀ d ∈ ds, d.isDigit = true) (hzero : zero = true → ds = []) (cs : List Char) :
    ∃ zero', scanAll (.number negative zero value) (ds ++ cs)
      = scanAll (.number negative zero' (Nat.ofDigitChars 10 ds value)) cs := by
  induction ds generalizing zero value with
  | nil => exact ⟨zero, rfl⟩
  | cons d ds ih =>
    have hd : d.isDigit = true := hds d List.mem_cons_self
    have hz : zero = false := by
      cases zero with
      | false => rfl
      | true => exact absurd (hzero rfl) (List.cons_ne_nil d ds)
    have hscan : scan (.number negative zero value) d
        = some ([], .number negative false (10 * value + (d.toNat - '0'.toNat))) := by
      simp [scan, hd, hz]
    rw [List.cons_append, scanAll_silent hscan, Nat.ofDigitChars_cons]
    exact ih false _ (fun x hx => hds x (List.mem_cons_of_mem d hx)) (fun h => absurd h (by decide))

theorem EndsNumber.step_start {c : Char} {cs : List Char} (h : EndsNumber (c :: cs)) :
    Tail.step .start c = none := by
  obtain ⟨-, hdot, he, hE⟩ := h c rfl
  simp [Tail.step, hdot, he, hE]

/-- What ends an integer. -/
theorem scanAll_number_end (negative zero : Bool) (value : ℕ) {cs : List Char}
    (hcs : EndsNumber cs) :
    scanAll (.number negative zero value) cs
      = (scanAll .start cs).map (signed negative value :: ·) := by
  cases cs with
  | nil => rfl
  | cons c cs =>
    have hdigit : ¬ c.isDigit = true := by
      rw [(hcs c rfl).1]
      exact Bool.false_ne_true
    rw [scanAll_cons, scanAll_cons]
    simp only [scan]
    rw [if_neg hdigit, hcs.step_start]
    cases enter c with
    | none => rfl
    | some x =>
      simp only [Option.map_some, Option.map_map]
      rfl

/-- The characters of a fraction or an exponent. -/
theorem scanAll_tail (negative : Bool) (whole : ℕ) {st st' : Tail} {ds : List Char}
    (h : Tail.run st ds = some st') (read cs : List Char) :
    scanAll (.tail negative whole st read) (ds ++ cs)
      = scanAll (.tail negative whole st' (ds.reverse ++ read)) cs := by
  induction ds generalizing st read with
  | nil =>
    obtain rfl := Option.some.inj h
    rfl
  | cons d ds ih =>
    obtain ⟨st₁, hstep, hrest⟩ := Option.bind_eq_some_iff.mp h
    have hscan : scan (.tail negative whole st read) d
        = some ([], .tail negative whole st₁ (d :: read)) := by
      simp only [scan]
      rw [hstep]
    rw [List.cons_append, scanAll_silent hscan, ih hrest, List.reverse_cons, List.append_assoc,
      List.singleton_append]

/-- Nothing that ends a number goes on with its fraction or its exponent. -/
theorem EndsNumber.step_done {c : Char} {cs : List Char} (h : EndsNumber (c :: cs)) {st : Tail}
    (hst : st.done = true) : Tail.step st c = none := by
  obtain ⟨hdigit, -, he, hE⟩ := h c rfl
  cases st with
  | fraction => simp [Tail.step, hdigit, he, hE]
  | power => simp [Tail.step, hdigit]
  | _ => exact absurd hst (by decide)

/-- What ends a float. -/
theorem scanAll_tail_end (x : Numeral) {st : Tail} (hst : st.done = true) {cs : List Char}
    (hcs : EndsNumber cs) :
    scanAll (.tail x.negative x.whole st x.tail.reverse) cs
      = (scanAll .start cs).map (.float (.finite x) :: ·) := by
  have hread : fractional x.negative x.whole x.tail.reverse.reverse
      = some (.float (.finite x)) := by
    rw [List.reverse_reverse, fractional, dif_pos x.wellFormed]
  cases cs with
  | nil =>
    show (fractional x.negative x.whole x.tail.reverse.reverse).map _ = _
    rw [hread]
    rfl
  | cons c cs =>
    rw [scanAll_cons, scanAll_cons]
    simp only [scan]
    rw [hcs.step_done hst]
    simp only
    rw [hread, Option.bind_some]
    cases enter c with
    | none => rfl
    | some y =>
      simp only [Option.map_some, Option.map_map]
      rfl

/-- A digit begins a number. -/
theorem enter_digit {c : Char} (h : c.isDigit = true) :
    enter c = some ([], .number false (decide (c = '0')) (c.toNat - '0'.toNat)) := by
  have hne : ∀ x : Char, x.isDigit = false → c ≠ x := by
    rintro x hx rfl
    rw [h] at hx
    cases hx
  simp [enter, hne ' ' rfl, hne '\t' rfl, hne '\n' rfl, hne '\r' rfl, hne '[' rfl, hne ']' rfl,
    hne '{' rfl, hne '}' rfl, hne ',' rfl, hne ':' rfl, hne '"' rfl, hne 'n' rfl, hne 't' rfl,
    hne 'f' rfl, hne 'N' rfl, hne 'I' rfl, hne '-' rfl, h]

/-- The digits of a natural number, read from `st`, which takes the first of them. -/
theorem scanAll_digits_of {st : Scan} {negative : Bool}
    (hst : ∀ c : Char, c.isDigit = true →
      scan st c = some ([], .number negative (decide (c = '0')) (c.toNat - '0'.toNat)))
    (n : ℕ) (cs : List Char) :
    ∃ zero, scanAll st (Decimal.digits n ++ cs) = scanAll (.number negative zero n) cs := by
  cases hn : Decimal.digits n with
  | nil => exact absurd hn (Decimal.digits_ne_nil n)
  | cons d ds =>
    have hall : ∀ c ∈ d :: ds, c.isDigit = true := fun c hc =>
      Decimal.isDigit_of_mem_digits (hn ▸ hc)
    have hvalue : Nat.ofDigitChars 10 ds (d.toNat - '0'.toNat) = n := by
      rw [← Nat.ofDigitChars_ten_toDigits (n := n)]
      change _ = Nat.ofDigitChars 10 (Decimal.digits n) 0
      rw [hn, Nat.ofDigitChars_cons, Nat.mul_zero, Nat.zero_add]
    have hzero : decide (d = '0') = true → ds = [] := by
      intro hzero
      rw [of_decide_eq_true hzero] at hn
      exact Decimal.digits_eq_zero_cons hn
    obtain ⟨zero, hnumber⟩ := scanAll_number negative _ (d.toNat - '0'.toNat) ds
      (fun c hc => hall c (List.mem_cons_of_mem d hc)) hzero cs
    refine ⟨zero, ?_⟩
    rw [List.cons_append, scanAll_silent (hst d (hall d List.mem_cons_self)), hnumber, hvalue]

/-- The digits of a number without a sign. -/
theorem scanAll_unsigned (n : ℕ) (cs : List Char) :
    ∃ zero, scanAll .start (Decimal.digits n ++ cs) = scanAll (.number false zero n) cs := by
  have hstart : ∀ c : Char, c.isDigit = true →
      scan .start c = some ([], .number false (decide (c = '0')) (c.toNat - '0'.toNat)) :=
    fun c hc => enter_digit hc
  exact scanAll_digits_of hstart n cs

/-- The digits of a number with a minus sign. -/
theorem scanAll_negative (n : ℕ) (cs : List Char) :
    ∃ zero, scanAll .start ('-' :: (Decimal.digits n ++ cs)) =
      scanAll (.number true zero n) cs := by
  have hminus : scan .start '-' = some ([], .minus) := rfl
  have hfirst : ∀ c : Char, c.isDigit = true →
      scan .minus c = some ([], .number true (decide (c = '0')) (c.toNat - '0'.toNat)) :=
    fun c hc => if_pos hc
  rw [scanAll_silent hminus]
  exact scanAll_digits_of hfirst n cs

theorem scanAll_num (n : ℤ) {cs : List Char} (hcs : EndsNumber cs) :
    scanAll .start (Decimal.text n ++ cs) = (scanAll .start cs).map (.num n :: ·) := by
  cases n with
  | ofNat n =>
    obtain ⟨zero, hdigits⟩ := scanAll_unsigned n cs
    rw [Decimal.text, hdigits, scanAll_number_end false zero n hcs]
    rfl
  | negSucc n =>
    obtain ⟨zero, hdigits⟩ := scanAll_negative (n + 1) cs
    rw [Decimal.text, List.cons_append, hdigits, scanAll_number_end true zero (n + 1) hcs]
    rfl

/-- A fraction or an exponent after the digits of a number. -/
theorem scanAll_number_tail (zero : Bool) (x : Numeral) {cs : List Char} (hcs : EndsNumber cs) :
    scanAll (.number x.negative zero x.whole) (x.tail ++ cs)
      = (scanAll .start cs).map (.float (.finite x) :: ·) := by
  obtain ⟨st, hrun, hst⟩ := Tail.accepts_iff.mp x.wellFormed
  cases htail : x.tail with
  | nil =>
    rw [htail] at hrun
    obtain rfl := Option.some.inj hrun
    exact absurd hst (by decide)
  | cons c ds =>
    rw [htail] at hrun
    obtain ⟨st₁, hstep, hrest⟩ := Option.bind_eq_some_iff.mp hrun
    -- a point or the letter of an exponent is no digit
    have hdigit : ¬ c.isDigit = true := by
      intro hdigit
      have hne : ∀ d : Char, d.isDigit = false → c ≠ d := by
        rintro d hd rfl
        rw [hdigit] at hd
        cases hd
      simp [Tail.step, hne '.' rfl, hne 'e' rfl, hne 'E' rfl] at hstep
    have hscan : scan (.number x.negative zero x.whole) c
        = some ([], .tail x.negative x.whole st₁ [c]) := by
      simp only [scan]
      rw [if_neg hdigit, hstep]
    have hread : ds.reverse ++ [c] = x.tail.reverse := by
      rw [htail, List.reverse_cons]
    rw [List.cons_append, scanAll_silent hscan, scanAll_tail _ _ hrest, hread,
      scanAll_tail_end x hst hcs]

/-- The letters of a word. -/
theorem scanAll_word (t : Token) (d : Char) (word cs : List Char) :
    scanAll (.word (d :: word) t) (d :: word ++ cs) = (scanAll .start cs).map (t :: ·) := by
  induction word generalizing d with
  | nil =>
    have hlast : scan (.word [d] t) d = some ([t], .start) := if_pos rfl
    exact scanAll_of_scan hlast cs
  | cons d' word ih =>
    have hmore : scan (.word (d :: d' :: word) t) d = some ([], .word (d' :: word) t) := if_pos rfl
    rw [List.cons_append, scanAll_silent hmore]
    exact ih d'

/-- A token of one character. -/
theorem scanAll_mark {c : Char} {t : Token} (h : scan .start c = some ([t], .start))
    (cs : List Char) : scanAll .start ([c] ++ cs) = (scanAll .start cs).map (t :: ·) :=
  scanAll_of_scan h cs

/-- The text of a float. -/
theorem scanAll_float (x : PyFloat) {cs : List Char} (hcs : EndsNumber cs) :
    scanAll .start (floatText x ++ cs) = (scanAll .start cs).map (.float x :: ·) := by
  cases x with
  | nan =>
    have hscan : scan .start 'N' = some ([], .word ['a', 'N'] (.float .nan)) := rfl
    show scanAll .start ('N' :: (['a', 'N'] ++ cs)) = _
    rw [scanAll_silent hscan]
    exact scanAll_word (.float .nan) 'a' ['N'] cs
  | infinity negative =>
    have hword := scanAll_word (.float (.infinity negative)) 'n' ['f', 'i', 'n', 'i', 't', 'y'] cs
    cases negative with
    | false =>
      have hscan : scan .start 'I' = some ([],
          .word ['n', 'f', 'i', 'n', 'i', 't', 'y'] (.float (.infinity false))) := rfl
      show scanAll .start ('I' :: (['n', 'f', 'i', 'n', 'i', 't', 'y'] ++ cs)) = _
      rw [scanAll_silent hscan]
      exact hword
    | true =>
      have hminus : scan .start '-' = some ([], .minus) := rfl
      have hscan : scan .minus 'I' = some ([],
          .word ['n', 'f', 'i', 'n', 'i', 't', 'y'] (.float (.infinity true))) := rfl
      show scanAll .start ('-' :: 'I' :: (['n', 'f', 'i', 'n', 'i', 't', 'y'] ++ cs)) = _
      rw [scanAll_silent hminus, scanAll_silent hscan]
      exact hword
  | finite x =>
    have htail : ∃ zero, scanAll .start (floatText (.finite x) ++ cs)
        = scanAll (.number x.negative zero x.whole) (x.tail ++ cs) := by
      have htext : floatText (.finite x)
          = (if x.negative then ['-'] else []) ++ (Decimal.digits x.whole ++ x.tail) := rfl
      rw [htext, List.append_assoc, List.append_assoc]
      cases hx : x.negative with
      | false =>
        rw [if_neg Bool.false_ne_true, List.nil_append]
        exact scanAll_unsigned x.whole (x.tail ++ cs)
      | true =>
        rw [if_pos rfl, List.singleton_append]
        exact scanAll_negative x.whole (x.tail ++ cs)
    obtain ⟨zero, htail⟩ := htail
    rw [htail]
    exact scanAll_number_tail zero x hcs

/-- **The text of a token** is read back, if what follows a number ends it. -/
theorem scanAll_text (t : Token) {cs : List Char} (hcs : t.isNumber = true → EndsNumber cs) :
    scanAll .start (t.text ++ cs) = (scanAll .start cs).map (t :: ·) := by
  have hblank : ∀ cs, scanAll .start (' ' :: cs) = scanAll .start cs := by
    have hscan : scan .start ' ' = some ([], .start) := rfl
    exact scanAll_silent hscan
  cases t with
  | openArr =>
    have hscan : scan .start '[' = some ([.openArr], .start) := rfl
    exact scanAll_mark hscan cs
  | closeArr =>
    have hscan : scan .start ']' = some ([.closeArr], .start) := rfl
    exact scanAll_mark hscan cs
  | openObj =>
    have hscan : scan .start '{' = some ([.openObj], .start) := rfl
    exact scanAll_mark hscan cs
  | closeObj =>
    have hscan : scan .start '}' = some ([.closeObj], .start) := rfl
    exact scanAll_mark hscan cs
  | comma =>
    have hscan : scan .start ',' = some ([.comma], .start) := rfl
    show scanAll .start (',' :: ' ' :: cs) = _
    rw [scanAll_of_scan hscan, hblank]
    rfl
  | colon =>
    have hscan : scan .start ':' = some ([.colon], .start) := rfl
    show scanAll .start (':' :: ' ' :: cs) = _
    rw [scanAll_of_scan hscan, hblank]
    rfl
  | null =>
    have hscan : scan .start 'n' = some ([], .word ['u', 'l', 'l'] .null) := rfl
    show scanAll .start ('n' :: (['u', 'l', 'l'] ++ cs)) = _
    rw [scanAll_silent hscan]
    exact scanAll_word .null 'u' ['l', 'l'] cs
  | bool b =>
    cases b with
    | true =>
      have hscan : scan .start 't' = some ([], .word ['r', 'u', 'e'] (.bool true)) := rfl
      show scanAll .start ('t' :: (['r', 'u', 'e'] ++ cs)) = _
      rw [scanAll_silent hscan]
      exact scanAll_word (.bool true) 'r' ['u', 'e'] cs
    | false =>
      have hscan : scan .start 'f' = some ([], .word ['a', 'l', 's', 'e'] (.bool false)) := rfl
      show scanAll .start ('f' :: (['a', 'l', 's', 'e'] ++ cs)) = _
      rw [scanAll_silent hscan]
      exact scanAll_word (.bool false) 'a' ['l', 's', 'e'] cs
  | num n => exact scanAll_num n (hcs rfl)
  | float x => exact scanAll_float x (hcs rfl)
  | str s =>
    have hquote : scan .start '"' = some ([], .string []) := rfl
    show scanAll .start ('"' :: (s.toList.flatMap escape ++ ['"']) ++ cs) = _
    rw [List.cons_append, scanAll_silent hquote, List.append_assoc, List.singleton_append,
      scanAll_string, List.reverse_nil, List.nil_append, String.ofList_toList]

/-- So is the text without blanks. -/
theorem scanAll_compact (t : Token) {cs : List Char} (hcs : t.isNumber = true → EndsNumber cs) :
    scanAll .start (t.compact ++ cs) = (scanAll .start cs).map (t :: ·) := by
  cases t with
  | comma =>
    have hscan : scan .start ',' = some ([.comma], .start) := rfl
    exact scanAll_mark hscan cs
  | colon =>
    have hscan : scan .start ':' = some ([.colon], .start) := rfl
    exact scanAll_mark hscan cs
  | bool b => exact scanAll_text (.bool b) hcs
  | _ => exact scanAll_text _ hcs

/-- **Tokens are read back**, if each is and what may follow a number ends it. -/
theorem scanAll_flatMap {write : Token → List Char}
    (hwrite : ∀ (t : Token) (cs : List Char), (t.isNumber = true → EndsNumber cs) →
      scanAll .start (write t ++ cs) = (scanAll .start cs).map (t :: ·))
    (hends : ∀ (t : Token) (cs : List Char), t.ends = true → EndsNumber (write t ++ cs))
    {ts : List Token} (h : Separated ts) : scanAll .start (ts.flatMap write) = some ts := by
  induction ts with
  | nil => rfl
  | cons t ts ih =>
    rw [List.flatMap_cons, hwrite t, ih h.2]
    · rfl
    · intro hnum
      cases ts with
      | nil =>
        intro c hc
        cases hc
      | cons t' ts =>
        rw [List.flatMap_cons]
        exact hends t' _ (h.1 hnum t' rfl)

/-- **The tokens of a text** are read back. -/
theorem scanAll_flatMap_text {ts : List Token} (h : Separated ts) :
    scanAll .start (ts.flatMap Token.text) = some ts := by
  refine scanAll_flatMap (fun t cs => scanAll_text t) (fun t cs ht => ?_) h
  cases t with
  | closeArr =>
    rintro c ⟨⟩
    decide
  | closeObj =>
    rintro c ⟨⟩
    decide
  | comma =>
    rintro c ⟨⟩
    decide
  | _ => cases ht

theorem scanAll_flatMap_compact {ts : List Token} (h : Separated ts) :
    scanAll .start (ts.flatMap Token.compact) = some ts := by
  refine scanAll_flatMap (fun t cs => scanAll_compact t) (fun t cs ht => ?_) h
  cases t with
  | closeArr =>
    rintro c ⟨⟩
    decide
  | closeObj =>
    rintro c ⟨⟩
    decide
  | comma =>
    rintro c ⟨⟩
    decide
  | _ => cases ht

/-! ### Numbers in the tokens of a value -/

/-- A token that is no number may stand before any other. -/
theorem Separated.mark {t : Token} {ts : List Token} (h : Separated ts) (ht : t.isNumber = false) :
    Separated (t :: ts) :=
  ⟨fun hnum => absurd (ht.symm.trans hnum) Bool.false_ne_true, h⟩

mutual

theorem separated_tokens : (j : Json) → {ts : List Token} → Separated ts →
    (∀ t ∈ ts.head?, t.ends = true) → Separated (j.tokens ++ ts)
  | .null, _, h, _ => h.mark rfl
  | .bool _, _, h, _ => h.mark rfl
  | .str _, _, h, _ => h.mark rfl
  | .num _, _, h, hend => ⟨fun _ => hend, h⟩
  | .float _, _, h, hend => ⟨fun _ => hend, h⟩
  | .arr [], _, h, _ => (h.mark rfl).mark rfl
  | .arr (x :: xs), ts, h, _ => by
    rw [tokens, List.cons_append, List.append_assoc]
    have hx := separated_tokens x (separated_elements xs h).1 (separated_elements xs h).2
    exact hx.mark rfl
  | .obj [], _, h, _ => (h.mark rfl).mark rfl
  | .obj ((k, x) :: fs), ts, h, _ => by
    rw [tokens, List.cons_append, List.cons_append, List.cons_append, List.append_assoc]
    have hx := separated_tokens x (separated_fields fs h).1 (separated_fields fs h).2
    exact ((hx.mark rfl).mark rfl).mark rfl

theorem separated_elements : (xs : List Json) → {ts : List Token} → Separated ts →
    Separated (moreElements xs ++ ts) ∧ ∀ t ∈ (moreElements xs ++ ts).head?, t.ends = true
  | [], _, h => ⟨h.mark rfl, fun _ ht => Option.some.inj ht ▸ rfl⟩
  | x :: xs, ts, h => by
    refine ⟨?_, fun _ ht => Option.some.inj ht ▸ rfl⟩
    rw [moreElements, List.cons_append, List.append_assoc]
    have hx := separated_tokens x (separated_elements xs h).1 (separated_elements xs h).2
    exact hx.mark rfl

theorem separated_fields : (fs : List (String × Json)) → {ts : List Token} → Separated ts →
    Separated (moreFields fs ++ ts) ∧ ∀ t ∈ (moreFields fs ++ ts).head?, t.ends = true
  | [], _, h => ⟨h.mark rfl, fun _ ht => Option.some.inj ht ▸ rfl⟩
  | (k, x) :: fs, ts, h => by
    refine ⟨?_, fun _ ht => Option.some.inj ht ▸ rfl⟩
    rw [moreFields, List.cons_append, List.cons_append, List.cons_append, List.append_assoc]
    have hx := separated_tokens x (separated_fields fs h).1 (separated_fields fs h).2
    exact ((hx.mark rfl).mark rfl).mark rfl

end

theorem separated_of_value (j : Json) : Separated j.tokens := by
  have h : Separated (j.tokens ++ []) := separated_tokens j trivial (by simp)
  rwa [List.append_nil] at h

/-- **The tokens of a value** are read back. -/
theorem scanAll_tokens (j : Json) : scanAll .start (j.tokens.flatMap Token.text) = some j.tokens :=
  scanAll_flatMap_text (separated_of_value j)

/-! ### The value of the tokens -/

variable [Rounding]

theorem parseAll_cons {st st' : List Frame × Due} {t : Token} (h : parse st t = some st')
    (ts : List Token) : parseAll st (t :: ts) = parseAll st' ts := by
  show (parse st t).bind (fun st' => parseAll st' ts) = _
  rw [h, Option.bind_some]

/-- The first element of an array is a value like any other. -/
theorem parseAll_element (j : Json) (fs : List Frame) (ts : List Token) :
    parseAll (fs, .element) (j.tokens ++ ts) =
      parseAll (.arr [] :: fs, .value) (j.tokens ++ ts) := by
  have key : ∀ t : Token, t ≠ .closeArr →
      parse (fs, .element) t = parse (.arr [] :: fs, .value) t := by
    intro t ht
    cases t with
    | closeArr => exact absurd rfl ht
    | _ => rfl
  obtain ⟨t, ts', htokens, ht⟩ : ∃ t ts', j.tokens = t :: ts' ∧ t ≠ Token.closeArr := by
    cases j with
    | null => exact ⟨_, _, rfl, by decide⟩
    | bool b => exact ⟨_, _, rfl, Token.noConfusion⟩
    | num n => exact ⟨_, _, rfl, Token.noConfusion⟩
    | float x => exact ⟨_, _, rfl, Token.noConfusion⟩
    | str s => exact ⟨_, _, rfl, Token.noConfusion⟩
    | arr xs =>
      cases xs with
      | nil => exact ⟨_, _, rfl, by decide⟩
      | cons x xs => exact ⟨_, _, rfl, by decide⟩
    | obj fields =>
      cases fields with
      | nil => exact ⟨_, _, rfl, by decide⟩
      | cons f fields => exact ⟨_, _, rfl, by decide⟩
  rw [htokens, List.cons_append]
  show (parse (fs, .element) t).bind _ = (parse (.arr [] :: fs, .value) t).bind _
  rw [key t ht]

mutual

/-- **The tokens of a value** leave the value behind. -/
theorem parseAll_tokens : (j : Json) → j.Valid → (fs : List Frame) → (ts : List Token) →
    parseAll (fs, .value) (j.tokens ++ ts) = parseAll (fs, .next j) ts
  | .null, _, _, _ => rfl
  | .bool _, _, _, _ => rfl
  | .num _, _, _, _ => rfl
  | .float x, h, fs, ts => by
    have hround : rounded x = x := by
      cases x with
      | finite x => exact h
      | _ => rfl
    have hparse : parse (fs, .value) (.float x) = some (fs, .next (.float x)) := by
      show some (fs, Due.next (.float (rounded x))) = _
      rw [hround]
    exact parseAll_cons hparse ts
  | .str _, _, _, _ => rfl
  | .arr [], _, _, _ => rfl
  | .arr (x :: xs), h, fs, ts => by
    show parseAll (fs, .element) (x.tokens ++ moreElements xs ++ ts) = _
    rw [List.append_assoc, parseAll_element, parseAll_tokens x h.1]
    exact parseAll_elements xs h.2 [] x fs ts
  | .obj [], _, _, _ => rfl
  | .obj ((k, x) :: fields), h, fs, ts => by
    show parseAll (.obj [] k :: fs, .value) (x.tokens ++ moreFields fields ++ ts) = _
    rw [List.append_assoc, parseAll_tokens x h.2.1, parseAll_fields fields h.2.2 [] k x fs ts]
    rw [List.nil_append, dict, Table.rows_ofList h.1]

theorem parseAll_elements : (xs : List Json) → ValidElements xs → (before : List Json) →
    (x : Json) → (fs : List Frame) → (ts : List Token) →
    parseAll (.arr before :: fs, .next x) (moreElements xs ++ ts)
      = parseAll (fs, .next (.arr (before ++ x :: xs))) ts
  | [], _, _, _, _, _ => rfl
  | y :: xs, h, before, x, fs, ts => by
    show parseAll (.arr (before ++ [x]) :: fs, .value) (y.tokens ++ moreElements xs ++ ts) = _
    rw [List.append_assoc, parseAll_tokens y h.1, parseAll_elements xs h.2, List.append_assoc,
      List.singleton_append]

theorem parseAll_fields : (fields : List (String × Json)) → ValidFields fields →
    (before : List (String × Json)) → (k : String) → (x : Json) → (fs : List Frame) →
    (ts : List Token) →
    parseAll (.obj before k :: fs, .next x) (moreFields fields ++ ts)
      = parseAll (fs, .next (.obj (dict (before ++ (k, x) :: fields)))) ts
  | [], _, _, _, _, _, _ => rfl
  | (k', y) :: fields, h, before, k, x, fs, ts => by
    show parseAll (.obj (before ++ [(k, x)]) k' :: fs, .value) (y.tokens ++ moreFields fields ++ ts)
      = _
    rw [List.append_assoc, parseAll_tokens y h.1, parseAll_fields fields h.2, List.append_assoc,
      List.singleton_append]

end

/-- **Round trip**: a value whose objects have distinct keys survives `dumps` and `loads`. -/
theorem loads_dumps {j : Json} (h : j.Valid) : loads (dumps j) = some j := by
  have hparse := parseAll_tokens j h [] []
  rw [List.append_nil] at hparse
  rw [loads, dumps, String.toList_ofList, scanAll_tokens, Option.bind_some, hparse]
  rfl

theorem loads_dumpsCompact {j : Json} (h : j.Valid) : loads (dumpsCompact j) = some j := by
  have hparse := parseAll_tokens j h [] []
  rw [List.append_nil] at hparse
  rw [loads, dumpsCompact, String.toList_ofList, scanAll_flatMap_compact (separated_of_value j),
    Option.bind_some, hparse]
  rfl

end Json
