import Istos.Codec.Decimal
import Istos.Codec.Numeral
import Mathlib.Data.List.TakeWhile

/-!
# The text format of metrics

A reader of the Prometheus text format: a line is blank, a comment, or a sample, which is a metric
name, labels between braces, a value and perhaps a time. Blanks may stand between these.  In the
value of a label a backslash, a quote and a line feed are escaped.

* `readLabels_pairs`: labels that are written with `escape` are read back.
* `number_text`, `sample_text`: so are a value and a sample, with labels or without.
* `sample_suffix`: a name does not go on behind the labels.
* `parse_lines`: a text is read line by line.
-/

namespace Exposition

/-- The value of a sample: an integer, or a numeral with a fraction or an exponent. -/
inductive Number
  | int (n : ℤ)
  | float (x : PyFloat)
  deriving DecidableEq

/-- A sample. -/
structure Sample where
  name : List Char
  labels : List (List Char × List Char)
  value : Number
  time : Option ℤ
  deriving DecidableEq

/-! ### Characters -/

def isBlank (c : Char) : Bool := decide (c = ' ' ∨ c = '\t')

/-- A letter or an underscore. -/
def isLabelStart (c : Char) : Bool := c.isAlpha || decide (c = '_')

def isLabelChar (c : Char) : Bool := isLabelStart c || c.isDigit

def isNameStart (c : Char) : Bool := isLabelStart c || decide (c = ':')

def isNameChar (c : Char) : Bool := isNameStart c || c.isDigit

/-- A metric name. -/
def ValidName (name : List Char) : Prop :=
  (∃ c ∈ name.head?, isNameStart c = true) ∧ ∀ c ∈ name, isNameChar c = true

/-- The name of a label. -/
def ValidLabel (name : List Char) : Prop :=
  (∃ c ∈ name.head?, isLabelStart c = true) ∧ ∀ c ∈ name, isLabelChar c = true

instance (name : List Char) : Decidable (ValidName name) :=
  decidable_of_iff (name.head?.any isNameStart = true ∧ name.all isNameChar = true)
    (by simp [ValidName, Option.any_eq_true])

instance (name : List Char) : Decidable (ValidLabel name) :=
  decidable_of_iff (name.head?.any isLabelStart = true ∧ name.all isLabelChar = true)
    (by simp [ValidLabel, Option.any_eq_true])

/-- What follows the blanks. -/
def skip (cs : List Char) : List Char := cs.dropWhile isBlank

/-! ### Values -/

/-- A word for a float that is no number. -/
def word (negative : Bool) (cs : List Char) : Option PyFloat :=
  let lower := cs.map Char.toLower
  if lower = "nan".toList then some .nan
  else if lower = "inf".toList ∨ lower = "infinity".toList then some (.infinity negative)
  else none

/-- A value without its sign. -/
def unsigned (negative : Bool) (cs : List Char) : Option Number :=
  let whole := cs.takeWhile Char.isDigit
  let tail := cs.drop whole.length
  if whole = [] then (word negative cs).map .float
  else
    let n := Nat.ofDigitChars 10 whole 0
    if tail = [] then some (.int (if negative then -(n : ℤ) else n))
    else if h : Tail.accepts tail = true then some (.float (.finite ⟨negative, n, tail, h⟩))
    else none

/-- A value. -/
def number (cs : List Char) : Option Number :=
  match cs with
  | '-' :: rest => unsigned true rest
  | '+' :: rest => unsigned false rest
  | _ => unsigned false cs

/-! ### Labels -/

/-- Where a reader stands between the braces. -/
inductive LabelState
  /-- before a name, or the closing brace -/
  | start
  | name (name : List Char)
  | named (name : List Char)
  /-- after the equals sign -/
  | equals (name : List Char)
  | value (name value : List Char)
  /-- after a backslash -/
  | escaped (name value : List Char)
  /-- after the closing quote -/
  | closed

/-- The labels up to the closing brace, and what follows it. -/
def readLabels (labels : List (List Char × List Char)) :
    LabelState → List Char → Option (List (List Char × List Char) × List Char)
  | _, [] => none
  | .start, c :: cs =>
    if c = '}' then some (labels, cs)
    else if isBlank c then readLabels labels .start cs
    else if isLabelStart c then readLabels labels (.name [c]) cs
    else none
  | .name n, c :: cs =>
    if isLabelChar c then readLabels labels (.name (n ++ [c])) cs
    else if c = '=' then readLabels labels (.equals n) cs
    else if isBlank c then readLabels labels (.named n) cs
    else none
  | .named n, c :: cs =>
    if c = '=' then readLabels labels (.equals n) cs
    else if isBlank c then readLabels labels (.named n) cs
    else none
  | .equals n, c :: cs =>
    if c = '"' then readLabels labels (.value n []) cs
    else if isBlank c then readLabels labels (.equals n) cs
    else none
  | .value n v, c :: cs =>
    if c = '"' then readLabels (labels ++ [(n, v)]) .closed cs
    else if c = '\\' then readLabels labels (.escaped n v) cs
    else if c = '\n' then none
    else readLabels labels (.value n (v ++ [c])) cs
  | .escaped n v, c :: cs =>
    if c = '\\' then readLabels labels (.value n (v ++ ['\\'])) cs
    else if c = '"' then readLabels labels (.value n (v ++ ['"'])) cs
    else if c = 'n' then readLabels labels (.value n (v ++ ['\n'])) cs
    else none
  | .closed, c :: cs =>
    if c = ',' then readLabels labels .start cs
    else if c = '}' then some (labels, cs)
    else if isBlank c then readLabels labels .closed cs
    else none

/-! ### Lines -/

/-- What follows the name and the labels. -/
def sampleValue (name : List Char) (labels : List (List Char × List Char)) (cs : List Char) :
    Option Sample :=
  let token := (skip cs).takeWhile fun c => !isBlank c
  let rest := skip ((skip cs).drop token.length)
  (number token).bind fun value =>
    if rest = [] then some ⟨name, labels, value, none⟩
    else
      let time := rest.takeWhile fun c => !isBlank c
      if skip (rest.drop time.length) = [] then
        (Decimal.number time).map fun t => ⟨name, labels, value, some t⟩
      else none

/-- A sample. -/
def sample (line : List Char) : Option Sample :=
  let cs := skip line
  let name := cs.takeWhile isNameChar
  let rest := skip (cs.drop name.length)
  if (name.head?.any isNameStart) then
    match rest with
    | '{' :: rest => (readLabels [] .start rest).bind fun x => sampleValue name x.1 x.2
    | rest => sampleValue name [] rest
  else none

/-- A blank line, or a comment. -/
def ignored (line : List Char) : Bool := ((skip line).head?.map fun c => decide (c = '#')).getD true

/-- The samples of a text; `none` where a line is none. -/
def parse (text : List Char) : Option (List Sample) :=
  ((text.splitOn '\n').filter fun line => !ignored line).mapM sample

/-! ### Writing labels -/

/-- A character of the value of a label. -/
def escapeChar (c : Char) : List Char :=
  if c = '\\' then ['\\', '\\'] else if c = '\n' then ['\\', 'n'] else if c = '"' then ['\\', '"']
  else [c]

/-- The value of a label. -/
def escape (value : List Char) : List Char := value.flatMap escapeChar

/-- A label. -/
def pair (label : List Char × List Char) : List Char :=
  label.1 ++ '=' :: '"' :: (escape label.2 ++ ['"'])

/-- Labels between their braces; none need no braces. -/
def block (labels : List (List Char × List Char)) : List Char :=
  if labels = [] then [] else '{' :: ([','].intercalate (labels.map pair) ++ ['}'])

/-- `str(x)` of a float. -/
def floatText : PyFloat → List Char
  | .nan => "nan".toList
  | .infinity false => "inf".toList
  | .infinity true => "-inf".toList
  | .finite x => (if x.negative then ['-'] else []) ++ (Decimal.digits x.whole ++ x.tail)

/-- A value. -/
def Number.text : Number → List Char
  | int n => Decimal.text n
  | float x => floatText x

/-! ### Reading labels -/

theorem readLabels_escapeChar (labels : List (List Char × List Char)) (n v : List Char) (c : Char)
    (cs : List Char) : readLabels labels (.value n v) (escapeChar c ++ cs) =
      readLabels labels (.value n (v ++ [c])) cs := by
  unfold escapeChar
  split_ifs with h₁ h₂ h₃
  · subst h₁
    rfl
  · subst h₂
    rfl
  · subst h₃
    rfl
  · rw [List.singleton_append, readLabels, if_neg h₃, if_neg h₁, if_neg h₂]

theorem readLabels_escape (labels : List (List Char × List Char)) (n v value cs : List Char) :
    readLabels labels (.value n v) (escape value ++ cs) =
      readLabels labels (.value n (v ++ value)) cs := by
  induction value generalizing v with
  | nil => simp [escape]
  | cons c value ih =>
    rw [escape, List.flatMap_cons, List.append_assoc, readLabels_escapeChar]
    rw [escape] at ih
    rw [ih, List.append_assoc, List.singleton_append]

theorem readLabels_name (labels : List (List Char × List Char)) {n : List Char} {name : List Char}
    (hname : ∀ c ∈ name, isLabelChar c = true) (cs : List Char) :
    readLabels labels (.name n) (name ++ cs) = readLabels labels (.name (n ++ name)) cs := by
  induction name generalizing n with
  | nil => simp
  | cons c name ih =>
    obtain ⟨hc, hrest⟩ := List.forall_mem_cons.mp hname
    rw [List.cons_append, readLabels, if_pos hc, ih hrest, List.append_assoc, List.singleton_append]

/-- A label is read. -/
theorem readLabels_pair (labels : List (List Char × List Char)) {label : List Char × List Char}
    (h : ValidLabel label.1) (cs : List Char) :
    readLabels labels .start (pair label ++ cs) = readLabels (labels ++ [label]) .closed cs := by
  obtain ⟨n, v⟩ := label
  obtain ⟨⟨c, hc, hstart⟩, hall⟩ := h
  -- the first character neither closes the braces nor is it a blank
  obtain ⟨rest, rfl⟩ : ∃ rest, n = c :: rest := by
    cases n with
    | nil => exact absurd hc (by simp)
    | cons d rest => exact ⟨rest, by rw [Option.mem_some.mp hc]⟩
  have hbrace : c ≠ '}' := by
    rintro rfl
    exact absurd hstart (by decide)
  have hblank : isBlank c = false := by
    rw [isBlank, decide_eq_false_iff_not]
    rintro (rfl | rfl)
    · exact absurd hstart (by decide)
    · exact absurd hstart (by decide)
  have hequals : isLabelChar '=' = false := by decide
  have hquote : '"' ≠ '}' := by decide
  calc readLabels labels .start (pair (c :: rest, v) ++ cs)
      = readLabels labels (.name [c]) (rest ++ '=' :: '"' :: (escape v ++ '"' :: cs)) := by
        simp [pair, readLabels, hbrace, hblank, hstart]
    _ = readLabels labels (.name ([c] ++ rest)) ('=' :: '"' :: (escape v ++ '"' :: cs)) :=
        readLabels_name labels (fun d hd => hall d (List.mem_cons_of_mem c hd)) _
    _ = readLabels labels (.value (c :: rest) []) (escape v ++ '"' :: cs) := by
        simp [readLabels, hequals]
    _ = readLabels labels (.value (c :: rest) ([] ++ v)) ('"' :: cs) :=
        readLabels_escape labels (c :: rest) [] v _
    _ = readLabels (labels ++ [(c :: rest, v)]) .closed cs := by
        simp [readLabels]

/-- **Labels** that are written are read back. -/
theorem readLabels_pairs {pairs : List (List Char × List Char)} (hne : pairs ≠ [])
    (hvalid : ∀ label ∈ pairs, ValidLabel label.1) (labels : List (List Char × List Char))
    (cs : List Char) :
    readLabels labels .start ([','].intercalate (pairs.map pair) ++ '}' :: cs) =
      some (labels ++ pairs, cs) := by
  induction pairs generalizing labels with
  | nil => exact absurd rfl hne
  | cons label pairs ih =>
    obtain ⟨hlabel, hrest⟩ := List.forall_mem_cons.mp hvalid
    by_cases hlast : pairs = []
    · subst hlast
      rw [List.map_singleton, List.intercalate_singleton, readLabels_pair labels hlabel]
      rfl
    · rw [List.map_cons, List.intercalate_cons_of_ne_nil (by simpa using hlast), List.append_assoc,
        List.append_assoc, readLabels_pair labels hlabel, List.singleton_append, readLabels,
        if_pos rfl, ih hlast hrest, List.append_assoc, List.singleton_append]

/-! ### Reading values -/

/-- A character of a value. -/
def Plain (c : Char) : Prop := isBlank c = false ∧ c ≠ '\n' ∧ c ≠ '{'

instance (c : Char) : Decidable (Plain c) := inferInstanceAs (Decidable (_ ∧ _ ∧ _))

theorem plain_of_all {cs : List Char} (h : cs.all (fun c => decide (Plain c)) = true) :
    ∀ c ∈ cs, Plain c :=
  fun c hc => of_decide_eq_true (List.all_eq_true.mp h c hc)

theorem plain_of_isDigit {c : Char} (h : c.isDigit = true) : Plain c := by
  refine ⟨?_, ?_, ?_⟩
  · rw [isBlank, decide_eq_false_iff_not]
    rintro (rfl | rfl)
    · exact absurd h (by decide)
    · exact absurd h (by decide)
  · rintro rfl
    exact absurd h (by decide)
  · rintro rfl
    exact absurd h (by decide)

/-- A step of a fraction or an exponent is made by a digit, a point, a letter or a sign. -/
theorem plain_of_step {st st' : Tail} {c : Char} (h : Tail.step st c = some st') : Plain c := by
  have hdigit : c.isDigit = true ∨ c = '.' ∨ c = 'e' ∨ c = 'E' ∨ c = '+' ∨ c = '-' := by
    cases st <;> grind [Tail.step]
  rcases hdigit with hdigit | rfl | rfl | rfl | rfl | rfl
  · exact plain_of_isDigit hdigit
  all_goals decide

theorem plain_of_run {st st' : Tail} {cs : List Char} (h : Tail.run st cs = some st') :
    ∀ c ∈ cs, Plain c := by
  induction cs generalizing st with
  | nil => simp
  | cons c cs ih =>
    rw [Tail.run, Option.bind_eq_some_iff] at h
    obtain ⟨st'', hstep, hrun⟩ := h
    exact List.forall_mem_cons.mpr ⟨plain_of_step hstep, ih hrun⟩

theorem plain_of_mem_tail {x : Numeral} {c : Char} (h : c ∈ x.tail) : Plain c := by
  obtain ⟨st, hrun, -⟩ := Tail.accepts_iff.mp x.wellFormed
  exact plain_of_run hrun c h

theorem plain_of_mem_digits {n : ℕ} {c : Char} (h : c ∈ Decimal.digits n) : Plain c :=
  plain_of_isDigit (Decimal.isDigit_of_mem_digits h)

/-- A value has neither blanks nor line feeds. -/
theorem plain_of_mem_text {v : Number} {c : Char} (h : c ∈ v.text) : Plain c := by
  have hminus : Plain '-' := by decide
  cases v with
  | int n =>
    cases n with
    | ofNat n => exact plain_of_mem_digits h
    | negSucc n =>
      rcases List.mem_cons.mp h with rfl | h
      · exact hminus
      · exact plain_of_mem_digits h
  | float x =>
    rw [Number.text] at h
    match x, h with
    | .nan, h => exact plain_of_all (by decide) c h
    | .infinity false, h => exact plain_of_all (by decide) c h
    | .infinity true, h => exact plain_of_all (by decide) c h
    | .finite x, h =>
      rcases List.mem_append.mp h with h | h
      · split at h
        · rw [List.mem_singleton.mp h]
          exact hminus
        · exact absurd h List.not_mem_nil
      · rcases List.mem_append.mp h with h | h
        · exact plain_of_mem_digits h
        · exact plain_of_mem_tail h

/-- A fraction or an exponent does not begin with a digit. -/
theorem not_isDigit_of_tail {x : Numeral} :
    ∃ c cs, x.tail = c :: cs ∧ c.isDigit = false := by
  obtain ⟨st, hrun, hdone⟩ := Tail.accepts_iff.mp x.wellFormed
  cases htail : x.tail with
  | nil =>
    rw [htail, Tail.run, Option.some.injEq] at hrun
    subst hrun
    exact absurd hdone (by decide)
  | cons c cs =>
    refine ⟨c, cs, rfl, ?_⟩
    rw [htail, Tail.run, Option.bind_eq_some_iff] at hrun
    obtain ⟨st', hstep, -⟩ := hrun
    rw [Tail.step] at hstep
    split_ifs at hstep with hpoint hletter
    · rw [hpoint]
      decide
    · rcases hletter with rfl | rfl
      · decide
      · decide

theorem takeWhile_digits_append (n : ℕ) (cs : List Char) (h : ∀ c ∈ cs.head?, c.isDigit = false) :
    (Decimal.digits n ++ cs).takeWhile Char.isDigit = Decimal.digits n := by
  rw [List.takeWhile_append_of_pos fun c hc => Decimal.isDigit_of_mem_digits hc]
  cases cs with
  | nil => simp
  | cons c cs =>
    have hc : c.isDigit = false := h c rfl
    simp [hc]

theorem unsigned_digits (negative : Bool) (n : ℕ) : unsigned negative (Decimal.digits n) =
    some (.int (if negative then -(n : ℤ) else n)) := by
  have htake := takeWhile_digits_append n [] (by simp)
  rw [List.append_nil] at htake
  simp [unsigned, htake, Decimal.digits_ne_nil]
  simp [Decimal.digits]

theorem unsigned_numeral (x : Numeral) :
    unsigned x.negative (Decimal.digits x.whole ++ x.tail) = some (.float (.finite x)) := by
  obtain ⟨c, cs, htail, hc⟩ := not_isDigit_of_tail (x := x)
  have htake : (Decimal.digits x.whole ++ x.tail).takeWhile Char.isDigit = Decimal.digits x.whole :=
    takeWhile_digits_append x.whole _ (by simp [htail, hc])
  have hne : x.tail ≠ [] := by simp [htail]
  simp [unsigned, htake, Decimal.digits_ne_nil, hne, x.wellFormed]
  simp [Decimal.digits]

/-- What begins with a digit has no sign. -/
theorem number_digits (n : ℕ) (cs : List Char) :
    number (Decimal.digits n ++ cs) = unsigned false (Decimal.digits n ++ cs) := by
  obtain ⟨c, ds, hds⟩ := List.exists_cons_of_ne_nil (Decimal.digits_ne_nil n)
  have hc : c.isDigit = true := Decimal.isDigit_of_mem_digits (hds ▸ List.mem_cons_self)
  rw [hds, List.cons_append, number]
  · rintro rest heq
    rw [(List.cons.inj heq).1] at hc
    exact absurd hc (by decide)
  · rintro rest heq
    rw [(List.cons.inj heq).1] at hc
    exact absurd hc (by decide)

/-- **A value** that is written is read back. -/
theorem number_text (v : Number) : number v.text = some v := by
  cases v with
  | int n =>
    cases n with
    | ofNat n =>
      have h := number_digits n []
      rw [List.append_nil, unsigned_digits] at h
      exact h
    | negSucc n =>
      show unsigned true (Decimal.digits (n + 1)) = _
      rw [unsigned_digits]
      rfl
  | float x =>
    match x with
    | .nan => decide
    | .infinity false => decide
    | .infinity true => decide
    | .finite ⟨false, whole, tail, h⟩ =>
      exact (number_digits whole tail).trans (unsigned_numeral ⟨false, whole, tail, h⟩)
    | .finite ⟨true, whole, tail, h⟩ => exact unsigned_numeral ⟨true, whole, tail, h⟩

/-- What follows no blank is not skipped. -/
theorem skip_eq_self {cs : List Char} (h : ∀ c ∈ cs.head?, isBlank c = false) : skip cs = cs := by
  cases cs with
  | nil => rfl
  | cons c cs =>
    have hc : isBlank c = false := h c rfl
    simp [skip, hc]

theorem skip_text (v : Number) : skip v.text = v.text :=
  skip_eq_self fun _ hc => (plain_of_mem_text (List.mem_of_mem_head? hc)).1

/-- The value of a sample without a time. -/
theorem sampleValue_text (name : List Char) (labels : List (List Char × List Char)) (v : Number) :
    sampleValue name labels (' ' :: v.text) = some ⟨name, labels, v, none⟩ := by
  have hskip : skip (' ' :: v.text) = v.text := skip_text v
  have htake : v.text.takeWhile (fun c => !isBlank c) = v.text :=
    List.takeWhile_eq_self_iff.mpr fun c hc => by rw [(plain_of_mem_text hc).1]; rfl
  have hnil : skip [] = [] := rfl
  simp [sampleValue, hskip, htake, number_text, hnil]

/-- A word that begins with an underscore is no value. -/
theorem sampleValue_underscore (name : List Char) (labels : List (List Char × List Char))
    (cs : List Char) : sampleValue name labels ('_' :: cs) = none := by
  have hskip : skip ('_' :: cs) = '_' :: cs := rfl
  have hblank : isBlank '_' = false := by decide
  have hdigit : Char.isDigit '_' = false := by decide
  have hlower : Char.toLower '_' = '_' := by decide
  have hword : ∀ ds, word false ('_' :: ds) = none := by
    intro ds
    simp [word, hlower]
  simp [sampleValue, hskip, hblank, number, unsigned, hdigit, hword]

/-! ### Reading samples -/

theorem not_isNameChar_of_head {name : List Char} (hname : ValidName name) {cs : List Char}
    (hcs : ∀ c ∈ cs.head?, isNameChar c = false) :
    (name ++ cs).takeWhile isNameChar = name := by
  rw [List.takeWhile_append_of_pos hname.2]
  cases cs with
  | nil => simp
  | cons c cs =>
    have hc : isNameChar c = false := hcs c rfl
    simp [hc]

theorem isBlank_of_isNameStart {c : Char} (h : isNameStart c = true) : isBlank c = false := by
  rw [isBlank, decide_eq_false_iff_not]
  rintro (rfl | rfl)
  · exact absurd h (by decide)
  · exact absurd h (by decide)

/-- A line that begins with a name, up to what follows the name. -/
theorem sample_name {name : List Char} (hname : ValidName name) {cs : List Char}
    (hcs : ∀ c ∈ cs.head?, isNameChar c = false) : sample (name ++ cs) =
      match skip cs with
      | '{' :: rest => (readLabels [] .start rest).bind fun x => sampleValue name x.1 x.2
      | rest => sampleValue name [] rest := by
  have htake := not_isNameChar_of_head hname hcs
  obtain ⟨c, hc, hstart⟩ := hname.1
  have hskip : skip (name ++ cs) = name ++ cs := by
    refine skip_eq_self fun d hd => ?_
    cases name with
    | nil => exact absurd hc (by simp)
    | cons e name =>
      obtain rfl : e = c := Option.mem_some.mp hc
      obtain rfl : e = d := Option.mem_some.mp hd
      exact isBlank_of_isNameStart hstart
  have hhead : name.head?.any isNameStart = true := by
    rw [Option.any_eq_true]
    exact ⟨c, hc, hstart⟩
  rw [sample, hskip, htake, List.drop_left, if_pos hhead]

/-- **A sample** that is written is read back. -/
theorem sample_text {name : List Char} (hname : ValidName name)
    {labels : List (List Char × List Char)} (hlabels : ∀ label ∈ labels, ValidLabel label.1)
    (v : Number) :
    sample (name ++ (block labels ++ ' ' :: v.text)) = some ⟨name, labels, v, none⟩ := by
  by_cases hnil : labels = []
  · subst hnil
    have hskip : skip (' ' :: v.text) = v.text := skip_text v
    have hvalue := sampleValue_text name [] v
    rw [sampleValue, hskip] at hvalue
    rw [block, if_pos rfl, List.nil_append, sample_name hname (by simp; decide), hskip]
    split
    · rename_i rest heq
      have hbrace : Plain '{' := plain_of_mem_text (heq ▸ List.mem_cons_self)
      exact absurd hbrace (by decide)
    · rw [sampleValue, skip_text]
      exact hvalue
  · rw [block, if_neg hnil, List.cons_append, sample_name hname (by simp; decide)]
    show ((readLabels [] .start _).bind _) = _
    rw [List.append_assoc, List.singleton_append, readLabels_pairs hnil hlabels, Option.bind_some,
      sampleValue_text, List.nil_append]

/-- **A name** does not go on behind the labels. -/
theorem sample_suffix {name : List Char} (hname : ValidName name)
    {labels : List (List Char × List Char)} (hnil : labels ≠ [])
    (hlabels : ∀ label ∈ labels, ValidLabel label.1) (cs : List Char) :
    sample (name ++ (block labels ++ '_' :: cs)) = none := by
  rw [block, if_neg hnil, List.cons_append, sample_name hname (by simp; decide)]
  show ((readLabels [] .start _).bind _) = _
  rw [List.append_assoc, List.singleton_append, readLabels_pairs hnil hlabels, Option.bind_some,
    sampleValue_underscore]

/-- What names a series says its name and its labels. -/
theorem series_injective {name name' : List Char} (hname : ValidName name)
    (hname' : ValidName name') {labels labels' : List (List Char × List Char)}
    (hlabels : ∀ label ∈ labels, ValidLabel label.1)
    (hlabels' : ∀ label ∈ labels', ValidLabel label.1)
    (h : name ++ block labels = name' ++ block labels') : name = name' ∧ labels = labels' := by
  have hread := sample_text hname hlabels (.int 0)
  rw [← List.append_assoc, h, List.append_assoc, sample_text hname' hlabels'] at hread
  simp only [Option.some.injEq, Sample.mk.injEq] at hread
  exact ⟨hread.1.symm, hread.2.1.symm⟩

/-! ### Reading lines -/

theorem lf_notMem_escape (value : List Char) : '\n' ∉ escape value := by
  intro h
  obtain ⟨c, -, hc⟩ := List.mem_flatMap.mp h
  unfold escapeChar at hc
  split_ifs at hc with h₁ h₂ h₃
  · exact absurd hc (by decide)
  · exact absurd hc (by decide)
  · exact absurd hc (by decide)
  · exact h₂ (List.mem_singleton.mp hc).symm

theorem notMem_intercalate {c : Char} {sep : List Char} (hsep : c ∉ sep) {ls : List (List Char)}
    (h : ∀ l ∈ ls, c ∉ l) : c ∉ sep.intercalate ls := by
  induction ls with
  | nil => exact List.not_mem_nil
  | cons l ls ih =>
    obtain ⟨hl, hls⟩ := List.forall_mem_cons.mp h
    by_cases hnil : ls = []
    · subst hnil
      rw [List.intercalate_singleton]
      exact hl
    · rw [List.intercalate_cons_of_ne_nil hnil, List.mem_append, List.mem_append, not_or, not_or]
      exact ⟨⟨hl, hsep⟩, ih hls⟩

theorem lf_notMem_block {labels : List (List Char × List Char)}
    (hlabels : ∀ label ∈ labels, ValidLabel label.1) : '\n' ∉ block labels := by
  have hpair : ∀ label ∈ labels, '\n' ∉ pair label := by
    intro label hmem h
    have hname : '\n' ∉ label.1 := fun hn => absurd ((hlabels label hmem).2 _ hn) (by decide)
    simp [pair, hname, lf_notMem_escape] at h
  unfold block
  split
  · exact List.not_mem_nil
  · have hpairs : '\n' ∉ [','].intercalate (labels.map pair) :=
      notMem_intercalate (by decide) (List.forall_mem_map.mpr hpair)
    simp [hpairs]

/-- A line that begins with a name is neither blank nor a comment. -/
theorem not_ignored {name : List Char} (hname : ValidName name) (cs : List Char) :
    ignored (name ++ cs) = false := by
  obtain ⟨⟨c, hc, hstart⟩, -⟩ := hname
  cases name with
  | nil => exact absurd hc (by simp)
  | cons e name =>
    obtain rfl : e = c := Option.mem_some.mp hc
    have hcomment : e ≠ '#' := by
      rintro rfl
      exact absurd hstart (by decide)
    rw [ignored, List.cons_append, skip_eq_self fun d hd => ?_]
    · simp [hcomment]
    · rw [← Option.mem_some.mp hd]
      exact isBlank_of_isNameStart hstart

/-- **Lines** that are written, each with its line feed, are read one by one. -/
theorem parse_lines {lines : List (List Char)} (hlf : ∀ l ∈ lines, '\n' ∉ l)
    (hne : ∀ l ∈ lines, ignored l = false) :
    parse (['\n'].intercalate lines ++ ['\n']) = lines.mapM sample := by
  by_cases hnil : lines = []
  · subst hnil
    rfl
  · have hjoin : ['\n'].intercalate (lines ++ [[]]) = ['\n'].intercalate lines ++ ['\n'] := by
      clear hlf hne
      induction lines with
      | nil => exact absurd rfl hnil
      | cons l lines ih =>
        by_cases hlast : lines = []
        · subst hlast
          simp
        · rw [List.cons_append, List.intercalate_cons_of_ne_nil (by simp),
            List.intercalate_cons_of_ne_nil hlast, ih hlast]
          simp only [List.append_assoc]
    have hsplit : (['\n'].intercalate lines ++ ['\n']).splitOn '\n' = lines ++ [[]] := by
      rw [← hjoin]
      refine List.splitOn_intercalate '\n' (fun l hl => ?_) (by simp)
      rcases List.mem_append.mp hl with hl | hl
      · exact hlf l hl
      · rw [List.mem_singleton.mp hl]
        exact List.not_mem_nil
    have hkept : (lines ++ [[]]).filter (fun l => !ignored l) = lines := by
      rw [List.filter_append, List.filter_eq_self.mpr fun l hl => by rw [hne l hl]; rfl]
      simp [ignored, skip]
    rw [parse, hsplit, hkept]

end Exposition
