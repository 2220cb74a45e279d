import Istos.Codec.Detect
import Istos.Codec.Equiv.Json
import Mathlib.Algebra.Order.BigOperators.Group.List

/-!
# Strings that are read as JSON

A string that was stored as its bytes is never read back as itself.  Where its bytes are read as
UTF-8, the string that they yield has lost its quotes.  Where they are read as UTF-16 or UTF-32,
half of the bytes of every ASCII character are zero, while a zero in the string that is read costs
the six characters of its escape: the bytes of the string would need more zeros than they have.
Both are instances of one bound (`Price.worth_le_cost`), which follows the reader of characters.

* `loadb_dumps`: what `dumps` writes is read from its bytes.
* `loadb_encode_ne`: the bytes of a string are not read as this string.
-/

namespace Json

theorem forall_mem_ite {α : Type} {c : Prop} [Decidable c] {a b : Option α} {Q : α → Prop}
    (ha : c → ∀ x ∈ a, Q x) (hb : ¬ c → ∀ x ∈ b, Q x) : ∀ x ∈ (if c then a else b), Q x := by
  split
  · rename_i hc
    exact ha hc
  · rename_i hc
    exact hb hc

/-! ### What the characters of a string cost -/

/-- A price for the characters of a text, and for those of the strings that are read from it. -/
structure Price where
  text : Char → ℕ
  read : Char → ℕ
  ascii : ∀ c : Char, c.toNat < 0x80 → 1 ≤ text c
  /-- a character that stands for itself -/
  raw : ∀ c : Char, 0x20 ≤ c.toNat → read c ≤ text c
  /-- what a letter after a backslash stands for -/
  letter : ∀ c : Char, c ≠ Char.ofNat 0 → read c ≤ 2
  /-- what four digits stand for -/
  any : ∀ c, read c ≤ 6

namespace Price

variable (p : Price)

/-- The price of a text. -/
def cost (cs : List Char) : ℕ := (cs.map p.text).sum

/-- The price of what was read. -/
def worth (cs : List Char) : ℕ := (cs.map p.read).sum

/-- The price of a token: that of a string, with its quotes. -/
def gain : Token → ℕ
  | .str s => p.worth s.toList + 2
  | _ => 0

/-- The price of some tokens. -/
def gains (ts : List Token) : ℕ := (ts.map p.gain).sum

/-- What the reader has paid for already. -/
def paid : Scan → ℕ
  | .word _ t => p.gain t
  | .string read => p.worth read + 1
  | .escape read => p.worth read + 2
  | .unicode read _ due _ => p.worth read + (7 - due)
  | .surrogate read _ => p.worth read + 7
  | .surrogateEscape read _ => p.worth read + 8
  | _ => 0

theorem worth_reverse (cs : List Char) : p.worth cs.reverse = p.worth cs := by
  rw [worth, List.map_reverse, List.sum_reverse]
  rfl

/-- What a first character yields costs no more than this character. -/
theorem enter_le {c : Char} : ∀ x ∈ enter c, p.gains x.1 = 0 ∧ p.paid x.2 ≤ p.text c := by
  have hfree : ∀ (ts : List Token) (st : Scan), p.gains ts = 0 → p.paid st = 0 →
      ∀ x ∈ some (ts, st), p.gains x.1 = 0 ∧ p.paid x.2 ≤ p.text c := by
    rintro ts st hts hst _ ⟨⟩
    exact ⟨hts, hst.trans_le (Nat.zero_le _)⟩
  -- a quote is the only character here that has to be paid for
  have hquote : c = '"' → ∀ x ∈ some (([] : List Token), Scan.string []),
      p.gains x.1 = 0 ∧ p.paid x.2 ≤ p.text c := by
    rintro rfl _ ⟨⟩
    exact ⟨rfl, p.ascii '"' (by decide)⟩
  unfold enter
  repeat' refine forall_mem_ite ?_ fun _ => ?_
  all_goals first
    | exact hquote
    | exact fun _ => hfree _ _ rfl rfl
    | exact fun x hx => absurd hx (Option.not_mem_none x)

/-- What four digits of an escape yield has been paid for. -/
theorem codeUnit_le {read : List Char} {high : Option ℕ} {unit : ℕ} {st : Scan}
    (h : codeUnit read high unit = some st) : p.paid st ≤ p.worth read + 7 := by
  have hchar : ∀ c : Char, p.paid (.string (c :: read)) ≤ p.worth read + 7 := by
    intro c
    have hc := p.any c
    show p.read c + p.worth read + 1 ≤ p.worth read + 7
    omega
  cases high with
  | none =>
    simp only [codeUnit] at h
    split_ifs at h
    · obtain rfl := Option.some.inj h
      exact le_refl _
    · obtain rfl := Option.some.inj h
      exact hchar _
  | some x =>
    simp only [codeUnit] at h
    split_ifs at h
    obtain rfl := Option.some.inj h
    exact hchar _

end Price

theorem ascii_of_value? {c : Char} {d : ℕ} (h : Hex.value? c = some d) : c.toNat < 0x80 := by
  unfold Hex.value? at h
  split_ifs at h <;> omega

namespace Price

variable (p : Price)

theorem gain_fractional {negative : Bool} {whole : ℕ} {tail : List Char} {t : Token}
    (h : fractional negative whole tail = some t) : p.gain t = 0 := by
  unfold fractional at h
  split_ifs at h
  obtain rfl := Option.some.inj h
  rfl

/-- A character after which nothing has been paid for. -/
theorem free_le (st : Scan) (c : Char) {st' : Scan} (h : p.paid st' = 0) :
    ∀ x ∈ some (([] : List Token), st'), p.gains x.1 + p.paid x.2 ≤ p.paid st + p.text c := by
  rintro _ ⟨⟩
  show 0 + p.paid st' ≤ _
  omega

/-- The character after a backslash. -/
theorem escape_le (read : List Char) (c : Char) :
    ∀ x ∈ scan (.escape read) c, p.gains x.1 + p.paid x.2 ≤ p.paid (.escape read) + p.text c := by
  have hletter : c.toNat < 0x80 → ∀ d : Char, d ≠ Char.ofNat 0 →
      ∀ x ∈ some (([] : List Token), Scan.string (d :: read)),
        p.gains x.1 + p.paid x.2 ≤ p.paid (.escape read) + p.text c := by
    rintro hc d hd _ ⟨⟩
    have hone := p.ascii c hc
    have htwo := p.letter d hd
    show 0 + (p.read d + p.worth read + 1) ≤ p.worth read + 2 + p.text c
    omega
  unfold scan
  refine forall_mem_ite ?_ fun _ => forall_mem_ite ?_ fun _ => forall_mem_ite ?_ fun _ =>
    forall_mem_ite ?_ fun _ => forall_mem_ite ?_ fun _ => forall_mem_ite ?_ fun _ =>
    forall_mem_ite ?_ fun _ => ?_
  · rintro (rfl | rfl | rfl)
    all_goals exact hletter (by decide) _ (by decide)
  · rintro rfl
    exact hletter (by decide) _ (by decide)
  · rintro rfl
    exact hletter (by decide) _ (by decide)
  · rintro rfl
    exact hletter (by decide) _ (by decide)
  · rintro rfl
    exact hletter (by decide) _ (by decide)
  · rintro rfl
    exact hletter (by decide) _ (by decide)
  · rintro rfl _ ⟨⟩
    have hone := p.ascii 'u' (by decide)
    show 0 + (p.worth read + 3) ≤ p.worth read + 2 + p.text 'u'
    omega
  · exact fun x hx => absurd hx (Option.not_mem_none x)

/-- **One character** costs at least what it adds. -/
theorem scan_le (st : Scan) (c : Char) :
    ∀ x ∈ scan st c, p.gains x.1 + p.paid x.2 ≤ p.paid st + p.text c := by
  have hnone : ∀ x ∈ (none : Option (List Token × Scan)),
      p.gains x.1 + p.paid x.2 ≤ p.paid st + p.text c :=
    fun x hx => absurd hx (Option.not_mem_none x)
  -- a token that is no string, and then a first character
  have henter : ∀ t : Token, p.gain t = 0 →
      ∀ x ∈ (enter c).map (fun x => (t :: x.1, x.2)),
        p.gains x.1 + p.paid x.2 ≤ p.paid st + p.text c := by
    intro t ht x hx
    obtain ⟨y, hy, rfl⟩ := Option.map_eq_some_iff.mp hx
    obtain ⟨hgains, hpaid⟩ := p.enter_le y hy
    have hcons : p.gains (t :: y.1) = p.gain t + p.gains y.1 := List.sum_cons
    show p.gains (t :: y.1) + p.paid y.2 ≤ _
    omega
  cases st with
  | start =>
    intro x hx
    obtain ⟨hgains, hpaid⟩ := p.enter_le x hx
    omega
  | word rest t =>
    cases rest with
    | nil => exact hnone
    | cons d rest =>
      cases rest with
      | nil =>
        refine forall_mem_ite ?_ fun _ => hnone
        rintro - _ ⟨⟩
        show p.gain t + 0 + 0 ≤ p.gain t + p.text c
        omega
      | cons d' rest =>
        refine forall_mem_ite ?_ fun _ => hnone
        rintro - _ ⟨⟩
        show 0 + p.gain t ≤ p.gain t + p.text c
        omega
  | minus =>
    exact forall_mem_ite (fun _ => p.free_le _ c rfl) fun _ =>
      forall_mem_ite (fun _ => p.free_le _ c rfl) fun _ => hnone
  | number negative zero value =>
    refine forall_mem_ite (fun _ => ?_) fun _ => ?_
    · exact forall_mem_ite (fun _ => hnone) fun _ => p.free_le _ c rfl
    cases Tail.step .start c with
    | none => exact henter (signed negative value) rfl
    | some place => exact p.free_le _ c rfl
  | tail negative whole place read =>
    simp only [scan]
    cases Tail.step place c with
    | none =>
      intro x hx
      obtain ⟨t, ht, hx⟩ := Option.bind_eq_some_iff.mp hx
      exact henter t (p.gain_fractional ht) x hx
    | some place' => exact p.free_le _ c rfl
  | string read =>
    refine forall_mem_ite ?_ fun _ => forall_mem_ite ?_ fun _ =>
      forall_mem_ite (fun _ => hnone) ?_
    · rintro rfl _ ⟨⟩
      have hquote := p.ascii '"' (by decide)
      show p.worth (String.ofList read.reverse).toList + 2 + 0 + 0 ≤ p.worth read + 1 + p.text '"'
      rw [String.toList_ofList, p.worth_reverse]
      omega
    · rintro rfl _ ⟨⟩
      have hslash := p.ascii '\\' (by decide)
      show 0 + (p.worth read + 2) ≤ p.worth read + 1 + p.text '\\'
      omega
    · rintro hc _ ⟨⟩
      have hraw := p.raw c (Nat.le_of_not_lt hc)
      show 0 + (p.read c + p.worth read + 1) ≤ p.worth read + 1 + p.text c
      omega
  | escape read => exact p.escape_le read c
  | unicode read high due value =>
    simp only [scan]
    cases hd : Hex.value? c with
    | none => exact hnone
    | some d =>
      have hdigit := p.ascii c (ascii_of_value? hd)
      refine forall_mem_ite (fun hdue x hx => ?_) fun _ => ?_
      · obtain ⟨st, hst, rfl⟩ := Option.map_eq_some_iff.mp hx
        have hunit := p.codeUnit_le hst
        show 0 + p.paid st ≤ p.worth read + (7 - due) + p.text c
        omega
      · rintro _ ⟨⟩
        show 0 + (p.worth read + (7 - (due - 1))) ≤ p.worth read + (7 - due) + p.text c
        omega
  | surrogate read high =>
    refine forall_mem_ite ?_ fun _ => hnone
    rintro rfl _ ⟨⟩
    have hslash := p.ascii '\\' (by decide)
    show 0 + (p.worth read + 8) ≤ p.worth read + 7 + p.text '\\'
    omega
  | surrogateEscape read high =>
    refine forall_mem_ite ?_ fun _ => hnone
    rintro - _ ⟨⟩
    show 0 + (p.worth read + (7 - 4)) ≤ p.worth read + 8 + p.text c
    omega

/-- **The strings of a text** cost no more than the text. -/
theorem gains_le {st : Scan} {cs : List Char} {ts : List Token} (h : scanAll st cs = some ts) :
    p.gains ts ≤ p.paid st + p.cost cs := by
  induction cs generalizing st ts with
  | nil =>
    cases st with
    | start =>
      obtain rfl := Option.some.inj h
      exact Nat.zero_le _
    | number negative zero value =>
      obtain rfl := Option.some.inj h
      exact Nat.zero_le _
    | tail negative whole place read =>
      obtain ⟨t, ht, rfl⟩ := Option.map_eq_some_iff.mp h
      rw [gains, List.map_singleton, List.sum_singleton, p.gain_fractional ht]
      exact Nat.zero_le _
    | _ => cases h
  | cons c cs ih =>
    rw [scanAll_cons] at h
    cases hscan : scan st c with
    | none =>
      rw [hscan] at h
      cases h
    | some x =>
      rw [hscan] at h
      obtain ⟨rest, hrest, rfl⟩ := Option.map_eq_some_iff.mp h
      have hnow := p.scan_le st c x hscan
      have hlater := ih hrest
      have hcost : p.cost (c :: cs) = p.text c + p.cost cs := List.sum_cons
      rw [gains, List.map_append, List.sum_append]
      show p.gains x.1 + p.gains rest ≤ _
      omega

end Price

/-! ### A text that is read as a string -/

section

variable [Rounding]

/-- The value at the end is no string: the reader is inside an array or an object, or has read
another value. -/
def Bound : List Frame × Due → Prop
  | (_ :: _, _) => True
  | ([], .value) => False
  | ([], .next (.str _)) => False
  | ([], _) => True

/-- A value begins inside what is open. -/
theorem frames_of_begins {fs : List Frame} {t : Token} {st : List Frame × Due}
    (h : begins fs t = some st) : st.1 = fs := by
  cases t with
  | closeArr => cases h
  | closeObj => cases h
  | comma => cases h
  | colon => cases h
  | _ =>
    obtain rfl := Option.some.inj h
    rfl

omit [Rounding] in
theorem bound_of_open {st : List Frame × Due} (h : st.1 ≠ []) : Bound st := by
  obtain ⟨fs, due⟩ := st
  cases fs with
  | nil => exact absurd rfl h
  | cons f fs => trivial

theorem Bound.parse {st st' : List Frame × Due} {t : Token} (hst : Bound st)
    (h : parse st t = some st') : Bound st' := by
  have hbegins : ∀ (f : Frame) (fs : List Frame) (t : Token), begins (f :: fs) t = some st' →
      Bound st' := by
    intro f fs t h
    apply bound_of_open
    rw [frames_of_begins h]
    exact List.cons_ne_nil f fs
  have hclosed : ∀ (fs : List Frame) (j : Json), (∀ s, j ≠ .str s) → Bound (fs, .next j) := by
    intro fs j hj
    cases fs with
    | cons f fs => trivial
    | nil =>
      cases j with
      | str s => exact absurd rfl (hj s)
      | _ => trivial
  obtain ⟨fs, due⟩ := st
  cases due with
  | value =>
    cases fs with
    | nil => exact absurd hst id
    | cons f fs => exact hbegins f fs t h
  | element =>
    by_cases ht : t = .closeArr
    · subst ht
      obtain rfl := Option.some.inj h
      exact hclosed fs _ fun s => Json.noConfusion
    · have helement : Json.parse (fs, .element) t = begins (.arr [] :: fs) t := by
        cases t with
        | closeArr => exact absurd rfl ht
        | _ => rfl
      exact hbegins (.arr []) fs t (helement.symm.trans h)
  | key before first =>
    cases t with
    | str k =>
      obtain rfl := Option.some.inj h
      cases fs <;> trivial
    | closeObj =>
      cases first with
      | true =>
        obtain rfl := Option.some.inj h
        exact hclosed fs _ fun s => Json.noConfusion
      | false => cases h
    | _ => cases first <;> cases h
  | colon before k =>
    cases t with
    | colon =>
      obtain rfl := Option.some.inj h
      trivial
    | _ => cases h
  | next j =>
    cases fs with
    | nil => cases h
    | cons f fs =>
      cases f <;> cases t <;> cases h
      case next.cons.arr.closeArr.refl => exact hclosed fs _ fun s => Json.noConfusion
      case next.cons.obj.closeObj.refl => exact hclosed fs _ fun s => Json.noConfusion
      all_goals cases fs <;> trivial

theorem Bound.parseAll {st : List Frame × Due} {ts : List Token} {j : Json} (hst : Bound st)
    (h : parseAll st ts = some j) (s : String) : j ≠ .str s := by
  induction ts generalizing st with
  | nil =>
    rintro rfl
    obtain ⟨fs, due⟩ := st
    cases fs with
    | cons f fs => cases h
    | nil =>
      cases due with
      | next j =>
        obtain rfl := Option.some.inj h
        exact hst
      | _ => cases h
  | cons t ts ih =>
    obtain ⟨st', hparse, hrest⟩ := Option.bind_eq_some_iff.mp h
    exact ih (hst.parse hparse) hrest

/-- Only the token of a string is read as a string. -/
theorem eq_singleton_of_parseAll {ts : List Token} {s : String}
    (h : parseAll ([], .value) ts = some (.str s)) : ts = [.str s] := by
  cases ts with
  | nil => cases h
  | cons t ts =>
    obtain ⟨st, hbegins, hrest⟩ := Option.bind_eq_some_iff.mp h
    have hbound : Bound st → t :: ts = [.str s] := fun hst =>
      absurd rfl (hst.parseAll hrest s)
    cases t with
    | str s' =>
      obtain rfl := Option.some.inj hbegins
      cases ts with
      | nil =>
        obtain rfl := Json.str.inj (Option.some.inj hrest)
        rfl
      | cons t ts => cases hrest
    | closeArr => cases hbegins
    | closeObj => cases hbegins
    | comma => cases hbegins
    | colon => cases hbegins
    | _ =>
      obtain rfl := Option.some.inj hbegins
      exact hbound trivial

/-- **A text that is read as a string** pays for the string and its quotes. -/
theorem Price.worth_le_cost (p : Price) {text s : String} (h : loads text = some (.str s)) :
    p.worth s.toList + 2 ≤ p.cost text.toList := by
  obtain ⟨ts, hscan, hparse⟩ := Option.bind_eq_some_iff.mp h
  obtain rfl := eq_singleton_of_parseAll hparse
  have hgains := p.gains_le hscan
  rw [gains, List.map_singleton, List.sum_singleton] at hgains
  simpa [gain, paid] using hgains

/-- The price of one for each character. -/
def Price.length : Price where
  text := fun _ => 1
  read := fun _ => 1
  ascii := fun _ _ => le_refl 1
  raw := fun _ _ => le_refl 1
  letter := fun _ _ => by decide
  any := fun _ => by decide

omit [Rounding] in
theorem Price.sum_length (cs : List Char) : (cs.map fun _ => 1).sum = cs.length := by
  induction cs with
  | nil => rfl
  | cons c cs ih => rw [List.map_cons, List.sum_cons, ih, List.length_cons, Nat.add_comm]

/-- A text that is read as a string is longer than the string. -/
theorem length_lt_of_loads {text s : String} (h : loads text = some (.str s)) :
    s.toList.length + 2 ≤ text.toList.length := by
  have hprice := Price.length.worth_le_cost h
  have hworth : Price.length.worth s.toList = s.toList.length := Price.sum_length _
  have hcost : Price.length.cost text.toList = text.toList.length := Price.sum_length _
  omega

omit [Rounding] in
/-- A text is longer than each string in it. -/
theorem length_lt_of_mem {cs : List Char} {ts : List Token} (h : scanAll .start cs = some ts)
    {s : String} (hs : .str s ∈ ts) : s.toList.length + 2 ≤ cs.length := by
  have hgains := Price.length.gains_le h
  have hmem : Price.length.gain (.str s) ≤ Price.length.gains ts :=
    List.le_sum_of_mem (List.mem_map_of_mem hs)
  have hworth : Price.length.gain (.str s) = s.toList.length + 2 :=
    congrArg (· + 2) (Price.sum_length s.toList)
  have hcost : Price.length.cost cs = cs.length := Price.sum_length _
  have hpaid : Price.length.paid .start = 0 := rfl
  omega

/-- A character of one ASCII byte. -/
def isAscii (c : Char) : Bool := decide (c.toNat < 0x80)

/-- Every zero in a string that was read is an escape of six ASCII characters. -/
theorem zeros_lt_of_loads {text s : String} (h : loads text = some (.str s)) :
    6 * s.toList.countP (fun c => c = Char.ofNat 0) + 2 ≤ text.toList.countP isAscii := by
  let p : Price :=
    { text := fun c => if isAscii c then 1 else 0
      read := fun c => if c = Char.ofNat 0 then 6 else 0
      ascii := fun c hc => by
        have hascii : isAscii c = true := decide_eq_true hc
        rw [if_pos hascii]
      raw := fun c hc => by
        rw [if_neg]
        · exact Nat.zero_le _
        · rintro rfl
          exact absurd hc (by decide)
      letter := fun c hc => by
        rw [if_neg hc]
        exact Nat.zero_le _
      any := fun c => by
        split
        · exact le_refl 6
        · exact Nat.zero_le _ }
  have hcost : ∀ cs : List Char, p.cost cs = cs.countP isAscii := by
    intro cs
    induction cs with
    | nil => rfl
    | cons c cs ih =>
      have hcons : p.cost (c :: cs) = (if isAscii c then 1 else 0) + p.cost cs := List.sum_cons
      rw [hcons, ih, List.countP_cons, Nat.add_comm]
  have hworth : ∀ cs : List Char, p.worth cs = 6 * cs.countP (fun c => c = Char.ofNat 0) := by
    intro cs
    induction cs with
    | nil => rfl
    | cons c cs ih =>
      have hcons : p.worth (c :: cs) = (if c = Char.ofNat 0 then 6 else 0) + p.worth cs :=
        List.sum_cons
      rw [hcons, ih, List.countP_cons]
      by_cases hc : c = Char.ofNat 0
      · simp only [hc, if_true, decide_true]
        omega
      · simp [hc]
  have hprice := p.worth_le_cost h
  rw [hworth, hcost] at hprice
  exact hprice

end

/-! ### The bytes of a string -/

/-- The zero bytes of a string are its zero characters. -/
theorem count_zero_encodeChar (c : Char) :
    (Utf8.encodeChar c).count 0 = if c = Char.ofNat 0 then 1 else 0 := by
  have hbyte : ∀ n : ℕ, 0 < n → n < 256 → UInt8.ofNat n ≠ 0 := by
    intro n hpos hlt hzero
    have hn := Utf8.toNat_byte hlt
    rw [hzero] at hn
    exact absurd hn.symm (by show n ≠ 0; omega)
  have hlt : c.toNat < 0x110000 := by
    rcases c.valid with h | ⟨-, h⟩
    · exact h.trans (by decide)
    · exact h
  unfold Utf8.encodeChar
  by_cases hc : c = Char.ofNat 0
  · subst hc
    rfl
  rw [if_neg hc]
  have hpos : 0 < c.toNat := by
    refine Nat.pos_of_ne_zero fun hzero => hc ?_
    rw [← Char.ofNat_toNat c, hzero]
  split_ifs with h₁ h₂ h₃
  · rw [List.count_eq_zero, List.mem_singleton]
    exact (hbyte _ hpos (by omega)).symm
  · rw [List.count_eq_zero]
    simp only [List.mem_cons, List.not_mem_nil, or_false, not_or]
    exact ⟨(hbyte _ (by omega) (by omega)).symm, (hbyte _ (by omega) (by omega)).symm⟩
  · rw [List.count_eq_zero]
    simp only [List.mem_cons, List.not_mem_nil, or_false, not_or]
    exact ⟨(hbyte _ (by omega) (by omega)).symm, (hbyte _ (by omega) (by omega)).symm,
      (hbyte _ (by omega) (by omega)).symm⟩
  · rw [List.count_eq_zero]
    simp only [List.mem_cons, List.not_mem_nil, or_false, not_or]
    exact ⟨(hbyte _ (by omega) (by omega)).symm, (hbyte _ (by omega) (by omega)).symm,
      (hbyte _ (by omega) (by omega)).symm, (hbyte _ (by omega) (by omega)).symm⟩

theorem count_zero_encode (s : String) :
    (Utf8.encode s).count 0 = s.toList.countP (fun c => c = Char.ofNat 0) := by
  unfold Utf8.encode
  induction s.toList with
  | nil => rfl
  | cons c cs ih =>
    rw [List.flatMap_cons, List.count_append, ih, count_zero_encodeChar, List.countP_cons,
      Nat.add_comm]
    by_cases hc : c = Char.ofNat 0
    · simp [hc]
    · simp [hc]

end Json

namespace Encoding

/-- A character is ASCII as its code point is. -/
theorem isAscii_ofNat {n : ℕ} (h : n.isValidChar) :
    Json.isAscii (Char.ofNat n) = decide (n < 0x80) := by
  have hnat : (Char.ofNat n).toNat = n := by
    rw [Char.ofNat, dif_pos h]
    rfl
  rw [Json.isAscii, hnat]

/-- An ASCII character has a unit of its own. -/
theorem countP_join16 {us : List ℕ} (hus : ∀ u ∈ us, u < 65536) {cs : List Char}
    (h : join16 us = some cs) : cs.countP Json.isAscii ≤ us.countP (fun u => u < 0x80) := by
  induction us using join16.induct generalizing cs with
  | case1 =>
    obtain rfl := Option.some.inj h
    exact le_refl 0
  | case2 u hu v vs hv ih =>
    rw [join16, if_pos hu] at h
    simp only [if_pos hv] at h
    obtain ⟨cs', hcs', rfl⟩ := Option.map_eq_some_iff.mp h
    have hrest := ih (fun x hx => hus x (by simp [hx])) hcs'
    have hvalid : (0x10000 + (u - 0xD800) * 1024 + (v - 0xDC00)).isValidChar := by
      right
      omega
    have hchar : ¬ Json.isAscii (Char.ofNat (0x10000 + (u - 0xD800) * 1024 + (v - 0xDC00))) := by
      rw [isAscii_ofNat hvalid, decide_eq_true_eq]
      omega
    rw [List.countP_cons_of_neg hchar]
    refine hrest.trans (List.Sublist.countP_le ?_)
    exact (List.sublist_cons_self v vs).trans (List.sublist_cons_self u (v :: vs))
  | case3 u hu v vs hv =>
    rw [join16, if_pos hu] at h
    simp only [if_neg hv] at h
    cases h
  | case4 u hu =>
    rw [join16, if_pos hu] at h
    cases h
  | case5 u us hu hlow =>
    unfold join16 at h
    rw [if_neg hu, if_pos hlow] at h
    cases h
  | case6 u us hu hlow ih =>
    unfold join16 at h
    rw [if_neg hu, if_neg hlow] at h
    obtain ⟨cs', hcs', rfl⟩ := Option.map_eq_some_iff.mp h
    have hrest := ih (fun x hx => hus x (List.mem_cons_of_mem u hx)) hcs'
    have hlt : u < 65536 := hus u List.mem_cons_self
    have hvalid : u.isValidChar := by
      by_cases hsmall : u < 0xD800
      · exact Or.inl hsmall
      · right
        omega
    rw [List.countP_cons, List.countP_cons, isAscii_ofNat hvalid]
    exact Nat.add_le_add_right hrest _

/-- The high byte of a small number is zero. -/
theorem high_zero (hi : UInt8) {n : ℕ} (h : hi.toNat * 256 ≤ n) :
    (if decide (n < 0x80) = true then 1 else 0) ≤ if (hi == 0) = true then 1 else 0 := by
  by_cases hn : n < 0x80
  · have hzero : hi = 0 := by
      apply UInt8.toNat_inj.mp
      show hi.toNat = 0
      omega
    rw [hzero, if_pos (decide_eq_true hn), if_pos (beq_self_eq_true _)]
  · rw [if_neg (by simpa using hn)]
    exact Nat.zero_le _

/-- An ASCII unit has a zero byte. -/
theorem countP_units16 {big : Bool} {data : Bytes} {us : List ℕ} (h : units16 big data = some us) :
    us.countP (fun u => u < 0x80) ≤ data.count 0 ∧ ∀ u ∈ us, u < 65536 := by
  induction data using units16.induct generalizing us with
  | case1 =>
    obtain rfl := Option.some.inj h
    exact ⟨le_refl 0, fun u hu => absurd hu List.not_mem_nil⟩
  | case2 b => cases h
  | case3 a b bs ih =>
    obtain ⟨us', hus', rfl⟩ := Option.map_eq_some_iff.mp h
    obtain ⟨hcount, hlt⟩ := ih hus'
    have ha := a.toNat_lt
    have hb := b.toNat_lt
    constructor
    · rw [List.countP_cons, List.count_cons, List.count_cons]
      cases big
      · have hhigh := high_zero b (Nat.le_add_right (b.toNat * 256) a.toNat)
        rw [if_neg Bool.false_ne_true]
        omega
      · have hhigh := high_zero a (Nat.le_add_right (a.toNat * 256) b.toNat)
        rw [if_pos rfl]
        omega
    · intro u hu
      rcases List.mem_cons.mp hu with rfl | hu
      · cases big
        · show b.toNat * 256 + a.toNat < 65536
          omega
        · show a.toNat * 256 + b.toNat < 65536
          omega
      · exact hlt u hu

/-- An ASCII character has a zero byte in UTF-32. -/
theorem countP_decode32 {big : Bool} {data : Bytes} {cs : List Char}
    (h : decode32 big data = some cs) : cs.countP Json.isAscii ≤ data.count 0 := by
  induction data using decode32.induct big generalizing cs with
  | case1 =>
    obtain rfl := Option.some.inj h
    exact le_refl 0
  | case2 a b c d bs hn ih =>
    rw [decode32, if_pos hn] at h
    obtain ⟨cs', hcs', rfl⟩ := Option.map_eq_some_iff.mp h
    have hrest := ih hcs'
    rw [List.countP_cons, isAscii_ofNat hn, List.count_cons, List.count_cons, List.count_cons,
      List.count_cons]
    cases big
    · have hword : d.toNat * 256 ≤ word32 false a b c d := by
        show d.toNat * 256 ≤ ((d.toNat * 256 + c.toNat) * 256 + b.toNat) * 256 + a.toNat
        omega
      have hhigh := high_zero d hword
      omega
    · have hword : a.toNat * 256 ≤ word32 true a b c d := by
        show a.toNat * 256 ≤ ((a.toNat * 256 + b.toNat) * 256 + c.toNat) * 256 + d.toNat
        omega
      have hhigh := high_zero a hword
      omega
  | case3 a b c d bs hn =>
    rw [decode32, if_neg hn] at h
    cases h
  | case4 data hnil hfour =>
    unfold decode32 at h
    split at h
    · exact absurd rfl hnil
    · exact absurd rfl (hfour _ _ _ _ _)
    · cases h

/-- What a text in UTF-16 or UTF-32 has of ASCII characters, its bytes have of zeros. -/
theorem countP_decode {data : Bytes} {e : Encoding} {cs : List Char}
    (he : (∃ big, e = utf16 big 0) ∨ ∃ big, e = utf32 big 0) (h : e.decode data = some cs) :
    cs.countP Json.isAscii ≤ data.count 0 := by
  rcases he with ⟨big, rfl⟩ | ⟨big, rfl⟩
  · obtain ⟨us, hus, hcs⟩ := Option.bind_eq_some_iff.mp h
    rw [List.drop_zero] at hus
    obtain ⟨hunits, hlt⟩ := countP_units16 hus
    exact (countP_join16 hlt hcs).trans hunits
  · rw [decode, List.drop_zero] at h
    exact countP_decode32 h

/-! ### Detection -/

/-- Without a mark, another encoding than UTF-8 shows in a zero byte. -/
theorem detectUnmarked_cases (data : Bytes) :
    detectUnmarked data = .utf8 0 ∨
      0 ∈ data ∧ ((∃ big, detectUnmarked data = utf16 big 0) ∨
        ∃ big, detectUnmarked data = utf32 big 0) := by
  unfold detectUnmarked
  split
  · rename_i b₀ b₁ b₂ b₃ rest
    split_ifs with h₀ h₁ h₂ h₃
    all_goals simp_all
  · rename_i b₀ b₁
    split_ifs with h₀ h₁
    all_goals simp_all
  · exact Or.inl rfl

/-- The bytes of a string carry no mark but that of UTF-8. -/
theorem detect_of_lt {data : Bytes} (h : ∀ b ∈ data, b < 0xF8) :
    (∃ rest, data = 0xEF :: 0xBB :: 0xBF :: rest ∧ detect data = .utf8 3) ∨
      detect data = detectUnmarked data := by
  unfold detect
  split
  · exact absurd (h 0xFE (by simp)) (by decide)
  · exact absurd (h 0xFF (by simp)) (by decide)
  · exact absurd (h 0xFE (by simp)) (by decide)
  · exact absurd (h 0xFF (by simp)) (by decide)
  · exact Or.inl ⟨_, rfl, rfl⟩
  · exact Or.inr rfl

end Encoding

namespace Json

/-! ### What is read from the bytes of a string -/

theorem lt_of_mem_encode {s : String} : ∀ b ∈ Utf8.encode s, b < 0xF8 := by
  have hbyte : ∀ n : ℕ, n < 0xF8 → UInt8.ofNat n < 0xF8 := by
    intro n hn
    show (UInt8.ofNat n).toNat < 0xF8
    rw [Utf8.toNat_byte (by omega)]
    exact hn
  intro b hb
  obtain ⟨c, -, hb⟩ := List.mem_flatMap.mp hb
  have hlt : c.toNat < 0x110000 := by
    rcases c.valid with h | ⟨-, h⟩
    · exact h.trans (by decide)
    · exact h
  unfold Utf8.encodeChar at hb
  split_ifs at hb
  all_goals
    simp only [List.mem_cons, List.not_mem_nil, or_false] at hb
  · exact hb ▸ hbyte _ (by omega)
  · rcases hb with rfl | rfl <;> exact hbyte _ (by omega)
  · rcases hb with rfl | rfl | rfl <;> exact hbyte _ (by omega)
  · rcases hb with rfl | rfl | rfl | rfl <;> exact hbyte _ (by omega)

/-- After a mark comes what follows the first character. -/
theorem decode_after_mark {s : String} {rest : Bytes}
    (h : Utf8.encode s = 0xEF :: 0xBB :: 0xBF :: rest) :
    ∃ c cs, s.toList = c :: cs ∧ Utf8.decode rest = some (String.ofList cs) := by
  unfold Utf8.encode at h
  cases hs : s.toList with
  | nil =>
    rw [hs] at h
    cases h
  | cons c cs =>
    refine ⟨c, cs, rfl, ?_⟩
    have hlt : c.toNat < 0x110000 := by
      rcases c.valid with h | ⟨-, h⟩
      · exact h.trans (by decide)
      · exact h
    -- only a code point of three bytes begins so
    have hfirst : ∀ n : ℕ, n < 256 → UInt8.ofNat n = 0xEF → n = 0xEF := by
      intro n hn hbyte
      rw [← Utf8.toNat_byte hn, hbyte]
      rfl
    rw [hs, List.flatMap_cons] at h
    unfold Utf8.encodeChar at h
    split_ifs at h with h₁ h₂ h₃
    · have hbad := hfirst _ (by omega) (List.cons.inj h).1
      omega
    · have hbad := hfirst _ (by omega) (List.cons.inj h).1
      omega
    · have hrest : cs.flatMap Utf8.encodeChar = rest :=
        (List.cons.inj (List.cons.inj (List.cons.inj h).2).2).2
      have hdecode := Utf8.decode_encode (String.ofList cs)
      rw [Utf8.encode, String.toList_ofList, hrest] at hdecode
      exact hdecode
    · have hbad := hfirst _ (by omega) (List.cons.inj h).1
      omega

/-! ### Printable text -/

/-- Printable ASCII. -/
def Printable (c : Char) : Prop := 0x20 ≤ c.toNat ∧ c.toNat < 0x7F

instance (c : Char) : Decidable (Printable c) := instDecidableAnd

theorem printable_of_all {cs : List Char} (h : cs.all (fun c => decide (Printable c)) = true) :
    ∀ c ∈ cs, Printable c :=
  fun c hc => of_decide_eq_true (List.all_eq_true.mp h c hc)

theorem printable_digit {c : Char} (h : c.isDigit = true) : Printable c := by
  have hc : 48 ≤ c.val ∧ c.val ≤ 57 := by simpa [Char.isDigit] using h
  have hlow : 48 ≤ c.toNat := UInt32.le_iff_toNat_le.mp hc.1
  have hhigh : c.toNat ≤ 57 := UInt32.le_iff_toNat_le.mp hc.2
  constructor <;> omega

theorem printable_digits (n : ℕ) : ∀ c ∈ Decimal.digits n, Printable c :=
  fun _ hc => printable_digit (Decimal.isDigit_of_mem_digits hc)

theorem printable_decimal (n : ℤ) : ∀ c ∈ Decimal.text n, Printable c := by
  cases n with
  | ofNat n => exact printable_digits n
  | negSucc n =>
    intro c hc
    rcases List.mem_cons.mp hc with rfl | hc
    · decide
    · exact printable_digits (n + 1) c hc

/-- A fraction or an exponent. -/
theorem printable_tail {st st' : Tail} {cs : List Char} (h : Tail.run st cs = some st') :
    ∀ c ∈ cs, Printable c := by
  induction cs generalizing st with
  | nil => exact fun c hc => absurd hc List.not_mem_nil
  | cons d cs ih =>
    obtain ⟨st₁, hstep, hrest⟩ := Option.bind_eq_some_iff.mp h
    have hd : d.isDigit = true ∨ d = '.' ∨ d = 'e' ∨ d = 'E' ∨ d = '+' ∨ d = '-' := by
      cases st <;> simp only [Tail.step] at hstep <;> split_ifs at hstep <;> tauto
    intro c hc
    rcases List.mem_cons.mp hc with rfl | hc
    · rcases hd with hd | rfl | rfl | rfl | rfl | rfl
      · exact printable_digit hd
      all_goals decide
    · exact ih hrest c hc

theorem printable_float (x : PyFloat) : ∀ c ∈ floatText x, Printable c := by
  cases x with
  | nan => exact printable_of_all rfl
  | infinity negative => cases negative <;> exact printable_of_all rfl
  | finite x =>
    obtain ⟨st, hrun, -⟩ := Tail.accepts_iff.mp x.wellFormed
    show ∀ c ∈ (if x.negative then ['-'] else []) ++ (Decimal.digits x.whole ++ x.tail), Printable c
    intro c hc
    rw [List.mem_append, List.mem_append] at hc
    rcases hc with hc | hc | hc
    · split_ifs at hc
      · rw [List.mem_singleton.mp hc]
        decide
      · exact absurd hc List.not_mem_nil
    · exact printable_digits x.whole c hc
    · exact printable_tail hrun c hc

theorem printable_lower (n : ℕ) : Printable (Hex.lower n) := by
  by_cases hn : n < 16
  · have key : ∀ i : Fin 16, Printable (Hex.lower i) := by decide +kernel
    exact key ⟨n, hn⟩
  · rw [Hex.lower, List.getD_eq_getElem?_getD, List.getElem?_eq_none (Nat.le_of_not_lt hn)]
    decide

theorem printable_unicodeEscape (unit : ℕ) : ∀ c ∈ unicodeEscape unit, Printable c := by
  intro c hc
  simp only [unicodeEscape, List.mem_cons, List.not_mem_nil, or_false] at hc
  rcases hc with rfl | rfl | rfl | rfl | rfl | rfl
  · decide
  · decide
  all_goals exact printable_lower _

/-- A character inside a string. -/
theorem printable_escape (d : Char) : ∀ c ∈ escape d, Printable c := by
  unfold escape
  by_cases h₁ : d = '"'
  · rw [if_pos h₁]
    exact printable_of_all rfl
  rw [if_neg h₁]
  by_cases h₂ : d = '\\'
  · rw [if_pos h₂]
    exact printable_of_all rfl
  rw [if_neg h₂]
  by_cases h₃ : 0x20 ≤ d.toNat ∧ d.toNat < 0x7F
  · rw [if_pos h₃]
    intro c hc
    rw [List.mem_singleton.mp hc]
    exact h₃
  rw [if_neg h₃]
  by_cases h₄ : d = '\n'
  · rw [if_pos h₄]
    exact printable_of_all rfl
  rw [if_neg h₄]
  by_cases h₅ : d = '\r'
  · rw [if_pos h₅]
    exact printable_of_all rfl
  rw [if_neg h₅]
  by_cases h₆ : d = '\t'
  · rw [if_pos h₆]
    exact printable_of_all rfl
  rw [if_neg h₆]
  by_cases h₇ : d.toNat = 0x0C
  · rw [if_pos h₇]
    exact printable_of_all rfl
  rw [if_neg h₇]
  by_cases h₈ : d.toNat = 0x08
  · rw [if_pos h₈]
    exact printable_of_all rfl
  rw [if_neg h₈]
  by_cases h₉ : d.toNat < 0x10000
  · rw [if_pos h₉]
    exact printable_unicodeEscape _
  rw [if_neg h₉]
  intro c hc
  rcases List.mem_append.mp hc with hc | hc
  all_goals exact printable_unicodeEscape _ c hc

theorem printable_text (t : Token) : ∀ c ∈ t.text, Printable c := by
  cases t with
  | num n => exact printable_decimal n
  | float x => exact printable_float x
  | bool b => cases b <;> exact printable_of_all rfl
  | str s =>
    show ∀ c ∈ '"' :: (s.toList.flatMap escape ++ ['"']), Printable c
    intro c hc
    rw [List.mem_cons, List.mem_append, List.mem_flatMap, List.mem_singleton] at hc
    rcases hc with rfl | ⟨d, -, hc⟩ | rfl
    · decide
    · exact printable_escape d c hc
    · decide
  | _ => exact printable_of_all rfl

/-! ### What is read from the bytes -/

/-- Printable text is decoded as UTF-8. -/
theorem decode_of_printable {s : String} (h : ∀ c ∈ s.toList, Printable c) :
    (Encoding.detect (Utf8.encode s)).decode (Utf8.encode s) = some s.toList := by
  have hbytes : ∀ b ∈ Utf8.encode s, b ≠ 0 ∧ b < 0x80 := by
    intro b hb
    obtain ⟨c, hc, hb⟩ := List.mem_flatMap.mp hb
    obtain ⟨hlow, hhigh⟩ := h c hc
    rw [Utf8.encodeChar, if_pos (by omega), List.mem_singleton] at hb
    subst hb
    have hnat := Utf8.toNat_byte (show c.toNat < 256 by omega)
    constructor
    · intro hzero
      rw [hzero] at hnat
      have : c.toNat = 0 := hnat.symm
      omega
    · show (UInt8.ofNat c.toNat).toNat < 0x80
      omega
  have hdetect : Encoding.detect (Utf8.encode s) = .utf8 0 := by
    rcases Encoding.detect_of_lt (lt_of_mem_encode (s := s)) with ⟨rest, hmark, -⟩ | hdetect
    · have := (hbytes 0xEF (by rw [hmark]; exact List.mem_cons_self)).2
      exact absurd this (by decide)
    · rw [hdetect]
      rcases Encoding.detectUnmarked_cases (Utf8.encode s) with hutf8 | ⟨hzero, -⟩
      · exact hutf8
      · exact absurd rfl (hbytes 0 hzero).1
  rw [hdetect, Encoding.decode, List.drop_zero, Utf8.decode_encode]
  rfl

theorem printable_dumps (j : Json) : ∀ c ∈ (dumps j).toList, Printable c := by
  intro c hc
  rw [dumps, String.toList_ofList] at hc
  obtain ⟨t, -, hc⟩ := List.mem_flatMap.mp hc
  exact printable_text t c hc

variable [Rounding]

/-- **The bytes of a string** are not read as this string. -/
theorem loadb_encode_ne (s : String) : loadb (Utf8.encode s) ≠ some (.str s) := by
  intro h
  obtain ⟨cs, hdecode, hload⟩ := Option.bind_eq_some_iff.mp h
  have hlength := length_lt_of_loads hload
  have hzeros := zeros_lt_of_loads hload
  rw [String.toList_ofList] at hlength hzeros
  rcases Encoding.detect_of_lt (lt_of_mem_encode (s := s)) with ⟨rest, hbytes, hdetect⟩ | hdetect
  · -- a mark: the text is the string without its first character
    obtain ⟨c, cs', hs, hrest⟩ := decode_after_mark hbytes
    rw [hdetect, Encoding.decode, hbytes] at hdecode
    obtain ⟨t, ht, rfl⟩ := Option.map_eq_some_iff.mp hdecode
    have htext : Utf8.decode rest = some t := ht
    obtain rfl := Option.some.inj (hrest.symm.trans htext)
    rw [String.toList_ofList, hs, List.length_cons] at hlength
    omega
  · rw [hdetect] at hdecode
    rcases Encoding.detectUnmarked_cases (Utf8.encode s) with hutf8 | ⟨hzero, hwide⟩
    · -- UTF-8: the text is the string
      rw [hutf8, Encoding.decode, List.drop_zero, Utf8.decode_encode] at hdecode
      obtain rfl := Option.some.inj hdecode
      omega
    · -- UTF-16 or UTF-32: the string has a zero; the text would have six ASCII characters for it
      have hcount := Encoding.countP_decode hwide hdecode
      have hpos : 0 < (Utf8.encode s).count 0 := List.count_pos_iff.mpr hzero
      rw [count_zero_encode] at hcount hpos
      omega

/-- **Round trip through bytes**. -/
@[simp] theorem loadb_dumps {j : Json} (h : j.Valid) : loadb (Utf8.encode (dumps j)) = some j := by
  rw [loadb, decode_of_printable (printable_dumps j), Option.bind_some, String.ofList_toList,
    loads_dumps h]

end Json
