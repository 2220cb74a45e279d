import Istos.Queue.CronGrammar
import Istos.Queue.Equiv.Cron

/-!
# What a cron expression is parsed to
-/

namespace Istos

open Calendar

/-! ### Splitting -/

theorem cut_of_not_mem {c : Char} {text : List Char} (h : c ∉ text) : cut c text = (text, none) :=
  if_neg h

theorem cut_append {c : Char} {a : List Char} (h : c ∉ a) (b : List Char) :
    cut c (a ++ c :: b) = (a, some b) := by
  have ha : ∀ d ∈ a, decide (d ≠ c) = true :=
    fun d hd => decide_eq_true fun heq => h (heq ▸ hd)
  unfold cut
  rw [if_pos (List.mem_append_right a List.mem_cons_self), List.takeWhile_append_of_pos ha,
    List.dropWhile_append_of_pos ha, List.takeWhile_cons_of_neg (by simp),
    List.dropWhile_cons_of_neg (by simp), List.append_nil, List.tail_cons]

theorem bind_eq_ok {α β : Type} {x : Except String α} {g : α → Except String β} {b : β} :
    x >>= g = .ok b ↔ ∃ a, x = .ok a ∧ g a = .ok b := by
  cases x with
  | error e => exact iff_of_false nofun fun ⟨a, ha, _⟩ => by cases ha
  | ok a => exact ⟨fun h => ⟨a, rfl, h⟩, fun ⟨a', ha, h⟩ => Except.ok.inj ha ▸ h⟩

/-- Every text without a comma is a part. -/
theorem exists_separated {text : List Char} (h : ',' ∉ text) :
    ∃ p : CronPart, p.Separated ∧ p.text = text := by
  have hrange : ∀ (base : List Char) (s : Option (List Char)), '/' ∉ base → ∃ r : CronRange,
      r.text = base ∧ (',' ∉ (⟨r, s⟩ : CronPart).text → (⟨r, s⟩ : CronPart).Separated) := by
    intro base s hbase
    by_cases hstar : base = ['*']
    · subst hstar
      exact ⟨.all, rfl, fun hcomma => ⟨hcomma, hbase, trivial⟩⟩
    · by_cases hdash : '-' ∈ base
      · obtain ⟨a, b, rfl, ha⟩ := List.eq_append_cons_of_mem hdash
        exact ⟨.between a b, rfl, fun hcomma => ⟨hcomma, hbase, ha⟩⟩
      · exact ⟨.value base, rfl, fun hcomma => ⟨hcomma, hbase, hdash, hstar⟩⟩
  by_cases hslash : '/' ∈ text
  · obtain ⟨base, s, rfl, hbase⟩ := List.eq_append_cons_of_mem hslash
    obtain ⟨r, rfl, hr⟩ := hrange base (some s) hbase
    exact ⟨⟨r, some s⟩, hr h, rfl⟩
  · obtain ⟨r, rfl, hr⟩ := hrange text none hslash
    refine ⟨⟨r, none⟩, hr ?_, List.append_nil _⟩
    rwa [CronPart.text, List.append_nil]

/-! ### Parts -/

theorem cronInt_eq_ok {error : String} {n : List Char} {k : ℤ} :
    cronInt error n = .ok k ↔ PyInt.parse n ≠ none ∧ pythonic n = k := by
  unfold cronInt pythonic
  cases PyInt.parse n <;> simp

theorem partStep_eq_ok {error : String} {p : CronPart} {k : ℤ} :
    partStep error p.step = .ok k ↔
      (∀ s ∈ p.step, PyInt.parse s ≠ none) ∧ p.stride pythonic = k := by
  unfold partStep CronPart.stride
  cases p.step with
  | none => simp
  | some s => rw [cronInt_eq_ok]; simp

theorem partBounds_eq_ok {lo hi : ℕ} {rangeError valueError : String} {p : CronPart}
    (hp : p.Separated) {bounds : ℤ × ℤ} :
    partBounds lo hi rangeError valueError p.range.text = .ok bounds ↔
      (∀ n ∈ p.range.numerals, PyInt.parse n ≠ none) ∧ p.range.bounds pythonic lo hi = bounds := by
  obtain ⟨-, -, hsplit⟩ := hp
  unfold partBounds
  cases hrange : p.range with
  | all => simp [CronRange.text, CronRange.numerals, CronRange.bounds]
  | value n =>
    rw [hrange] at hsplit
    have hread : ∀ k : ℤ, (cronInt valueError n).map (fun k => (k, k)) = .ok bounds ↔
        PyInt.parse n ≠ none ∧ (pythonic n, pythonic n) = bounds := by
      intro _
      cases hn : cronInt valueError n with
      | error e =>
        have hnone : PyInt.parse n = none := by
          by_contra hne
          cases hn.symm.trans (cronInt_eq_ok.mpr ⟨hne, rfl⟩)
        exact iff_of_false nofun fun hall => hall.1 hnone
      | ok k =>
        obtain ⟨hne, rfl⟩ := cronInt_eq_ok.mp hn
        simp [Except.map, hne]
    simp only [CronRange.text, if_neg hsplit.2, cut_of_not_mem hsplit.1, CronRange.numerals,
      List.forall_mem_singleton, CronRange.bounds]
    exact hread 0
  | between a b =>
    rw [hrange] at hsplit
    have hstar : a ++ '-' :: b ≠ ['*'] := by
      intro heq
      have hdash : '-' ∈ a ++ '-' :: b := List.mem_append_right a List.mem_cons_self
      rw [heq] at hdash
      exact absurd hdash (by decide)
    simp only [CronRange.text, if_neg hstar, cut_append hsplit, bind_eq_ok, cronInt_eq_ok,
      CronRange.numerals, CronRange.bounds, List.forall_mem_cons]
    constructor
    · rintro ⟨start, ⟨ha, rfl⟩, stop, ⟨hb, rfl⟩, h⟩
      exact ⟨⟨ha, hb, nofun⟩, Except.ok.inj h⟩
    · rintro ⟨⟨ha, hb, -⟩, rfl⟩
      exact ⟨_, ⟨ha, rfl⟩, _, ⟨hb, rfl⟩, rfl⟩

namespace CronPart

variable {lo hi : ℕ} {p : CronPart}

theorem cut_text (hp : p.Separated) : cut '/' p.text = (p.range.text, p.step) := by
  unfold text
  cases p.step with
  | none => rw [List.append_nil, cut_of_not_mem hp.2.1]
  | some s => exact cut_append hp.2.1 s

variable [PyText]

/-- A part is parsed just when `int` reads its numerals and they are in range. -/
theorem parsePart_text (hp : p.Separated) {f : CronField lo hi} :
    parsePart lo hi p.text = .ok f ↔ p.Readable ∧
      CronField.range lo hi (p.range.bounds pythonic lo hi).1 (p.range.bounds pythonic lo hi).2
        (p.stride pythonic) = some f := by
  unfold parsePart
  rw [cut_text hp]
  simp only [bind_eq_ok, partStep_eq_ok, partBounds_eq_ok hp]
  have hreadable : p.Readable ↔ (∀ s ∈ p.step, PyInt.parse s ≠ none) ∧
      ∀ n ∈ p.range.numerals, PyInt.parse n ≠ none := by
    rw [Readable, numerals, List.forall_mem_append, and_comm]
    simp only [Option.mem_toList]
    rfl
  rw [hreadable]
  constructor
  · rintro ⟨step, ⟨hstep, rfl⟩, bounds, ⟨hrange, rfl⟩, h⟩
    refine ⟨⟨hstep, hrange⟩, ?_⟩
    split at h
    · next field hfield => rw [hfield, Except.ok.inj h]
    · cases h
  · rintro ⟨⟨hstep, hrange⟩, h⟩
    refine ⟨_, ⟨hstep, rfl⟩, _, ⟨hrange, rfl⟩, ?_⟩
    rw [h]

omit [PyText] in
/-- What a part covers is what it is parsed to. -/
theorem range_eq_some_iff {f : CronField lo hi} :
    CronField.range lo hi (p.range.bounds pythonic lo hi).1 (p.range.bounds pythonic lo hi).2
        (p.stride pythonic) = some f ↔
      p.InRange pythonic lo hi ∧ ∀ n, n ∈ f.values ↔ p.Covers pythonic lo hi n := by
  rw [CronField.range_eq_some]
  refine and_congr_right fun hin => ?_
  obtain ⟨hstride, hlo, hhi, hle⟩ := hin
  rw [Finset.ext_iff]
  refine forall_congr' fun n => iff_congr Iff.rfl ?_
  rw [Finset.mem_filter, Finset.mem_Icc, Covers]
  obtain ⟨a, ha⟩ := Int.eq_ofNat_of_zero_le (show 0 ≤ (p.range.bounds pythonic lo hi).1 by omega)
  obtain ⟨b, hb⟩ := Int.eq_ofNat_of_zero_le (show 0 ≤ (p.range.bounds pythonic lo hi).2 by omega)
  obtain ⟨k, hk⟩ := Int.eq_ofNat_of_zero_le (show 0 ≤ p.stride pythonic by omega)
  rw [ha, hb, hk, Int.toNat_natCast, Int.toNat_natCast, Int.toNat_natCast, Nat.cast_le, Nat.cast_le,
    and_assoc]
  refine and_congr_right fun hle => and_congr_right fun _ => ?_
  rw [← Nat.cast_sub hle, Int.natCast_dvd_natCast]

/-- The part is parsed to a field. -/
def Accepted (lo hi : ℕ) (p : CronPart) : Prop := p.Readable ∧ p.InRange pythonic lo hi

/-- **One part** is parsed just when it is accepted, to the numbers that it covers. -/
theorem parsePart_eq_ok (hp : p.Separated) {f : CronField lo hi} :
    parsePart lo hi p.text = .ok f ↔
      p.Accepted lo hi ∧ ∀ n, n ∈ f.values ↔ p.Covers pythonic lo hi n := by
  rw [parsePart_text hp, range_eq_some_iff, Accepted, and_assoc]

theorem Accepted.exists (hp : p.Separated) (h : p.Accepted lo hi) :
    ∃ f, parsePart lo hi p.text = .ok f := by
  obtain ⟨hread, hin⟩ := h
  obtain ⟨hstride, hlo, hhi, hle⟩ := hin
  cases hrange : CronField.range lo hi (p.range.bounds pythonic lo hi).1
      (p.range.bounds pythonic lo hi).2 (p.stride pythonic) with
  | some f => exact ⟨f, (parsePart_text hp).mpr ⟨hread, hrange⟩⟩
  | none =>
    unfold CronField.range at hrange
    split at hrange
    · omega
    · cases hrange

end CronPart

/-! ### Fields -/

section

variable {lo hi : ℕ} {f g : CronField lo hi}

theorem CronField.mem_union {n : ℕ} : n ∈ (f.union g).values ↔ n ∈ f.values ∨ n ∈ g.values :=
  Finset.mem_union

theorem denotes_cons {num : List Char → ℤ} {p : CronPart} {parts : List CronPart} {n : ℕ} :
    Denotes num lo hi (p :: parts) n ↔ p.Covers num lo hi n ∨ Denotes num lo hi parts n :=
  List.exists_mem_cons_iff ..

variable [PyText]

/-- The parts that are left of a field. -/
theorem foldlM_union {parts : List CronPart} (hparts : ∀ p ∈ parts, p.Separated) :
    (parts.map CronPart.text).foldlM
        (fun values part => return values.union (← parsePart lo hi part)) g = .ok f ↔
      (∀ p ∈ parts, p.Accepted lo hi) ∧
        ∀ n, n ∈ f.values ↔ n ∈ g.values ∨ Denotes pythonic lo hi parts n := by
  induction parts generalizing g with
  | nil =>
    constructor
    · intro h
      obtain rfl := Except.ok.inj h
      exact ⟨nofun, fun n => by simp [Denotes]⟩
    · rintro ⟨-, h⟩
      have heq : g = f := CronField.ext (Finset.ext fun n => by rw [h]; simp [Denotes])
      rw [heq]
      rfl
  | cons p parts ih =>
    obtain ⟨hp, hrest⟩ := List.forall_mem_cons.mp hparts
    simp only [List.map_cons, List.foldlM_cons, bind_eq_ok, List.forall_mem_cons, denotes_cons]
    constructor
    · rintro ⟨_, ⟨h₁, hpart, hunion⟩, htail⟩
      obtain rfl := Except.ok.inj hunion
      obtain ⟨haccepted, hcovers⟩ := (CronPart.parsePart_eq_ok hp).mp hpart
      obtain ⟨hall, hmem⟩ := (ih hrest).mp htail
      refine ⟨⟨haccepted, hall⟩, fun n => ?_⟩
      rw [hmem, CronField.mem_union, hcovers, or_assoc]
    · rintro ⟨⟨haccepted, hall⟩, hmem⟩
      obtain ⟨h₁, hpart⟩ := haccepted.exists hp
      have hcovers := ((CronPart.parsePart_eq_ok hp).mp hpart).2
      refine ⟨_, ⟨h₁, hpart, rfl⟩, (ih hrest).mpr ⟨hall, fun n => ?_⟩⟩
      rw [hmem, CronField.mem_union, hcovers, or_assoc]

/-- **One field** is parsed just when all its parts are accepted, to the numbers that it denotes. -/
theorem parseField_eq_ok {parts : List CronPart} (hne : parts ≠ [])
    (hparts : ∀ p ∈ parts, p.Separated) :
    parseField lo hi (fieldText parts) = .ok f ↔
      (∀ p ∈ parts, p.Accepted lo hi) ∧ ∀ n, n ∈ f.values ↔ Denotes pythonic lo hi parts n := by
  have hsplit : (fieldText parts).splitOn ',' = parts.map CronPart.text := by
    refine List.splitOn_intercalate ',' (fun text htext => ?_) (by simpa using hne)
    obtain ⟨p, hp, rfl⟩ := List.mem_map.mp htext
    exact (hparts p hp).1
  obtain ⟨p, parts, rfl⟩ := List.exists_cons_of_ne_nil hne
  obtain ⟨hp, hrest⟩ := List.forall_mem_cons.mp hparts
  unfold parseField
  rw [hsplit, List.map_cons]
  simp only [bind_eq_ok, foldlM_union hrest, List.forall_mem_cons, denotes_cons]
  constructor
  · rintro ⟨h₁, hpart, hall, hmem⟩
    obtain ⟨haccepted, hcovers⟩ := (CronPart.parsePart_eq_ok hp).mp hpart
    exact ⟨⟨haccepted, hall⟩, fun n => by rw [hmem, hcovers]⟩
  · rintro ⟨⟨haccepted, hall⟩, hmem⟩
    obtain ⟨h₁, hpart⟩ := haccepted.exists hp
    have hcovers := ((CronPart.parsePart_eq_ok hp).mp hpart).2
    exact ⟨h₁, hpart, hall, fun n => by rw [hmem, hcovers]⟩

theorem exists_parseField {parts : List CronPart} (hne : parts ≠ [])
    (hparts : ∀ p ∈ parts, p.Separated) (h : ∀ p ∈ parts, p.Accepted lo hi) :
    ∃ f, parseField lo hi (fieldText parts) = .ok f := by
  have hunion : ∀ parts : List CronPart, (∀ p ∈ parts, p.Separated) →
      (∀ p ∈ parts, p.Accepted lo hi) → ∀ g : CronField lo hi, ∃ f : CronField lo hi, ∀ n,
      n ∈ f.values ↔ n ∈ g.values ∨ Denotes pythonic lo hi parts n := by
    intro parts hparts h
    induction parts with
    | nil => exact fun g => ⟨g, fun n => by simp [Denotes]⟩
    | cons p parts ih =>
      intro g
      obtain ⟨hp, hrest⟩ := List.forall_mem_cons.mp hparts
      obtain ⟨haccepted, hall⟩ := List.forall_mem_cons.mp h
      obtain ⟨f, hf⟩ := haccepted.exists hp
      have hcovers := ((CronPart.parsePart_eq_ok hp).mp hf).2
      obtain ⟨f', hf'⟩ := ih hrest hall (g.union f)
      refine ⟨f', fun n => ?_⟩
      rw [hf', CronField.mem_union, hcovers, denotes_cons, or_assoc]
  obtain ⟨p, parts, rfl⟩ := List.exists_cons_of_ne_nil hne
  obtain ⟨hp, hrest⟩ := List.forall_mem_cons.mp hparts
  obtain ⟨haccepted, hall⟩ := List.forall_mem_cons.mp h
  obtain ⟨g, hg⟩ := haccepted.exists hp
  have hcovers := ((CronPart.parsePart_eq_ok hp).mp hg).2
  obtain ⟨f, hf⟩ := hunion parts hrest hall g
  refine ⟨f, (parseField_eq_ok hne hparts).mpr ⟨h, fun n => ?_⟩⟩
  rw [hf, hcovers, denotes_cons]

omit [PyText] in
/-- Every text is a field. -/
theorem exists_field (text : List Char) :
    ∃ parts, parts ≠ [] ∧ (∀ p ∈ parts, p.Separated) ∧ fieldText parts = text := by
  induction hlen : text.length using Nat.strong_induction_on generalizing text with
  | _ len ih =>
    by_cases hcomma : ',' ∈ text
    · obtain ⟨a, b, rfl, ha⟩ := List.eq_append_cons_of_mem hcomma
      obtain ⟨p, hp, rfl⟩ := exists_separated ha
      rw [List.length_append, List.length_cons] at hlen
      obtain ⟨parts, hne, hparts, rfl⟩ := ih b.length (by omega) b rfl
      refine ⟨p :: parts, List.cons_ne_nil _ _, List.forall_mem_cons.mpr ⟨hp, hparts⟩, ?_⟩
      unfold fieldText
      rw [List.map_cons, List.intercalate_cons_of_ne_nil (by simpa using hne), List.append_assoc]
      rfl
    · obtain ⟨p, hp, rfl⟩ := exists_separated hcomma
      exact ⟨[p], List.cons_ne_nil _ _, List.forall_mem_singleton.mpr hp,
        List.intercalate_singleton⟩

end

/-! ### Expressions -/

theorem CronExpr.forall_fields {e : CronExpr} {P : List CronPart → Prop} :
    (∀ field ∈ e.fields, P field) ↔ P e.minute ∧ P e.hour ∧ P e.dom ∧ P e.month ∧ P e.dow := by
  simp [fields]

/-- The separators of an expression are where it is split. -/
def CronExpr.Separated (e : CronExpr) : Prop :=
  ∀ field ∈ e.fields, field ≠ [] ∧ ∀ p ∈ field, p.Separated

/-- `int` reads the numerals of an expression. -/
def CronExpr.Readable (e : CronExpr) : Prop := ∀ field ∈ e.fields, ∀ p ∈ field, p.Readable

theorem CronExpr.loose_iff {e : CronExpr} : e.Loose ↔ e.Separated ∧ e.Readable := by
  unfold Loose Separated Readable
  constructor
  · intro h
    exact ⟨fun field hf => ⟨(h field hf).1, fun p hp => ((h field hf).2 p hp).1⟩,
      fun field hf p hp => ((h field hf).2 p hp).2⟩
  · intro h field hf
    exact ⟨(h.1 field hf).1, fun p hp => ⟨(h.1 field hf).2 p hp, h.2 field hf p hp⟩⟩

/-- A schedule holds the numbers that an expression denotes. -/
structure CronExpr.Describes (e : CronExpr) (c : CronSchedule) : Prop where
  minute : ∀ n, n ∈ c.minute.values ↔ Denotes pythonic 0 59 e.minute n
  hour : ∀ n, n ∈ c.hour.values ↔ Denotes pythonic 0 23 e.hour n
  dom : ∀ n, n ∈ c.dom.values ↔ Denotes pythonic 1 31 e.dom n
  month : ∀ n, n ∈ c.month.values ↔ Denotes pythonic 1 12 e.month n
  dow : ∀ w < 7, w ∈ c.dow.values ↔ e.DenotesWeekday pythonic w
  domRestricted : c.dom.restricted = decide (fieldText e.dom ≠ ['*'])
  dowRestricted : c.dow.restricted = decide (fieldText e.dow ≠ ['*'])

section

variable [PyText]

theorem DayField.ofText_eq_ok {lo hi : ℕ} {text : List Char} {d : DayField lo hi} :
    DayField.ofText text = .ok d ↔
      parseField lo hi text = .ok d.toCronField ∧ d.restricted = decide (text ≠ ['*']) := by
  unfold DayField.ofText
  split
  · next e he => exact iff_of_false nofun fun h => by cases he.symm.trans h.1
  · next f hf =>
    constructor
    · intro h
      obtain rfl := Except.ok.inj h
      exact ⟨hf, rfl⟩
    · obtain ⟨f', restricted, full⟩ := d
      rintro ⟨hparse, hrestricted⟩
      obtain rfl : f = f' := Except.ok.inj (hf.symm.trans hparse)
      obtain rfl : restricted = decide (text ≠ ['*']) := hrestricted
      rfl

omit [PyText] in
theorem DayField.mem_sunday {f : DayField 0 7} {w : ℕ} (hw : w < 7) :
    w ∈ f.sunday.values ↔ w ∈ f.values ∨ w = 0 ∧ 7 ∈ f.values := by
  show w ∈ (if 7 ∈ f.values then insert 0 (f.values.erase 7) else f.values) ↔ _
  split_ifs with h
  · rw [Finset.mem_insert, Finset.mem_erase]
    have hne : w ≠ 7 := by omega
    tauto
  · tauto

theorem DayField.exists_ofText {lo hi : ℕ} {text : List Char} {f : CronField lo hi}
    (h : parseField lo hi text = .ok f) :
    ∃ d : DayField lo hi, DayField.ofText text = .ok d := by
  unfold DayField.ofText
  split
  · next he => cases he.symm.trans h
  · exact ⟨_, rfl⟩

namespace CronExpr

variable {e : CronExpr} {expr : String}

/-- What is parsed is readable and in range, and the schedule holds what the expression denotes. -/
theorem parse_eq_ok (hsep : e.Separated) (hw : e.Writes expr) {c : CronSchedule}
    (h : CronSchedule.parse expr = .ok c) : e.Readable ∧ e.InRange pythonic ∧ e.Describes c := by
  obtain ⟨hminute, hhour, hdom, hmonth, hdow⟩ := forall_fields.mp hsep
  unfold Writes at hw
  simp only [fields, List.map_cons, List.map_nil] at hw
  unfold CronSchedule.parse at h
  rw [hw] at h
  simp only [bind_eq_ok, DayField.ofText_eq_ok, parseField_eq_ok hminute.1 hminute.2,
    parseField_eq_ok hhour.1 hhour.2, parseField_eq_ok hdom.1 hdom.2,
    parseField_eq_ok hmonth.1 hmonth.2, parseField_eq_ok hdow.1 hdow.2] at h
  obtain ⟨minute, ⟨haminute, hmminute⟩, hour, ⟨hahour, hmhour⟩, dom, ⟨⟨hadom, hmdom⟩, hrdom⟩, month,
    ⟨hamonth, hmmonth⟩, dow, ⟨⟨hadow, hmdow⟩, hrdow⟩, hc⟩ := h
  obtain rfl := Except.ok.inj hc
  refine ⟨forall_fields.mpr ?_, ?_,
    ⟨hmminute, hmhour, hmdom, hmmonth, fun w hlt => ?_, hrdom, hrdow⟩⟩
  · exact ⟨fun p hp => (haminute p hp).1, fun p hp => (hahour p hp).1, fun p hp => (hadom p hp).1,
      fun p hp => (hamonth p hp).1, fun p hp => (hadow p hp).1⟩
  · exact ⟨fun p hp => (haminute p hp).2, fun p hp => (hahour p hp).2, fun p hp => (hadom p hp).2,
      fun p hp => (hamonth p hp).2, fun p hp => (hadow p hp).2⟩
  · rw [DayField.mem_sunday hlt, hmdow, hmdow, DenotesWeekday]

/-- An expression that is readable and in range is parsed. -/
theorem exists_parse (hsep : e.Separated) (hw : e.Writes expr) (hread : e.Readable)
    (hin : e.InRange pythonic) : ∃ c, CronSchedule.parse expr = .ok c := by
  obtain ⟨hminute, hhour, hdom, hmonth, hdow⟩ := forall_fields.mp hsep
  obtain ⟨hrminute, hrhour, hrdom, hrmonth, hrdow⟩ := forall_fields.mp hread
  obtain ⟨himinute, hihour, hidom, himonth, hidow⟩ := hin
  obtain ⟨minute, hminute⟩ := exists_parseField hminute.1 hminute.2
    fun p hp => ⟨hrminute p hp, himinute p hp⟩
  obtain ⟨hour, hhour⟩ := exists_parseField hhour.1 hhour.2 fun p hp => ⟨hrhour p hp, hihour p hp⟩
  obtain ⟨_, hdom⟩ := exists_parseField hdom.1 hdom.2 fun p hp => ⟨hrdom p hp, hidom p hp⟩
  obtain ⟨month, hmonth⟩ := exists_parseField hmonth.1 hmonth.2
    fun p hp => ⟨hrmonth p hp, himonth p hp⟩
  obtain ⟨_, hdow⟩ := exists_parseField hdow.1 hdow.2 fun p hp => ⟨hrdow p hp, hidow p hp⟩
  obtain ⟨dom, hdom⟩ := DayField.exists_ofText hdom
  obtain ⟨dow, hdow⟩ := DayField.exists_ofText hdow
  unfold Writes at hw
  simp only [fields, List.map_cons, List.map_nil] at hw
  refine ⟨⟨expr, minute, hour, dom, month, dow.sunday⟩, ?_⟩
  unfold CronSchedule.parse
  rw [hw]
  simp only [bind_eq_ok]
  exact ⟨minute, hminute, hour, hhour, dom, hdom, month, hmonth, dow, hdow, rfl⟩

/-- What is parsed has five fields. -/
theorem exists_writes {c : CronSchedule} (h : CronSchedule.parse expr = .ok c) :
    ∃ e : CronExpr, e.Separated ∧ e.Writes expr := by
  unfold CronSchedule.parse at h
  split at h
  · next minute hour dom month dow hwords =>
    obtain ⟨minute, hminute, hminute', rfl⟩ := exists_field minute
    obtain ⟨hour, hhour, hhour', rfl⟩ := exists_field hour
    obtain ⟨dom, hdom, hdom', rfl⟩ := exists_field dom
    obtain ⟨month, hmonth, hmonth', rfl⟩ := exists_field month
    obtain ⟨dow, hdow, hdow', rfl⟩ := exists_field dow
    refine ⟨⟨minute, hour, dom, month, dow⟩, forall_fields.mpr ?_, hwords⟩
    exact ⟨⟨hminute, hminute'⟩, ⟨hhour, hhour'⟩, ⟨hdom, hdom'⟩, ⟨hmonth, hmonth'⟩, hdow, hdow'⟩
  · cases h

end CronExpr

end

/-! ### The documented grammar -/

section

variable {lo hi : ℕ} {p : CronPart}

/-- The characters of a documented part. -/
theorem CronPart.Documented.mem_text (h : p.Documented) {c : Char} (hc : c ∈ p.text) :
    c.isDigit = true ∨ c = '*' ∨ c = '-' ∨ c = '/' := by
  have hdigit : ∀ n ∈ p.numerals, ∀ c ∈ n, c.isDigit = true := fun n hn => (h.1 n hn).2
  unfold numerals at hdigit
  rw [List.forall_mem_append] at hdigit
  obtain ⟨hrange, hstep⟩ := hdigit
  rcases List.mem_append.mp hc with hc | hc
  · cases hr : p.range with
    | all =>
      rw [hr] at hc
      exact .inr (.inl (List.mem_singleton.mp hc))
    | value n =>
      rw [hr] at hc hrange
      exact .inl (hrange n List.mem_cons_self c hc)
    | between a b =>
      rw [hr] at hc hrange
      rcases List.mem_append.mp hc with hc | hc
      · exact .inl (hrange a List.mem_cons_self c hc)
      · rcases List.mem_cons.mp hc with rfl | hc
        · exact .inr (.inr (.inl rfl))
        · exact .inl (hrange b (List.mem_cons_of_mem _ List.mem_cons_self) c hc)
  · cases hs : p.step with
    | none =>
      rw [hs] at hc
      cases hc
    | some s =>
      rw [hs] at hc hstep
      rcases List.mem_cons.mp hc with rfl | hc
      · exact .inr (.inr (.inr rfl))
      · exact .inl (hstep s List.mem_cons_self c hc)

theorem CronPart.Documented.separated (h : p.Documented) : p.Separated := by
  have hdigit : ∀ n ∈ p.range.numerals, ∀ c ∈ n, c.isDigit = true :=
    fun n hn => (h.1 n (List.mem_append_left _ hn)).2
  have hno : ∀ c : Char, c.isDigit = false → ∀ n ∈ p.range.numerals, c ∉ n := by
    intro c hc n hn hmem
    rw [hdigit n hn c hmem] at hc
    cases hc
  refine ⟨fun hcomma => absurd (h.mem_text hcomma) (by decide), ?_, ?_⟩
  · cases hr : p.range with
    | all => decide
    | value n => exact hno '/' (by decide) n (hr ▸ List.mem_cons_self)
    | between a b =>
      intro hslash
      rcases List.mem_append.mp hslash with hm | hm
      · exact hno '/' (by decide) a (hr ▸ List.mem_cons_self) hm
      · rcases List.mem_cons.mp hm with heq | hm
        · exact absurd heq (by decide)
        · exact hno '/' (by decide) b (hr ▸ List.mem_cons_of_mem _ List.mem_cons_self) hm
  · cases hr : p.range with
    | all => trivial
    | value n =>
      refine ⟨hno '-' (by decide) n (hr ▸ List.mem_cons_self), ?_⟩
      rintro rfl
      exact hno '*' (by decide) ['*'] (hr ▸ List.mem_cons_self) List.mem_cons_self
    | between a b => exact hno '-' (by decide) a (hr ▸ List.mem_cons_self)

/-- The numerals of a part are not longer than `int` allows. -/
def CronPart.Short (p : CronPart) : Prop := ∀ n ∈ p.numerals, n.length ≤ PyInt.maxDigits

theorem CronPart.Documented.readable_iff (h : p.Documented) : p.Readable ↔ p.Short := by
  refine forall₂_congr fun n hn => ?_
  rw [PyInt.parse_plain (h.1 n hn).1 (h.1 n hn).2]
  split_ifs with hle
  · exact iff_of_true (Option.some_ne_none _) hle
  · exact iff_of_false (fun hne => hne rfl) hle

/-- A short numeral is read as the number that it spells. -/
theorem CronPart.Documented.decimal_eq (h : p.Documented) (hshort : p.Short) {n : List Char}
    (hn : n ∈ p.numerals) : decimal n = pythonic n := by
  rw [pythonic, PyInt.parse_plain (h.1 n hn).1 (h.1 n hn).2, if_pos (hshort n hn)]
  rfl

/-- Only the numerals of a part are read. -/
theorem CronPart.bounds_congr {num num' : List Char → ℤ} (h : ∀ n ∈ p.numerals, num n = num' n) :
    p.range.bounds num lo hi = p.range.bounds num' lo hi ∧ p.stride num = p.stride num' := by
  obtain ⟨range, step⟩ := p
  unfold numerals at h
  rw [List.forall_mem_append] at h
  obtain ⟨hrange, hstep⟩ := h
  constructor
  · cases range with
    | all => rfl
    | value n => simp [CronRange.bounds, hrange n List.mem_cons_self]
    | between a b =>
      simp [CronRange.bounds, hrange a List.mem_cons_self,
        hrange b (List.mem_cons_of_mem _ List.mem_cons_self)]
  · cases step with
    | none => rfl
    | some s => exact hstep s List.mem_cons_self

/-- Two readings that agree on the numerals of a field give it one meaning. -/
theorem denotes_congr {num num' : List Char → ℤ} {field : List CronPart}
    (h : ∀ p ∈ field, ∀ n ∈ p.numerals, num n = num' n) :
    ((∀ p ∈ field, p.InRange num lo hi) ↔ ∀ p ∈ field, p.InRange num' lo hi) ∧
      ∀ n, Denotes num lo hi field n ↔ Denotes num' lo hi field n := by
  have hpart : ∀ p ∈ field, p.range.bounds num lo hi = p.range.bounds num' lo hi ∧
      p.stride num = p.stride num' := fun p hp => CronPart.bounds_congr (h p hp)
  constructor
  · refine forall₂_congr fun p hp => ?_
    rw [CronPart.InRange, CronPart.InRange, (hpart p hp).1, (hpart p hp).2]
  · refine fun n => exists_congr fun p => and_congr_right fun hp => ?_
    rw [CronPart.Covers, CronPart.Covers, (hpart p hp).1, (hpart p hp).2]

end

namespace CronExpr

variable {e : CronExpr}

/-- The numerals of an expression are not longer than `int` allows. -/
def Short (e : CronExpr) : Prop := ∀ field ∈ e.fields, ∀ p ∈ field, p.Short

theorem Documented.separated (h : e.Documented) : e.Separated :=
  fun field hf => ⟨(h field hf).1, fun p hp => ((h field hf).2 p hp).separated⟩

theorem Documented.readable_iff (h : e.Documented) : e.Readable ↔ e.Short :=
  forall₂_congr fun field hf => forall₂_congr fun p hp => ((h field hf).2 p hp).readable_iff

/-- The source joins the day fields as the reference does: one of them is a bare `*`, or neither
starts with a `*`, or every day is admitted either way. -/
def SameDays (num : List Char → ℤ) (e : CronExpr) : Prop :=
  fieldText e.dom = ['*'] ∨ fieldText e.dow = ['*'] ∨ (¬ Starred e.dom ∧ ¬ Starred e.dow) ∨
    (∀ w < 7, e.DenotesWeekday num w) ∧
      ∀ d : Date, Denotes num 1 12 e.month d.month → Denotes num 1 31 e.dom d.day

/-- Two readings that agree on the numerals of an expression give it one meaning. -/
theorem congr {num num' : List Char → ℤ}
    (h : ∀ field ∈ e.fields, ∀ p ∈ field, ∀ n ∈ p.numerals, num n = num' n) :
    (e.InRange num ↔ e.InRange num') ∧ (∀ t, e.Admits num t ↔ e.Admits num' t) ∧
      (e.SameDays num ↔ e.SameDays num') := by
  obtain ⟨hminute, hhour, hdom, hmonth, hdow⟩ := forall_fields.mp h
  refine ⟨?_, fun t => ?_, ?_⟩
  · unfold InRange
    rw [(denotes_congr hminute).1, (denotes_congr hhour).1, (denotes_congr hdom).1,
      (denotes_congr hmonth).1, (denotes_congr hdow).1]
  · simp only [Admits, DenotesWeekday, (denotes_congr hminute).2, (denotes_congr hhour).2,
      (denotes_congr hdom).2, (denotes_congr hmonth).2, (denotes_congr hdow).2]
  · simp only [SameDays, DenotesWeekday, (denotes_congr hdom).2, (denotes_congr hmonth).2,
      (denotes_congr hdow).2]

/-- The short numerals of the documented grammar are read as they are spelled. -/
theorem Documented.agree (h : e.Documented) (hshort : e.Short) :
    ∀ field ∈ e.fields, ∀ p ∈ field, ∀ n ∈ p.numerals, decimal n = pythonic n :=
  fun field hf p hp _ hn => ((h field hf).2 p hp).decimal_eq (hshort field hf p hp) hn

/-! ### The day rule -/

variable {c : CronSchedule}

theorem Describes.dayMatches_iff (h : e.Describes c) (d : Date) : c.dayMatches d = true ↔
    if fieldText e.dom ≠ ['*'] ∧ fieldText e.dow ≠ ['*'] then
      Denotes pythonic 1 31 e.dom d.day ∨ e.DenotesWeekday pythonic ((d.weekday + 1) % 7)
    else Denotes pythonic 1 31 e.dom d.day ∧ e.DenotesWeekday pythonic ((d.weekday + 1) % 7) := by
  have hw := h.dow ((d.weekday + 1) % 7) (Nat.mod_lt _ (by omega))
  rw [CronSchedule.dayMatches_iff, h.dom, hw, h.domRestricted, h.dowRestricted]
  simp only [decide_eq_true_iff]

/-- **The day rule**: a schedule fires at the times of its expression just when the source joins the
day fields as the reference does. -/
theorem Describes.matches_iff (h : e.Describes c) :
    (∀ t, c.matches t = true ↔ e.Admits pythonic t) ↔ e.SameDays pythonic := by
  have hmatches : ∀ t, c.matches t = true ↔ Denotes pythonic 0 59 e.minute t.minute ∧
      Denotes pythonic 0 23 e.hour t.hour ∧ Denotes pythonic 1 12 e.month t.date.month ∧
      c.dayMatches t.date = true := by
    intro t
    rw [CronSchedule.matches_iff, h.minute, h.hour, h.month]
  have hstar : ∀ field : List CronPart, fieldText field = ['*'] → Starred field := by
    intro field hfield
    rw [Starred, hfield]
    rfl
  by_cases hbare : fieldText e.dom = ['*'] ∨ fieldText e.dow = ['*']
  · refine iff_of_true (fun t => ?_) (hbare.elim .inl fun hdow => .inr (.inl hdow))
    have hstarred : ¬ (¬ Starred e.dom ∧ ¬ Starred e.dow) := fun hno =>
      hbare.elim (fun hdom => hno.1 (hstar _ hdom)) fun hdow => hno.2 (hstar _ hdow)
    rw [hmatches, h.dayMatches_iff, if_neg (by tauto), Admits, if_neg hstarred]
  · rw [not_or] at hbare
    by_cases hstarred : ¬ Starred e.dom ∧ ¬ Starred e.dow
    · refine iff_of_true (fun t => ?_) (.inr (.inr (.inl hstarred)))
      rw [hmatches, h.dayMatches_iff, if_pos hbare, Admits, if_pos hstarred]
    · have hday : ∀ d : Date, c.dayMatches d = true ↔ Denotes pythonic 1 31 e.dom d.day ∨
          e.DenotesWeekday pythonic ((d.weekday + 1) % 7) := by
        intro d
        rw [h.dayMatches_iff, if_pos hbare]
      constructor
      · intro hall
        refine .inr (.inr (.inr ?_))
        -- a day is admitted by both fields as soon as it is admitted by one
        have hboth : ∀ d : Date, Denotes pythonic 1 12 e.month d.month →
            Denotes pythonic 1 31 e.dom d.day ∨ e.DenotesWeekday pythonic ((d.weekday + 1) % 7) →
            Denotes pythonic 1 31 e.dom d.day ∧
              e.DenotesWeekday pythonic ((d.weekday + 1) % 7) := by
          intro d hmonth hor
          obtain ⟨u, hu, hfrom, hto⟩ := CronSchedule.exists_matches ((h.month _).mpr hmonth)
            ((hday d).mpr hor)
          have hdate : u.date = d := by
            have hhour := u.hour_lt
            have hminute := u.minute_lt
            have hclock : u.clock = (u.date.ordinal * 24 + u.hour) * 60 + u.minute := rfl
            exact Date.ext_ordinal (by omega)
          have hadmits := ((hall u).mp hu).2.2.2
          rwa [if_neg hstarred, hdate] at hadmits
        have hallDays : ∀ d : Date, Denotes pythonic 1 12 e.month d.month →
            Denotes pythonic 1 31 e.dom d.day := by
          intro d hmonth
          have hfirst := c.dow.first_mem
          have hlt : c.dow.first < 7 := Nat.lt_succ_of_le (CronField.le_of_mem hfirst)
          obtain ⟨d', hmonth', hday', hweekday⟩ :=
            exists_day_on_weekday d (Nat.mod_lt (c.dow.first + 6) (show 0 < 7 by omega))
          have hdow : (d'.weekday + 1) % 7 = c.dow.first := by omega
          have hadmits := (hboth d' (hmonth' ▸ hmonth)
            (.inr (hdow ▸ (h.dow _ hlt).mp hfirst))).1
          rwa [hday'] at hadmits
        refine ⟨fun w hw => ?_, hallDays⟩
        have hfirst := c.month.first_mem
        have hbounds := Finset.mem_Icc.mp (c.month.within hfirst)
        obtain ⟨d', hmonth', -, hweekday⟩ := exists_day_on_weekday
          ⟨1, c.month.first, 1, le_rfl, hbounds.1, hbounds.2, le_rfl,
            le_trans (by omega) (daysInMonth_pos ..)⟩ (Nat.mod_lt (w + 6) (show 0 < 7 by omega))
        have hdow : (d'.weekday + 1) % 7 = w := by omega
        have hmonth : Denotes pythonic 1 12 e.month d'.month := hmonth' ▸ (h.month _).mp hfirst
        exact hdow ▸ (hboth d' hmonth (.inl (hallDays d' hmonth))).2
      · intro hsame
        obtain hdom | hdow | hno | ⟨hweek, hallDays⟩ := hsame
        · exact absurd hdom hbare.1
        · exact absurd hdow hbare.2
        · exact absurd hno hstarred
        · intro t
          have hweekday := hweek ((t.date.weekday + 1) % 7) (Nat.mod_lt _ (by omega))
          rw [hmatches, hday, Admits, if_neg hstarred]
          refine and_congr_right fun _ => and_congr_right fun _ => and_congr_right fun hmonth => ?_
          exact iff_of_true (.inr hweekday) ⟨hallDays t.date hmonth, hweekday⟩

/-! ### The documented grammar and the parser -/

variable [PyText]

/-- What the documentation says of an expression. -/
structure MeansVixie (expr : String) : Prop where
  /-- an expression of the grammar is accepted just when it is in range -/
  accepted : ∀ e : CronExpr, e.Documented → e.Writes expr →
    ((∃ c, CronSchedule.parse expr = .ok c) ↔ e.InRange decimal)
  /-- the schedule fires at the times of the expression -/
  times : ∀ (e : CronExpr) (c : CronSchedule), e.Documented → e.Writes expr →
    CronSchedule.parse expr = .ok c → ∀ t, c.matches t = true ↔ e.Admits decimal t
  /-- nothing else is accepted -/
  refused : (∀ e : CronExpr, e.Documented → ¬ e.Writes expr) →
    ∀ c, CronSchedule.parse expr ≠ .ok c

/-- **What an expression means** is what the documentation says just when, in the documented grammar
and in range, its numerals are not too long and its day fields are joined alike, and outside it is
not in range in the looser grammar of the parser. -/
theorem means_vixie_iff (expr : String) : MeansVixie expr ↔
    (∀ e : CronExpr, e.Documented → e.Writes expr → e.InRange decimal →
      e.Short ∧ e.SameDays decimal) ∧
    ((∀ e : CronExpr, e.Documented → ¬ e.Writes expr) →
      ∀ e : CronExpr, e.Loose → e.Writes expr → ¬ e.InRange pythonic) := by
  constructor
  · intro h
    constructor
    -- a documented text that is in range is read, and means what the grammar says
    · intro e hdoc hw hin
      obtain ⟨c, hc⟩ := (h.accepted e hdoc hw).mpr hin
      obtain ⟨hread, -, hdescribes⟩ := parse_eq_ok hdoc.separated hw hc
      have hshort := hdoc.readable_iff.mp hread
      obtain ⟨-, hadmits, hsame⟩ := congr (hdoc.agree hshort)
      refine ⟨hshort, hsame.mpr (hdescribes.matches_iff.mp fun t => ?_)⟩
      rw [h.times e c hdoc hw hc, hadmits]
    -- a text outside of the grammar that `int` can still read is accepted
    · intro hno e hloose hw hin
      obtain ⟨hsep, hread⟩ := loose_iff.mp hloose
      obtain ⟨c, hc⟩ := exists_parse hsep hw hread hin
      exact h.refused hno c hc
  · rintro ⟨hgrammar, hout⟩
    have hparsed : ∀ (e : CronExpr) (c : CronSchedule), e.Documented → e.Writes expr →
        CronSchedule.parse expr = .ok c → e.InRange decimal ∧ e.Describes c := by
      intro e c hdoc hw hc
      obtain ⟨hread, hin, hdescribes⟩ := parse_eq_ok hdoc.separated hw hc
      exact ⟨(congr (hdoc.agree (hdoc.readable_iff.mp hread))).1.mpr hin, hdescribes⟩
    refine ⟨fun e hdoc hw => ⟨?_, fun hin => ?_⟩, fun e c hdoc hw hc t => ?_, fun hno c hc => ?_⟩
    · rintro ⟨c, hc⟩
      exact (hparsed e c hdoc hw hc).1
    · have hshort := (hgrammar e hdoc hw hin).1
      exact exists_parse hdoc.separated hw (hdoc.readable_iff.mpr hshort)
        ((congr (hdoc.agree hshort)).1.mp hin)
    · obtain ⟨hin, hdescribes⟩ := hparsed e c hdoc hw hc
      obtain ⟨hshort, hsame⟩ := hgrammar e hdoc hw hin
      obtain ⟨-, hadmits, hsame'⟩ := congr (hdoc.agree hshort)
      rw [hdescribes.matches_iff.mpr (hsame'.mp hsame) t, hadmits]
    · obtain ⟨e, hsep, hw⟩ := exists_writes hc
      obtain ⟨hread, hin, -⟩ := parse_eq_ok hsep hw hc
      exact hout hno e (loose_iff.mpr ⟨hsep, hread⟩) hw hin

omit [PyText] in
/-- Every second day that is a Monday, as the reference has it; the parser takes every second day
and every Monday. -/
theorem means_vixie_step :
    let _ := PyText.plain
    ¬ MeansVixie "0 0 */2 * 1" := by
  intro _ h
  let e : CronExpr :=
    { minute := [⟨.value ['0'], none⟩]
      hour := [⟨.value ['0'], none⟩]
      dom := [⟨.all, some ['2']⟩]
      month := [⟨.all, none⟩]
      dow := [⟨.value ['1'], none⟩] }
  have hdoc : e.Documented := by
    refine forall_fields.mpr ⟨?_, ?_, ?_, ?_, ?_⟩ <;>
      exact ⟨List.cons_ne_nil _ _, List.forall_mem_singleton.mpr
        ⟨by simp [CronPart.numerals, CronRange.numerals], by simp⟩⟩
  have hw : e.Writes "0 0 */2 * 1" := rfl
  have hparse : ∃ c, CronSchedule.parse "0 0 */2 * 1" = .ok c ∧
      c.matches (.midnight CronSchedule.leapDay) = true := ⟨_, rfl, by decide⟩
  obtain ⟨c, hc, hmatch⟩ := hparse
  have hadmits := (h.times e c hdoc hw hc (.midnight CronSchedule.leapDay)).mp hmatch
  exact absurd hadmits (by decide)

end CronExpr

end Istos
