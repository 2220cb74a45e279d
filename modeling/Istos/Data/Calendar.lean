import Mathlib.Data.Nat.Basic
import Mathlib.Tactic.IntervalCases

/-!
# The Gregorian calendar

A `Date` is a day of the calendar that Python's `datetime` uses, from the year 1 on, and `ordinal`
counts the days up to it.

* `ordinal_next`: the next day is one day later.
* `Date.ext_ordinal`, `sameMonth_of_between`: dates are told apart by their ordinals, and what lies
  between two dates of a month is in that month.
* `exists_same_day`: every day of the year comes back within eight years and a day, also February 29
  over a century that is no leap year.
-/

namespace Calendar

/-- `calendar.isleap`. -/
def IsLeap (year : ℕ) : Prop := year % 4 = 0 ∧ (year % 100 ≠ 0 ∨ year % 400 = 0)

instance : DecidablePred IsLeap := fun _ => inferInstanceAs (Decidable (_ ∧ _))

/-- `_days_in_month`. -/
def daysInMonth (year month : ℕ) : ℕ :=
  if month = 2 then if IsLeap year then 29 else 28
  else if month = 4 ∨ month = 6 ∨ month = 9 ∨ month = 11 then 30 else 31

/-- `_days_before_year`. -/
def daysBeforeYear (year : ℕ) : ℕ :=
  (year - 1) * 365 + (year - 1) / 4 - (year - 1) / 100 + (year - 1) / 400

/-- `_days_before_month`. -/
def daysBeforeMonth (year month : ℕ) : ℕ :=
  [0, 31, 59, 90, 120, 151, 181, 212, 243, 273, 304, 334].getD (month - 1) 0 +
    if 2 < month ∧ IsLeap year then 1 else 0

/-- The days before the first of a month. -/
def monthStart (year month : ℕ) : ℕ := daysBeforeYear year + daysBeforeMonth year month

/-- A `datetime.date`, without the bound on its year. -/
@[ext]
structure Date where
  year : ℕ
  month : ℕ
  day : ℕ
  year_pos : 1 ≤ year
  month_pos : 1 ≤ month
  month_le : month ≤ 12
  day_pos : 1 ≤ day
  day_le : day ≤ daysInMonth year month
  deriving DecidableEq

/-! ### Years and months -/

theorem isLeap_iff {year : ℕ} : IsLeap year ↔ 4 ∣ year ∧ (¬ 100 ∣ year ∨ 400 ∣ year) := by
  simp only [IsLeap, Nat.dvd_iff_mod_eq_zero, ne_eq]

theorem daysBeforeYear_succ {year : ℕ} (h : 1 ≤ year) :
    daysBeforeYear (year + 1) = daysBeforeYear year + if IsLeap year then 366 else 365 := by
  obtain ⟨y, rfl⟩ := Nat.exists_eq_add_of_le' h
  have hle : y / 100 ≤ y / 4 := Nat.div_le_div_left (by omega) (by omega)
  have h100 : 100 ∣ y + 1 → 4 ∣ y + 1 := Nat.dvd_trans (by decide)
  have h400 : 400 ∣ y + 1 → 100 ∣ y + 1 := Nat.dvd_trans (by decide)
  simp only [daysBeforeYear, Nat.add_sub_cancel, Nat.succ_div, isLeap_iff]
  split_ifs <;> omega

theorem daysInMonth_pos (year month : ℕ) : 28 ≤ daysInMonth year month := by
  unfold daysInMonth
  split_ifs <;> omega

theorem daysInMonth_le (year month : ℕ) : daysInMonth year month ≤ 31 := by
  unfold daysInMonth
  split_ifs <;> omega

theorem daysBeforeMonth_succ (year : ℕ) {month : ℕ} (h : 1 ≤ month) (h' : month ≤ 11) :
    daysBeforeMonth year (month + 1) = daysBeforeMonth year month + daysInMonth year month := by
  by_cases hleap : IsLeap year
  · interval_cases month <;> simp [daysBeforeMonth, daysInMonth, hleap]
  · interval_cases month <;> simp [daysBeforeMonth, daysInMonth, hleap]

theorem monthStart_succ (year : ℕ) {month : ℕ} (h : 1 ≤ month) (h' : month ≤ 11) :
    monthStart year (month + 1) = monthStart year month + daysInMonth year month := by
  rw [monthStart, daysBeforeMonth_succ year h h', monthStart, Nat.add_assoc]

theorem monthStart_succ_year {year : ℕ} (h : 1 ≤ year) :
    monthStart (year + 1) 1 = monthStart year 12 + daysInMonth year 12 := by
  rw [monthStart, daysBeforeYear_succ h, monthStart]
  by_cases hleap : IsLeap year
  · simp [daysBeforeMonth, daysInMonth, hleap]
  · simp [daysBeforeMonth, daysInMonth, hleap]

theorem monthStart_le (year : ℕ) {month month' : ℕ} (h : 1 ≤ month) (hle : month ≤ month')
    (h' : month' ≤ 12) : monthStart year month ≤ monthStart year month' := by
  induction month', hle using Nat.le_induction with
  | base => exact le_rfl
  | succ k hk ih =>
    rw [monthStart_succ year (h.trans hk) (by omega)]
    exact (ih (by omega)).trans (Nat.le_add_right ..)

theorem monthStart_year_le {year year' : ℕ} (h : 1 ≤ year) (hle : year ≤ year') :
    monthStart year 1 ≤ monthStart year' 1 := by
  induction year', hle using Nat.le_induction with
  | base => exact le_rfl
  | succ k hk ih =>
    rw [monthStart_succ_year (h.trans hk)]
    have hmonth := monthStart_le k le_rfl (show 1 ≤ 12 by omega) le_rfl
    omega

/-- A month ends before a later one begins. -/
theorem monthEnd_le {year month year' month' : ℕ} (hyear : 1 ≤ year) (hmonth : 1 ≤ month)
    (hmonth' : month ≤ 12) (hother : 1 ≤ month') (hother' : month' ≤ 12)
    (hlt : year < year' ∨ year = year' ∧ month < month') :
    monthStart year month + daysInMonth year month ≤ monthStart year' month' := by
  obtain hlt | ⟨rfl, hlt⟩ := hlt
  · have hend : monthStart year month + daysInMonth year month ≤ monthStart (year + 1) 1 := by
      rw [monthStart_succ_year hyear]
      obtain rfl | hne := eq_or_ne month 12
      · exact le_rfl
      · rw [← monthStart_succ year hmonth (by omega)]
        exact (monthStart_le year (by omega) (by omega) le_rfl).trans (Nat.le_add_right ..)
    calc monthStart year month + daysInMonth year month
        ≤ monthStart (year + 1) 1 := hend
      _ ≤ monthStart year' 1 := monthStart_year_le (by omega) hlt
      _ ≤ monthStart year' month' := monthStart_le year' le_rfl hother hother'
  · rw [← monthStart_succ year hmonth (by omega)]
    exact monthStart_le year (by omega) hlt hother'

namespace Date

/-- `toordinal()`. -/
def ordinal (d : Date) : ℕ := monthStart d.year d.month + d.day

/-- `weekday()`: Monday is 0. -/
def weekday (d : Date) : ℕ := (d.ordinal + 6) % 7

theorem day_le_31 (d : Date) : d.day ≤ 31 := d.day_le.trans (daysInMonth_le ..)

/-- The first of the next month. -/
def nextMonth (d : Date) : Date :=
  if h : d.month = 12 then
    { year := d.year + 1
      month := 1
      day := 1
      year_pos := by omega
      month_pos := le_rfl
      month_le := by omega
      day_pos := le_rfl
      day_le := le_trans (by omega) (daysInMonth_pos ..) }
  else
    { year := d.year
      month := d.month + 1
      day := 1
      year_pos := d.year_pos
      month_pos := by omega
      month_le := lt_of_le_of_ne d.month_le h
      day_pos := le_rfl
      day_le := le_trans (by omega) (daysInMonth_pos ..) }

/-- `date + timedelta(days=1)`. -/
def next (d : Date) : Date :=
  if h : d.day < daysInMonth d.year d.month then
    { d with
      day := d.day + 1
      day_pos := by omega
      day_le := h }
  else d.nextMonth

theorem ordinal_nextMonth (d : Date) :
    d.nextMonth.ordinal = monthStart d.year d.month + daysInMonth d.year d.month + 1 := by
  have hlast := d.month_le
  unfold nextMonth
  split_ifs with h
  · rw [ordinal, monthStart_succ_year d.year_pos, h]
  · rw [ordinal, monthStart_succ d.year d.month_pos (by omega)]

/-- The next day is one day later. -/
theorem ordinal_next (d : Date) : d.next.ordinal = d.ordinal + 1 := by
  have hday := d.day_le
  unfold next
  split_ifs with h
  · rfl
  · rw [ordinal_nextMonth, ordinal]
    omega

/-- A date lies within its month. -/
theorem monthStart_lt_ordinal (d : Date) : monthStart d.year d.month < d.ordinal :=
  Nat.lt_add_of_pos_right d.day_pos

theorem ordinal_le (d : Date) :
    d.ordinal ≤ monthStart d.year d.month + daysInMonth d.year d.month :=
  Nat.add_le_add_left d.day_le _

/-- A month is before another one, or they are the same, or it is after. -/
theorem lt_of_month_lt {d e : Date} (h : d.year < e.year ∨ d.year = e.year ∧ d.month < e.month) :
    d.ordinal < e.ordinal :=
  calc d.ordinal ≤ monthStart d.year d.month + daysInMonth d.year d.month := d.ordinal_le
    _ ≤ monthStart e.year e.month :=
      monthEnd_le d.year_pos d.month_pos d.month_le e.month_pos e.month_le h
    _ < e.ordinal := e.monthStart_lt_ordinal

/-- What lies between a date and the end of its month is in that month. -/
theorem sameMonth_of_between {d e : Date} (h : d.ordinal ≤ e.ordinal)
    (h' : e.ordinal < d.nextMonth.ordinal) : e.year = d.year ∧ e.month = d.month := by
  rw [ordinal_nextMonth] at h'
  rcases lt_trichotomy e.year d.year with hlt | heq | hlt
  · exact absurd (lt_of_month_lt (.inl hlt)) (not_lt.mpr h)
  · refine ⟨heq, ?_⟩
    rcases lt_trichotomy e.month d.month with hlt | heq' | hlt
    · exact absurd (lt_of_month_lt (.inr ⟨heq, hlt⟩)) (not_lt.mpr h)
    · exact heq'
    · have hend := monthEnd_le d.year_pos d.month_pos d.month_le e.month_pos e.month_le
        (.inr ⟨heq.symm, hlt⟩)
      have hstart := e.monthStart_lt_ordinal
      omega
  · have hend := monthEnd_le d.year_pos d.month_pos d.month_le e.month_pos e.month_le (.inl hlt)
    have hstart := e.monthStart_lt_ordinal
    omega

/-- An ordinal names one date. -/
theorem ext_ordinal {d e : Date} (h : d.ordinal = e.ordinal) : d = e := by
  have hnext : e.ordinal < d.nextMonth.ordinal := by
    rw [← h, ordinal_nextMonth]
    exact Nat.lt_succ_of_le d.ordinal_le
  obtain ⟨hyear, hmonth⟩ := sameMonth_of_between (le_of_eq h) hnext
  refine Date.ext hyear.symm hmonth.symm ?_
  rw [ordinal, ordinal, hyear, hmonth] at h
  exact Nat.add_left_cancel h

theorem lt_nextMonth (d : Date) : d.ordinal < d.nextMonth.ordinal := by
  rw [ordinal_nextMonth]
  exact Nat.lt_succ_of_le d.ordinal_le

theorem nextMonth_le (d : Date) : d.nextMonth.ordinal ≤ d.ordinal + 31 := by
  have hstart := d.monthStart_lt_ordinal
  have hlong := daysInMonth_le d.year d.month
  rw [ordinal_nextMonth]
  omega

end Date

/-! ### What comes back -/

theorem monthStart_one (year : ℕ) : monthStart year 1 = daysBeforeYear year := by
  simp [monthStart, daysBeforeMonth]

theorem daysBeforeYear_le {year year' : ℕ} (h : 1 ≤ year) (hle : year ≤ year') :
    daysBeforeYear year ≤ daysBeforeYear year' := by
  rw [← monthStart_one, ← monthStart_one]
  exact monthStart_year_le h hle

namespace Date

theorem daysBeforeYear_lt (d : Date) : daysBeforeYear d.year < d.ordinal := by
  have hfirst := monthStart_le d.year le_rfl d.month_pos d.month_le
  rw [monthStart_one] at hfirst
  exact hfirst.trans_lt d.monthStart_lt_ordinal

theorem ordinal_le_year (d : Date) : d.ordinal ≤ daysBeforeYear (d.year + 1) := by
  rw [← monthStart_one]
  exact d.ordinal_le.trans (monthEnd_le d.year_pos d.month_pos d.month_le le_rfl (by omega)
    (.inl (Nat.lt_succ_self _)))

theorem year_le_of_ordinal {d : Date} {year : ℕ} (h : d.ordinal ≤ daysBeforeYear (year + 1)) :
    d.year ≤ year := by
  by_contra hlt
  have hmono := daysBeforeYear_le (Nat.succ_pos year) (not_le.mp hlt)
  exact absurd (d.daysBeforeYear_lt.trans_le h) (not_lt.mpr hmono)

end Date

/-- The ordinals of a year lie within 366 days. -/
theorem Date.ordinal_bounds (d : Date) : daysBeforeYear d.year < d.ordinal ∧
    d.ordinal ≤ daysBeforeYear d.year + if IsLeap d.year then 366 else 365 :=
  ⟨d.daysBeforeYear_lt, (daysBeforeYear_succ d.year_pos) ▸ d.ordinal_le_year⟩

/-- Up to the next leap year each year has 365 days, but this one may have another. -/
theorem daysBeforeYear_add {year : ℕ} (h : 1 ≤ year) {k : ℕ} (hk : 1 ≤ k)
    (hnone : ∀ j, 1 ≤ j → j < k → ¬ IsLeap (year + j)) :
    daysBeforeYear (year + k) = daysBeforeYear year + 365 * k + if IsLeap year then 1 else 0 := by
  induction k, hk using Nat.le_induction with
  | base =>
    rw [daysBeforeYear_succ h]
    split_ifs <;> omega
  | succ k hk ih =>
    rw [← Nat.add_assoc, daysBeforeYear_succ (by omega), if_neg (hnone k hk (Nat.lt_succ_self k)),
      ih fun j hj hlt => hnone j hj (hlt.trans (Nat.lt_succ_self k))]
    omega

/-- The next leap year: eight years later where a century that is no leap year comes between. -/
theorem exists_next_leap (year : ℕ) : ∃ k, 1 ≤ k ∧ k ≤ (if IsLeap year then 8 else 7) ∧
    IsLeap (year + k) ∧ ∀ j, 1 ≤ j → j < k → ¬ IsLeap (year + j) := by
  by_cases hnext : IsLeap (year + (4 - year % 4))
  · refine ⟨4 - year % 4, by omega, by split_ifs <;> omega, hnext, fun j hj hlt hleap => ?_⟩
    have hfour := hleap.1
    omega
  · have hcentury : (year + (4 - year % 4)) % 100 = 0 := by
      by_contra hne
      exact hnext ⟨by omega, .inl hne⟩
    refine ⟨4 - year % 4 + 4, by omega, ?_, ⟨by omega, .inl (by omega)⟩, fun j hj hlt hleap => ?_⟩
    · split_ifs with hleap
      · omega
      · have hne : year % 4 ≠ 0 := fun hfour => hleap ⟨hfour, .inl (by omega)⟩
        omega
    · have hfour := hleap.1
      obtain rfl : j = 4 - year % 4 := by omega
      exact hnext hleap

/-- The next February 29 comes within eight years and a day. -/
theorem exists_leap_day (d : Date) : ∃ e : Date, e.month = 2 ∧ e.day = 29 ∧
    d.ordinal < e.ordinal ∧ e.ordinal ≤ d.ordinal + 2921 := by
  have hleapDay : ∀ year, 1 ≤ year → IsLeap year → ∃ e : Date, e.month = 2 ∧ e.day = 29 ∧
      e.ordinal = daysBeforeYear year + 60 := by
    intro year hpos hleap
    exact ⟨⟨year, 2, 29, hpos, by omega, by omega, by omega, by simp [daysInMonth, hleap]⟩,
      rfl, rfl, rfl⟩
  have hfrom := d.ordinal_bounds.1
  have hto := d.ordinal_bounds.2
  by_cases hearly : IsLeap d.year ∧ d.ordinal < daysBeforeYear d.year + 60
  · obtain ⟨e, hmonth, hday, he⟩ := hleapDay d.year d.year_pos hearly.1
    exact ⟨e, hmonth, hday, by omega, by omega⟩
  · obtain ⟨k, hk, hle, hleap, hnone⟩ := exists_next_leap d.year
    obtain ⟨e, hmonth, hday, he⟩ := hleapDay (d.year + k) (by omega) hleap
    rw [daysBeforeYear_add d.year_pos hk hnone] at he
    refine ⟨e, hmonth, hday, ?_, ?_⟩
    · split_ifs at he hto <;> omega
    · split_ifs at he hle with hthis
      · have hlate : daysBeforeYear d.year + 60 ≤ d.ordinal :=
          not_lt.mp fun hlt => hearly ⟨hthis, hlt⟩
        omega
      · omega

/-- A date of the next year. -/
theorem next_year_bounds {d e : Date} (h : e.year = d.year + 1) :
    d.ordinal < e.ordinal ∧ e.ordinal ≤ d.ordinal + 2921 := by
  have hfrom := d.ordinal_bounds.1
  have hto := e.ordinal_bounds.2
  refine ⟨Date.lt_of_month_lt (.inl (by omega)), ?_⟩
  rw [h, daysBeforeYear_succ d.year_pos] at hto
  split_ifs at hto <;> omega

/-- Every day of the year comes back within eight years and a day. -/
theorem exists_same_day (d e : Date) : ∃ e' : Date, e'.month = e.month ∧ e'.day = e.day ∧
    d.ordinal < e'.ordinal ∧ e'.ordinal ≤ d.ordinal + 2921 := by
  by_cases hleap : e.month = 2 ∧ e.day = 29
  · obtain ⟨e', hmonth, hday, hbounds⟩ := exists_leap_day d
    exact ⟨e', hmonth.trans hleap.1.symm, hday.trans hleap.2.symm, hbounds⟩
  · have hday : e.day ≤ daysInMonth (d.year + 1) e.month := by
      have hle := e.day_le
      unfold daysInMonth at hle ⊢
      split_ifs at hle ⊢ <;> omega
    exact ⟨{ e with year := d.year + 1, year_pos := by omega, day_le := hday }, rfl, rfl,
      next_year_bounds rfl⟩

/-- Every weekday comes back in every month within two years. -/
theorem exists_same_weekday (d e : Date) : ∃ e' : Date, e'.month = e.month ∧
    e'.weekday = e.weekday ∧ d.ordinal < e'.ordinal ∧ e'.ordinal ≤ d.ordinal + 2921 := by
  have hseven : e.weekday < 7 := Nat.mod_lt _ (by omega)
  have hlong := daysInMonth_pos (d.year + 1) e.month
  -- one of the first seven days of the month
  obtain ⟨k, hpos, hle, hk⟩ : ∃ k, 1 ≤ k ∧ k ≤ 7 ∧
      (monthStart (d.year + 1) e.month + k + 6) % 7 = e.weekday :=
    ⟨(e.weekday + 7 - monthStart (d.year + 1) e.month % 7) % 7 + 1, by omega, by omega, by omega⟩
  let e' : Date :=
    { e with
      year := d.year + 1
      day := k
      year_pos := by omega
      day_pos := hpos
      day_le := by omega }
  have hyear : e'.year = d.year + 1 := rfl
  exact ⟨e', rfl, hk, next_year_bounds hyear⟩

/-- A year that is no leap year, or one that is, begins on any weekday. -/
theorem exists_common_year {r : ℕ} (hr : r < 7) :
    ∃ year, 1 ≤ year ∧ ¬ IsLeap year ∧ daysBeforeYear year % 7 = r := by
  have hall : ∀ r < 7, ∃ year ∈ List.range' 2001 11, 1 ≤ year ∧ ¬ IsLeap year ∧
      daysBeforeYear year % 7 = r := by decide
  obtain ⟨year, -, hyear⟩ := hall r hr
  exact ⟨year, hyear⟩

theorem exists_leap_year {r : ℕ} (hr : r < 7) :
    ∃ year, 1 ≤ year ∧ IsLeap year ∧ daysBeforeYear year % 7 = r := by
  have hall : ∀ r < 7, ∃ k ∈ List.range 7, IsLeap (2004 + 4 * k) ∧
      daysBeforeYear (2004 + 4 * k) % 7 = r := by decide
  obtain ⟨k, -, hyear⟩ := hall r hr
  exact ⟨2004 + 4 * k, by omega, hyear⟩

/-- Every day of the year falls on every weekday. -/
theorem exists_day_on_weekday (d : Date) {w : ℕ} (hw : w < 7) :
    ∃ e : Date, e.month = d.month ∧ e.day = d.day ∧ e.weekday = w := by
  -- the year that begins so many days before `w`
  have hyear : ∀ days, ∃ r, r < 7 ∧ ∀ year, daysBeforeYear year % 7 = r →
      (daysBeforeYear year + days + d.day + 6) % 7 = w := fun days =>
    ⟨(w + 7 * (days + d.day + 6) - (days + d.day + 6)) % 7, Nat.mod_lt _ (by omega),
      fun year hr => by omega⟩
  by_cases hleap : d.month = 2 ∧ d.day = 29
  · obtain ⟨r, hr, hweekday⟩ := hyear 31
    obtain ⟨year, hpos, hyear, hr⟩ := exists_leap_year hr
    have hday : d.day ≤ daysInMonth year d.month := by
      rw [hleap.1, hleap.2]
      simp [daysInMonth, hyear]
    refine ⟨{ d with year := year, year_pos := hpos, day_le := hday }, rfl, rfl, ?_⟩
    have hmonth : daysBeforeMonth year d.month = 31 := by
      rw [hleap.1]
      simp [daysBeforeMonth]
    rw [Date.weekday, Date.ordinal, monthStart, hmonth]
    exact hweekday year hr
  · obtain ⟨r, hr, hweekday⟩ := hyear
      ([0, 31, 59, 90, 120, 151, 181, 212, 243, 273, 304, 334].getD (d.month - 1) 0)
    obtain ⟨year, hpos, hyear, hr⟩ := exists_common_year hr
    have hday : d.day ≤ daysInMonth year d.month := by
      have hle := d.day_le
      unfold daysInMonth at hle ⊢
      split_ifs at hle ⊢ <;> omega
    refine ⟨{ d with year := year, year_pos := hpos, day_le := hday }, rfl, rfl, ?_⟩
    rw [Date.weekday, Date.ordinal, monthStart, daysBeforeMonth,
      if_neg fun h => hyear h.2, Nat.add_zero]
    exact hweekday year hr

end Calendar
