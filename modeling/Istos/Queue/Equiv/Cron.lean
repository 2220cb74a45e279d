import Istos.Queue.Cron

/-!
# The next firing is the least match

Each jump of the search passes no time that matches (`Jumps.passes`), so the time that the search
finds is the least match.  Eight years are enough: a day that the day and month fields admit comes
back within eight years and a day, since these fields look at the month and either at the day of the
month or at the weekday (`exists_dayMatches`).
-/

namespace Calendar

/-- A time on the minute is later than a moment. -/
def Moment.Before (m : Moment) (t : Time) : Prop := m.micros < t.clock * 60 * 1000000

/-- The minute after a moment is the first time on the minute that is later. -/
theorem Moment.before_iff {m : Moment} {t : Time} : m.Before t ↔ m.nextMinute.clock ≤ t.clock := by
  have hsecond := m.second_lt
  have hmicrosecond := m.microsecond_lt
  rw [Time.clock_nextMinute, Moment.Before, Moment.micros]
  omega

end Calendar

namespace Istos

open Calendar

namespace CronSchedule

variable {c : CronSchedule} {t t' u : Time}

/-! ### One jump -/

theorem matches_iff : c.matches t = true ↔ t.minute ∈ c.minute.values ∧ t.hour ∈ c.hour.values ∧
    t.date.month ∈ c.month.values ∧ c.dayMatches t.date = true := by
  unfold CronSchedule.matches
  split
  · refine iff_of_false Bool.false_ne_true fun hall => ?_
    tauto
  · tauto

theorem matches_of_jump (h : c.jump t = none) : c.matches t = true := by
  unfold jump at h
  rw [matches_iff]
  split at h
  · cases h
  · next hmonth =>
    split at h
    · cases h
    · next hday =>
      split at h
      · split at h <;> cases h
      · next hhour =>
        split at h
        · split at h <;> cases h
        · next hminute =>
          rw [not_not] at hmonth hhour hminute
          exact ⟨hminute, hhour, hmonth, Bool.not_eq_false _ ▸ hday⟩

/-- **No jump passes a match**. -/
theorem Jumps.passes (h : c.Jumps t t') (hfrom : t.clock ≤ u.clock) (hto : u.clock < t'.clock) :
    c.matches u = false := by
  have hhour := t.hour_lt
  have hminute := t.minute_lt
  have hhour' := u.hour_lt
  have hminute' := u.minute_lt
  rw [← Bool.not_eq_true, matches_iff]
  rintro ⟨huminute, huhour, humonth, huday⟩
  have ht : t.clock = (t.date.ordinal * 24 + t.hour) * 60 + t.minute := rfl
  have hu : u.clock = (u.date.ordinal * 24 + u.hour) * 60 + u.minute := rfl
  cases h with
  | month hnot hclock =>
    have hmonth := Date.sameMonth_of_between (d := t.date) (e := u.date) (by omega) (by omega)
    exact hnot (hmonth.2 ▸ humonth)
  | day hnot hclock =>
    have hdate : u.date = t.date := Date.ext_ordinal (by omega)
    rw [hdate, hnot] at huday
    cases huday
  | @hour hour hnot hlater hclock =>
    obtain ⟨hmem, hlt, hleast⟩ := CronField.later_eq_some hlater
    have hbound := CronField.le_of_mem hmem
    have hfirst := CronField.first_le huminute
    have hne : u.hour ≠ t.hour := fun heq => hnot (heq ▸ huhour)
    have hle := hleast u.hour huhour
    omega
  | nextDay hnot hlater hclock =>
    have hfirst := CronField.first_le huminute
    have hfirst' := CronField.first_le huhour
    have hne : u.hour ≠ t.hour := fun heq => hnot (heq ▸ huhour)
    have hlast := CronField.later_eq_none hlater u.hour huhour
    omega
  | @minute minute hnot hlater hclock =>
    obtain ⟨hmem, hlt, hleast⟩ := CronField.later_eq_some hlater
    have hbound := CronField.le_of_mem hmem
    have hne : u.minute ≠ t.minute := fun heq => hnot (heq ▸ huminute)
    have hle := hleast u.minute huminute
    omega
  | nextHour hnot hlater hclock =>
    have hfirst := CronField.first_le huminute
    have hne : u.minute ≠ t.minute := fun heq => hnot (heq ▸ huminute)
    have hlast := CronField.later_eq_none hlater u.minute huminute
    omega

/-! ### A day comes back -/

theorem dayMatches_iff {d : Date} : c.dayMatches d = true ↔
    if c.dom.restricted = true ∧ c.dow.restricted = true then
      d.day ∈ c.dom.values ∨ (d.weekday + 1) % 7 ∈ c.dow.values
    else d.day ∈ c.dom.values ∧ (d.weekday + 1) % 7 ∈ c.dow.values := by
  unfold dayMatches
  cases c.dom.restricted <;> cases c.dow.restricted <;> simp

theorem day_mem (h : c.dom.restricted = false) (d : Date) : d.day ∈ c.dom.values := by
  rw [c.dom.full h]
  exact Finset.mem_Icc.mpr ⟨d.day_pos, d.day_le_31⟩

theorem weekday_mem (h : c.dow.restricted = false) (d : Date) :
    (d.weekday + 1) % 7 ∈ c.dow.values := by
  rw [c.dow.full h]
  exact Finset.mem_Icc.mpr ⟨Nat.zero_le _, Nat.le_of_lt_succ (Nat.mod_lt _ (by omega))⟩

/-- A day that the day field of the month or the weekday admits is admitted whenever it comes back.
-/
theorem dayMatches_cases {d : Date} (h : c.dayMatches d = true) :
    (∀ e : Date, e.day = d.day → c.dayMatches e = true) ∨
      ∀ e : Date, e.weekday = d.weekday → c.dayMatches e = true := by
  simp only [dayMatches_iff] at h ⊢
  cases hdom : c.dom.restricted with
  | false =>
    refine .inr fun e he => ?_
    rw [hdom, if_neg (by simp)] at h
    rw [if_neg (by simp), he]
    exact ⟨day_mem hdom e, h.2⟩
  | true =>
    cases hdow : c.dow.restricted with
    | false =>
      refine .inl fun e he => ?_
      rw [hdom, hdow, if_neg (by simp)] at h
      rw [if_neg (by simp), he]
      exact ⟨h.1, weekday_mem hdow e⟩
    | true =>
      rw [hdom, hdow, if_pos ⟨rfl, rfl⟩] at h
      obtain h | h := h
      · refine .inl fun e he => ?_
        rw [if_pos ⟨rfl, rfl⟩, he]
        exact .inl h
      · refine .inr fun e he => ?_
        rw [if_pos ⟨rfl, rfl⟩, he]
        exact .inr h

/-- A day that the day and month fields admit comes back within eight years and a day. -/
theorem exists_dayMatches {d : Date} (hmonth : d.month ∈ c.month.values)
    (hday : c.dayMatches d = true) (e : Date) : ∃ e' : Date, e'.month ∈ c.month.values ∧
      c.dayMatches e' = true ∧ e.ordinal < e'.ordinal ∧ e'.ordinal ≤ e.ordinal + 2921 := by
  obtain hback | hback := dayMatches_cases hday
  · obtain ⟨e', hmonth', hday', hbounds⟩ := exists_same_day e d
    exact ⟨e', hmonth' ▸ hmonth, hback e' hday', hbounds⟩
  · obtain ⟨e', hmonth', hday', hbounds⟩ := exists_same_weekday e d
    exact ⟨e', hmonth' ▸ hmonth, hback e' hday', hbounds⟩

/-- On such a day some time matches. -/
theorem exists_matches {d : Date} (hmonth : d.month ∈ c.month.values)
    (hday : c.dayMatches d = true) :
    ∃ u, c.matches u = true ∧ d.ordinal * 24 * 60 ≤ u.clock ∧
      u.clock < (d.ordinal + 1) * 24 * 60 := by
  have hminute : c.minute.first ≤ 59 := CronField.le_of_mem c.minute.first_mem
  have hhour : c.hour.first ≤ 23 := CronField.le_of_mem c.hour.first_mem
  refine ⟨⟨d, c.hour.first, c.minute.first, by omega, by omega⟩, ?_, ?_, ?_⟩
  · exact matches_iff.mpr ⟨c.minute.first_mem, c.hour.first_mem, hmonth, hday⟩
  · dsimp only [Time.clock]
    omega
  · dsimp only [Time.clock]
    omega

/-! ### The search -/

/-- What the search from a time finds, up to its horizon. -/
inductive Finds (c : CronSchedule) (horizon : ℕ) (t : Time) : Except CronFailure Time → Prop
  | found {r : Time} (hmatch : c.matches r = true) (hfrom : t.clock ≤ r.clock)
    (hleast : ∀ u, t.clock ≤ u.clock → u.clock < r.clock → c.matches u = false) :
    Finds c horizon t (.ok r)
  | late {text : String}
    (hnone : ∀ u, t.clock ≤ u.clock → u.clock < horizon → c.matches u = false) :
    Finds c horizon t (.error (.cron text))
  | overflow {s s' : Time} (hs : s.clock < horizon) (hjump : c.Jumps s s')
    (hyear : 9999 < s'.date.year) : Finds c horizon t (.error .overflow)

/-- What is found after a jump is found before it. -/
theorem Finds.of_jump {horizon : ℕ} {x : Except CronFailure Time} (hjump : c.Jumps t t')
    (h : Finds c horizon t' x) : Finds c horizon t x := by
  have hlt := hjump.clock_lt.1
  cases h with
  | found hmatch hfrom hleast =>
    refine .found hmatch (hlt.le.trans hfrom) fun u hu hur => ?_
    by_cases hpassed : u.clock < t'.clock
    · exact hjump.passes hu hpassed
    · exact hleast u (not_lt.mp hpassed) hur
  | late hnone =>
    refine .late fun u hu huh => ?_
    by_cases hpassed : u.clock < t'.clock
    · exact hjump.passes hu hpassed
    · exact hnone u (not_lt.mp hpassed) huh
  | overflow hs hjump' hyear => exact .overflow hs hjump' hyear

variable [PyText]

/-- **The search** finds the least match. -/
theorem finds_search (c : CronSchedule) (horizon : ℕ) (t : Time) :
    Finds c horizon t (c.search horizon t) := by
  fun_induction search c horizon t with
  | case1 t hlt hjump =>
    exact .found (matches_of_jump hjump) le_rfl fun u hu hut => absurd hut (not_lt.mpr hu)
  | case2 t hlt t' hjump hyear ih => exact ih.of_jump (jumps hjump)
  | case3 t hlt t' hjump hyear => exact .overflow hlt (jumps hjump) (not_le.mp hyear)
  | case4 t hlt => exact .late fun u hu hlate => absurd (hu.trans_lt hlate) hlt

/-! ### The next firing -/

omit [PyText] in
/-- Where a day is admitted, some time matches before the horizon. -/
theorem exists_matches_soon {d : Date} (hmonth : d.month ∈ c.month.values)
    (hday : c.dayMatches d = true) (t : Time) : ∃ u, c.matches u = true ∧ t.clock ≤ u.clock ∧
      u.clock < t.clock + 366 * 8 * 24 * 60 := by
  obtain ⟨e, hmonth', hday', hlt, hle⟩ := exists_dayMatches hmonth hday t.date
  obtain ⟨u, hmatch, hfrom, hto⟩ := exists_matches hmonth' hday'
  have hhour := t.hour_lt
  have hminute := t.minute_lt
  have ht : t.clock = (t.date.ordinal * 24 + t.hour) * 60 + t.minute := rfl
  exact ⟨u, hmatch, by omega, by omega⟩

/-- Up to the year 9990 the search stays within the range of `datetime`. -/
theorem nextAfter_eq_search (c : CronSchedule) {after : Moment} (hyear : after.date.year ≤ 9990) :
    c.nextAfter after =
        c.search (after.nextMinute.clock + 366 * 8 * 24 * 60) after.nextMinute ∧
      c.nextAfter after ≠ .error .overflow := by
  have hnine : daysBeforeYear 9991 + 3000 ≤ daysBeforeYear 10000 := by decide
  have hafter : after.date.ordinal ≤ daysBeforeYear 9991 :=
    after.date.ordinal_le_year.trans
      (daysBeforeYear_le (Nat.succ_pos _) (show after.date.year + 1 ≤ 9991 by omega))
  have hhour := after.hour_lt
  have hminute := after.minute_lt
  have hclock : after.clock = (after.date.ordinal * 24 + after.hour) * 60 + after.minute := rfl
  have hnext := after.clock_nextMinute
  have hhour' := after.nextMinute.hour_lt
  have hminute' := after.nextMinute.minute_lt
  have hclock' : after.nextMinute.clock = (after.nextMinute.date.ordinal * 24 +
      after.nextMinute.hour) * 60 + after.nextMinute.minute := rfl
  have heq : c.nextAfter after =
      c.search (after.nextMinute.clock + 366 * 8 * 24 * 60) after.nextMinute := by
    unfold nextAfter
    rw [if_pos (by omega)]
  refine ⟨heq, fun hoverflow => ?_⟩
  have hfinds := finds_search c (after.nextMinute.clock + 366 * 8 * 24 * 60) after.nextMinute
  rw [← heq, hoverflow] at hfinds
  cases hfinds with
  | @overflow s s' hs hjump hlate =>
    have hfar := hjump.clock_lt.2
    have hs' : s.clock = (s.date.ordinal * 24 + s.hour) * 60 + s.minute := rfl
    have hs'' : s'.clock = (s'.date.ordinal * 24 + s'.hour) * 60 + s'.minute := rfl
    have hyear' : s'.date.year ≤ 9999 :=
      Date.year_le_of_ordinal (show s'.date.ordinal ≤ daysBeforeYear 10000 by omega)
    omega

/-- **The next firing is the least match**: where some later time matches, `next_after` returns the
least one; it raises a `CronError` only where no day of the calendar is admitted by the day and
month fields, and up to the year 9990 it never leaves the range of `datetime`. -/
theorem next_after_least (c : CronSchedule) (after : Moment) (hyear : after.date.year ≤ 9990) :
    ((∃ t, after.Before t ∧ c.matches t = true) →
      ∃ r, c.nextAfter after = .ok r ∧ after.Before r ∧ c.matches r = true ∧
        ∀ t, after.Before t → c.matches t = true → r.clock ≤ t.clock) ∧
    (∀ error, c.nextAfter after = .error (.cron error) →
      ∀ d : Date, ¬ (d.month ∈ c.month.values ∧ c.dayMatches d = true)) ∧
    c.nextAfter after ≠ .error .overflow := by
  obtain ⟨heq, hrange⟩ := c.nextAfter_eq_search hyear
  have hfinds := finds_search c (after.nextMinute.clock + 366 * 8 * 24 * 60) after.nextMinute
  rw [← heq] at hfinds
  -- a date that matches at all comes back within the span that is searched
  have hsoon : ∀ d : Date, d.month ∈ c.month.values → c.dayMatches d = true →
      ∀ error, c.nextAfter after ≠ .error (.cron error) := by
    intro d hmonth hday error hlate
    obtain ⟨u, hmatch, hfrom, hto⟩ := exists_matches_soon hmonth hday after.nextMinute
    rw [hlate] at hfinds
    cases hfinds with
    | late hnone => exact Bool.noConfusion (hmatch.symm.trans (hnone u hfrom hto))
  refine ⟨?_, fun error hlate d hd => hsoon d hd.1 hd.2 error hlate, hrange⟩
  rintro ⟨t, -, hmatch⟩
  obtain ⟨-, -, hmonth, hday⟩ := matches_iff.mp hmatch
  cases hresult : c.nextAfter after with
  | error failure =>
    cases failure with
    | cron error => exact absurd hresult (hsoon t.date hmonth hday error)
    | overflow => exact absurd hresult hrange
  | ok r =>
    rw [hresult] at hfinds
    cases hfinds with
    | found hmatch' hfrom hleast =>
      refine ⟨r, rfl, Moment.before_iff.mpr hfrom, hmatch', fun u hu humatch => ?_⟩
      by_contra hlt
      have hpassed := hleast u (Moment.before_iff.mp hu) (not_le.mp hlt)
      exact Bool.noConfusion (humatch.symm.trans hpassed)

/-- A morning in March 2096. -/
def springMorning : Moment :=
  ⟨⟨⟨2096, 3, 1, by decide, by decide, by decide, by decide, by decide⟩,
      9, 30, by decide, by decide⟩,
    15, 0, by decide, by decide⟩

/-- The next February 29, since 2100 has none. -/
def leapDay : Date := ⟨2104, 2, 29, by decide, by decide, by decide, by decide, by decide⟩

omit [PyText] in
theorem next_after_least_leapDay :
    let _ := PyText.plain
    ∃ c, parse "0 0 29 2 *" = .ok c ∧ ∃ r, c.nextAfter springMorning = .ok r ∧
      c.matches r = true ∧ r.clock ≤ (Time.midnight leapDay).clock := by
  intro _
  have hbefore : springMorning.Before (.midnight leapDay) := by
    unfold Moment.Before
    decide
  have hparse : ∃ c, parse "0 0 29 2 *" = .ok c ∧ c.matches (.midnight leapDay) = true :=
    ⟨_, rfl, by decide⟩
  obtain ⟨c, hc, hmatch⟩ := hparse
  obtain ⟨r, hr, -, hmatch', hleast⟩ :=
    (next_after_least c springMorning (by decide)).1 ⟨.midnight leapDay, hbefore, hmatch⟩
  exact ⟨c, hc, r, hr, hmatch', hleast (.midnight leapDay) hbefore hmatch⟩

end CronSchedule

end Istos
