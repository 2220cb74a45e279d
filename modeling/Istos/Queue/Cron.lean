import Istos.Codec.PyInt
import Istos.Codec.PyText
import Istos.Data.Calendar
import Istos.Security.Authz
import Mathlib.Data.Finset.Max
import Mathlib.Order.Interval.Finset.Nat

/-!
# Cron expressions

A `CronSchedule` is a parsed expression of five fields.  `nextAfter` searches for its next firing:
at a time that does not match it jumps to the next month, day, hour or minute that may, for eight
years at most.  A time is a `datetime` without time zone.
-/

namespace Calendar

/-- A `datetime` on the minute. -/
@[ext]
structure Time where
  date : Date
  hour : ℕ
  minute : ℕ
  hour_lt : hour < 24
  minute_lt : minute < 60
  deriving DecidableEq

/-- A `datetime`. -/
structure Moment extends Time where
  second : ℕ
  microsecond : ℕ
  second_lt : second < 60
  microsecond_lt : microsecond < 1000000

namespace Time

/-- The minutes since the calendar began. -/
def clock (t : Time) : ℕ := (t.date.ordinal * 24 + t.hour) * 60 + t.minute

/-- `t.replace(hour=0, minute=0)` on a date. -/
def midnight (date : Date) : Time := ⟨date, 0, 0, by omega, by omega⟩

@[simp]
theorem clock_midnight (date : Date) : (midnight date).clock = date.ordinal * 24 * 60 := rfl

/-- `t + timedelta(hours=1)`. -/
def nextHour (t : Time) : Time :=
  if h : t.hour < 23 then { t with hour := t.hour + 1, hour_lt := by omega }
  else { t with date := t.date.next, hour := 0, hour_lt := by omega }

/-- `t + timedelta(minutes=1)`. -/
def nextMinute (t : Time) : Time :=
  if h : t.minute < 59 then { t with minute := t.minute + 1, minute_lt := by omega }
  else { t.nextHour with minute := 0, minute_lt := by omega }

theorem clock_nextHour (t : Time) : t.nextHour.clock = t.clock + 60 := by
  have hhour := t.hour_lt
  unfold nextHour
  split_ifs with h
  · dsimp only [clock]
    omega
  · dsimp only [clock]
    rw [Date.ordinal_next]
    omega

/-- The next minute is one minute later. -/
theorem clock_nextMinute (t : Time) : t.nextMinute.clock = t.clock + 1 := by
  have hminute := t.minute_lt
  unfold nextMinute
  split_ifs with h
  · rfl
  · have hhour := t.clock_nextHour
    have hkept : t.nextHour.minute = t.minute := by
      unfold nextHour
      split_ifs <;> rfl
    unfold clock at hhour ⊢
    rw [hkept] at hhour
    dsimp only
    omega

end Time

/-- The microseconds since the calendar began. -/
def Moment.micros (m : Moment) : ℕ := (m.clock * 60 + m.second) * 1000000 + m.microsecond

end Calendar

namespace Istos

open Calendar

/-! ### Fields -/

/-- The values of a field. -/
@[ext]
structure CronField (lo hi : ℕ) where
  values : Finset ℕ
  nonempty : values.Nonempty
  within : values ⊆ Finset.Icc lo hi
  deriving DecidableEq

namespace CronField

variable {lo hi : ℕ}

/-- `values.update(…)`. -/
def union (f g : CronField lo hi) : CronField lo hi :=
  ⟨f.values ∪ g.values, f.nonempty.mono Finset.subset_union_left,
    Finset.union_subset f.within g.within⟩

/-- `range(start, stop + 1, step)`, if it is within the bounds and not empty. -/
def range (lo hi : ℕ) (start stop step : ℤ) : Option (CronField lo hi) :=
  if h : step < 1 ∨ start < lo ∨ hi < stop ∨ stop < start then none
  else
    some
      { values := (Finset.Icc start.toNat stop.toNat).filter fun n =>
          step.toNat ∣ n - start.toNat
        nonempty := ⟨start.toNat, Finset.mem_filter.mpr
          ⟨Finset.mem_Icc.mpr ⟨le_rfl, by omega⟩, by rw [Nat.sub_self]; exact Nat.dvd_zero _⟩⟩
        within := (Finset.filter_subset _ _).trans (Finset.Icc_subset_Icc (by omega) (by omega)) }

/-- `sorted(values)[0]`. -/
def first (f : CronField lo hi) : ℕ := f.values.min' f.nonempty

/-- The first of the sorted values after `n`, if there is one. -/
def later (f : CronField lo hi) (n : ℕ) : Option ℕ :=
  if h : (f.values.filter fun m => n < m).Nonempty then
    some ((f.values.filter fun m => n < m).min' h)
  else none

theorem range_eq_some {start stop step : ℤ} {f : CronField lo hi} :
    range lo hi start stop step = some f ↔
      (1 ≤ step ∧ lo ≤ start ∧ stop ≤ hi ∧ start ≤ stop) ∧
        f.values = (Finset.Icc start.toNat stop.toNat).filter fun n =>
          step.toNat ∣ n - start.toNat := by
  unfold range
  split_ifs with h
  · exact iff_of_false nofun fun hall => by omega
  · rw [Option.some.injEq, CronField.ext_iff, eq_comm, iff_and_self]
    exact fun _ => by omega

theorem le_of_mem {f : CronField lo hi} {n : ℕ} (h : n ∈ f.values) : n ≤ hi :=
  (Finset.mem_Icc.mp (f.within h)).2

theorem first_mem (f : CronField lo hi) : f.first ∈ f.values := Finset.min'_mem _ _

theorem first_le {f : CronField lo hi} {n : ℕ} (h : n ∈ f.values) : f.first ≤ n :=
  Finset.min'_le _ _ h

theorem later_eq_some {f : CronField lo hi} {n m : ℕ} (h : f.later n = some m) :
    m ∈ f.values ∧ n < m ∧ ∀ k ∈ f.values, n < k → m ≤ k := by
  unfold later at h
  split at h
  · next hne =>
    obtain rfl := Option.some.inj h
    obtain ⟨hmem, hlt⟩ := Finset.mem_filter.mp (Finset.min'_mem _ hne)
    exact ⟨hmem, hlt, fun k hk hnk => Finset.min'_le _ _ (Finset.mem_filter.mpr ⟨hk, hnk⟩)⟩
  · cases h

theorem later_eq_none {f : CronField lo hi} {n : ℕ} (h : f.later n = none) :
    ∀ k ∈ f.values, k ≤ n := by
  unfold later at h
  split at h
  · cases h
  · next hnone =>
    intro k hk
    by_contra hlt
    exact hnone ⟨k, Finset.mem_filter.mpr ⟨hk, not_le.mp hlt⟩⟩

end CronField

/-- `text.split(c, 1)`. -/
def cut (c : Char) (text : List Char) : List Char × Option (List Char) :=
  if c ∈ text then (text.takeWhile (· ≠ c), some (text.dropWhile (· ≠ c)).tail) else (text, none)

/-- `int(text)`, or the error that is raised in its place. -/
def cronInt (error : String) (text : List Char) : Except String ℤ :=
  match PyInt.parse text with
  | some n => .ok n
  | none => .error error

/-- The step of a part. -/
def partStep (error : String) : Option (List Char) → Except String ℤ
  | some text => cronInt error text
  | none => .ok 1

section

variable (lo hi : ℕ)

/-- The first and the last number of a part. -/
def partBounds (rangeError valueError : String) (base : List Char) : Except String (ℤ × ℤ) :=
  if base = ['*'] then .ok (lo, hi)
  else
    match cut '-' base with
    | (a, some b) => do
      let start ← cronInt rangeError a
      let stop ← cronInt rangeError b
      .ok (start, stop)
    | (a, none) => (cronInt valueError a).map fun n => (n, n)

variable [PyText]

/-- One part of a field: `_parse_field` up to `values.update`. -/
def parsePart (part : List Char) : Except String (CronField lo hi) := do
  let repr := PyText.repr (String.ofList part)
  let step ← partStep ("bad step in " ++ repr) (cut '/' part).2
  let bounds ← partBounds lo hi ("bad range in " ++ repr) ("bad value in " ++ repr) (cut '/' part).1
  match CronField.range lo hi bounds.1 bounds.2 step with
  | some field => .ok field
  | none => .error ("field out of range: " ++ repr ++ " (allowed " ++ Nat.repr lo ++ "-" ++
      Nat.repr hi ++ ")")

/-- `_parse_field`. -/
def parseField (field : List Char) : Except String (CronField lo hi) :=
  match field.splitOn ',' with
  | [] => .error ""  -- no split is empty
  | part :: parts => do
    let values ← parsePart lo hi part
    parts.foldlM (fun values part => return values.union (← parsePart lo hi part)) values

end

/-! ### Schedules -/

/-- A day field, and whether it was written in another way than `*`. -/
structure DayField (lo hi : ℕ) extends CronField lo hi where
  restricted : Bool
  full : restricted = false → values = Finset.Icc lo hi

/-- `CronSchedule`. -/
structure CronSchedule where
  expr : String
  minute : CronField 0 59
  hour : CronField 0 23
  dom : DayField 1 31
  month : CronField 1 12
  dow : DayField 0 6

/-- The field that `*` is parsed to. -/
theorem parseField_star [PyText] {lo hi : ℕ} {f : CronField lo hi}
    (hf : parseField lo hi ['*'] = .ok f) : f.values = Finset.Icc lo hi := by
  have hpart : parseField lo hi ['*'] = parsePart lo hi ['*'] := by
    show (parsePart lo hi ['*'] >>= fun values => pure values) = parsePart lo hi ['*']
    exact bind_pure _
  rw [hpart] at hf
  unfold parsePart at hf
  have hcut : cut '/' ['*'] = (['*'], none) := rfl
  rw [hcut] at hf
  change (match CronField.range lo hi lo hi 1 with
    | some field => Except.ok field
    | none => _) = _ at hf
  split at hf
  · next field hfield =>
    obtain rfl := Except.ok.inj hf
    rw [(CronField.range_eq_some.mp hfield).2]
    exact Finset.filter_true_of_mem fun n _ => one_dvd _
  · cases hf

/-- The day field of a text. -/
def DayField.ofText {lo hi : ℕ} [PyText] (text : List Char) :
    Except String (DayField lo hi) :=
  match hf : parseField lo hi text with
  | .error e => .error e
  | .ok f =>
    .ok
      { f with
        restricted := decide (text ≠ ['*'])
        full := fun hstar => by
          obtain rfl : text = ['*'] := by simpa using hstar
          exact parseField_star hf }

/-- `if 7 in dow: dow.discard(7); dow.add(0)`. -/
def DayField.sunday (f : DayField 0 7) : DayField 0 6 where
  values := if 7 ∈ f.values then insert 0 (f.values.erase 7) else f.values
  nonempty := by
    split
    · exact Finset.insert_nonempty _ _
    · exact f.nonempty
  within := by
    intro n hn
    split at hn
    · rw [Finset.mem_insert, Finset.mem_erase] at hn
      rcases hn with rfl | ⟨hne, hn⟩
      · decide
      · have hle := Finset.mem_Icc.mp (f.within hn)
        exact Finset.mem_Icc.mpr ⟨hle.1, by omega⟩
    · next hseven =>
      have hle := Finset.mem_Icc.mp (f.within hn)
      have hne : n ≠ 7 := fun heq => hseven (heq ▸ hn)
      exact Finset.mem_Icc.mpr ⟨hle.1, by omega⟩
  restricted := f.restricted
  full h := by
    rw [f.full h]
    rfl

/-- `expr.split()`. -/
def words (text : List Char) : List (List Char) := (text.splitOnP isSpace).filter (· ≠ [])

/-- What `next_after` may raise: a `CronError`, or that a `datetime` has no year after 9999. -/
inductive CronFailure
  | cron (error : String)
  | overflow

namespace CronSchedule

/-- `CronSchedule(expr)`. -/
def parse [PyText] (expr : String) : Except String CronSchedule :=
  match words expr.toList with
  | [minute, hour, dom, month, dow] => do
    let minute ← parseField 0 59 minute
    let hour ← parseField 0 23 hour
    let dom ← DayField.ofText dom
    let month ← parseField 1 12 month
    let dow ← DayField.ofText dow
    return ⟨expr, minute, hour, dom, month, dow.sunday⟩
  | fields => .error ("cron expression needs 5 fields (min hour dom month dow), got " ++
      Nat.repr fields.length)

variable (c : CronSchedule)

/-- `_day_matches`. -/
def dayMatches (d : Date) : Bool :=
  let cronDow := (d.weekday + 1) % 7
  let domOk := decide (d.day ∈ c.dom.values)
  let dowOk := decide (cronDow ∈ c.dow.values)
  if c.dom.restricted && c.dow.restricted then domOk || dowOk else domOk && dowOk

end CronSchedule

/-- `_matches`. -/
def CronSchedule.matches (c : CronSchedule) (t : Time) : Bool :=
  if t.minute ∉ c.minute.values ∨ t.hour ∉ c.hour.values ∨ t.date.month ∉ c.month.values then false
  else c.dayMatches t.date

namespace CronSchedule

variable (c : CronSchedule)

/-- Where the search goes on from a time; `none` if the time matches. -/
def jump (t : Time) : Option Time :=
  if t.date.month ∉ c.month.values then some (.midnight t.date.nextMonth)
  else if c.dayMatches t.date = false then some (.midnight t.date.next)
  else if t.hour ∉ c.hour.values then
    match h : c.hour.later t.hour with
    | some hour => some
        { t with
          hour := hour
          minute := c.minute.first
          hour_lt := Nat.lt_succ_of_le (CronField.le_of_mem (CronField.later_eq_some h).1)
          minute_lt := Nat.lt_succ_of_le (CronField.le_of_mem c.minute.first_mem) }
    -- no hour of this day is left
    | none => some
        { date := t.date.next
          hour := c.hour.first
          minute := c.minute.first
          hour_lt := Nat.lt_succ_of_le (CronField.le_of_mem c.hour.first_mem)
          minute_lt := Nat.lt_succ_of_le (CronField.le_of_mem c.minute.first_mem) }
  else if t.minute ∉ c.minute.values then
    match h : c.minute.later t.minute with
    | some minute => some
        { t with
          minute := minute
          minute_lt := Nat.lt_succ_of_le (CronField.le_of_mem (CronField.later_eq_some h).1) }
    -- no minute of this hour is left
    | none => some <| Time.nextHour
        { t with
          minute := c.minute.first
          minute_lt := Nat.lt_succ_of_le (CronField.le_of_mem c.minute.first_mem) }
  else none

/-- What a jump can do.  Each case says where `jump` leaves the fields that do not match. -/
inductive Jumps (t t' : Time) : Prop
  | month (hnot : t.date.month ∉ c.month.values)
    (hclock : t'.clock = t.date.nextMonth.ordinal * 24 * 60)
  | day (hnot : c.dayMatches t.date = false) (hclock : t'.clock = (t.date.ordinal + 1) * 24 * 60)
  | hour {hour : ℕ} (hnot : t.hour ∉ c.hour.values) (hlater : c.hour.later t.hour = some hour)
    (hclock : t'.clock = (t.date.ordinal * 24 + hour) * 60 + c.minute.first)
  | nextDay (hnot : t.hour ∉ c.hour.values) (hlater : c.hour.later t.hour = none)
    (hclock : t'.clock = ((t.date.ordinal + 1) * 24 + c.hour.first) * 60 + c.minute.first)
  | minute {minute : ℕ} (hnot : t.minute ∉ c.minute.values)
    (hlater : c.minute.later t.minute = some minute)
    (hclock : t'.clock = (t.date.ordinal * 24 + t.hour) * 60 + minute)
  | nextHour (hnot : t.minute ∉ c.minute.values) (hlater : c.minute.later t.minute = none)
    (hclock : t'.clock = (t.date.ordinal * 24 + t.hour + 1) * 60 + c.minute.first)

variable {c} {t t' : Time}

theorem jumps (h : c.jump t = some t') : c.Jumps t t' := by
  unfold jump at h
  split at h
  · next hmonth =>
    obtain rfl := Option.some.inj h
    exact .month hmonth (Time.clock_midnight _)
  · split at h
    · next hday =>
      obtain rfl := Option.some.inj h
      exact .day hday (by rw [Time.clock_midnight, Date.ordinal_next])
    · split at h
      · next hhour =>
        split at h
        · next hour hlater =>
          obtain rfl := Option.some.inj h
          exact .hour hhour hlater rfl
        · next hlater =>
          obtain rfl := Option.some.inj h
          exact .nextDay hhour hlater (by rw [Time.clock, Date.ordinal_next])
      · split at h
        · next hminute =>
          split at h
          · next minute hlater =>
            obtain rfl := Option.some.inj h
            exact .minute hminute hlater rfl
          · next hlater =>
            obtain rfl := Option.some.inj h
            refine .nextHour hminute hlater ?_
            rw [Time.clock_nextHour]
            dsimp only [Time.clock]
            omega
        · cases h

/-- A jump goes forward, by less than a month and a day. -/
theorem Jumps.clock_lt (h : c.Jumps t t') :
    t.clock < t'.clock ∧ t'.clock < (t.date.ordinal + 33) * 24 * 60 := by
  have hhour := t.hour_lt
  have hminute := t.minute_lt
  have hfirst : c.minute.first ≤ 59 := CronField.le_of_mem c.minute.first_mem
  have hfirst' : c.hour.first ≤ 23 := CronField.le_of_mem c.hour.first_mem
  rw [Time.clock]
  cases h with
  | month hnot hclock =>
    have hlt := t.date.lt_nextMonth
    have hle := t.date.nextMonth_le
    omega
  | day hnot hclock => omega
  | @hour hour hnot hlater hclock =>
    obtain ⟨hmem, hlt, -⟩ := CronField.later_eq_some hlater
    have hle := CronField.le_of_mem hmem
    omega
  | nextDay hnot hlater hclock => omega
  | @minute minute hnot hlater hclock =>
    obtain ⟨hmem, hlt, -⟩ := CronField.later_eq_some hlater
    have hle := CronField.le_of_mem hmem
    omega
  | nextHour hnot hlater hclock => omega

/-- The loop of `next_after`. -/
def search [PyText] (c : CronSchedule) (horizon : ℕ) (t : Time) : Except CronFailure Time :=
  if t.clock < horizon then
    match _h : c.jump t with
    | none => .ok t
    | some t' => if t'.date.year ≤ 9999 then search c horizon t' else .error .overflow
  else .error (.cron ("no matching time within eight years for " ++ PyText.repr c.expr))
termination_by horizon - t.clock
decreasing_by
  have hlt := (jumps _h).clock_lt.1
  omega

/-- `next_after`. -/
def nextAfter [PyText] (c : CronSchedule) (after : Moment) : Except CronFailure Time :=
  let t := after.nextMinute
  if t.date.ordinal + 366 * 8 ≤ daysBeforeYear 10000 then
    c.search (t.clock + 366 * 8 * 24 * 60) t
  else .error .overflow

end CronSchedule

end Istos
