import Mathlib

/-!
# Dates of the Gregorian calendar

A date is a year, a month and a day of the month, and an hour, a minute and a
second of the day.  Counting the seconds from the beginning of the year 0, with
86400 of them in each day, numbers the dates: no two dates have the same number
(`DateTime.seconds_injective`), and `DateTime.ofSeconds` finds the one that has
a given number.

Years and months are units of varying lengths that follow one another.  The
first section is about such units in general.
-/

namespace Calendar

/-! ## Units of varying lengths -/

section Units

variable {len : ℕ → ℕ}

/-- The length of the first `i` units. -/
def before (len : ℕ → ℕ) : ℕ → ℕ
  | 0 => 0
  | i + 1 => before len i + len i

/-- The unit that contains a point, and the place of the point in it, for a
point that is `n` behind the start of the unit `i`.  The first argument bounds
the number of units that are tried. -/
def locate (len : ℕ → ℕ) : ℕ → ℕ → ℕ → ℕ × ℕ
  | 0, i, n => (i, n)
  | fuel + 1, i, n =>
      if n < len i then (i, n) else locate len fuel (i + 1) (n - len i)

theorem before_mono (len : ℕ → ℕ) : Monotone (before len) := by
  apply monotone_nat_of_le_succ
  intro i
  exact Nat.le_add_right _ _

/-- The unit and the place in it are known from the point. -/
theorem eq_of_before_add_eq {i i' r r' : ℕ} (hr : r < len i)
    (hr' : r' < len i') (h : before len i + r = before len i' + r') :
    i = i' ∧ r = r' := by
  have hnot {j j' s s' : ℕ} (hs : s < len j)
      (heq : before len j + s = before len j' + s') : ¬ j < j' := by
    intro hlt
    have hle : before len j + len j ≤ before len j' := before_mono len hlt
    omega
  obtain rfl : i = i' := le_antisymm (not_lt.mp (hnot hr' h.symm))
    (not_lt.mp (hnot hr h))
  exact ⟨rfl, Nat.add_left_cancel h⟩

/-- Locating does not move the point. -/
theorem before_locate (fuel i n : ℕ) :
    before len (locate len fuel i n).1 + (locate len fuel i n).2 =
      before len i + n := by
  induction fuel generalizing i n with
  | zero => rfl
  | succ fuel ih =>
      rw [locate]
      split
      · rfl
      · next hle =>
          rw [ih, before]
          omega

/-- The point is found when the units that are tried reach behind it. -/
theorem locate_lt {fuel i n : ℕ}
    (h : before len i + n < before len (i + fuel + 1)) :
    (locate len fuel i n).2 < len (locate len fuel i n).1 := by
  induction fuel generalizing i n with
  | zero =>
      rw [add_zero, before] at h
      exact Nat.add_lt_add_iff_left.mp h
  | succ fuel ih =>
      rw [locate]
      split
      · next hlt => exact hlt
      · next hle =>
          apply ih
          rw [before, show i + 1 + fuel + 1 = i + (fuel + 1) + 1 by omega]
          omega

/-- The unit that is found is among those that are tried. -/
theorem locate_fst_le (fuel i n : ℕ) :
    (locate len fuel i n).1 ≤ i + fuel := by
  induction fuel generalizing i n with
  | zero => exact le_rfl
  | succ fuel ih =>
      rw [locate]
      split
      · exact Nat.le_add_right _ _
      · exact (ih _ _).trans (by omega)

end Units

/-! ## Years and months -/

def isLeap (year : ℕ) : Bool :=
  year % 4 = 0 && (year % 100 ≠ 0 || year % 400 = 0)

def daysInYear (year : ℕ) : ℕ := if isLeap year then 366 else 365

/-- The months are numbered from 1. -/
def daysInMonth (year month : ℕ) : ℕ :=
  match month with
  | 2 => if isLeap year then 29 else 28
  | 4 | 6 | 9 | 11 => 30
  | _ => 31

theorem daysInMonth_le (year month : ℕ) : daysInMonth year month ≤ 31 := by
  unfold daysInMonth
  split
  · split <;> decide
  all_goals decide

/-- The lengths of the months, numbered from 0. -/
def monthLength (year month : ℕ) : ℕ := daysInMonth year (month + 1)

/-- The months fill the year. -/
theorem before_monthLength (year : ℕ) :
    before (monthLength year) 12 = daysInYear year := by
  cases hleap : isLeap year <;>
    simp [before, monthLength, daysInMonth, daysInYear, hleap]

/-- The leap days make the difference between the years and 365 days each. -/
theorem before_daysInYear (year : ℕ) :
    before daysInYear year + (year + 99) / 100 =
      365 * year + (year + 3) / 4 + (year + 399) / 400 := by
  induction year with
  | zero => rfl
  | succ year ih =>
      rw [before, daysInYear, isLeap]
      simp only [Bool.and_eq_true, Bool.or_eq_true, decide_eq_true_eq]
      split <;> omega

theorem lt_before_daysInYear (n : ℕ) : n < before daysInYear (n + 1) := by
  have hdays := before_daysInYear (n + 1)
  omega

/-! ## Dates -/

/-- A day of the calendar. -/
@[ext]
structure Date where
  year : ℕ
  month : ℕ
  day : ℕ
  month_pos : 0 < month
  month_le : month ≤ 12
  day_pos : 0 < day
  day_le : day ≤ daysInMonth year month
deriving DecidableEq, Repr

namespace Date

/-- The number of days from the beginning of the year 0 to the date. -/
def dayNumber (date : Date) : ℕ :=
  before daysInYear date.year +
    (before (monthLength date.year) (date.month - 1) + (date.day - 1))

/-- The year of a day, and the day in it. -/
def yearOf (n : ℕ) : ℕ × ℕ := locate daysInYear n 0 n

/-- The month of a day of a year, and the day in it, both numbered from 0. -/
def monthOf (year n : ℕ) : ℕ × ℕ := locate (monthLength year) 11 0 n

theorem before_yearOf (n : ℕ) :
    before daysInYear (yearOf n).1 + (yearOf n).2 = n := by
  rw [yearOf, before_locate, before, zero_add]

theorem yearOf_lt (n : ℕ) : (yearOf n).2 < daysInYear (yearOf n).1 := by
  apply locate_lt
  rw [before, zero_add]
  exact lt_before_daysInYear n

theorem before_monthOf (year n : ℕ) :
    before (monthLength year) (monthOf year n).1 + (monthOf year n).2 = n := by
  rw [monthOf, before_locate, before, zero_add]

theorem monthOf_lt {year n : ℕ} (h : n < daysInYear year) :
    (monthOf year n).2 < monthLength year (monthOf year n).1 := by
  apply locate_lt
  rw [before, zero_add]
  exact h.trans_eq (before_monthLength year).symm

theorem monthOf_le (year n : ℕ) : (monthOf year n).1 + 1 ≤ 12 :=
  Nat.succ_le_succ (locate_fst_le 11 0 n)

/-- The date with a number. -/
def ofDayNumber (n : ℕ) : Date where
  year := (yearOf n).1
  month := (monthOf (yearOf n).1 (yearOf n).2).1 + 1
  day := (monthOf (yearOf n).1 (yearOf n).2).2 + 1
  month_pos := Nat.succ_pos _
  month_le := monthOf_le _ _
  day_pos := Nat.succ_pos _
  day_le := monthOf_lt (yearOf_lt n)

theorem dayNumber_ofDayNumber (n : ℕ) : (ofDayNumber n).dayNumber = n := by
  rw [dayNumber, ofDayNumber]
  simp only [Nat.add_sub_cancel]
  rw [before_monthOf, before_yearOf]

theorem day_lt (date : Date) :
    date.day - 1 < monthLength date.year (date.month - 1) := by
  have hmonth : date.month - 1 + 1 = date.month :=
    Nat.sub_add_cancel date.month_pos
  rw [monthLength, hmonth]
  have hpos := date.day_pos
  have hle := date.day_le
  omega

theorem dayOfYear_lt (date : Date) :
    before (monthLength date.year) (date.month - 1) + (date.day - 1) <
      daysInYear date.year := by
  have hmonth : date.month - 1 + 1 ≤ 12 := by
    have hle := date.month_le
    omega
  calc before (monthLength date.year) (date.month - 1) + (date.day - 1)
      < before (monthLength date.year) (date.month - 1 + 1) :=
        Nat.add_lt_add_left date.day_lt _
    _ ≤ before (monthLength date.year) 12 := before_mono _ hmonth
    _ = daysInYear date.year := before_monthLength date.year

theorem le_dayNumber (date : Date) :
    before daysInYear date.year ≤ date.dayNumber :=
  Nat.le_add_right _ _

theorem dayNumber_lt (date : Date) :
    date.dayNumber < before daysInYear (date.year + 1) :=
  Nat.add_lt_add_left date.dayOfYear_lt _

theorem dayNumber_injective : Function.Injective dayNumber := by
  intro date date' h
  obtain ⟨hyear, hdayOfYear⟩ :=
    eq_of_before_add_eq date.dayOfYear_lt date'.dayOfYear_lt h
  have hmonthDay := date.day_lt
  rw [hyear] at hmonthDay hdayOfYear
  obtain ⟨hmonth, hday⟩ :=
    eq_of_before_add_eq hmonthDay date'.day_lt hdayOfYear
  have hmonth_pos := date.month_pos
  have hmonth_pos' := date'.month_pos
  have hday_pos := date.day_pos
  have hday_pos' := date'.day_pos
  apply Date.ext hyear
  · omega
  · omega

end Date

/-! ## Dates with a time of day -/

/-- A second of the calendar. -/
@[ext]
structure DateTime where
  date : Date
  hour : ℕ
  minute : ℕ
  second : ℕ
  hour_lt : hour < 24
  minute_lt : minute < 60
  second_lt : second < 60
deriving DecidableEq, Repr

namespace DateTime

/-- The number of seconds from the beginning of the year 0. -/
def seconds (d : DateTime) : ℕ :=
  86400 * d.date.dayNumber + (3600 * d.hour + 60 * d.minute + d.second)

/-- The date with the given fields, if there is one. -/
def ofFields (year month day hour minute second : ℕ) : Option DateTime :=
  if h : (0 < month ∧ month ≤ 12 ∧ 0 < day ∧ day ≤ daysInMonth year month) ∧
      hour < 24 ∧ minute < 60 ∧ second < 60 then
    some ⟨⟨year, month, day, h.1.1, h.1.2.1, h.1.2.2.1, h.1.2.2.2⟩, hour,
      minute, second, h.2.1, h.2.2.1, h.2.2.2⟩
  else none

theorem ofFields_fields (d : DateTime) :
    ofFields d.date.year d.date.month d.date.day d.hour d.minute d.second =
      some d :=
  dif_pos ⟨⟨d.date.month_pos, d.date.month_le, d.date.day_pos, d.date.day_le⟩,
    d.hour_lt, d.minute_lt, d.second_lt⟩

theorem hour_of_lt (n : ℕ) : n % 86400 / 3600 < 24 := by omega

theorem minute_of_lt (n : ℕ) : n % 3600 / 60 < 60 := by omega

/-- The date that is `n` seconds after the beginning of the year 0. -/
def ofSeconds (n : ℕ) : DateTime where
  date := Date.ofDayNumber (n / 86400)
  hour := n % 86400 / 3600
  minute := n % 3600 / 60
  second := n % 60
  hour_lt := hour_of_lt n
  minute_lt := minute_of_lt n
  second_lt := Nat.mod_lt n (by decide)

theorem seconds_ofSeconds (n : ℕ) : (ofSeconds n).seconds = n := by
  rw [seconds, ofSeconds]
  simp only [Date.dayNumber_ofDayNumber]
  omega

theorem seconds_injective : Function.Injective seconds := by
  intro d d' h
  have hhour := d.hour_lt
  have hhour' := d'.hour_lt
  have hminute := d.minute_lt
  have hminute' := d'.minute_lt
  have hsecond := d.second_lt
  have hsecond' := d'.second_lt
  rw [seconds, seconds] at h
  apply DateTime.ext
  · apply Date.dayNumber_injective
    omega
  all_goals omega

theorem le_seconds (d : DateTime) :
    86400 * before daysInYear d.date.year ≤ d.seconds :=
  (Nat.mul_le_mul_left 86400 d.date.le_dayNumber).trans (Nat.le_add_right _ _)

theorem seconds_lt (d : DateTime) :
    d.seconds < 86400 * before daysInYear (d.date.year + 1) := by
  have hday := d.date.dayNumber_lt
  have hhour := d.hour_lt
  have hminute := d.minute_lt
  have hsecond := d.second_lt
  rw [seconds]
  omega

/-- The years of two dates are ordered as the dates are. -/
theorem year_le_of_seconds_le {d d' : DateTime} (h : d.seconds ≤ d'.seconds) :
    d.date.year ≤ d'.date.year := by
  by_contra hlt
  have hyears : before daysInYear (d'.date.year + 1) ≤
      before daysInYear d.date.year :=
    before_mono _ (not_le.mp hlt)
  have hle := d.le_seconds
  have hlt' := d'.seconds_lt
  omega

end DateTime

end Calendar
