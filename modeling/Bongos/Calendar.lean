import Mathlib.Algebra.BigOperators.Intervals
import Mathlib.Algebra.Order.BigOperators.Group.Finset
import Mathlib.Tactic.IntervalCases

/-!
# The Gregorian calendar

Dates and times of the proleptic Gregorian calendar, counted in the naive way: the days since the
start of a base year are the lengths of the years between, the lengths of the months before, and the
days of the month. The count is strictly increasing in time (`Moment.secondsSince_lt`). The closed
form that starts the year in March and has eras of 400 years agrees with it (`marchDays_eq`).
-/

namespace Bongos.Calendar

open Finset

/-- Every fourth year, but of the centuries only every fourth. -/
def IsLeap (y : ℕ) : Prop := y % 4 = 0 ∧ (y % 100 ≠ 0 ∨ y % 400 = 0)

instance (y : ℕ) : Decidable (IsLeap y) := inferInstanceAs (Decidable (_ ∧ _))

/-- The days of a month, with January as month 1. -/
def monthLength (y m : ℕ) : ℕ :=
  if m = 2 then if IsLeap y then 29 else 28
  else if m = 4 ∨ m = 6 ∨ m = 9 ∨ m = 11 then 30 else 31

theorem monthLength_le (y m : ℕ) : monthLength y m ≤ 31 := by
  unfold monthLength
  split_ifs <;> omega

def daysBeforeMonth (y m : ℕ) : ℕ := ∑ k ∈ Ico 1 m, monthLength y k

def yearLength (y : ℕ) : ℕ := daysBeforeMonth y 13

/-- The days from the start of year `b` to the start of year `y`. -/
def daysBeforeYear (b y : ℕ) : ℕ := ∑ k ∈ Ico b y, yearLength k

/-- A date that exists. -/
structure Date where
  year : ℕ
  month : ℕ
  day : ℕ
  month_pos : 1 ≤ month
  month_le : month ≤ 12
  day_pos : 1 ≤ day
  day_le : day ≤ monthLength year month

/-- A date and a time of day, without leap seconds. -/
structure Moment extends Date where
  hour : ℕ
  minute : ℕ
  second : ℕ
  hour_lt : hour < 24
  minute_lt : minute < 60
  second_lt : second < 60

/-- The days from the start of year `b` to a date. -/
def Date.daysSince (b : ℕ) (d : Date) : ℕ :=
  daysBeforeYear b d.year + daysBeforeMonth d.year d.month + (d.day - 1)

def Moment.secondOfDay (t : Moment) : ℕ := 3600 * t.hour + 60 * t.minute + t.second

/-- The seconds from the start of year `b` to a moment. -/
def Moment.secondsSince (b : ℕ) (t : Moment) : ℕ := 86400 * t.toDate.daysSince b + t.secondOfDay

/-! ## The order of time -/

/-- Chronological order of dates. -/
def Date.Before (d d' : Date) : Prop :=
  d.year < d'.year ∨ d.year = d'.year ∧ (d.month < d'.month ∨ d.month = d'.month ∧ d.day < d'.day)

/-- Chronological order. -/
def Moment.Before (t t' : Moment) : Prop :=
  t.toDate.Before t'.toDate ∨ (t.year = t'.year ∧ t.month = t'.month ∧ t.day = t'.day) ∧
    (t.hour < t'.hour ∨ t.hour = t'.hour ∧ (t.minute < t'.minute ∨
      t.minute = t'.minute ∧ t.second < t'.second))

variable {b y m m' : ℕ}

theorem daysBeforeMonth_succ (hm : 1 ≤ m) :
    daysBeforeMonth y (m + 1) = daysBeforeMonth y m + monthLength y m :=
  sum_Ico_succ_top hm _

theorem daysBeforeYear_succ (hb : b ≤ y) :
    daysBeforeYear b (y + 1) = daysBeforeYear b y + yearLength y :=
  sum_Ico_succ_top hb _

theorem daysBeforeMonth_mono (h : m ≤ m') : daysBeforeMonth y m ≤ daysBeforeMonth y m' :=
  sum_le_sum_of_subset (Ico_subset_Ico_right h)

theorem daysBeforeYear_mono {y' : ℕ} (h : y ≤ y') : daysBeforeYear b y ≤ daysBeforeYear b y' :=
  sum_le_sum_of_subset (Ico_subset_Ico_right h)

/-- The days of the year before a date, in any later month. -/
theorem Date.lt_daysBeforeMonth (d : Date) (h : d.month < m) :
    daysBeforeMonth d.year d.month + (d.day - 1) < daysBeforeMonth d.year m := by
  have hmono : daysBeforeMonth d.year (d.month + 1) ≤ daysBeforeMonth d.year m :=
    daysBeforeMonth_mono h
  rw [daysBeforeMonth_succ d.month_pos] at hmono
  have hpos := d.day_pos
  have hle := d.day_le
  omega

theorem Date.daysSince_lt {d d' : Date} (hb : b ≤ d.year) (h : d.Before d') :
    d.daysSince b < d'.daysSince b := by
  rw [Date.daysSince, Date.daysSince]
  rcases h with hyear | ⟨hyear, hmonth | ⟨hmonth, hday⟩⟩
  · have hend : daysBeforeMonth d.year d.month + (d.day - 1) < yearLength d.year :=
      d.lt_daysBeforeMonth (Nat.lt_succ_of_le d.month_le)
    have hmono : daysBeforeYear b (d.year + 1) ≤ daysBeforeYear b d'.year :=
      daysBeforeYear_mono hyear
    rw [daysBeforeYear_succ hb] at hmono
    omega
  · have hend := d.lt_daysBeforeMonth hmonth
    rw [← hyear]
    omega
  · have hpos := d.day_pos
    rw [← hyear, ← hmonth]
    omega

theorem Moment.secondOfDay_lt (t : Moment) : t.secondOfDay < 86400 := by
  obtain ⟨-, hour, minute, second, hhour, hminute, hsecond⟩ := t
  dsimp only [Moment.secondOfDay]
  omega

/-- Seconds are counted in the order of time. -/
theorem Moment.secondsSince_lt {t t' : Moment} (hb : b ≤ t.year) (h : t.Before t') :
    t.secondsSince b < t'.secondsSince b := by
  rw [Moment.secondsSince, Moment.secondsSince]
  rcases h with hdate | ⟨⟨hyear, hmonth, hday⟩, htime⟩
  · have hdays := Date.daysSince_lt hb hdate
    have hsec := t.secondOfDay_lt
    omega
  · have hdays : t.toDate.daysSince b = t'.toDate.daysSince b := by
      rw [Date.daysSince, Date.daysSince, hyear, hmonth, hday]
    have hsec : t.secondOfDay < t'.secondOfDay := by
      have hm := t.minute_lt
      have hs := t.second_lt
      rw [Moment.secondOfDay, Moment.secondOfDay]
      omega
    omega

/-! ## The closed form -/

/-- The days from the first of March of year 0 to a date after it. The year starts in March, so that
the leap day is its last. -/
def marchDays (y m d : ℕ) : ℕ :=
  let y := if m ≤ 2 then y - 1 else y
  let yoe := y % 400
  let doy := (153 * (if 2 < m then m - 3 else m + 9) + 2) / 5 + d - 1
  y / 400 * 146097 + (yoe * 365 + yoe / 4 - yoe / 100 + doy)

/-- One month further. -/
theorem marchDays_month (hy : 1 ≤ y) (hm : 1 ≤ m) (hm' : m < 12) :
    marchDays y (m + 1) 1 = marchDays y m 1 + monthLength y m := by
  by_cases hfeb : m = 2
  · -- From February to March the year of the formula changes.
    subst hfeb
    obtain ⟨n, rfl⟩ := Nat.exists_eq_add_of_le' hy
    have hlen : monthLength (n + 1) 2 = if IsLeap (n + 1) then 29 else 28 := rfl
    have hfeb : marchDays (n + 1) 2 1
        = n / 400 * 146097 + (n % 400 * 365 + n % 400 / 4 - n % 400 / 100 + 337) := by
      norm_num [marchDays]
    have hmarch : marchDays (n + 1) 3 1 = (n + 1) / 400 * 146097
        + ((n + 1) % 400 * 365 + (n + 1) % 400 / 4 - (n + 1) % 400 / 100) := by
      norm_num [marchDays]
    rw [hmarch, hfeb, hlen]
    by_cases hleap : IsLeap (n + 1)
    · rw [if_pos hleap]
      rw [IsLeap] at hleap
      omega
    · rw [if_neg hleap]
      rw [IsLeap] at hleap
      omega
  · interval_cases m <;> simp [marchDays, monthLength] at hfeb ⊢ <;> omega

/-- One year further. -/
theorem marchDays_year : marchDays (y + 1) 1 1 = marchDays y 12 1 + 31 := by
  simp [marchDays]
  omega

theorem marchDays_eq_add_daysBeforeMonth (hy : 1 ≤ y) (hm : 1 ≤ m) (hm' : m ≤ 12) :
    marchDays y m 1 = marchDays y 1 1 + daysBeforeMonth y m := by
  induction m, hm using Nat.le_induction with
  | base => rw [daysBeforeMonth, Ico_self, sum_empty, Nat.add_zero]
  | succ m hm ih =>
    rw [marchDays_month hy hm hm', ih (Nat.le_of_succ_le hm'), daysBeforeMonth_succ hm,
      Nat.add_assoc]

theorem marchDays_eq_add_daysBeforeYear (hb : 1 ≤ b) (hy : b ≤ y) :
    marchDays y 1 1 = marchDays b 1 1 + daysBeforeYear b y := by
  induction y, hy using Nat.le_induction with
  | base => rw [daysBeforeYear, Ico_self, sum_empty, Nat.add_zero]
  | succ y hy ih =>
    have hlen : yearLength y = daysBeforeMonth y 12 + 31 := daysBeforeMonth_succ (by decide)
    have hdec := marchDays_eq_add_daysBeforeMonth (hb.trans hy) (by decide) le_rfl
    rw [marchDays_year, hdec, ih, daysBeforeYear_succ hy, hlen]
    omega

/-- The closed form counts the days since the start of any year. -/
theorem marchDays_eq (hb : 1 ≤ b) (d : Date) (hy : b ≤ d.year) :
    marchDays d.year d.month d.day = marchDays b 1 1 + d.daysSince b := by
  have hday : marchDays d.year d.month d.day = marchDays d.year d.month 1 + (d.day - 1) := by
    have hpos := d.day_pos
    simp only [marchDays]
    omega
  rw [hday, marchDays_eq_add_daysBeforeMonth (hb.trans hy) d.month_pos d.month_le,
    marchDays_eq_add_daysBeforeYear hb hy, Date.daysSince]
  omega

end Bongos.Calendar
