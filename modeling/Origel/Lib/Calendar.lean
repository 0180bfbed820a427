import Mathlib.Algebra.BigOperators.Group.List.Basic
import Mathlib.Tactic.IntervalCases

/-! The proleptic Gregorian calendar, and the seconds from 1970 to a time of it. -/
namespace Origel.Lib

def isLeap (year : Nat) : Bool := year % 4 == 0 && (year % 100 != 0 || year % 400 == 0)

def yearLength (year : Nat) : Nat := if isLeap year then 366 else 365

/-- The length of a month, which is numbered from 1. -/
def monthLength (leap : Bool) : Nat → Nat
  | 1 | 3 | 5 | 7 | 8 | 10 | 12 => 31
  | 4 | 6 | 9 | 11 => 30
  | 2 => if leap then 29 else 28
  | _ => 0

/-- A time of a day that the calendar has. -/
structure DateTime where
  year : Nat
  month : Nat
  day : Nat
  hour : Nat
  minute : Nat
  second : Nat
  month_mem : 1 ≤ month ∧ month ≤ 12
  day_mem : 1 ≤ day ∧ day ≤ monthLength (isLeap year) month
  hour_lt : hour < 24
  minute_lt : minute < 60
  second_lt : second < 60

/-- The days of so many years from a first one. -/
def daysOfYears (first : Nat) : Nat → Nat
  | 0 => 0
  | years + 1 => daysOfYears first years + yearLength (first + years)

/-- The days of a year before a month of it. -/
def daysOfMonths (leap : Bool) (month : Nat) : Nat :=
  ((List.range month).map (monthLength leap)).sum

/-- The days from the first one of 1970, for a time that is not before. -/
def DateTime.days (t : DateTime) : Nat :=
  daysOfYears 1970 (t.year - 1970) + daysOfMonths (isLeap t.year) t.month + (t.day - 1)

/-- The seconds from the start of 1970. -/
def DateTime.unix (t : DateTime) : Nat :=
  ((t.days * 24 + t.hour) * 60 + t.minute) * 60 + t.second

/-- Around 2000 every fourth year is a leap year. -/
theorem isLeap_iff {year : Nat} (hfirst : 1901 ≤ year) (hlast : year ≤ 2099) :
    isLeap year ↔ year % 4 = 0 := by
  simp only [isLeap, Bool.and_eq_true, Bool.or_eq_true, bne_iff_ne, beq_iff_eq]
  omega

theorem daysOfYears_eq {years : Nat} (h : years ≤ 130) :
    daysOfYears 1970 years = 365 * years + (years + 1) / 4 := by
  induction years with
  | zero => rfl
  | succ years ih =>
    rw [daysOfYears, ih (by omega), yearLength]
    have hleap := isLeap_iff (show 1901 ≤ 1970 + years by omega) (by omega)
    split
    next h4 =>
      have hmod := hleap.mp h4
      omega
    next h4 =>
      have hmod : ¬(1970 + years) % 4 = 0 := fun h => h4 (hleap.mpr h)
      omega

/-- The leap days between 1970 and a year: every fourth year, without the centuries, with every fourth
century -/
theorem daysOfYears_leaps (years : Nat) : daysOfYears 1970 years + (years + 69) / 100 =
    365 * years + (years + 1) / 4 + (years + 369) / 400 := by
  induction years with
  | zero => rfl
  | succ years ih =>
    have hleap : isLeap (1970 + years) ↔
        (1970 + years) % 4 = 0 ∧ ((1970 + years) % 100 ≠ 0 ∨ (1970 + years) % 400 = 0) := by
      simp [isLeap]
    have hfourth : (years + 1 + 1) / 4 = (years + 1) / 4 + if (1970 + years) % 4 = 0 then 1 else 0 := by
      split <;> omega
    have hcentury : (years + 1 + 69) / 100 =
        (years + 69) / 100 + if (1970 + years) % 100 = 0 then 1 else 0 := by
      split <;> omega
    have hcycle : (years + 1 + 369) / 400 =
        (years + 369) / 400 + if (1970 + years) % 400 = 0 then 1 else 0 := by
      split <;> omega
    -- a year that ends a cycle ends a century, and that is a fourth year
    have hwithin : (1970 + years) % 400 = 0 → (1970 + years) % 100 = 0 := by omega
    have hevery : (1970 + years) % 100 = 0 → (1970 + years) % 4 = 0 := by omega
    rw [daysOfYears, yearLength, hfourth, hcentury, hcycle, if_congr hleap rfl rfl]
    by_cases h4 : (1970 + years) % 4 = 0
    · by_cases h100 : (1970 + years) % 100 = 0
      · by_cases h400 : (1970 + years) % 400 = 0
        · simp only [h4, h100, h400, if_true, true_and, or_true]
          omega
        · simp only [h4, h100, h400, if_true, if_false, true_and, ne_eq, not_true, or_self]
          omega
      · simp only [h4, h100, mt hwithin h100, if_true, if_false, true_and, ne_eq, not_false_eq_true, true_or]
        omega
    · simp only [h4, mt hevery h4, mt hwithin (mt hevery h4), if_false, false_and]
      omega

theorem daysOfMonths_succ (leap : Bool) (month : Nat) :
    daysOfMonths leap (month + 1) = daysOfMonths leap month + monthLength leap month := by
  rw [daysOfMonths, List.range_succ, List.map_append, List.sum_append, List.map_singleton,
    List.sum_singleton]
  rfl

theorem daysOfMonths_all (year : Nat) : daysOfMonths (isLeap year) 13 = yearLength year := by
  unfold yearLength
  cases isLeap year <;> rfl

/-- The days from the first one of 1970 to a day -/
def dayNumber (year month day : Nat) : Nat :=
  daysOfYears 1970 (year - 1970) + daysOfMonths (isLeap year) month + (day - 1)

/-- A day of the calendar -/
def IsDay (year month day : Nat) : Prop :=
  1970 ≤ year ∧ (1 ≤ month ∧ month ≤ 12) ∧ 1 ≤ day ∧ day ≤ monthLength (isLeap year) month

theorem monthLength_pos (leap : Bool) {month : Nat} (h : 1 ≤ month ∧ month ≤ 12) :
    1 ≤ monthLength leap month := by
  obtain ⟨hfirst, hlast⟩ := h
  cases leap <;> interval_cases month <;> decide

/-- Every day is followed by one of the same month, the first one of the next month, or the first one of
the next year. -/
theorem exists_next_day {year month day : Nat} (h : IsDay year month day) :
    ∃ year' month' day', IsDay year' month' day' ∧
      dayNumber year' month' day' = dayNumber year month day + 1 := by
  obtain ⟨hyear, hmonth, hfirst, hlast⟩ := h
  unfold dayNumber
  by_cases hday : day < monthLength (isLeap year) month
  · refine ⟨year, month, day + 1, ⟨hyear, hmonth, by omega, by omega⟩, ?_⟩
    omega
  have hend : day = monthLength (isLeap year) month := by omega
  have hmonths := daysOfMonths_succ (isLeap year) month
  by_cases hbefore : month < 12
  · have hnext : 1 ≤ month + 1 ∧ month + 1 ≤ 12 := by omega
    refine ⟨year, month + 1, 1, ⟨hyear, hnext, Nat.le_refl 1, monthLength_pos _ hnext⟩, ?_⟩
    omega
  · have hmonth12 : month = 12 := by omega
    subst hmonth12
    have hnext : 1 ≤ 1 ∧ 1 ≤ 12 := by omega
    refine ⟨year + 1, 1, 1, ⟨by omega, hnext, Nat.le_refl 1, monthLength_pos _ hnext⟩, ?_⟩
    have hyears : daysOfYears 1970 (year + 1 - 1970) =
        daysOfYears 1970 (year - 1970) + yearLength year := by
      rw [Nat.sub_add_comm hyear, daysOfYears, Nat.add_sub_cancel' hyear]
    have hjanuary : daysOfMonths (isLeap (year + 1)) 1 = 0 := rfl
    have hdecember : daysOfMonths (isLeap year) 12 + monthLength (isLeap year) 12 = yearLength year :=
      hmonths.symm.trans (daysOfMonths_all year)
    omega

theorem exists_day (n : Nat) : ∃ year month day, IsDay year month day ∧ dayNumber year month day = n := by
  induction n with
  | zero => exact ⟨1970, 1, 1, by unfold IsDay; decide, rfl⟩
  | succ n ih =>
    obtain ⟨year, month, day, hday, rfl⟩ := ih
    exact exists_next_day hday

/-- Every second from 1970 on belongs to a time of the calendar. -/
theorem exists_unix (n : Nat) : ∃ t : DateTime, 1970 ≤ t.year ∧ t.unix = n := by
  obtain ⟨year, month, day, ⟨hyear, hmonth, hday⟩, hnumber⟩ := exists_day (n / 86400)
  refine ⟨⟨year, month, day, n / 3600 % 24, n / 60 % 60, n % 60, hmonth, hday, ?_, ?_, ?_⟩, hyear, ?_⟩
  · exact Nat.mod_lt _ (by decide)
  · exact Nat.mod_lt _ (by decide)
  · exact Nat.mod_lt _ (by decide)
  · show ((dayNumber year month day * 24 + n / 3600 % 24) * 60 + n / 60 % 60) * 60 + n % 60 = n
    rw [hnumber]
    omega

end Origel.Lib
