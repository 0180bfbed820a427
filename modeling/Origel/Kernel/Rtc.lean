import Mathlib.Data.List.TakeWhile
import Mathlib.Tactic.IntervalCases
import Origel.Lib.Calendar

/-! The real-time clock: what `Rtc::time` makes of the registers, and of which times it is right. -/
namespace Origel.Kernel.Rtc

open Origel.Lib

/-- `cvt_bcd` -/
def cvtBcd (value : Nat) : Nat := (value &&& 0xF) + (value / 16) * 10

/-- The loops of `wait`, over what successive reads of the register give; none where they go on. -/
def wait (statuses : List UInt8) : Option (List UInt8) :=
  match statuses.dropWhile fun status => status &&& 0x80 != 0x80 with
  | [] => none
  | set =>
    match set.dropWhile fun status => status &&& 0x80 == 0x80 with
    | [] => none
    | _ :: statuses => some statuses

/-- `hour` once it has been converted, before the PM bit is looked at -/
def readHour (registerB : UInt8) (hour : Nat) : Nat :=
  if registerB &&& 4 != 4 then cvtBcd (hour &&& 0x7F) ||| (hour &&& 0x80) else hour

/-- The other values, once they have been converted -/
def readValue (registerB : UInt8) (value : Nat) : Nat :=
  if registerB &&& 4 != 4 then cvtBcd value else value

/-- The seconds before a month of a year without a leap day, as `match month` adds them -/
def monthSecs : Nat → Nat
  | 2 => 2678400
  | 3 => 5097600
  | 4 => 7776000
  | 5 => 10368000
  | 6 => 13046400
  | 7 => 15638400
  | 8 => 18316800
  | 9 => 20995200
  | 10 => 23587200
  | 11 => 26265600
  | 12 => 28857600
  | _ => 0

/-- What `time` returns once the registers, which `read` gives, have been read -/
def seconds (read : UInt8 → UInt8) : Nat :=
  let registerB := read 0xB
  let second := readValue registerB (read 0).toNat
  let minute := readValue registerB (read 2).toNat
  let hour := readHour registerB (read 4).toNat
  let day := readValue registerB (read 7).toNat
  let month := readValue registerB (read 8).toNat
  let year := readValue registerB (read 9).toNat
  let hour :=
    if registerB &&& 2 != 2 || hour &&& 0x80 == 0x80 then ((hour &&& 0x7F) + 12) % 24 else hour
  let year := year + 2000
  let leapDays := (year - 1972) / 4 + 1
  let leapDays := if year % 4 = 0 then if month ≤ 2 then leapDays - 1 else leapDays else leapDays
  (year - 1970) * 31536000 + leapDays * 86400 + monthSecs month + (day - 1) * 86400 + hour * 3600 +
    minute * 60 + second

/-- `Rtc::time`, where the register of the status gives `statuses` in turn -/
def time (statuses : List UInt8) (read : UInt8 → UInt8) : Option Nat :=
  (wait statuses).map fun _ => seconds read

/-- How the registers hold a time: bit 2 of register B is set for binary values, bit 1 for hours
from 0 to 23. -/
structure Format where
  binary : Bool
  day24 : Bool

namespace Format

variable (f : Format)

def encode (n : Nat) : Nat := if f.binary then n else n / 10 * 16 + n % 10

/-- Hours from 1 to 12 have a bit for those after noon. -/
def encodeHour (hour : Nat) : Nat :=
  if f.day24 then f.encode hour
  else
    let twelve := if hour % 12 = 0 then 12 else hour % 12
    if hour < 12 then f.encode twelve else f.encode twelve + 0x80

/-- The registers hold a time of this century. -/
structure Holds (t : DateTime) (read : UInt8 → UInt8) : Prop where
  binary : read 0xB &&& 4 = 4 ↔ f.binary
  day24 : read 0xB &&& 2 = 2 ↔ f.day24
  second : (read 0).toNat = f.encode t.second
  minute : (read 2).toNat = f.encode t.minute
  hour : (read 4).toNat = f.encodeHour t.hour
  day : (read 7).toNat = f.encode t.day
  month : (read 8).toNat = f.encode t.month
  year : (read 9).toNat = f.encode (t.year % 100)

end Format

/-- The times whose hour `time` reads as it is. -/
def HourRight (f : Format) (hour : Nat) : Prop := f.day24 ∨ hour = 0 ∨ 13 ≤ hour

theorem cvtBcd_encode (n : Nat) : cvtBcd (n / 10 * 16 + n % 10) = n := by
  have hmask : (n / 10 * 16 + n % 10) &&& 0xF = (n / 10 * 16 + n % 10) % 2 ^ 4 :=
    Nat.and_two_pow_sub_one_eq_mod _ 4
  rw [cvtBcd, hmask]
  omega

section

variable {f : Format} {t : DateTime} {read : UInt8 → UInt8}

theorem Format.Holds.not_binary (h : f.Holds t read) :
    (read 0xB &&& 4 != 4) = !f.binary := by
  rw [Bool.eq_iff_iff, bne_iff_ne, Bool.not_eq_true', ← Bool.not_eq_true, ne_eq, h.binary]

theorem Format.Holds.not_day24 (h : f.Holds t read) :
    (read 0xB &&& 2 != 2) = !f.day24 := by
  rw [Bool.eq_iff_iff, bne_iff_ne, Bool.not_eq_true', ← Bool.not_eq_true, ne_eq, h.day24]

theorem Format.Holds.readValue (h : f.Holds t read) (n : Nat) :
    readValue (read 0xB) (f.encode n) = n := by
  unfold Rtc.readValue encode
  rw [h.not_binary]
  cases f.binary
  · exact cvtBcd_encode n
  · rfl

/-- The hour that is added: in the format with a bit for those after noon, twelve is added to all
of them. -/
theorem Format.Holds.readHour (h : f.Holds t read) :
    (let hour := readHour (read 0xB) (f.encodeHour t.hour)
     if read 0xB &&& 2 != 2 || hour &&& 0x80 == 0x80 then ((hour &&& 0x7F) + 12) % 24 else hour) =
    if f.day24 then t.hour
    else if t.hour = 0 then 0
    else if t.hour < 12 then t.hour + 12
    else if t.hour = 12 then 0
    else t.hour := by
  have hlt := t.hour_lt
  unfold Rtc.readHour encodeHour encode
  simp only [h.not_binary, h.not_day24]
  generalize t.hour = hour at hlt
  cases f.binary <;> cases f.day24 <;> revert hour <;> decide

end

theorem monthSecs_eq {month : Nat} (hfirst : 1 ≤ month) (hlast : month ≤ 12) (leap : Bool) :
    monthSecs month + (if leap ∧ 2 < month then 86400 else 0) =
      86400 * daysOfMonths leap month := by
  cases leap <;> interval_cases month <;> rfl

/-- The days are those of the calendar. -/
theorem days_eq (t : DateTime) (hfirst : 2000 ≤ t.year) (hlast : t.year ≤ 2099) :
    (t.year - 1970) * 31536000 +
      (if t.year % 4 = 0 then
        if t.month ≤ 2 then (t.year - 1972) / 4 + 1 - 1 else (t.year - 1972) / 4 + 1
      else (t.year - 1972) / 4 + 1) * 86400 + monthSecs t.month + (t.day - 1) * 86400 =
    86400 * t.days := by
  have hmonth := monthSecs_eq t.month_mem.1 t.month_mem.2 (isLeap t.year)
  have hyears := daysOfYears_eq (show t.year - 1970 ≤ 130 by omega)
  have hleap := isLeap_iff (show 1901 ≤ t.year by omega) hlast
  rw [DateTime.days, hyears]
  by_cases h4 : t.year % 4 = 0
  · rw [if_pos h4]
    simp only [hleap.mpr h4, true_and] at hmonth ⊢
    by_cases hfeb : t.month ≤ 2
    · rw [if_pos hfeb]
      rw [if_neg (by omega)] at hmonth
      omega
    · rw [if_neg hfeb]
      rw [if_pos (by omega)] at hmonth
      omega
  · rw [if_neg h4]
    have hno : isLeap t.year = false := Bool.eq_false_iff.mpr fun h => h4 (hleap.mp h)
    simp only [hno, Bool.false_eq_true, false_and, if_false] at hmonth ⊢
    omega

theorem seconds_eq {f : Format} {t : DateTime} {read : UInt8 → UInt8} (h : f.Holds t read)
    (hfirst : 2000 ≤ t.year) (hlast : t.year ≤ 2099) :
    seconds read = 86400 * t.days + 3600 * (if f.day24 then t.hour
      else if t.hour = 0 then 0
      else if t.hour < 12 then t.hour + 12
      else if t.hour = 12 then 0
      else t.hour) + 60 * t.minute + t.second := by
  have hdays := days_eq t hfirst hlast
  have hyear : t.year % 100 + 2000 = t.year := by omega
  unfold seconds
  have hhour := h.readHour
  simp only [h.second, h.minute, h.hour, h.day, h.month, h.year] at hhour ⊢
  rw [hhour, h.readValue, h.readValue, h.readValue, h.readValue, h.readValue, hyear, hdays,
    Nat.mul_comm 3600, Nat.mul_comm 60]

/-- The clock is read right just where the hour is one to which twelve is not added by mistake. -/
theorem time_eq_iff (f : Format) (t : DateTime) (statuses rest : List UInt8)
    (read : UInt8 → UInt8) (hfirst : 2000 ≤ t.year) (hlast : t.year ≤ 2099)
    (hholds : f.Holds t read) (hwait : wait statuses = some rest) :
    time statuses read = some t.unix ↔ HourRight f t.hour := by
  rw [time, hwait, Option.map_some, Option.some.injEq, seconds_eq hholds hfirst hlast,
    DateTime.unix, HourRight]
  have hlt := t.hour_lt
  cases hday : f.day24 with
  | true => simp only [if_true, true_or, iff_true]; omega
  | false =>
    simp only [Bool.false_eq_true, if_false, false_or]
    split_ifs <;> omega

/-- 29 February 2016, half past eight in the morning -/
def morning : DateTime :=
  ⟨2016, 2, 29, 8, 30, 15, by decide, by decide, by decide, by decide, by decide⟩

/-- Registers in BCD, with the hour and register B as given -/
def registers (hour registerB : UInt8) : UInt8 → UInt8
  | 0 => 0x15
  | 2 => 0x30
  | 4 => hour
  | 7 => 0x29
  | 8 => 0x02
  | 9 => 0x16
  | 0xB => registerB
  | _ => 0

theorem time_eq_iff_morning :
    time [0x26, 0xA6, 0x26] (registers 0x08 2) = some morning.unix ↔
      HourRight ⟨false, true⟩ morning.hour :=
  time_eq_iff ⟨false, true⟩ morning [0x26, 0xA6, 0x26] [] (registers 0x08 2) (by decide) (by decide)
    ⟨by decide, by decide, rfl, rfl, rfl, rfl, rfl, rfl⟩ rfl

/-- With hours up to twelve the morning is taken for the evening. -/
theorem time_morning :
    Format.Holds ⟨false, false⟩ morning (registers 0x08 0) ∧
      time [0x26, 0xA6, 0x26] (registers 0x08 0) = some (morning.unix + 12 * 3600) ∧
      time [0x26, 0xA6, 0x26] (registers 0x08 0) ≠ some morning.unix :=
  ⟨⟨by decide, by decide, rfl, rfl, rfl, rfl, rfl, rfl⟩, by decide, by decide⟩

end Origel.Kernel.Rtc
