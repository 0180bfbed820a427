import Mathlib.Tactic.Ring
import Origel.Kernel.Rtc

/-! The date and the time of a day that `date` prints, and that they are those of the calendar. -/
namespace Origel.Coreutils.Date

open Origel.Lib Origel.Kernel.Rtc

/-- A result of `i64` arithmetic; none where it overflows -/
def i64 (n : Int) : Option Int := if -2 ^ 63 ≤ n ∧ n < 2 ^ 63 then some n else none

def add (a b : Int) : Option Int := i64 (a + b)

def sub (a b : Int) : Option Int := i64 (a - b)

def mul (a b : Int) : Option Int := i64 (a * b)

/-- What `format_time` puts into its text -/
structure Fields where
  year : Int
  month : Int
  day : Int
  hour : Int
  minute : Int
  second : Int
  deriving DecidableEq, Repr

/-- `format_time` up to its last line; none where it overflows -/
def fields (ts : Int) : Option Fields := do
  let s := ts.tmod 86400
  let ts := ts.tdiv 86400
  let h := s.tdiv 3600
  let m := (s.tdiv 60).tmod 60
  let s := s.tmod 60
  let x ← add ((← add (← mul ts 4) 102032).tdiv 146097) 15
  let b ← sub (← add (← add ts 2442113) x) (x.tdiv 4)
  let c := (← sub (← mul b 20) 2442).tdiv 7305
  let d ← sub (← sub b (← mul 365 c)) (c.tdiv 4)
  let e := (← mul d 1000).tdiv 30601
  let f ← sub (← sub d (← mul e 30)) ((← mul e 601).tdiv 1000)
  if e < 14 then some ⟨← sub c 4716, ← sub e 1, f, h, m, s⟩
  else some ⟨← sub c 4715, ← sub e 13, f, h, m, s⟩

/-- `{:>0width}`: zeros between the sign and the digits -/
def zeroPadded (width : Nat) (n : Int) : List Char :=
  let sign := if n < 0 then ['-'] else []
  let digits := Nat.toDigits 10 n.natAbs
  sign ++ List.replicate (width - sign.length - digits.length) '0' ++ digits

def formatTime (ts : Int) : Option (List Char) :=
  (fields ts).map fun t =>
    zeroPadded 4 t.year ++ '-' :: zeroPadded 2 t.month ++ '-' :: zeroPadded 2 t.day ++
      ' ' :: zeroPadded 2 t.hour ++ ':' :: zeroPadded 2 t.minute ++ ':' :: zeroPadded 2 t.second

/-- The fields of a time of the calendar -/
def ofTime (t : DateTime) : Fields := ⟨t.year, t.month, t.day, t.hour, t.minute, t.second⟩

/-- The last decimal digit -/
def digit (n : Nat) : Char := Char.ofNat (48 + n % 10)

def twoDigits (n : Nat) : List Char := [digit (n / 10), digit n]

/-- A time as it is written: `YYYY-MM-DD hh:mm:ss` -/
def written (t : DateTime) : List Char :=
  twoDigits (t.year / 100) ++ twoDigits t.year ++ '-' :: twoDigits t.month ++ '-' :: twoDigits t.day ++
    ' ' :: twoDigits t.hour ++ ':' :: twoDigits t.minute ++ ':' :: twoDigits t.second

theorem i64_eq {n : Int} (hlow : -2 ^ 63 ≤ n) (hhigh : n < 2 ^ 63) : i64 n = some n := if_pos ⟨hlow, hhigh⟩

theorem add_nat {a b : Int} {n : Nat} (h : a + b = n) (hn : n < 2 ^ 63) : add a b = some n :=
  (congrArg i64 h).trans (i64_eq (by omega) (by omega))

theorem sub_nat {a b : Int} {n : Nat} (h : a - b = n) (hn : n < 2 ^ 63) : sub a b = some n :=
  (congrArg i64 h).trans (i64_eq (by omega) (by omega))

theorem mul_nat {a b : Int} {n : Nat} (h : a * b = n) (hn : n < 2 ^ 63) : mul a b = some n :=
  (congrArg i64 h).trans (i64_eq (by omega) (by omega))

theorem bind_eq {α β : Type} {x : Option α} {a : α} {k : α → Option β} (h : x = some a) :
    (x >>= k) = k a := h ▸ rfl

theorem tdiv_nat (n k : Nat) : (n : Int).tdiv k = (n / k : Nat) := (Int.ofNat_tdiv n k).symm

theorem tmod_nat (n k : Nat) : (n : Int).tmod k = (n % k : Nat) := (Int.ofNat_tmod n k).symm

/-- The values of the variables of `format_time` on a day -/
structure Chain (day x b c d e f : Nat) : Prop where
  centuries : x = (4 * day + 102032) / 146097 + 15
  julian : b + x / 4 = day + 2442113 + x
  year : c = (20 * b - 2442) / 7305
  dayOfYear : d + 365 * c + c / 4 = b
  month : e = 1000 * d / 30601
  dayOfMonth : f + 30 * e + 601 * e / 1000 = d

section

variable {n x b c d e f : Nat}

/-- Nothing overflows, and nothing is negative. -/
theorem fields_eq (hn : n < 2 ^ 63) (h : Chain (n / 86400) x b c d e f) (hc : 4716 ≤ c) (he : 1 ≤ e) :
    fields n = some ⟨if e < 14 then (c - 4716 : Nat) else (c - 4715 : Nat),
      if e < 14 then (e - 1 : Nat) else (e - 13 : Nat), f,
      (n / 3600 % 24 : Nat), (n / 60 % 60 : Nat), (n % 60 : Nat)⟩ := by
  obtain ⟨hx, hb, hc', hd, he', hf⟩ := h
  have hday : n / 86400 < 2 ^ 47 := by omega
  have hts : (n : Int).tdiv 86400 = (n / 86400 : Nat) := tdiv_nat n 86400
  generalize n / 86400 = day at *
  unfold fields
  refine (bind_eq (mul_nat (n := 4 * day) (by omega) (by omega))).trans ?_
  refine (bind_eq (add_nat (n := 4 * day + 102032) (by omega) (by omega))).trans ?_
  have hcenturies : ((4 * day + 102032 : Nat) : Int).tdiv 146097 = ((4 * day + 102032) / 146097 : Nat) :=
    tdiv_nat _ 146097
  refine (bind_eq (add_nat (n := x) (by omega) (by omega))).trans ?_
  refine (bind_eq (add_nat (n := day + 2442113) (by omega) (by omega))).trans ?_
  refine (bind_eq (add_nat (n := day + 2442113 + x) (by omega) (by omega))).trans ?_
  have hquarter : (x : Int).tdiv 4 = (x / 4 : Nat) := tdiv_nat x 4
  refine (bind_eq (sub_nat (n := b) (by omega) (by omega))).trans ?_
  refine (bind_eq (mul_nat (n := 20 * b) (by omega) (by omega))).trans ?_
  refine (bind_eq (sub_nat (n := 20 * b - 2442) (by omega) (by omega))).trans ?_
  have hyear : ((20 * b - 2442 : Nat) : Int).tdiv 7305 = c := hc' ▸ tdiv_nat _ 7305
  refine (bind_eq (mul_nat (n := 365 * c) (by omega) (by omega))).trans ?_
  refine (bind_eq (sub_nat (n := d + c / 4) (by omega) (by omega))).trans ?_
  have hfourth : (c : Int).tdiv 4 = (c / 4 : Nat) := tdiv_nat c 4
  refine (bind_eq (sub_nat (n := d) (by rw [hyear, hfourth]; omega) (by omega))).trans ?_
  refine (bind_eq (mul_nat (n := 1000 * d) (by omega) (by omega))).trans ?_
  have hmonth : ((1000 * d : Nat) : Int).tdiv 30601 = e := he' ▸ tdiv_nat _ 30601
  refine (bind_eq (mul_nat (n := 30 * e) (by omega) (by omega))).trans ?_
  refine (bind_eq (sub_nat (n := d - 30 * e) (by omega) (by omega))).trans ?_
  refine (bind_eq (mul_nat (n := 601 * e) (by omega) (by omega))).trans ?_
  have hodd : ((601 * e : Nat) : Int).tdiv 1000 = (601 * e / 1000 : Nat) := tdiv_nat _ 1000
  refine (bind_eq (sub_nat (n := f) (by omega) (by omega))).trans ?_
  have hsecond : ((n : Int).tmod 86400).tmod 60 = (n % 60 : Nat) := by
    rw [show (n : Int).tmod 86400 = (n % 86400 : Nat) from tmod_nat n 86400]
    exact (tmod_nat _ 60).trans (congrArg Nat.cast (by omega))
  have hminute : (((n : Int).tmod 86400).tdiv 60).tmod 60 = (n / 60 % 60 : Nat) := by
    rw [show (n : Int).tmod 86400 = (n % 86400 : Nat) from tmod_nat n 86400,
      show ((n % 86400 : Nat) : Int).tdiv 60 = (n % 86400 / 60 : Nat) from tdiv_nat _ 60]
    exact (tmod_nat _ 60).trans (congrArg Nat.cast (by omega))
  have hhour : ((n : Int).tmod 86400).tdiv 3600 = (n / 3600 % 24 : Nat) := by
    rw [show (n : Int).tmod 86400 = (n % 86400 : Nat) from tmod_nat n 86400]
    exact (tdiv_nat _ 3600).trans (congrArg Nat.cast (by omega))
  rw [hsecond, hminute, hhour, hmonth, hyear]
  by_cases hlt : e < 14
  · rw [if_pos (by omega), if_pos hlt, if_pos hlt]
    refine (bind_eq (sub_nat (n := c - 4716) (by omega) (by omega))).trans ?_
    exact bind_eq (sub_nat (n := e - 1) (by omega) (by omega))
  · rw [if_neg (by omega), if_neg hlt, if_neg hlt]
    refine (bind_eq (sub_nat (n := c - 4715) (by omega) (by omega))).trans ?_
    exact bind_eq (sub_nat (n := e - 13) (by omega) (by omega))

end

/-- The days of a year that begins in March, before a month of it -/
def marchDays (month : Nat) : Nat :=
  if month ≤ 2 then 31 * month + 275 else (153 * month - 457) / 5

/-- The year that begins in March -/
def marchYear (year month : Nat) : Nat := if month ≤ 2 then year - 1 else year

section

variable {year month day : Nat}

theorem daysOfMonths_march (leap : Bool) (h : 1 ≤ month ∧ month ≤ 12) :
    daysOfMonths leap month + (if month ≤ 2 then 306 else 0) =
      marchDays month + (if month ≤ 2 then 0 else if leap then 60 else 59) := by
  obtain ⟨hfirst, hlast⟩ := h
  cases leap <;> interval_cases month <;> rfl

/-- A day is counted from the March of its year. -/
theorem dayNumber_march (h : IsDay year month day) :
    dayNumber year month day + 719468 + marchYear year month / 100 =
      365 * marchYear year month + marchYear year month / 4 + marchYear year month / 400 +
        (marchDays month + (day - 1)) := by
  obtain ⟨hyear, hmonth, -⟩ := h
  have hyears := daysOfYears_leaps (year - 1970)
  have hmonths := daysOfMonths_march (isLeap year) hmonth
  have hleap : isLeap year ↔ year % 4 = 0 ∧ (year % 100 ≠ 0 ∨ year % 400 = 0) := by simp [isLeap]
  rw [dayNumber, marchYear]
  generalize daysOfYears 1970 (year - 1970) = years at *
  generalize daysOfMonths (isLeap year) month = months at *
  by_cases hfeb : month ≤ 2
  · rw [if_pos hfeb, if_pos hfeb] at hmonths
    rw [if_pos hfeb]
    omega
  · rw [if_neg hfeb, if_neg hfeb] at hmonths
    rw [if_neg hfeb]
    split at hmonths
    next h4 =>
      have hmod := hleap.mp h4
      omega
    next h4 =>
      have hmod := mt hleap.mpr h4
      omega

/-- The days of a year that begins in March -/
theorem marchDays_le (h : IsDay year month day) : marchDays month + (day - 1) ≤ 364 ∨
    marchDays month + (day - 1) = 365 ∧ (marchYear year month + 1) % 4 = 0 ∧
      ((marchYear year month + 1) % 100 ≠ 0 ∨ (marchYear year month + 1) % 400 = 0) := by
  obtain ⟨hyear, ⟨hfirst, hlast⟩, hday, hle⟩ := h
  have hleap : isLeap year ↔ year % 4 = 0 ∧ (year % 100 ≠ 0 ∨ year % 400 = 0) := by simp [isLeap]
  have hlength : monthLength (isLeap year) month ≤
      if month = 2 then (if isLeap year then 29 else 28) else 31 := by
    cases isLeap year <;> interval_cases month <;> decide
  unfold marchDays marchYear
  by_cases hfeb : month = 2
  · subst hfeb
    rw [if_pos (Nat.le_refl 2), if_pos (Nat.le_refl 2)]
    rw [if_pos rfl] at hlength
    split at hlength
    next h4 =>
      have hmod := hleap.mp h4
      omega
    next h4 => omega
  · rw [if_neg hfeb] at hlength
    left
    split <;> omega

/-- A century of years that begin in March is found from its number `q`, the year `r` in it and the day `d`
of that year. -/
theorem century {q r d n : Nat} (hnumber : n + 719468 = 36524 * q + q / 4 + 365 * r + r / 4 + d)
    (hq : 19 ≤ q) (hr : r < 100) (hd : d ≤ 364 ∨ d = 365 ∧ (r ≤ 95 ∨ r = 99 ∧ q % 4 = 3)) :
    (4 * n + 102032) / 146097 + 19 = q := by
  have hrest : 4 * n + 102032 = 146097 * (q - 19) + (3 - q % 4 + 1460 * r + 4 * (r / 4) + 4 * d) := by
    omega
  have hsmall : 3 - q % 4 + 1460 * r + 4 * (r / 4) + 4 * d < 146097 := by omega
  rw [hrest, Nat.mul_add_div (by decide), Nat.div_eq_of_lt hsmall]
  omega

/-- The chain of divisions finds the year that begins in March, and the day of it. -/
theorem chain_of_march {y doy n : Nat} (hnumber : n + 719468 + y / 100 = 365 * y + y / 4 + y / 400 + doy)
    (hy : 1969 ≤ y)
    (hdoy : doy ≤ 364 ∨ doy = 365 ∧ (y + 1) % 4 = 0 ∧ ((y + 1) % 100 ≠ 0 ∨ (y + 1) % 400 = 0)) :
    ∃ x b, x = (4 * n + 102032) / 146097 + 15 ∧ b + x / 4 = n + 2442113 + x ∧
      y + 4716 = (20 * b - 2442) / 7305 ∧ (doy + 123) + 365 * (y + 4716) + (y + 4716) / 4 = b := by
  have hcentury : (4 * n + 102032) / 146097 + 19 = y / 100 := by
    have hquarter : y / 4 = 25 * (y / 100) + y % 100 / 4 := by omega
    have hera : y / 400 = y / 100 / 4 := by omega
    refine century (r := y % 100) (d := doy) (by omega) (by omega) (Nat.mod_lt _ (by decide)) ?_
    -- the last day of February is the day with number 365, in the last year of four
    omega
  refine ⟨y / 100 - 4, 365 * y + y / 4 + doy + 1722642, ?_, ?_, ?_, ?_⟩
  · omega
  · omega
  rotate_left
  · rw [show (y + 4716) / 4 = y / 4 + 1179 from Nat.add_mul_div_right y 1179 (z := 4) (by decide)]
    ring
  have hj : 20 * (365 * y + y / 4 + doy + 1722642) - 2442 =
      7305 * (y + 4716) + (18 + 20 * doy - 5 * (y % 4)) := by omega
  have hsmall : 18 + 20 * doy - 5 * (y % 4) < 7305 := by omega
  rw [hj, Nat.mul_add_div (by decide), Nat.div_eq_of_lt hsmall, Nat.add_zero]

/-- The month and the day are found from the day of the year that begins in March. -/
theorem month_of_march (h : IsDay year month day) {e : Nat}
    (he : e = if month ≤ 2 then month + 13 else month + 1) :
    e = 1000 * (marchDays month + (day - 1) + 123) / 30601 ∧
      day + 30 * e + 601 * e / 1000 = marchDays month + (day - 1) + 123 := by
  obtain ⟨-, ⟨hfirst, hlast⟩, hday, hle⟩ := h
  have hlength : monthLength (isLeap year) month ≤
      if month = 2 then 29 else if month ∈ [4, 6, 9, 11] then 30 else 31 := by
    cases isLeap year <;> interval_cases month <;> decide
  have hday' := Nat.le_trans hle hlength
  unfold marchDays
  interval_cases month <;> simp at he hday' ⊢ <;> omega

theorem chain_of_day (h : IsDay year month day) :
    ∃ x b c d e, Chain (dayNumber year month day) x b c d e day ∧ 4716 ≤ c ∧ 1 ≤ e ∧
      (if e < 14 then c - 4716 else c - 4715) = year ∧ (if e < 14 then e - 1 else e - 13) = month := by
  have hyear := h.1
  obtain ⟨hfirst, hlast⟩ := h.2.1
  have hmarch : 1969 ≤ marchYear year month := by
    unfold marchYear
    split <;> omega
  obtain ⟨x, b, hx, hb, hc, hd⟩ := chain_of_march (dayNumber_march h) hmarch (marchDays_le h)
  obtain ⟨he, hf⟩ := month_of_march h rfl
  refine ⟨x, b, marchYear year month + 4716, marchDays month + (day - 1) + 123,
    if month ≤ 2 then month + 13 else month + 1, ⟨hx, hb, hc, hd, he, hf⟩, by omega, ?_, ?_, ?_⟩
  · split <;> omega
  · unfold marchYear
    by_cases hfeb : month ≤ 2
    · rw [if_pos hfeb, if_pos hfeb, if_neg (by omega)]
      omega
    · rw [if_neg hfeb, if_neg hfeb, if_pos (by omega)]
      omega
  · by_cases hfeb : month ≤ 2
    · rw [if_pos hfeb, if_neg (by omega)]
      omega
    · rw [if_neg hfeb, if_pos (by omega)]
      omega

end

section

variable {t : DateTime}

theorem isDay_of (hyear : 1970 ≤ t.year) : IsDay t.year t.month t.day := ⟨hyear, t.month_mem, t.day_mem⟩

theorem fields_unix (hyear : 1970 ≤ t.year) (hlt : t.unix < 2 ^ 63) : fields t.unix = some (ofTime t) := by
  obtain ⟨x, b, c, d, e, hchain, hc, he, hy, hm⟩ := chain_of_day (isDay_of hyear)
  have hhour := t.hour_lt
  have hminute := t.minute_lt
  have hsecond := t.second_lt
  have hunix : t.unix =
      ((dayNumber t.year t.month t.day * 24 + t.hour) * 60 + t.minute) * 60 + t.second := rfl
  rw [show dayNumber t.year t.month t.day = t.unix / 86400 by omega] at hchain
  have hhour' : t.unix / 3600 % 24 = t.hour := by omega
  have hminute' : t.unix / 60 % 60 = t.minute := by omega
  have hsecond' : t.unix % 60 = t.second := by omega
  rw [fields_eq hlt hchain hc he, ofTime, hhour', hminute', hsecond', ← hy, ← hm]
  split <;> rfl

theorem digitChar_eq {n : Nat} (h : n < 10) : n.digitChar = Char.ofNat (48 + n) := by
  interval_cases n <;> rfl

theorem digitChar_mod (n : Nat) : (n % 10).digitChar = digit n := digitChar_eq (Nat.mod_lt n (by decide))

theorem zeroPadded_two {n : Nat} (h : n < 100) : zeroPadded 2 n = twoDigits n := by
  have hten : n / 10 < 10 := by omega
  have hsign : ¬((n : Int) < 0) := by omega
  rw [zeroPadded, if_neg hsign, Int.natAbs_natCast, Nat.toDigits_eq_if (by decide)]
  by_cases hlt : n < 10
  · rw [if_pos hlt, twoDigits, ← digitChar_mod, ← digitChar_mod, Nat.mod_eq_of_lt hlt, Nat.div_eq_of_lt hlt]
    rfl
  · rw [if_neg hlt, Nat.toDigits_eq_if (by decide), if_pos hten, twoDigits, ← digitChar_mod,
      ← digitChar_mod, Nat.mod_eq_of_lt hten]
    rfl

theorem zeroPadded_four {n : Nat} (hlow : 1000 ≤ n) (hhigh : n < 10000) :
    zeroPadded 4 n = twoDigits (n / 100) ++ twoDigits n := by
  have hsign : ¬((n : Int) < 0) := by omega
  have hlead : n / 100 / 10 % 10 = n / 10 / 10 / 10 := by omega
  have hnext : n / 100 % 10 = n / 10 / 10 % 10 := by omega
  rw [zeroPadded, if_neg hsign, Int.natAbs_natCast, Nat.toDigits_eq_if (by decide), if_neg (by omega),
    Nat.toDigits_eq_if (by decide), if_neg (by omega), Nat.toDigits_eq_if (by decide), if_neg (by omega),
    Nat.toDigits_eq_if (by decide), if_pos (by omega)]
  rw [twoDigits, twoDigits, ← digitChar_mod, ← digitChar_mod, ← digitChar_mod, ← digitChar_mod, hlead,
    hnext]
  rfl

/-- A year of four digits is printed as it is written. -/
theorem formatTime_unix (hlow : 1970 ≤ t.year) (hhigh : t.year < 10000) (hlt : t.unix < 2 ^ 63) :
    formatTime t.unix = some (written t) := by
  have hmonth : t.month < 100 := by
    have := t.month_mem
    omega
  have hday : t.day < 100 := by
    have hle : monthLength (isLeap t.year) t.month ≤ 31 := by
      unfold monthLength
      split <;> first | decide | (split <;> decide)
    have := t.day_mem
    omega
  have hhour : t.hour < 100 := Nat.lt_trans t.hour_lt (by decide)
  have hminute : t.minute < 100 := Nat.lt_trans t.minute_lt (by decide)
  have hsecond : t.second < 100 := Nat.lt_trans t.second_lt (by decide)
  rw [formatTime, fields_unix hlow hlt, Option.map_some, ofTime, written]
  simp only [zeroPadded_four (Nat.le_trans (by decide : 1000 ≤ 1970) hlow) hhigh, zeroPadded_two hmonth,
    zeroPadded_two hday, zeroPadded_two hhour, zeroPadded_two hminute, zeroPadded_two hsecond]

/-- A clock with hours from 0 to 23 is read right. -/
theorem time_day24 {f : Format} {statuses rest : List UInt8} {read : UInt8 → UInt8} (hday : f.day24)
    (hlow : 2000 ≤ t.year) (hhigh : t.year ≤ 2099) (hholds : f.Holds t read)
    (hwait : wait statuses = some rest) : time statuses read = some t.unix := by
  rw [time, hwait, Option.map_some, seconds_eq hholds hlow hhigh, if_pos hday, DateTime.unix]
  refine congrArg some ?_
  omega

theorem unix_lt (hlow : 1970 ≤ t.year) (hhigh : t.year ≤ 2099) : t.unix < 2 ^ 63 := by
  have hdays := dayNumber_march (isDay_of hlow)
  have hmarch := marchDays_le (isDay_of hlow)
  have hyear : marchYear t.year t.month ≤ 2099 := by
    unfold marchYear
    split <;> omega
  have hhour := t.hour_lt
  have hminute := t.minute_lt
  have hsecond := t.second_lt
  have hunix : t.unix =
      ((dayNumber t.year t.month t.day * 24 + t.hour) * 60 + t.minute) * 60 + t.second := rfl
  omega

end

/-- `format_time` gives the date and the time of a day that the calendar has, without an overflow, and
prints what a clock with hours from 0 to 23 holds. -/
theorem format_time_right :
    (∀ ts : Int, 0 ≤ ts → ts < 2 ^ 63 →
      ∃ t : DateTime, 1970 ≤ t.year ∧ t.unix = ts ∧ fields ts = some (ofTime t)) ∧
    ∀ (f : Format) (t : DateTime) (statuses rest : List UInt8) (read : UInt8 → UInt8), f.day24 →
      2000 ≤ t.year → t.year ≤ 2099 → f.Holds t read → wait statuses = some rest →
      (time statuses read).bind (fun ts => formatTime ts) = some (written t) := by
  constructor
  · intro ts hpos hlt
    lift ts to Nat using hpos
    obtain ⟨t, hyear, rfl⟩ := exists_unix ts
    exact ⟨t, hyear, rfl, fields_unix hyear (by exact_mod_cast hlt)⟩
  · intro f t statuses rest read hday hlow hhigh hholds hwait
    have hyear : 1970 ≤ t.year := Nat.le_trans (by decide) hlow
    rw [time_day24 hday hlow hhigh hholds hwait, Option.bind_some]
    exact formatTime_unix hyear (Nat.lt_of_le_of_lt hhigh (by decide)) (unix_lt hyear hhigh)

/-- The morning of a leap day -/
theorem format_time_right_morning :
    (∃ t : DateTime, 1970 ≤ t.year ∧ t.unix = (1456734615 : Int) ∧ fields 1456734615 = some (ofTime t)) ∧
    (time [0x26, 0xA6, 0x26] (registers 0x08 2)).bind (fun ts => formatTime ts) =
      some "2016-02-29 08:30:15".toList :=
  ⟨format_time_right.1 1456734615 (by decide) (by decide),
    format_time_right.2 ⟨false, true⟩ morning [0x26, 0xA6, 0x26] [] (registers 0x08 2) rfl (by decide)
      (by decide) ⟨by decide, by decide, rfl, rfl, rfl, rfl, rfl, rfl⟩ rfl⟩

end Origel.Coreutils.Date
