import Mathlib.Algebra.BigOperators.Intervals
import Mathlib.Tactic.IntervalCases

/-!
# Gregorian date to seconds (`mktime`, `kernel/time.c`)

Gauss's day count agrees with the calendar for every year from 1970 (`calendarDays_eq`); the
`unsigned int` product `year*365` makes `mktime` match it while that fits in 32 bits
(`mktime_eq_calendarSeconds`) and not past it (`mktime_year_wraps`).
-/

namespace LinuxKernel.Mktime

/-- The return expression of `mktime`, on the shifted month and year. -/
def gaussSeconds (year mon day hour min sec : UInt32) : UInt64 :=
  -- the day count is an `unsigned int` before the cast, and so is `year*365`
  ((((year / 4 - year / 100 + year / 400 + 367 * mon / 12 + day).toUInt64 +
      (year * 365).toUInt64 - 719499) * 24 + hour.toUInt64) * 60 + min.toUInt64) * 60 +
    sec.toUInt64

/-- `mktime(year0, mon0, day, hour, min, sec)` on 64-bit `unsigned long`; the date's fields are
`unsigned int`. -/
def mktime (year0 mon0 day hour min sec : UInt32) : UInt64 :=
  -- `if (0 >= (int) (mon -= 2)) { mon += 12; year -= 1; }`: 1..12 -> 11,12,1..10
  let (mon, year) :=
    if (mon0 - 2).toInt32 ≤ 0 then (mon0 - 2 + 12, year0 - 1) else (mon0 - 2, year0)
  gaussSeconds year mon day hour min sec

/-! ### The calendar -/

/-- The Gregorian leap year rule. -/
def isLeap (y : Nat) : Bool := y % 4 == 0 && (y % 100 != 0 || y % 400 == 0)

def daysInYear (y : Nat) : Nat := if isLeap y then 366 else 365

/-- The days of month `m` (1 is January) of year `y`. -/
def daysInMonth (y : Nat) : Nat → Nat
  | 2 => if isLeap y then 29 else 28
  | 4 | 6 | 9 | 11 => 30
  | _ => 31

/-- Days from 1970-01-01 to the first of January of `y`. -/
def daysBeforeYear (y : Nat) : Nat := ∑ i ∈ Finset.Ico 1970 y, daysInYear i

/-- Days from the first of January of `y` to the first of month `m`. -/
def daysBeforeMonth (y m : Nat) : Nat := ∑ i ∈ Finset.Ico 1 m, daysInMonth y i

/-- Seconds from 1970-01-01 00:00:00 to the given date and time. -/
def calendarSeconds (year mon day hour min sec : Nat) : Nat :=
  (((daysBeforeYear year + daysBeforeMonth year mon + (day - 1)) * 24 + hour) * 60 + min) * 60 +
    sec

/-! ### Gauss's formula -/

/-- The leap years among `1..y`. -/
def leapCount (y : Nat) : Nat := y / 4 - y / 100 + y / 400

/-- Gauss's day count at the start of month `m` of the year `y` begun in March (`m = 1` is
March, `m = 11` the January after). -/
def marchDays (y m : Nat) : Nat := leapCount y + 367 * m / 12 + y * 365

/-- The months as `mktime` shifts them: January and February close the year before. -/
def shiftedDays (y mon : Nat) : Nat :=
  if mon ≤ 2 then marchDays (y - 1) (mon + 10) else marchDays y (mon - 2)

theorem isLeap_iff (y : Nat) : isLeap y = true ↔ 4 ∣ y ∧ (¬100 ∣ y ∨ 400 ∣ y) := by
  simp [isLeap, Nat.dvd_iff_mod_eq_zero]

theorem leapCount_succ (y : Nat) :
    leapCount (y + 1) = leapCount y + if isLeap (y + 1) then 1 else 0 := by
  have fewer : y / 100 ≤ y / 4 := Nat.div_le_div_left (by decide) (by decide)
  unfold leapCount
  rw [Nat.succ_div (a := y) (b := 4), Nat.succ_div (a := y) (b := 100),
    Nat.succ_div (a := y) (b := 400)]
  by_cases c400 : 400 ∣ y + 1
  · -- a multiple of 400 is one of 100 and of 4: one more of each
    have c100 : 100 ∣ y + 1 := Nat.dvd_trans (by decide) c400
    have c4 : 4 ∣ y + 1 := Nat.dvd_trans (by decide) c100
    rw [if_pos c4, if_pos c100, if_pos c400, if_pos ((isLeap_iff _).mpr ⟨c4, Or.inr c400⟩)]
    omega
  · by_cases c100 : 100 ∣ y + 1
    · have c4 : 4 ∣ y + 1 := Nat.dvd_trans (by decide) c100
      have common : isLeap (y + 1) ≠ true := fun leap =>
        ((isLeap_iff _).mp leap).2.elim (fun c => c c100) c400
      rw [if_pos c4, if_pos c100, if_neg c400, if_neg common]
      omega
    · by_cases c4 : 4 ∣ y + 1
      · rw [if_pos c4, if_neg c100, if_neg c400, if_pos ((isLeap_iff _).mpr ⟨c4, Or.inl c100⟩)]
        omega
      · rw [if_neg c4, if_neg c100, if_neg c400, if_neg fun leap => c4 ((isLeap_iff _).mp leap).1]
        omega

theorem marchDays_succ (y : Nat) : marchDays (y + 1) 11 = marchDays y 11 + daysInYear (y + 1) := by
  unfold marchDays daysInYear
  rw [leapCount_succ]
  split <;> omega

theorem marchDays_january {y : Nat} (epoch : 1969 ≤ y) :
    marchDays y 11 = daysBeforeYear (y + 1) + 719498 := by
  induction y, epoch using Nat.le_induction with
  | base => decide
  | succ y epoch ih =>
    rw [marchDays_succ, ih, daysBeforeYear, daysBeforeYear,
      Finset.sum_Ico_succ_top (show 1970 ≤ y + 1 by omega)]
    omega

theorem daysBeforeMonth_succ (y : Nat) {m : Nat} (h : 1 ≤ m) :
    daysBeforeMonth y (m + 1) = daysBeforeMonth y m + daysInMonth y m :=
  Finset.sum_Ico_succ_top h _

theorem month_step {y m : Nat} (epoch : 1 ≤ y) (h1 : 1 ≤ m) (h11 : m ≤ 11) :
    shiftedDays y (m + 1) = shiftedDays y m + daysInMonth y m := by
  obtain ⟨y, rfl⟩ : ∃ y', y = y' + 1 := ⟨y - 1, by omega⟩
  by_cases feb : m = 2
  · -- February closes the March year: its length is where the leap day comes in
    subst feb
    rw [shiftedDays, shiftedDays, if_neg (by decide), if_pos (by decide), daysInMonth, marchDays,
      marchDays, Nat.add_sub_cancel, leapCount_succ]
    cases isLeap (y + 1) <;> simp <;> omega
  · -- the other months' lengths are the steps of `367*mon/12`
    unfold shiftedDays marchDays
    interval_cases m <;> simp [daysInMonth] at feb ⊢ <;> omega

theorem calendarDays_eq {y mon : Nat} (epoch : 1970 ≤ y) (h1 : 1 ≤ mon) (h12 : mon ≤ 12) :
    shiftedDays y mon = daysBeforeYear y + daysBeforeMonth y mon + 719498 := by
  induction mon, h1 using Nat.le_induction with
  | base =>
    have january := marchDays_january (show 1969 ≤ y - 1 by omega)
    rw [Nat.sub_add_cancel (by omega)] at january
    rw [shiftedDays, if_pos (by decide), january, daysBeforeMonth, Finset.Ico_self,
      Finset.sum_empty, add_zero]
  | succ m h1 ih =>
    rw [month_step (by omega) h1 (by omega), ih (by omega), daysBeforeMonth_succ y h1]
    omega

/-! ### The machine words -/

theorem toNat_add32 {a b : UInt32} (h : a.toNat + b.toNat < 2 ^ 32) :
    (a + b).toNat = a.toNat + b.toNat := by
  rw [UInt32.toNat_add]
  exact Nat.mod_eq_of_lt h

theorem toNat_mul32 {a b : UInt32} (h : a.toNat * b.toNat < 2 ^ 32) :
    (a * b).toNat = a.toNat * b.toNat := by
  rw [UInt32.toNat_mul]
  exact Nat.mod_eq_of_lt h

theorem shift_month (mon0 : UInt32) (valid : 1 ≤ mon0.toNat ∧ mon0.toNat ≤ 12) :
    ((mon0 - 2).toInt32 ≤ 0 ↔ mon0.toNat ≤ 2) ∧
      (mon0.toNat ≤ 2 → (mon0 - 2 + 12).toNat = mon0.toNat + 10) ∧
      (2 < mon0.toNat → (mon0 - 2).toNat = mon0.toNat - 2) := by
  obtain ⟨lo, hi⟩ := valid
  rw [← UInt32.ofNat_toNat (x := mon0)]
  generalize mon0.toNat = m at lo hi
  interval_cases m <;> decide

theorem leapCount_le (y : Nat) : leapCount y ≤ y := by
  unfold leapCount
  omega

theorem dayCount_toNat {year mon day : UInt32} (fits : year.toNat * 365 < 2 ^ 32)
    (month : mon.toNat ≤ 12) (dayValid : day.toNat ≤ 31) :
    (year / 4 - year / 100 + year / 400 + 367 * mon / 12 + day).toNat =
      leapCount year.toNat + 367 * mon.toNat / 12 + day.toNat := by
  have fewer : year / 100 ≤ year / 4 := by
    rw [UInt32.le_iff_toNat_le, UInt32.toNat_div, UInt32.toNat_div]
    exact Nat.div_le_div_left (by decide) (by decide)
  have leapSub : (year / 4 - year / 100).toNat = year.toNat / 4 - year.toNat / 100 := by
    rw [UInt32.toNat_sub_of_le _ _ fewer, UInt32.toNat_div, UInt32.toNat_div]
    rfl
  have four : (year / 400).toNat = year.toNat / 400 := UInt32.toNat_div _ _
  have leaps : (year / 4 - year / 100 + year / 400).toNat = leapCount year.toNat := by
    rw [toNat_add32 (by rw [leapSub, four]; omega), leapSub, four]
    rfl
  have product : (367 * mon).toNat = 367 * mon.toNat :=
    toNat_mul32 (show 367 * mon.toNat < 2 ^ 32 by omega)
  have months : (367 * mon / 12).toNat = 367 * mon.toNat / 12 := by
    rw [UInt32.toNat_div, product]
    rfl
  have bounded := leapCount_le year.toNat
  rw [toNat_add32 (by rw [toNat_add32 (by rw [leaps, months]; omega), leaps, months]; omega),
    toNat_add32 (by rw [leaps, months]; omega), leaps, months]

theorem toNat_hms {t : UInt64} (hour min sec : UInt32) (small : t.toNat < 2 ^ 33) :
    (((t * 24 + hour.toUInt64) * 60 + min.toUInt64) * 60 + sec.toUInt64).toNat =
      ((t.toNat * 24 + hour.toNat) * 60 + min.toNat) * 60 + sec.toNat := by
  have hourLt := hour.toNat_lt
  have minLt := min.toNat_lt
  have secLt := sec.toNat_lt
  simp only [UInt64.toNat_add, UInt64.toNat_mul, UInt32.toNat_toUInt64, UInt64.reduceToNat]
  omega

theorem gaussSeconds_toNat (year mon day hour min sec : UInt32)
    (fits : year.toNat * 365 < 2 ^ 32) (month : mon.toNat ≤ 12) (dayValid : day.toNat ≤ 31)
    (past : 719499 ≤ marchDays year.toNat mon.toNat + day.toNat) :
    (gaussSeconds year mon day hour min sec).toNat =
      (((marchDays year.toNat mon.toNat + day.toNat - 719499) * 24 + hour.toNat) * 60 +
        min.toNat) * 60 + sec.toNat := by
  have days := dayCount_toNat fits month dayValid
  have product : (year * 365).toNat = year.toNat * 365 :=
    toNat_mul32 (show year.toNat * 365 < 2 ^ 32 from fits)
  have bounded := leapCount_le year.toNat
  have total : ((year / 4 - year / 100 + year / 400 + 367 * mon / 12 + day).toUInt64 +
      (year * 365).toUInt64).toNat = marchDays year.toNat mon.toNat + day.toNat := by
    rw [UInt64.toNat_add, UInt32.toNat_toUInt64, UInt32.toNat_toUInt64, days, product,
      Nat.mod_eq_of_lt (by omega)]
    unfold marchDays
    omega
  have sinceEpoch : ((year / 4 - year / 100 + year / 400 + 367 * mon / 12 + day).toUInt64 +
      (year * 365).toUInt64 - 719499).toNat =
      marchDays year.toNat mon.toNat + day.toNat - 719499 := by
    rw [UInt64.toNat_sub_of_le _ _ (by rw [UInt64.le_iff_toNat_le, total]; exact past), total]
    rfl
  have small : marchDays year.toNat mon.toNat + day.toNat < 2 ^ 33 := by
    unfold marchDays
    omega
  rw [gaussSeconds, toNat_hms hour min sec (by rw [sinceEpoch]; omega), sinceEpoch]

/-! ### `mktime` against the calendar -/

/-- On 64-bit, `mktime` is the calendar's count of seconds for every date from 1970 whose
`year*365` fits in `unsigned int`, that is up to the year 11767033. -/
theorem mktime_eq_calendarSeconds (year mon day hour min sec : UInt32)
    (epoch : 1970 ≤ year.toNat) (month : 1 ≤ mon.toNat ∧ mon.toNat ≤ 12)
    (dayValid : 1 ≤ day.toNat ∧ day.toNat ≤ 31) (fits : year.toNat * 365 < 2 ^ 32) :
    (mktime year mon day hour min sec).toNat =
      calendarSeconds year.toNat mon.toNat day.toNat hour.toNat min.toNat sec.toNat := by
  -- the bound on the year, with small numbers, is what the arithmetic below needs
  have bound : year.toNat ≤ 11767033 := by omega
  clear fits
  obtain ⟨test, january, later⟩ := shift_month mon month
  have calendar := calendarDays_eq epoch month.1 month.2
  unfold mktime calendarSeconds
  by_cases early : mon.toNat ≤ 2
  · -- January and February count from the March of the year before
    have yearBefore : (year - 1).toNat = year.toNat - 1 :=
      UInt32.toNat_sub_of_le _ _ (by rw [UInt32.le_iff_toNat_le]; exact Nat.le_trans (by decide) epoch)
    have monthBefore := january early
    rw [shiftedDays, if_pos early] at calendar
    have pastBefore : 719499 ≤ marchDays (year - 1).toNat (mon - 2 + 12).toNat + day.toNat := by
      rw [yearBefore, monthBefore]
      omega
    rw [if_pos (test.mpr early)]
    dsimp only
    rw [gaussSeconds_toNat (year - 1) (mon - 2 + 12) day hour min sec (by omega) (by omega)
      dayValid.2 pastBefore, yearBefore, monthBefore, calendar]
    omega
  · have shifted := later (by omega)
    rw [shiftedDays, if_neg early] at calendar
    have pastShifted : 719499 ≤ marchDays year.toNat (mon - 2).toNat + day.toNat := by
      rw [shifted]
      omega
    rw [if_neg (fun early' => early (test.mp early'))]
    dsimp only
    rw [gaussSeconds_toNat year (mon - 2) day hour min sec (by omega) (by omega) dayValid.2
      pastShifted, shifted, calendar]
    omega

theorem mktime_eq_calendarSeconds_leap_day :
    (mktime 2024 2 29 12 30 0).toNat = calendarSeconds 2024 2 29 12 30 0 :=
  mktime_eq_calendarSeconds 2024 2 29 12 30 0 (by decide) ⟨by decide, by decide⟩
    ⟨by decide, by decide⟩ (by decide)

/-- `year*365` wraps in `unsigned int` from the year 11767034: on the first of March of the year
12000000 `mktime` returns about 87 thousand days' worth of seconds where the calendar counts
over four billion days. -/
theorem mktime_year_wraps :
    (mktime 12000000 3 1 0 0 0).toNat = 7536087590400 ∧
      calendarSeconds 12000000 3 1 0 0 0 = 378621261964800 := by
  refine ⟨by rfl, ?_⟩
  have counted := calendarDays_eq (show 1970 ≤ 12000000 by norm_num) (show 1 ≤ 3 by norm_num)
    (show 3 ≤ 12 by norm_num)
  have gauss : shiftedDays 12000000 3 = 4382910030 := by
    simp only [shiftedDays, marchDays, leapCount]
    norm_num
  have days : daysBeforeYear 12000000 + daysBeforeMonth 12000000 3 = 4382190532 := by
    rw [gauss] at counted
    omega
  rw [calendarSeconds, days]

end LinuxKernel.Mktime
