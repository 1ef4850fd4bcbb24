import Lightc.Machine.Signed
import Lightc.Verification.Gregorian
import Mathlib.Tactic.IntervalCases

/-!
# Unix time and civil time

The conversions cut the days into eras of 400 years, and the years of an era into
months from March on, so that the leap day comes last. All of it is done in signed
arithmetic with truncating division. The operations are checked, so a conversion
that has a result has overflowed nowhere.

Both conversions are compared with the calendar through one equation for the number
of a date (`Date.number_eq`), which is the forward conversion in rounded-down
division.
-/

namespace Lightc.Time

open Machine Machine.Signed Verification.Gregorian

/-- `lc_date_time`. -/
structure LcDateTime where
  year : Int
  month : Int
  day : Int
  hour : Int
  minute : Int
  second : Int
  dayOfWeek : Int
  dayOfYear : Int
  deriving DecidableEq, Repr

/-- `(a >= 0 ? a : a - slack) / b`. -/
def divideDown (slack b a : Int) : Option Int := do
  let shifted ← if 0 ≤ a then pure a else sub 64 a slack
  div 64 shifted b

/-- The era of a day counted from March 1 of the year 0. -/
def eraOfDays (days : Int) : Option Int := divideDown 146096 146097 days

/-- `yoe` of `days_to_date`. -/
def yearOfEra (doe : Int) : Option Int := do
  let first ← sub 64 doe (← div 64 doe 1460)
  let second ← add 64 first (← div 64 doe 36524)
  let third ← sub 64 second (← div 64 doe 146096)
  div 64 third 365

/-- `doy` of `days_to_date`. -/
def dayOfMarchYear (doe yoe : Int) : Option Int := do
  let before ← sub 64 (← add 64 (← mul 64 365 yoe) (← div 64 yoe 4)) (← div 64 yoe 100)
  sub 64 doe before

/-- `m` and `d` of `days_to_date`. -/
def monthAndDay (doy : Int) : Option (Int × Int) := do
  let mp ← div 64 (← add 64 (← mul 64 5 doy) 2) 153
  let before ← div 64 (← add 64 (← mul 64 153 mp) 2) 5
  let d ← add 64 (← sub 64 doy before) 1
  let m ← add 64 mp (if mp < 10 then 3 else -9)
  pure (m, d)

/-- `days_to_date`. -/
def daysToDate (days : Int) : Option (Int × Int × Int) := do
  let days ← add 64 days 719468
  let era ← eraOfDays days
  let doe ← sub 64 days (← mul 64 era 146097)
  let yoe ← yearOfEra doe
  let y ← add 64 yoe (← mul 64 era 400)
  let doy ← dayOfMarchYear doe yoe
  let (m, d) ← monthAndDay doy
  let year ← add 64 y (if m ≤ 2 then 1 else 0)
  pure (toInt32 year, toInt32 m, toInt32 d)

/-- `y` and `m` of `date_to_days`, in a year that begins in March. -/
def marchYear (year month : Int) : Option (Int × Int) :=
  if month ≤ 2 then do pure (← sub 64 year 1, ← add 64 month 9)
  else do pure (year, ← sub 64 month 3)

/-- The era of a year. -/
def eraOfYear (y : Int) : Option Int := divideDown 399 400 y

/-- `date_to_days`. -/
def dateToDays (year month day : Int) : Option Int := do
  let (y, m) ← marchYear year month
  let era ← eraOfYear y
  let yoe ← sub 64 y (← mul 64 era 400)
  let before ← div 64 (← add 64 (← mul 64 153 m) 2) 5
  let doy ← sub 64 (← add 64 before day) 1
  let leaps ← sub 64 (← add 64 (← mul 64 yoe 365) (← div 64 yoe 4)) (← div 64 yoe 100)
  let doe ← add 64 leaps doy
  sub 64 (← add 64 (← mul 64 era 146097) doe) 719468

/-- `is_leap_year`. -/
def isLeapYear (year : Int) : Bool :=
  decide (year.tmod 4 = 0) && decide (year.tmod 100 ≠ 0) || decide (year.tmod 400 = 0)

/-- `cumulative_days`. -/
def cumulativeDays : List Int := [0, 31, 59, 90, 120, 151, 181, 212, 243, 273, 304, 334]

/-- `compute_day_of_year`. An index outside the table has no result. -/
def computeDayOfYear (year month day : Int) : Option Int := do
  let index ← sub 32 month 1
  let entry ← if index < 0 then none else cumulativeDays[index.toNat]?
  let doy ← sub 32 (← add 32 entry day) 1
  if 2 < month ∧ isLeapYear year = true then add 32 doy 1 else pure doy

/-- The whole days of a time, and the seconds of its day. -/
def splitDay (epochSeconds : Int) : Option (Int × Int) := do
  let days ← div 64 epochSeconds 86400
  let rest ← rem 64 epochSeconds 86400
  if rest < 0 then do pure (← sub 64 days 1, ← add 64 rest 86400) else pure (days, rest)

/-- `dow` of `lc_time_from_unix`. -/
def dayOfWeek (days : Int) : Option Int := do
  let dow ← rem 64 (← add 64 (← rem 64 days 7) 4) 7
  if dow < 0 then add 64 dow 7 else pure dow

/-- `lc_time_from_unix`. -/
def lcTimeFromUnix (epochSeconds : Int) : Option LcDateTime := do
  let (days, rest) ← splitDay epochSeconds
  let hour ← div 64 rest 3600
  let minute ← div 64 (← rem 64 rest 3600) 60
  let second ← rem 64 rest 60
  let dow ← dayOfWeek days
  let (year, month, day) ← daysToDate days
  let doy ← computeDayOfYear year month day
  pure ⟨year, month, day, toInt32 hour, toInt32 minute, toInt32 second, toInt32 dow, doy⟩

/-- `lc_time_to_unix`. The products with the time of day are 32-bit. -/
def lcTimeToUnix (dt : LcDateTime) : Option Int := do
  let days ← dateToDays dt.year dt.month dt.day
  let sum ← add 64 (← mul 64 days 86400) (← mul 32 dt.hour 3600)
  let sum ← add 64 sum (← mul 32 dt.minute 60)
  add 64 sum dt.second

/-! ### The calendar counted from March -/

variable {month : Nat} {t : Int}

theorem elapsed_of_le_two (year : Int) (positive : 1 ≤ month) (early : month ≤ 2) :
    elapsed year month = 31 * (month - 1) := by
  interval_cases month <;> simp [elapsed, monthLength]

theorem elapsed_of_two_lt (year : Int) (late : 2 < month) (small : month ≤ 12) :
    elapsed year month = (if IsLeap year then 60 else 59) + (153 * (month - 3) + 2) / 5 := by
  by_cases leap : IsLeap year
  all_goals interval_cases month <;> simp [elapsed, monthLength, leap]

/-- A day `doy` of the year `yoe` of an era, both counted from March. -/
structure MarchDay (yoe doy : Int) : Prop where
  low : 0 ≤ yoe
  high : yoe < 400
  first : 0 ≤ doy
  last : doy ≤ 365
  leap : doy = 365 → IsLeap (yoe + 1)

/-- The days of an era before a year of it. -/
def beforeYear (yoe : Int) : Int := 365 * yoe + yoe / 4 - yoe / 100

/-- The year of a date, if it began in March. -/
def marchYearOf (d : Date) : Int := if d.month ≤ 2 then d.year - 1 else d.year

/-- The months since March. -/
def marchMonthOf (d : Date) : Int := if d.month ≤ 2 then d.month + 9 else d.month - 3

/-- The days since March 1. -/
def marchDayOf (d : Date) : Int := (153 * marchMonthOf d + 2) / 5 + d.day - 1

variable {d : Date} {yoe doy doe days : Int}

theorem marchMonthOf_bounds (d : Date) : 0 ≤ marchMonthOf d ∧ marchMonthOf d ≤ 11 := by
  have positive := d.month_pos
  have small := d.month_le
  unfold marchMonthOf
  split_ifs <;> omega

/-- Only the 29th of February is the 366th day from March on. -/
theorem marchDay (d : Date) : MarchDay (marchYearOf d % 400) (marchDayOf d) := by
  have positive := d.day_pos
  have inside := d.day_le
  have month := d.month_pos
  have later := marchMonthOf_bounds d
  have first : 0 ≤ marchDayOf d := by
    unfold marchDayOf
    omega
  by_cases february : d.month = 2
  · have day : marchDayOf d = 336 + d.day := by
      unfold marchDayOf marchMonthOf
      rw [february]
      simp
      omega
    rw [february] at inside
    change d.day ≤ if IsLeap d.year then 29 else 28 at inside
    refine ⟨by omega, by omega, first, ?_, fun last => ?_⟩
    · split_ifs at inside <;> omega
    · have leap : IsLeap d.year := by
        by_contra common
        rw [if_neg common] at inside
        omega
      unfold IsLeap at leap ⊢
      unfold marchYearOf
      rw [if_pos (by omega)]
      omega
  · have short := monthLength_le d.year d.month
    have small := d.month_le
    have early : marchDayOf d < 365 := by
      unfold marchDayOf marchMonthOf
      split_ifs <;> omega
    exact ⟨by omega, by omega, first, by omega, fun last => by omega⟩

/-- The number of a date by eras of 146097 days. -/
theorem number_eq (d : Date) : d.number + 719468 =
    marchYearOf d / 400 * 146097 + (beforeYear (marchYearOf d % 400) + marchDayOf d) := by
  have positive := d.day_pos
  have small := d.month_le
  unfold Date.number Date.dayOfYear yearStart beforeYear marchDayOf marchMonthOf marchYearOf
  by_cases early : d.month ≤ 2
  · rw [elapsed_of_le_two _ d.month_pos early, if_pos early, if_pos early]
    have month := d.month_pos
    omega
  · rw [elapsed_of_two_lt _ (Nat.lt_of_not_le early) small, if_neg early, if_neg early]
    split
    · next leap =>
      unfold IsLeap at leap
      omega
    · next leap =>
      unfold IsLeap at leap
      omega

/-- The formula for the year of an era undoes the leap days before it. Years, leap
cycles of four years and centuries are the digits `r`, `q` and `c`. -/
theorem yearOfEra_formula (h : MarchDay yoe doy) (split : doe = beforeYear yoe + doy) :
    (doe - doe / 1460 + doe / 36524 - doe / 146096) / 365 = yoe := by
  obtain ⟨low, high, first, last, leap⟩ := h
  obtain ⟨c, q, r, parts, hc, hq, hr⟩ : ∃ c q r : Int, yoe = 100 * c + 4 * q + r ∧
      (0 ≤ c ∧ c ≤ 3) ∧ (0 ≤ q ∧ q ≤ 24) ∧ 0 ≤ r ∧ r ≤ 3 :=
    ⟨yoe / 100, yoe % 100 / 4, yoe % 4, by omega, by omega, by omega, by omega⟩
  have late : doy = 365 → r = 3 ∧ (q ≤ 23 ∨ c = 3) := by
    intro long
    have cases_ := leap long
    unfold IsLeap at cases_
    omega
  have cycle : doe = 36524 * c + 1461 * q + 365 * r + doy := by
    unfold beforeYear at split
    omega
  clear leap split
  by_cases top : doe = 146096
  · subst top
    omega
  · have centuries : doe / 36524 = c := by omega
    have eras : doe / 146096 = 0 := by omega
    -- The division by 1460 days may be one cycle ahead, late in the fourth year.
    have cycles : doe / 1460 = 25 * c + q ∨ (doe / 1460 = 25 * c + q + 1 ∧ 1 ≤ doy) := by omega
    have ahead : doy = 365 → doe / 1460 = 25 * c + q + 1 := by omega
    omega

theorem beforeYear_bounds (low : 0 ≤ yoe) (high : yoe < 400) :
    0 ≤ beforeYear yoe ∧ beforeYear yoe ≤ 145731 := by
  unfold beforeYear
  omega

/-- The day of an era is below 146097. -/
theorem MarchDay.bounds (h : MarchDay yoe doy) :
    0 ≤ beforeYear yoe + doy ∧ beforeYear yoe + doy ≤ 146096 := by
  obtain ⟨low, high, first, last, -⟩ := h
  have bounds := beforeYear_bounds low high
  omega

/-! ### The pieces of the conversions -/

theorem divideDown_eq {slack b a : Int} (positive : 0 < b) (matching : slack = b - 1)
    (fits : Fits 64 a) (shifted : Fits 64 (a - slack)) :
    divideDown slack b a = some (a / b) := by
  unfold divideDown
  by_cases nonneg : 0 ≤ a
  · rw [if_pos nonneg]
    exact div_of_nonneg positive nonneg fits
  · have floor := tdiv_eq_ediv_of_neg positive (Int.lt_of_not_ge nonneg)
    rw [← matching] at floor
    have above : a ≤ a / b := by
      rw [Int.le_ediv_iff_mul_le positive]
      have scaled := Int.mul_le_mul_of_nonpos_left (a := a) (b := b) (c := 1) (by omega) positive
      rwa [Int.mul_one] at scaled
    have below : a / b < 0 := Int.ediv_neg_of_neg_of_pos (by omega) positive
    rw [if_neg nonneg, sub_eq shifted]
    change div 64 (a - slack) b = _
    rw [div_eq (Int.ne_of_gt positive), floor]
    rw [floor]
    rw [fits64_iff] at fits ⊢
    omega

theorem eraOfDays_eq (low : -2 ^ 60 ≤ days) (high : days ≤ 2 ^ 60) :
    eraOfDays days = some (days / 146097) :=
  divideDown_eq (by decide) (by decide) (fits64_iff.mpr (by omega)) (fits64_iff.mpr (by omega))

theorem eraOfYear_eq {y : Int} (low : -2 ^ 60 ≤ y) (high : y ≤ 2 ^ 60) :
    eraOfYear y = some (y / 400) :=
  divideDown_eq (by decide) (by decide) (fits64_iff.mpr (by omega)) (fits64_iff.mpr (by omega))

theorem yearOfEra_eq (h : MarchDay yoe doy) : yearOfEra (beforeYear yoe + doy) = some yoe := by
  have bounds := h.bounds
  have formula := yearOfEra_formula h rfl
  generalize beforeYear yoe + doy = doe at *
  unfold yearOfEra
  rw [div64_bind (by decide) (by omega), sub64_bind (by omega), div64_bind (by decide) (by omega),
    add64_bind (by omega), div64_bind (by decide) (by omega), sub64_bind (by omega),
    div_of_nonneg (by decide) (by omega) (fits64_iff.mpr (by omega)), formula]

theorem dayOfMarchYear_eq (h : MarchDay yoe doy) :
    dayOfMarchYear (beforeYear yoe + doy) yoe = some doy := by
  obtain ⟨low, high, first, last, -⟩ := h
  have bounds := beforeYear_bounds low high
  unfold dayOfMarchYear
  rw [mul64_bind (by omega), div64_bind (by decide) (by omega), add64_bind (by omega),
    div64_bind (by decide) (by omega), sub64_bind (by omega), ← beforeYear,
    sub_eq (fits64_iff.mpr (by omega))]
  exact congrArg some (by omega)

/-- Months from March on have 31 and 30 days in a regular order, up to the last. -/
theorem day_le_march (d : Date) :
    (153 * marchMonthOf d + 2) / 5 + d.day ≤ (153 * (marchMonthOf d + 1) + 2) / 5 := by
  have length : (153 * marchMonthOf d + 2) / 5 + monthLength d.year d.month ≤
      (153 * (marchMonthOf d + 1) + 2) / 5 := by
    have positive := d.month_pos
    have small := d.month_le
    unfold marchMonthOf monthLength
    generalize d.month = m at positive small ⊢
    by_cases leap : IsLeap d.year
    all_goals interval_cases m <;> simp [leap]
  have inside := d.day_le
  omega

theorem month_formula {mp day : Int} (positive : 1 ≤ day)
    (fitting : (153 * mp + 2) / 5 + day ≤ (153 * (mp + 1) + 2) / 5) :
    (5 * ((153 * mp + 2) / 5 + day - 1) + 2) / 153 = mp := by
  omega

theorem monthAndDay_of {mp m day : Int} (first : 0 ≤ doy) (last : doy ≤ 365)
    (month : (5 * doy + 2) / 153 = mp) (value : doy - (153 * mp + 2) / 5 + 1 = day)
    (back : mp + (if mp < 10 then 3 else -9) = m) : monthAndDay doy = some (m, day) := by
  have small : 0 ≤ mp ∧ mp ≤ 11 := by omega
  unfold monthAndDay
  rw [mul64_bind (by omega), add64_bind (by omega), div64_bind (by decide) (by omega), month,
    mul64_bind (by omega), add64_bind (by omega), div64_bind (by decide) (by omega),
    sub64_bind (by omega), add64_bind (by omega), value, add64_bind (by omega), back]
  rfl

/-- A day of the year that begins in March falls into the month it was counted from. -/
@[simp] theorem monthAndDay_eq (d : Date) :
    monthAndDay (marchDayOf d) = some ((d.month : Int), (d.day : Int)) := by
  have positive := d.day_pos
  have month := d.month_pos
  have small := d.month_le
  obtain ⟨-, -, first, last, -⟩ := marchDay d
  refine monthAndDay_of first last
    (month_formula (by omega) (day_le_march d)) ?_ ?_
  · unfold marchDayOf
    omega
  · unfold marchMonthOf
    split_ifs <;> omega

/-! ### The conversions -/

/-- Backward: the day of a date gives the date, up to the width of the year. -/
theorem daysToDate_eq (d : Date) (low : -2 ^ 50 ≤ d.number) (high : d.number ≤ 2 ^ 50) :
    daysToDate d.number = some (toInt32 d.year, (d.month : Int), (d.day : Int)) := by
  have eras := number_eq d
  have day := marchDay d
  have bounds := day.bounds
  have small := d.month_le
  have short := monthLength_le d.year d.month
  have inside := d.day_le
  generalize hera : marchYearOf d / 400 = era at eras
  generalize hyoe : marchYearOf d % 400 = yoe at eras day bounds
  generalize hdoe : beforeYear yoe + marchDayOf d = doe at eras bounds
  have year : yoe + era * 400 = marchYearOf d := by omega
  have eraEq : eraOfDays (d.number + 719468) = some era := by
    rw [eraOfDays_eq (by omega) (by omega)]
    exact congrArg some (by omega)
  have rest : d.number + 719468 - era * 146097 = doe := by omega
  have yoeEq : yearOfEra doe = some yoe := hdoe ▸ yearOfEra_eq day
  have doyEq : dayOfMarchYear doe yoe = some (marchDayOf d) := hdoe ▸ dayOfMarchYear_eq day
  have back : marchYearOf d + (if (d.month : Int) ≤ 2 then 1 else 0) = d.year := by
    unfold marchYearOf
    split_ifs <;> omega
  have month : toInt32 d.month = d.month := toInt32_eq (fits32_iff.mpr (by omega))
  have date : toInt32 d.day = d.day := toInt32_eq (fits32_iff.mpr (by omega))
  unfold daysToDate
  rw [add64_bind (by omega), bind_eq eraEq, mul64_bind (by omega), sub64_bind (by omega), rest,
    bind_eq yoeEq, mul64_bind (by omega), add64_bind (by omega), year, bind_eq doyEq,
    bind_eq (monthAndDay_eq d)]
  dsimp only
  rw [add64_bind (by omega), back, month, date]
  rfl

theorem marchYear_eq (d : Date) (fits : Fits 32 d.year) :
    marchYear d.year d.month = some (marchYearOf d, marchMonthOf d) := by
  have small := d.month_le
  rw [fits32_iff] at fits
  unfold marchYear marchYearOf marchMonthOf
  by_cases early : d.month ≤ 2
  · rw [if_pos (by omega), if_pos early, if_pos early, sub_eq (fits64_iff.mpr (by omega)),
      add_eq (fits64_iff.mpr (by omega))]
    rfl
  · rw [if_neg (by omega), if_neg early, if_neg early, sub_eq (fits64_iff.mpr (by omega))]
    rfl

/-- Forward: a date gives its day. -/
theorem dateToDays_eq (d : Date) (fits : Fits 32 d.year) :
    dateToDays d.year d.month d.day = some d.number := by
  have eras := number_eq d
  have months := marchMonthOf_bounds d
  have short := monthLength_le d.year d.month
  have inside := d.day_le
  have march := marchYear_eq d fits
  have near : -2 ^ 32 ≤ marchYearOf d ∧ marchYearOf d ≤ 2 ^ 32 := by
    rw [fits32_iff] at fits
    unfold marchYearOf
    split_ifs <;> omega
  generalize hmp : marchMonthOf d = mp at months march
  generalize hy : marchYearOf d = y at eras near march
  generalize hyoe : y % 400 = yoe at eras
  have range : 0 ≤ yoe ∧ yoe < 400 := by omega
  have eraEq : eraOfYear y = some (y / 400) := eraOfYear_eq (by omega) (by omega)
  have rest : y - y / 400 * 400 = yoe := by omega
  have doy : 0 ≤ marchDayOf d ∧ marchDayOf d ≤ 365 := ⟨(marchDay d).first, (marchDay d).last⟩
  have doyEq : (153 * mp + 2) / 5 + d.day - 1 = marchDayOf d := by rw [marchDayOf, hmp]
  have beforeEq : yoe * 365 + yoe / 4 - yoe / 100 = beforeYear yoe := by
    rw [beforeYear, Int.mul_comm]
  have bounds := beforeYear_bounds range.1 range.2
  unfold dateToDays
  rw [bind_eq march]
  dsimp only
  rw [bind_eq eraEq, mul64_bind (by omega), sub64_bind (by omega), rest, mul64_bind (by omega),
    add64_bind (by omega), div64_bind (by decide) (by omega), add64_bind (by omega),
    sub64_bind (by omega), doyEq, mul64_bind (by omega), div64_bind (by decide) (by omega),
    add64_bind (by omega), div64_bind (by decide) (by omega), sub64_bind (by omega), beforeEq,
    add64_bind (by omega), mul64_bind (by omega), add64_bind (by omega), ← eras,
    sub_eq (fits64_iff.mpr (by omega))]
  exact congrArg some (by omega)

/-! ### The other fields -/

@[simp] theorem isLeapYear_iff {year : Int} : isLeapYear year = true ↔ IsLeap year := by
  have zero : ∀ k : Int, year.tmod k = 0 ↔ year % k = 0 := fun k =>
    (Int.dvd_iff_tmod_eq_zero).symm.trans Int.dvd_iff_emod_eq_zero
  simp [isLeapYear, IsLeap, zero]

theorem cumulativeDays_eq (year : Int) (positive : 1 ≤ month) (small : month ≤ 12) :
    ∃ entry, cumulativeDays[month - 1]? = some entry ∧ 0 ≤ entry ∧ entry ≤ 334 ∧
      (elapsed year month : Int) = entry + if 2 < month ∧ IsLeap year then 1 else 0 := by
  by_cases leap : IsLeap year
  all_goals interval_cases month <;> simp [cumulativeDays, elapsed, monthLength, leap]

theorem computeDayOfYear_eq (year : Int) {day : Nat} (positive : 1 ≤ month) (small : month ≤ 12)
    (first : 1 ≤ day) (last : day ≤ 31) :
    computeDayOfYear year month day = some ((elapsed year month + (day - 1) : Nat) : Int) := by
  obtain ⟨entry, at_, low, high, total⟩ := cumulativeDays_eq year positive small
  have index : sub 32 month 1 = some ((month - 1 : Nat) : Int) := by
    rw [sub_eq (fits32_iff.mpr (by omega))]
    exact congrArg some (by omega)
  have found : (if ((month - 1 : Nat) : Int) < 0 then none
      else cumulativeDays[((month - 1 : Nat) : Int).toNat]?) = some entry := by
    rw [if_neg (by omega), Int.toNat_natCast, at_]
  have sum : add 32 entry day = some (entry + day) := add_eq (fits32_iff.mpr (by omega))
  have doy : sub 32 (entry + day) 1 = some (entry + day - 1) := sub_eq (fits32_iff.mpr (by omega))
  refine (bind_eq index).trans <| (bind_eq found).trans <| (bind_eq sum).trans <|
    (bind_eq doy).trans ?_
  split at total
  · next leap =>
    rw [if_pos ⟨by omega, isLeapYear_iff.mpr leap.2⟩, add_eq (fits32_iff.mpr (by omega))]
    exact congrArg some (by omega)
  · next leap =>
    rw [if_neg fun both => leap ⟨by omega, isLeapYear_iff.mp both.2⟩]
    exact congrArg some (by omega)

/-- Rounding the truncated quotient and remainder down. -/
theorem splitDay_eq (fits : Fits 64 t) : splitDay t = some (t / 86400, t % 86400) := by
  have whole := Int.mul_tdiv_add_tmod t 86400
  have high := Int.tmod_lt_of_pos t (by decide : (0 : Int) < 86400)
  have low := Int.lt_tmod_of_pos t (by decide : (0 : Int) < 86400)
  have sign : 0 ≤ t → 0 ≤ t.tmod 86400 := Int.tmod_nonneg 86400
  rw [fits64_iff] at fits
  have quotient : div 64 t 86400 = some (t.tdiv 86400) :=
    div_eq (by decide) (fits64_iff.mpr (by omega))
  have rest : rem 64 t 86400 = some (t.tmod 86400) :=
    rem_eq (by decide) (fits64_iff.mpr (by omega))
  refine (bind_eq quotient).trans <| (bind_eq rest).trans ?_
  by_cases negative : t.tmod 86400 < 0
  · rw [if_pos negative, sub_eq (fits64_iff.mpr (by omega)), add_eq (fits64_iff.mpr (by omega))]
    exact congrArg some (Prod.ext (by dsimp only; omega) (by dsimp only; omega))
  · rw [if_neg negative]
    exact congrArg some (Prod.ext (by dsimp only; omega) (by dsimp only; omega))

theorem dayOfWeek_eq (fits : Fits 64 days) : dayOfWeek days = some ((days + 4) % 7) := by
  have whole := Int.mul_tdiv_add_tmod days 7
  have high := Int.tmod_lt_of_pos days (by decide : (0 : Int) < 7)
  have low := Int.lt_tmod_of_pos days (by decide : (0 : Int) < 7)
  rw [fits64_iff] at fits
  have first : rem 64 days 7 = some (days.tmod 7) := rem_eq (by decide) (fits64_iff.mpr (by omega))
  generalize days.tmod 7 = r at *
  have shifted : add 64 r 4 = some (r + 4) := add_eq (fits64_iff.mpr (by omega))
  have whole' := Int.mul_tdiv_add_tmod (r + 4) 7
  have high' := Int.tmod_lt_of_pos (r + 4) (by decide : (0 : Int) < 7)
  have low' := Int.lt_tmod_of_pos (r + 4) (by decide : (0 : Int) < 7)
  have second : rem 64 (r + 4) 7 = some ((r + 4).tmod 7) :=
    rem_eq (by decide) (fits64_iff.mpr (by omega))
  refine (bind_eq first).trans <| (bind_eq shifted).trans <| (bind_eq second).trans ?_
  by_cases negative : (r + 4).tmod 7 < 0
  · rw [if_pos negative, add_eq (fits64_iff.mpr (by omega))]
    exact congrArg some (by omega)
  · rw [if_neg negative]
    exact congrArg some (by omega)

/-- What the calendar says about a time, with the year as wide as its field. -/
noncomputable def civilTime (t : Int) : LcDateTime :=
  let d := civil (t / 86400)
  { year := toInt32 d.year
    month := d.month
    day := d.day
    hour := t % 86400 / 3600
    minute := t % 86400 % 3600 / 60
    second := t % 86400 % 60
    dayOfWeek := (t / 86400 + 4) % 7
    dayOfYear := (elapsed (toInt32 d.year) d.month + (d.day - 1) : Nat) }

theorem rem_of_nonneg {a b : Int} (positive : 0 < b) (nonneg : 0 ≤ a) (fits : Fits 64 a) :
    rem 64 a b = some (a % b) := by
  rw [rem, div_of_nonneg positive nonneg fits, Int.tmod_eq_emod_of_nonneg nonneg]
  rfl

/-- No time overflows, and every one is converted as the calendar says. -/
theorem lcTimeFromUnix_eq (fits : Fits 64 t) : lcTimeFromUnix t = some (civilTime t) := by
  have split := splitDay_eq fits
  rw [fits64_iff] at fits
  have low : 0 ≤ t % 86400 := by omega
  have high : t % 86400 < 86400 := by omega
  have fits' : Fits 64 (t % 86400) := fits64_iff.mpr (by omega)
  have hour : div 64 (t % 86400) 3600 = some (t % 86400 / 3600) :=
    div_of_nonneg (by decide) low fits'
  have past : rem 64 (t % 86400) 3600 = some (t % 86400 % 3600) :=
    rem_of_nonneg (by decide) low fits'
  have minute : div 64 (t % 86400 % 3600) 60 = some (t % 86400 % 3600 / 60) :=
    div_of_nonneg (by decide) (by omega) (fits64_iff.mpr (by omega))
  have second : rem 64 (t % 86400) 60 = some (t % 86400 % 60) :=
    rem_of_nonneg (by decide) low fits'
  have dow : dayOfWeek (t / 86400) = _ := dayOfWeek_eq (fits64_iff.mpr (by omega))
  generalize hd : civil (t / 86400) = d
  have number : d.number = t / 86400 := by rw [← hd, number_civil]
  have date := daysToDate_eq d (by omega) (by omega)
  rw [number] at date
  have doy := computeDayOfYear_eq (toInt32 d.year) d.month_pos d.month_le d.day_pos
    (Nat.le_trans d.day_le (monthLength_le _ _))
  refine (bind_eq split).trans <| (bind_eq hour).trans <| (bind_eq past).trans <|
    (bind_eq minute).trans <| (bind_eq second).trans <| (bind_eq dow).trans <|
    (bind_eq date).trans <| (bind_eq doy).trans ?_
  have narrow : ∀ x, 0 ≤ x → x ≤ 86400 → toInt32 x = x := fun x _ _ =>
    toInt32_eq (fits32_iff.mpr (by omega))
  rw [narrow (t % 86400 / 3600) (by omega) (by omega),
    narrow (t % 86400 % 3600 / 60) (by omega) (by omega),
    narrow (t % 86400 % 60) (by omega) (by omega),
    narrow ((t / 86400 + 4) % 7) (by omega) (by omega),
    civilTime, hd]
  rfl

/-! ### Round trips -/

/-- A valid UTC date and time of a 32-bit year. -/
structure LcDateTime.Valid (dt : LcDateTime) : Prop where
  year : Fits 32 dt.year
  month : 1 ≤ dt.month ∧ dt.month ≤ 12
  day : 1 ≤ dt.day ∧ dt.day ≤ monthLength dt.year dt.month.toNat
  hour : 0 ≤ dt.hour ∧ dt.hour ≤ 23
  minute : 0 ≤ dt.minute ∧ dt.minute ≤ 59
  second : 0 ≤ dt.second ∧ dt.second ≤ 59

/-- The same year, month, day, hour, minute and second. -/
def LcDateTime.SameMoment (dt dt' : LcDateTime) : Prop :=
  dt.year = dt'.year ∧ dt.month = dt'.month ∧ dt.day = dt'.day ∧ dt.hour = dt'.hour ∧
    dt.minute = dt'.minute ∧ dt.second = dt'.second

/-- The date of a valid date and time. -/
def LcDateTime.Valid.date {dt : LcDateTime} (h : dt.Valid) : Date where
  year := dt.year
  month := dt.month.toNat
  day := dt.day.toNat
  month_pos := by have := h.month; omega
  month_le := by have := h.month; omega
  day_pos := by have := h.day; omega
  day_le := by have := h.day; omega

/-- The days from one year on are those of at most 2^32 years. -/
theorem number_bounds (d : Date) (fits : Fits 32 d.year) :
    -2 ^ 40 ≤ d.number ∧ d.number ≤ 2 ^ 40 := by
  have within := d.dayOfYear_lt
  have length : yearLength d.year ≤ 366 := by
    unfold yearLength
    split_ifs <;> omega
  rw [fits32_iff] at fits
  unfold Date.number yearStart
  omega

theorem lcTimeToUnix_eq {dt : LcDateTime} (h : dt.Valid) :
    lcTimeToUnix dt =
      some (h.date.number * 86400 + dt.hour * 3600 + dt.minute * 60 + dt.second) := by
  obtain ⟨low, high⟩ := number_bounds h.date h.year
  have hour := h.hour
  have minute := h.minute
  have second := h.second
  have month : (h.date.month : Int) = dt.month := by
    have := h.month
    change (dt.month.toNat : Int) = _
    omega
  have day : (h.date.day : Int) = dt.day := by
    have := h.day
    change (dt.day.toNat : Int) = _
    omega
  have days := dateToDays_eq h.date h.year
  rw [month, day] at days
  change dateToDays dt.year dt.month dt.day = _ at days
  generalize h.date.number = n at *
  unfold lcTimeToUnix
  rw [bind_eq days, mul64_bind (by omega), bind_eq (mul_eq (fits32_iff.mpr (by omega))),
    add64_bind (by omega), bind_eq (mul_eq (fits32_iff.mpr (by omega))), add64_bind (by omega),
    add_eq (fits64_iff.mpr (by omega))]

/-- A time in a 32-bit year is a valid date and time, of the date of its day. -/
theorem civilTime_valid (fits : Fits 32 (civil (t / 86400)).year) :
    ∃ h : (civilTime t).Valid, h.date = civil (t / 86400) := by
  have month := (civil (t / 86400)).month_pos
  have month' := (civil (t / 86400)).month_le
  have day := (civil (t / 86400)).day_pos
  have day' := (civil (t / 86400)).day_le
  have year : (civilTime t).year = (civil (t / 86400)).year := toInt32_eq fits
  have valid : (civilTime t).Valid := by
    refine ⟨year ▸ fits, ?_, ?_, ?_, ?_, ?_⟩
    · simp only [civilTime]
      omega
    · rw [year]
      simp only [civilTime, Int.toNat_natCast]
      omega
    all_goals
      simp only [civilTime]
      omega
  refine ⟨valid, Date.ext year ?_ ?_⟩
  all_goals exact Int.toNat_natCast _

/-- From Unix time to civil time and back, and the other way round, without an
overflow on either way. -/
theorem unix_and_civil_time_are_inverse :
    (∀ t, Fits 64 t → Fits 32 (civil (t / 86400)).year →
      ∃ dt, lcTimeFromUnix t = some dt ∧ lcTimeToUnix dt = some t) ∧
    ∀ dt : LcDateTime, dt.Valid → ∃ t dt', lcTimeToUnix dt = some t ∧ Fits 64 t ∧
      lcTimeFromUnix t = some dt' ∧ dt'.SameMoment dt := by
  constructor
  · intro t fits year
    obtain ⟨valid, date⟩ := civilTime_valid year
    refine ⟨civilTime t, lcTimeFromUnix_eq fits, ?_⟩
    rw [lcTimeToUnix_eq valid, date, number_civil]
    simp only [civilTime]
    exact congrArg some (by omega)
  · intro dt valid
    obtain ⟨low, high⟩ := number_bounds valid.date valid.year
    have hour := valid.hour
    have minute := valid.minute
    have second := valid.second
    have month := valid.month
    have day := valid.day
    generalize ht : valid.date.number * 86400 + dt.hour * 3600 + dt.minute * 60 + dt.second = t
    have days : valid.date.number = t / 86400 := by omega
    have date : civil (t / 86400) = valid.date := by rw [← days, civil_number]
    have fits : Fits 64 t := fits64_iff.mpr (by omega)
    refine ⟨t, civilTime t, ht ▸ lcTimeToUnix_eq valid, fits, lcTimeFromUnix_eq fits, ?_⟩
    simp only [civilTime, date]
    refine ⟨toInt32_eq valid.year, ?_, ?_, ?_, ?_, ?_⟩
    · exact Int.toNat_of_nonneg (by omega)
    · exact Int.toNat_of_nonneg (by omega)
    all_goals
      dsimp only
      omega

/-- The last second of 1969 and the leap day of the year -4. -/
theorem unix_and_civil_time_are_inverse_before :
    (∃ dt, lcTimeFromUnix (-1) = some dt ∧ lcTimeToUnix dt = some (-1)) ∧
    ∃ t dt, lcTimeToUnix ⟨-4, 2, 29, 12, 0, 1, 0, 0⟩ = some t ∧ lcTimeFromUnix t = some dt ∧
      dt.SameMoment ⟨-4, 2, 29, 12, 0, 1, 0, 0⟩ := by
  have day : (⟨1969, 12, 31, by decide, by decide, by decide, by decide⟩ : Date).number =
      -1 / 86400 := by decide
  obtain ⟨dt, from_, back⟩ := unix_and_civil_time_are_inverse.1 (-1) (by decide)
    (by rw [← day, civil_number]; decide)
  obtain ⟨t, dt', back', -, from', same⟩ := unix_and_civil_time_are_inverse.2
    ⟨-4, 2, 29, 12, 0, 1, 0, 0⟩
    ⟨by decide, by decide, by decide, by decide, by decide, by decide⟩
  exact ⟨⟨dt, from_, back⟩, t, dt', back', from', same⟩

/-! ### The calendar day by day -/

/-- The date fields are those of a date. -/
def LcDateTime.Shows (dt : LcDateTime) (d : Date) : Prop :=
  dt.year = d.year ∧ dt.month = d.month ∧ dt.day = d.day

theorem civilTime_shows (fits : Fits 32 (civil (t / 86400)).year) :
    (civilTime t).Shows (civil (t / 86400)) ∧
      (civilTime t).dayOfYear = (civil (t / 86400)).dayOfYear := by
  simp only [civilTime, LcDateTime.Shows, Date.dayOfYear, toInt32_eq fits]
  exact ⟨⟨trivial, trivial, trivial⟩, trivial⟩

/-- A time in a 32-bit year fits. -/
theorem fits_of_year (year : Fits 32 (civil (t / 86400)).year) :
    -2 ^ 60 ≤ t ∧ t ≤ 2 ^ 60 := by
  have bounds := number_bounds _ year
  rw [number_civil] at bounds
  omega

/-- The conversion agrees with the calendar in every field, and from one day to the
next as long as the year fits its field. -/
theorem civil_time_follows_calendar :
    (∀ t, Fits 32 (civil (t / 86400)).year →
      ∃ dt, lcTimeFromUnix t = some dt ∧ dt.Shows (civil (t / 86400)) ∧
        dt.dayOfYear = (civil (t / 86400)).dayOfYear ∧ dt.dayOfWeek = (t / 86400 + 4) % 7 ∧
        dt.hour = t % 86400 / 3600 ∧ dt.minute = t % 86400 % 3600 / 60 ∧
        dt.second = t % 86400 % 60 ∧
        (Fits 32 (civil (t / 86400)).next.year →
          ∃ dt', lcTimeFromUnix (t + 86400) = some dt' ∧
            dt'.hour = dt.hour ∧ dt'.minute = dt.minute ∧ dt'.second = dt.second ∧
            dt'.Shows (civil (t / 86400)).next ∧
            dt'.dayOfWeek = (dt.dayOfWeek + 1) % 7 ∧
            dt'.dayOfYear = if dt'.month = 1 ∧ dt'.day = 1 then 0 else dt.dayOfYear + 1)) ∧
    lcTimeFromUnix 0 = some ⟨1970, 1, 1, 0, 0, 0, 4, 0⟩ := by
  refine ⟨fun t year => ?_, by decide⟩
  obtain ⟨low, high⟩ := fits_of_year year
  have shows := civilTime_shows year
  refine ⟨civilTime t, lcTimeFromUnix_eq (fits64_iff.mpr (by omega)), shows.1, shows.2, rfl,
    rfl, rfl, rfl, fun year' => ?_⟩
  have days : (t + 86400) / 86400 = t / 86400 + 1 := by omega
  have next : civil ((t + 86400) / 86400) = (civil (t / 86400)).next := by
    rw [days, civil_succ]
  have shows' := civilTime_shows (t := t + 86400) (by rw [next]; exact year')
  rw [next] at shows'
  refine ⟨civilTime (t + 86400), lcTimeFromUnix_eq (fits64_iff.mpr (by omega)), ?_, ?_, ?_,
    shows'.1, ?_, ?_⟩
  case refine_5 =>
    rw [shows'.2, shows.2, Date.dayOfYear_next, shows'.1.2.1, shows'.1.2.2]
    norm_cast
  all_goals
    simp only [civilTime]
    omega

/-- On the leap day of 2000 at 12:34:56 and on the day after it. -/
theorem civil_time_follows_calendar_leap_day :
    ∃ dt dt', lcTimeFromUnix 951827696 = some dt ∧ dt.month = 2 ∧ dt.day = 29 ∧
      dt.hour = 12 ∧ dt.minute = 34 ∧ dt.second = 56 ∧
      lcTimeFromUnix 951914096 = some dt' ∧ dt'.month = 3 ∧ dt'.day = 1 ∧
      dt'.dayOfYear = dt.dayOfYear + 1 := by
  let d : Date := ⟨2000, 2, 29, by decide, by decide, by decide, by decide⟩
  have day : d.number = 951827696 / 86400 := by decide
  obtain ⟨dt, from_, shows, -, -, hour, minute, second, later⟩ :=
    civil_time_follows_calendar.1 951827696
    (by rw [← day, civil_number]; decide)
  obtain ⟨dt', from', -, -, -, shows', -, ordinal⟩ := later
    (by rw [← day, civil_number]; decide)
  rw [← day, civil_number] at shows shows'
  have month : dt'.month = 3 := shows'.2.1
  refine ⟨dt, dt', from_, shows.2.1, shows.2.2, hour, minute, second, from', month,
    shows'.2.2, ?_⟩
  rw [ordinal, month]
  rfl

/-- The day after 2147483647-12-31 is shown in the year -2147483648. -/
theorem year_field_wraps :
    ∃ (t : Int) (d : Date), civil (t / 86400) = d ∧ Fits 64 t ∧ Fits 32 d.year ∧
      ∃ dt', lcTimeFromUnix (t + 86400) = some dt' ∧ dt'.year = -2147483648 ∧
        ¬ dt'.Shows d.next := by
  let d : Date := ⟨2147483647, 12, 31, by decide, by decide, by decide, by decide⟩
  have day : d.number = 67767976233446400 / 86400 := by decide
  refine ⟨67767976233446400, d, by rw [← day, civil_number], by decide, by decide,
    ⟨-2147483648, 1, 1, 0, 0, 0, 3, 0⟩, by decide, rfl, fun shown => ?_⟩
  exact absurd shown.1 (by decide)

end Lightc.Time
