import Mathlib.Logic.Equiv.Basic
import Mathlib.Order.Monotone.Basic

/-!
# The proleptic Gregorian calendar

A date is a year, a month of it and a day of that month. The calendar is the order
in which dates follow each other: `Date.next` is the rule every wall calendar is
printed by. `Date.number` counts days from 1970-01-01, forwards and backwards. It
grows by one with every step of the calendar and takes every value once, so the
calendar is the same thing as the integers (`civil`).
-/

namespace Lightc.Verification.Gregorian

open Function

/-- Every fourth year, but of the centuries only every fourth. -/
def IsLeap (year : Int) : Prop := year % 4 = 0 ∧ year % 100 ≠ 0 ∨ year % 400 = 0

instance : DecidablePred IsLeap := fun _ => inferInstanceAs (Decidable (_ ∨ _))

def monthLength (year : Int) (month : Nat) : Nat :=
  if month = 2 then (if IsLeap year then 29 else 28)
  else if month = 4 ∨ month = 6 ∨ month = 9 ∨ month = 11 then 30
  else 31

def yearLength (year : Int) : Nat := if IsLeap year then 366 else 365

theorem monthLength_pos (year : Int) (month : Nat) : 1 ≤ monthLength year month := by
  unfold monthLength
  split_ifs <;> omega

theorem monthLength_le (year : Int) (month : Nat) : monthLength year month ≤ 31 := by
  unfold monthLength
  split_ifs <;> omega

@[ext] structure Date where
  year : Int
  month : Nat
  day : Nat
  month_pos : 1 ≤ month
  month_le : month ≤ 12
  day_pos : 1 ≤ day
  day_le : day ≤ monthLength year month
  deriving DecidableEq

namespace Date

/-- The first day of the Unix epoch. -/
def epoch : Date := ⟨1970, 1, 1, by decide, by decide, by decide, by decide⟩

/-- The day after: in the same month, or the first of the next month, or New Year. -/
def next (d : Date) : Date :=
  if inside : d.day < monthLength d.year d.month then
    ⟨d.year, d.month, d.day + 1, d.month_pos, d.month_le, Nat.le_add_left 1 _, inside⟩
  else if another : d.month < 12 then
    ⟨d.year, d.month + 1, 1, Nat.le_add_left 1 _, another, Nat.le_refl 1, monthLength_pos _ _⟩
  else ⟨d.year + 1, 1, 1, Nat.le_refl 1, by decide, Nat.le_refl 1, monthLength_pos _ _⟩

end Date

/-! ### Counting days -/

/-- The days of a year before a month. -/
def elapsed (year : Int) : Nat → Nat
  | 0 => 0
  | 1 => 0
  | month + 2 => elapsed year (month + 1) + monthLength year (month + 1)

theorem elapsed_succ (year : Int) {month : Nat} (positive : 1 ≤ month) :
    elapsed year (month + 1) = elapsed year month + monthLength year month := by
  obtain ⟨m, rfl⟩ := Nat.exists_eq_add_of_le' positive
  rfl

@[simp] theorem elapsed_thirteen (year : Int) : elapsed year 13 = yearLength year := by
  by_cases leap : IsLeap year
  all_goals simp [elapsed, monthLength, yearLength, leap]

theorem elapsed_mono (year : Int) {m n : Nat} (le : m ≤ n) : elapsed year m ≤ elapsed year n := by
  refine monotone_nat_of_le_succ (f := elapsed year) (fun k => ?_) le
  cases k with
  | zero => exact Nat.zero_le _
  | succ k => exact Nat.le_add_right _ _

/-- The days from 1970-01-01 to the first of January of a year. -/
def yearStart (year : Int) : Int :=
  365 * (year - 1970) + ((year - 1) / 4 - (year - 1) / 100 + (year - 1) / 400 - 477)

@[simp]
theorem yearStart_succ (year : Int) : yearStart (year + 1) = yearStart year + yearLength year := by
  unfold yearStart yearLength
  split
  · next leap =>
    unfold IsLeap at leap
    omega
  · next leap =>
    unfold IsLeap at leap
    omega

theorem yearStart_mono {year later : Int} (h : year ≤ later) :
    yearStart year ≤ yearStart later := by
  refine monotone_int_of_le_succ (fun year => ?_) h
  rw [yearStart_succ]
  omega

namespace Date

variable {d e : Date}

/-- The days of the year before a date. -/
def dayOfYear (d : Date) : Nat := elapsed d.year d.month + (d.day - 1)

/-- The days from 1970-01-01 to a date. -/
def number (d : Date) : Int := yearStart d.year + d.dayOfYear

@[simp] theorem number_epoch : epoch.number = 0 := by decide

/-- A date lies inside its month. -/
theorem dayOfYear_lt_elapsed (d : Date) : d.dayOfYear < elapsed d.year (d.month + 1) := by
  have positive := d.day_pos
  have inside := d.day_le
  rw [elapsed_succ d.year d.month_pos, dayOfYear]
  omega

theorem dayOfYear_lt (d : Date) : d.dayOfYear < yearLength d.year := by
  rw [← elapsed_thirteen]
  exact Nat.lt_of_lt_of_le d.dayOfYear_lt_elapsed (elapsed_mono _ (Nat.succ_le_succ d.month_le))

@[simp] theorem number_next (d : Date) : d.next.number = d.number + 1 := by
  have positive := d.day_pos
  have inside := d.day_le
  unfold next
  split_ifs with within another
  · simp only [number, dayOfYear]
    omega
  · have last := elapsed_succ d.year d.month_pos
    simp only [number, dayOfYear, last]
    omega
  · -- The last day of December is the last day of the year.
    have december : d.month = 12 := Nat.le_antisymm d.month_le (Nat.le_of_not_lt another)
    have last := elapsed_succ d.year d.month_pos
    rw [december, elapsed_thirteen] at last
    rw [december] at within inside
    have newYear : elapsed (d.year + 1) 1 = 0 := rfl
    simp only [number, dayOfYear, yearStart_succ, december, newYear]
    omega

/-- The day of the year grows by one, unless a year begins. -/
@[simp] theorem dayOfYear_next (d : Date) :
    d.next.dayOfYear = if d.next.month = 1 ∧ d.next.day = 1 then 0 else d.dayOfYear + 1 := by
  have positive := d.day_pos
  have inside := d.day_le
  by_cases within : d.day < monthLength d.year d.month
  · have later : ¬ (d.next.month = 1 ∧ d.next.day = 1) := by
      simp only [next, dif_pos within]
      omega
    rw [if_neg later]
    simp only [next, dif_pos within, dayOfYear]
    omega
  · by_cases another : d.month < 12
    · have later : ¬ (d.next.month = 1 ∧ d.next.day = 1) := by
        have month := d.month_pos
        simp only [next, dif_neg within, dif_pos another]
        omega
      rw [if_neg later]
      simp only [next, dif_neg within, dif_pos another, dayOfYear, elapsed_succ d.year d.month_pos]
      omega
    · have newYear : d.next.month = 1 ∧ d.next.day = 1 := by
        simp only [next, dif_neg within, dif_neg another]
        exact ⟨trivial, trivial⟩
      rw [if_pos newYear, dayOfYear, newYear.1, newYear.2]
      rfl

/-- A number falls into one year. -/
theorem year_eq_of_number_eq (same : d.number = e.number) : d.year = e.year := by
  have within := d.dayOfYear_lt
  have within' := e.dayOfYear_lt
  unfold number at same
  rcases lt_trichotomy d.year e.year with before | equal | after
  · have ordered := yearStart_mono (Int.add_one_le_iff.mpr before)
    rw [yearStart_succ] at ordered
    omega
  · exact equal
  · have ordered := yearStart_mono (Int.add_one_le_iff.mpr after)
    rw [yearStart_succ] at ordered
    omega

/-- And a day of a year into one month. -/
theorem month_eq_of_dayOfYear_eq (year : d.year = e.year) (same : d.dayOfYear = e.dayOfYear) :
    d.month = e.month := by
  have within := d.dayOfYear_lt_elapsed
  have within' := e.dayOfYear_lt_elapsed
  have start : elapsed e.year d.month ≤ d.dayOfYear := year ▸ Nat.le_add_right _ _
  have start' : elapsed e.year e.month ≤ e.dayOfYear := Nat.le_add_right _ _
  rw [year] at within
  rcases lt_trichotomy d.month e.month with before | equal | after
  · have ordered := elapsed_mono e.year (Nat.add_one_le_of_lt before)
    omega
  · exact equal
  · have ordered := elapsed_mono e.year (Nat.add_one_le_of_lt after)
    omega

theorem number_injective : Injective number := by
  intro d e same
  have year := year_eq_of_number_eq same
  have ordinal : d.dayOfYear = e.dayOfYear := by
    unfold number at same
    rw [year] at same
    omega
  have month := month_eq_of_dayOfYear_eq year ordinal
  have positive := d.day_pos
  have positive' := e.day_pos
  refine Date.ext year month ?_
  unfold dayOfYear at ordinal
  rw [year, month] at ordinal
  omega

@[simp] theorem number_iterate_next (d : Date) (k : Nat) : (next^[k] d).number = d.number + k := by
  induction k with
  | zero => simp
  | succ k ih =>
    rw [iterate_succ_apply', number_next, ih]
    push_cast
    omega

/-- From a New Year early enough the calendar reaches every day. -/
theorem number_surjective : Surjective number := by
  intro n
  let start : Date := ⟨1970 - n.natAbs, 1, 1, by decide, by decide, by decide, monthLength_pos _ _⟩
  have early : start.number ≤ n := by
    change yearStart (1970 - n.natAbs) + 0 ≤ n
    unfold yearStart
    omega
  refine ⟨next^[(n - start.number).toNat] start, ?_⟩
  rw [number_iterate_next]
  omega

end Date

/-- The date so many days after 1970-01-01. -/
noncomputable def civil : Int ≃ Date :=
  (Equiv.ofBijective Date.number ⟨Date.number_injective, Date.number_surjective⟩).symm

@[simp] theorem number_civil (n : Int) : (civil n).number = n := civil.symm_apply_apply n

@[simp] theorem civil_number (d : Date) : civil d.number = d := civil.apply_symm_apply d

example : civil 0 = Date.epoch := by
  rw [← Date.number_epoch, civil_number]

@[simp] theorem civil_succ (n : Int) : civil (n + 1) = (civil n).next :=
  Date.number_injective (by rw [number_civil, Date.number_next, number_civil])

end Lightc.Verification.Gregorian
