import Mathlib.Algebra.Group.Int.Defs
import Mathlib.Algebra.Group.Nat.Defs
import Mathlib.Data.Int.Order.Basic

/-!
# Checked signed arithmetic

Signed overflow is undefined in C, and so is a division by zero. An operation here
has a result only if the true result fits, so a computation that has a result has
met neither. Division and remainder truncate toward zero. A conversion to a
narrower type keeps the residue.
-/

namespace Lightc.Machine.Signed

/-- The signed numbers of `width` bits. -/
def Fits (width : Nat) (x : Int) : Prop := -2 ^ (width - 1) ≤ x ∧ x < 2 ^ (width - 1)

instance (width : Nat) (x : Int) : Decidable (Fits width x) := inferInstanceAs (Decidable (_ ∧ _))

def checked (width : Nat) (x : Int) : Option Int := if Fits width x then some x else none

def add (width : Nat) (a b : Int) : Option Int := checked width (a + b)

def sub (width : Nat) (a b : Int) : Option Int := checked width (a - b)

def mul (width : Nat) (a b : Int) : Option Int := checked width (a * b)

def div (width : Nat) (a b : Int) : Option Int :=
  if b = 0 then none else checked width (a.tdiv b)

/-- The remainder is undefined when the quotient is. -/
def rem (width : Nat) (a b : Int) : Option Int := do
  let _ ← div width a b
  pure (a.tmod b)

/-- The conversion to `int32_t`. -/
def toInt32 (x : Int) : Int := x.bmod (2 ^ 32)

variable {width : Nat} {a b x : Int}

/-- A computation goes on with the result it has. -/
theorem bind_eq {α β : Type} {c : Option α} {f : α → Option β} {r : α} (h : c = some r) :
    (c >>= f) = f r := by
  rw [h]
  rfl

theorem fits64_iff : Fits 64 x ↔ -9223372036854775808 ≤ x ∧ x ≤ 9223372036854775807 := by
  unfold Fits
  omega

theorem fits32_iff : Fits 32 x ↔ -2147483648 ≤ x ∧ x ≤ 2147483647 := by
  unfold Fits
  omega

theorem checked_eq (fits : Fits width x) : checked width x = some x := if_pos fits

theorem add_eq (fits : Fits width (a + b)) : add width a b = some (a + b) := checked_eq fits

theorem sub_eq (fits : Fits width (a - b)) : sub width a b = some (a - b) := checked_eq fits

theorem mul_eq (fits : Fits width (a * b)) : mul width a b = some (a * b) := checked_eq fits

theorem div_eq (nonzero : b ≠ 0) (fits : Fits width (a.tdiv b)) :
    div width a b = some (a.tdiv b) := by
  rw [div, if_neg nonzero, checked_eq fits]

theorem rem_eq (nonzero : b ≠ 0) (fits : Fits width (a.tdiv b)) :
    rem width a b = some (a.tmod b) := by
  rw [rem, div_eq nonzero fits]
  rfl

/-- A quotient of numbers that are not negative is rounded down, and it fits if the
dividend does. -/
theorem div_of_nonneg (positive : 0 < b) (nonneg : 0 ≤ a) (fits : Fits width a) :
    div width a b = some (a / b) := by
  have quotient : a.tdiv b = a / b := Int.tdiv_eq_ediv_of_nonneg nonneg
  have small : a / b ≤ a := Int.ediv_le_self b nonneg
  have nonneg' : 0 ≤ a / b := Int.ediv_nonneg nonneg (Int.le_of_lt positive)
  rw [div_eq (Int.ne_of_gt positive), quotient]
  rw [quotient]
  unfold Fits at fits ⊢
  omega

/-! ### Going on with a result of 64 bits -/

section Bind

variable {β : Type} {f : Int → Option β}

theorem add64_bind (fits : -9223372036854775808 ≤ a + b ∧ a + b ≤ 9223372036854775807) :
    (add 64 a b >>= f) = f (a + b) := bind_eq (add_eq (fits64_iff.mpr fits))

theorem sub64_bind (fits : -9223372036854775808 ≤ a - b ∧ a - b ≤ 9223372036854775807) :
    (sub 64 a b >>= f) = f (a - b) := bind_eq (sub_eq (fits64_iff.mpr fits))

theorem mul64_bind (fits : -9223372036854775808 ≤ a * b ∧ a * b ≤ 9223372036854775807) :
    (mul 64 a b >>= f) = f (a * b) := bind_eq (mul_eq (fits64_iff.mpr fits))

theorem div64_bind (positive : 0 < b) (fits : 0 ≤ a ∧ a ≤ 9223372036854775807) :
    (div 64 a b >>= f) = f (a / b) :=
  bind_eq (div_of_nonneg positive fits.1 (fits64_iff.mpr (by omega)))

end Bind

/-- The usual way to round a negative quotient down. -/
theorem tdiv_eq_ediv_of_neg (positive : 0 < b) (negative : a < 0) :
    (a - (b - 1)).tdiv b = a / b := by
  have flip : a - (b - 1) = -(b - 1 - a) := by omega
  have whole := Int.mul_ediv_add_emod (b - 1 - a) b
  have low := Int.emod_nonneg (b - 1 - a) (Int.ne_of_gt positive)
  have high := Int.emod_lt_of_pos (b - 1 - a) positive
  rw [flip, Int.neg_tdiv, Int.tdiv_eq_ediv_of_nonneg (by omega)]
  have unique : b - 1 - (b - 1 - a) % b + b * -((b - 1 - a) / b) = a := by
    rw [Int.mul_neg]
    omega
  exact ((Int.ediv_emod_unique positive).mpr ⟨unique, by omega, by omega⟩).1.symm

theorem toInt32_eq (fits : Fits 32 x) : toInt32 x = x := by
  rw [fits32_iff] at fits
  exact Int.bmod_eq_of_le (by omega) (by omega)

end Lightc.Machine.Signed
