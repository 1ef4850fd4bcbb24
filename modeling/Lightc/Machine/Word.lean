import Mathlib.Data.Nat.Bitwise
import Mathlib.Data.Nat.ModEq

/-!
# Machine words as natural numbers

Unsigned 64-bit and 32-bit quantities are natural numbers below the word range,
and every operation that can leave the range reduces explicitly. Free-running
counters are related to unbounded ones: as long as the true difference of two
counters fits in a word, their wrapped difference is the true one, and a
power-of-two mask of a wrapped counter is the residue of the true one.
-/

namespace Lightc.Machine

/-- `SIZE_MAX`. -/
def sizeMax : Nat := 2 ^ 64 - 1

/-- Unsigned 64-bit addition. -/
def add64 (a b : Nat) : Nat := (a + b) % 2 ^ 64

/-- Unsigned 64-bit subtraction of words. -/
def sub64 (a b : Nat) : Nat := (a + (2 ^ 64 - b)) % 2 ^ 64

/-- Unsigned 64-bit multiplication. -/
def mul64 (a b : Nat) : Nat := a * b % 2 ^ 64

/-- Unsigned 32-bit addition. -/
def add32 (a b : Nat) : Nat := (a + b) % 2 ^ 32

/-- Unsigned 32-bit subtraction of words. -/
def sub32 (a b : Nat) : Nat := (a + (2 ^ 32 - b)) % 2 ^ 32

/-- Unsigned 32-bit multiplication. -/
def mul32 (a b : Nat) : Nat := a * b % 2 ^ 32

variable {a b start : Nat}

theorem add64_of_lt (h : a + b < 2 ^ 64) : add64 a b = a + b := Nat.mod_eq_of_lt h

theorem mul64_of_lt (h : a * b < 2 ^ 64) : mul64 a b = a * b := Nat.mod_eq_of_lt h

theorem sub64_of_le (ha : a < 2 ^ 64) (h : b ≤ a) : sub64 a b = a - b := by
  unfold sub64
  omega

/-- A wrapped counter stepped once is the wrapped next counter. -/
@[simp] theorem add64_counter (start n : Nat) :
    add64 ((start + n) % 2 ^ 64) 1 = (start + (n + 1)) % 2 ^ 64 := by
  unfold add64
  omega

/-- The wrapped difference of two counters is the true one while that fits. -/
theorem sub64_counter {p q : Nat} (order : q ≤ p) (near : p - q < 2 ^ 64) :
    sub64 ((start + p) % 2 ^ 64) ((start + q) % 2 ^ 64) = p - q := by
  unfold sub64
  omega

/-- The same for a 32-bit counter advanced by any amount. -/
@[simp] theorem add32_counter (start n k : Nat) :
    add32 ((start + n) % 2 ^ 32) k = (start + (n + k)) % 2 ^ 32 := by
  unfold add32
  omega

theorem sub32_counter {p q : Nat} (order : q ≤ p) (near : p - q < 2 ^ 32) :
    sub32 ((start + p) % 2 ^ 32) ((start + q) % 2 ^ 32) = p - q := by
  unfold sub32
  omega

theorem add32_of_lt (h : a + b < 2 ^ 32) : add32 a b = a + b := Nat.mod_eq_of_lt h

theorem sub32_of_le (ha : a < 2 ^ 32) (h : b ≤ a) : sub32 a b = a - b := by
  unfold sub32
  omega

/-- Masking a wrapped counter by a power of two that divides the word range
gives the residue of the true counter. -/
theorem and_mask_counter {width k : Nat} (hk : k ≤ width) (n : Nat) :
    n % 2 ^ width &&& 2 ^ k - 1 = n % 2 ^ k := by
  rw [Nat.and_two_pow_sub_one_eq_mod]
  exact Nat.mod_mod_of_dvd n (Nat.pow_dvd_pow 2 hk)

/-- Masking the low bits of a word off rounds it down to a multiple. -/
theorem and_high_mask {k n : Nat} (hk : k ≤ 64) (word : n < 2 ^ 64) :
    n &&& (2 ^ 64 - 2 ^ k) = n / 2 ^ k * 2 ^ k := by
  have mask : 2 ^ 64 - 2 ^ k = (2 ^ (64 - k) - 1) * 2 ^ k := by
    rw [Nat.sub_mul, Nat.one_mul, ← Nat.pow_add, Nat.sub_add_cancel hk]
  apply Nat.eq_of_testBit_eq
  intro i
  rw [mask, Nat.testBit_and, ← Nat.shiftLeft_eq, ← Nat.shiftLeft_eq, ← Nat.shiftRight_eq_div_pow,
    Nat.testBit_shiftLeft, Nat.testBit_shiftLeft, Nat.testBit_shiftRight,
    Nat.testBit_two_pow_sub_one]
  by_cases low : k ≤ i
  · by_cases high : i < 64
    · simp [low, show i - k < 64 - k by omega]
    · have zero : n.testBit i = false :=
        Nat.testBit_lt_two_pow
          (Nat.lt_of_lt_of_le word (Nat.pow_le_pow_right (by decide) (by omega)))
      simp [low, zero]
  · simp [low]

/-- Counters less than one turn apart have different residues. -/
theorem residue_ne {m i j : Nat} (order : i < j) (near : j - i < m) :
    (start + i) % m ≠ (start + j) % m := by
  intro same
  have congruent : (start + j) - (start + i) ≡ 0 [MOD m] := by
    have : start + i ≡ start + j [MOD m] := same
    exact (Nat.modEq_zero_iff_dvd).mpr ((Nat.modEq_iff_dvd' (by omega)).mp this)
  have divides : m ∣ j - i := by
    have := (Nat.modEq_zero_iff_dvd).mp congruent
    rwa [Nat.add_sub_add_left] at this
  exact absurd (Nat.le_of_dvd (by omega) divides) (by omega)

end Lightc.Machine
