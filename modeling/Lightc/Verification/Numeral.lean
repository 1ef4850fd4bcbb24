import Mathlib.Data.Nat.Digits.Lemmas

/-!
# Positional numerals

A numeral is a list of digits, the first one first, read from the left. Without
leading zeros there is exactly one numeral for every number, and it is the list
`Nat.digits` gives, reversed; 0 is written with one digit.
-/

namespace Lightc.Verification.Numeral

variable {base : Nat} {digits : List Nat}

/-- The number a list of digits stands for. -/
def value (base : Nat) (digits : List Nat) : Nat :=
  digits.foldl (fun n digit => n * base + digit) 0

/-- At least one digit, and a leading zero only if it is the whole numeral. -/
def Canonical (digits : List Nat) : Prop :=
  digits ≠ [] ∧ (digits.head? = some 0 → digits = [0])

/-- The numeral of a number. -/
def numeral (base n : Nat) : List Nat := if n = 0 then [0] else (Nat.digits base n).reverse

theorem value_eq_ofDigits (base : Nat) (digits : List Nat) :
    value base digits = Nat.ofDigits base digits.reverse := by
  rw [Nat.ofDigits_eq_foldr, List.foldr_reverse, value]
  congr 1
  funext n digit
  simp only [Nat.cast_id]
  ring

/-- The digits of a numeral can be read. -/
@[simp] theorem value_numeral (base n : Nat) : value base (numeral base n) = n := by
  rw [numeral]
  split
  · next zero =>
    subst zero
    simp [value]
  · rw [value_eq_ofDigits, List.reverse_reverse, Nat.ofDigits_digits]

theorem numeral_lt (two : 1 < base) (n : Nat) : ∀ digit ∈ numeral base n, digit < base := by
  intro digit member
  rw [numeral] at member
  split at member
  · rw [List.mem_singleton.mp member]
    omega
  · exact Nat.digits_lt_base two (List.mem_reverse.mp member)

theorem canonical_numeral (base n : Nat) : Canonical (numeral base n) := by
  rw [numeral]
  split
  · exact ⟨List.cons_ne_nil _ _, fun _ => rfl⟩
  · next positive =>
    have some : Nat.digits base n ≠ [] := Nat.digits_ne_nil_iff_ne_zero.mpr positive
    refine ⟨by simpa using some, fun zero => ?_⟩
    rw [List.head?_reverse, List.getLast?_eq_some_getLast some] at zero
    exact absurd (Option.some.inj zero) (Nat.getLast_digit_ne_zero base positive)

/-- There is no other numeral without leading zeros. -/
theorem eq_numeral (two : 1 < base) (canonical : Canonical digits)
    (lt : ∀ digit ∈ digits, digit < base) : digits = numeral base (value base digits) := by
  obtain ⟨some, leading⟩ := canonical
  by_cases zero : digits.head? = .some 0
  · rw [leading zero]
    simp [numeral, value]
  · have read : Nat.digits base (value base digits) = digits.reverse := by
      rw [value_eq_ofDigits]
      refine Nat.digits_ofDigits base two _
        (fun digit member => lt digit (by simpa using member)) ?_
      intro nonempty last
      apply zero
      rw [← List.getLast?_reverse, List.getLast?_eq_some_getLast nonempty, last]
    have positive : value base digits ≠ 0 := by
      intro none
      rw [none, Nat.digits_zero] at read
      exact some (List.reverse_eq_nil_iff.mp read.symm)
    rw [numeral, if_neg positive, read, List.reverse_reverse]

end Lightc.Verification.Numeral
