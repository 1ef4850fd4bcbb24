import Mathlib.Data.Fintype.Card
import Mathlib.Algebra.BigOperators.Group.Finset.Basic

/-!
# Counting parties

The number of parties in a given kind of state, and how it moves when one party
changes state. Nothing else of the counted family matters.
-/

namespace Lightc.Verification

open Function

variable {T α : Type} [Fintype T]

/-- The number of parties whose state satisfies `P`. -/
def countOf (P : α → Bool) (f : T → α) : Nat := (Finset.univ.filter fun t => P (f t) = true).card

variable {P : α → Bool} {f g : T → α} {t : T} {a : α}

theorem countOf_congr (same : ∀ t, P (g t) = P (f t)) : countOf P g = countOf P f := by
  simp only [countOf, same]

theorem countOf_le (P : α → Bool) (f : T → α) : countOf P f ≤ Fintype.card T :=
  Finset.card_le_univ _

@[simp] theorem countOf_eq_zero : countOf P f = 0 ↔ ∀ t, P (f t) = false := by
  simp [countOf, Finset.filter_eq_empty_iff]

theorem countOf_eq_card : countOf P f = Fintype.card T ↔ ∀ t, P (f t) = true := by
  simp [countOf, Finset.card_eq_iff_eq_univ, Finset.filter_eq_self]

variable [DecidableEq T]

/-- One party enters. -/
theorem countOf_update_enter (before : P (f t) = false) (after : P a = true) :
    countOf P (update f t a) = countOf P f + 1 := by
  have members : (Finset.univ.filter fun u => P (update f t a u) = true) =
      insert t (Finset.univ.filter fun u => P (f u) = true) := by
    ext u
    by_cases self : u = t
    · subst u
      simp [after]
    · simp [self]
  rw [countOf, members, Finset.card_insert_of_notMem (by simp [before]), countOf]

/-- One party leaves. -/
theorem countOf_update_leave (before : P (f t) = true) (after : P a = false) :
    countOf P (update f t a) + 1 = countOf P f := by
  have back := countOf_update_enter (f := update f t a) (t := t) (a := f t)
    (by rwa [update_self]) before
  rw [update_idem, update_eq_self] at back
  exact back.symm

/-- One party stays what it was. -/
theorem countOf_update_same (same : P a = P (f t)) :
    countOf P (update f t a) = countOf P f :=
  countOf_congr ((forall_update_iff f fun u a => P a = P (f u)).mpr ⟨same, fun _ _ => rfl⟩)

/-- What a change of one party does to the count, whatever it is. -/
theorem countOf_update :
    countOf P (update f t a) + (P (f t)).toNat = countOf P f + (P a).toNat := by
  cases before : P (f t) with
  | false =>
    cases after : P a with
    | false => rw [countOf_update_same (after.trans before.symm)]
    | true => exact countOf_update_enter before after
  | true =>
    cases after : P a with
    | false => exact countOf_update_leave before after
    | true => rw [countOf_update_same (after.trans before.symm)]

/-- Numbered parties can be counted one after another. -/
theorem countOf_fin {n : Nat} {f : Fin n → α} :
    countOf P f = (List.finRange n).countP fun i => P (f i) := by
  rw [countOf, List.countP_eq_length_filter,
    ← List.toFinset_card_of_nodup ((List.nodup_finRange n).filter _)]
  congr 1
  ext i
  simp

end Lightc.Verification
