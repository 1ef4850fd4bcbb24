import Mathlib.Data.List.Count

/-!
# Turns taken in a circle

The participants are numbered, and turns go round in the order of the numbers. The
circle need not have a fixed size and participants may be left out: all that is asked
of a turn is that it passes over nobody who waits. Between two turns of one of those who
wait all along, each of the others then has exactly one.
-/

namespace Lightc.Verification.RoundRobin

/-- `j` lies strictly between `c` and `n` on the way round. -/
def Passed (c n j : Nat) : Prop := if c < n then c < j ∧ j < n else c < j ∨ j < n

/-- Turns taken one after another from `i` on, the last one by `c`, none of which passes
over one of the `waiting`. -/
inductive Turns (waiting : Nat → Prop) (i : Nat) : List Nat → Nat → Prop
  | nil : Turns waiting i [] i
  | snoc {turns : List Nat} {c n : Nat} (before : Turns waiting i turns c)
      (fair : ∀ j, waiting j → ¬ Passed c n j) : Turns waiting i (turns ++ [n]) n

variable {waiting : Nat → Prop} {i j c n : Nat} {turns : List Nat}

theorem not_passed_self : ¬ Passed c n c := by
  unfold Passed
  split <;> omega

/-- Until `i` has its turn again, the turns come first to those above it and then to
those below it. -/
theorem Turns.position (h : Turns waiting i turns c) (absent : i ∉ turns)
    (ahead : waiting i) (other : waiting j) :
    (i ≤ c ∧ turns.count j = if i < j ∧ j ≤ c then 1 else 0) ∨
      (c < i ∧ turns.count j = if i < j ∨ j ≤ c then 1 else 0) := by
  induction h with
  | nil =>
    refine .inl ⟨Nat.le_refl i, ?_⟩
    rw [if_neg (by omega), List.count_nil]
  | @snoc turns c n _ fair ih =>
    have notIn : i ∉ turns ∧ i ≠ n := by simpa using absent
    have skipped := fair i ahead
    have waits := fair j other
    have before := ih notIn.1
    have counted : (turns ++ [n]).count j = turns.count j + if n = j then 1 else 0 := by
      rw [List.count_append, List.count_singleton]
      simp
    unfold Passed at skipped waits
    rw [counted]
    by_cases onward : c < n
    · rw [if_pos onward] at skipped waits
      rcases before with ⟨above, before⟩ | ⟨below, before⟩
      · exact .inl ⟨by omega, by rw [before]; split <;> split <;> split <;> omega⟩
      · exact .inr ⟨by omega, by rw [before]; split <;> split <;> split <;> omega⟩
    · -- The turn goes past the highest number. It would pass over `i` if it had done so before.
      rw [if_neg onward] at skipped waits
      rcases before with ⟨above, before⟩ | ⟨below, before⟩
      · exact .inr ⟨by omega, by rw [before]; split <;> split <;> split <;> omega⟩
      · omega

/-- When the turn comes back to `i`, everybody else who waited has had exactly one. -/
theorem Turns.count_eq_one (h : Turns waiting i turns c) (absent : i ∉ turns)
    (ahead : waiting i) (other : waiting j) (ne : j ≠ i)
    (back : ∀ k, waiting k → ¬ Passed c i k) : turns.count j = 1 := by
  have waits := back j other
  unfold Passed at waits
  rcases h.position absent ahead other with ⟨above, counted⟩ | ⟨below, counted⟩
  · rw [if_neg (by omega)] at waits
    rw [counted, if_pos (by omega)]
  · rw [if_pos below] at waits
    rw [counted, if_pos (by omega)]

end Lightc.Verification.RoundRobin
