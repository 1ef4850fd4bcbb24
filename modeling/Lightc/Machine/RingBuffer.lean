import Lightc.Machine.Word

/-!
# Items in a ring of cells

The items of a history are stored one after the other, around a ring of `size` cells,
the first of them in cell `start % size`. Those from number `low` on are still needed.
A store behind the last item takes a cell of none of these as long as they are fewer
than the cells.
-/

namespace Lightc.Machine

universe u

/-- The items from number `low` on are in their cells. -/
def Buffered {α : Type u} (size start low : Nat) (cells : Nat → α) (history : List α) : Prop :=
  ∀ i x, low ≤ i → history[i]? = some x → cells ((start + i) % size) = x

namespace Buffered

variable {α : Type u} {size start low low' : Nat} {cells : Nat → α} {history : List α} {x : α}

theorem empty (size start low : Nat) (cells : Nat → α) : Buffered size start low cells [] :=
  fun _ _ _ none => nomatch none

variable (h : Buffered size start low cells history)
include h

/-- Items that are no longer needed may be forgotten. -/
theorem release (order : low ≤ low') :
    Buffered size start low' cells history :=
  fun i x after => h i x (order.trans after)

theorem store (room : history.length < low + size) (x : α) :
    Buffered size start low
      (Function.update cells ((start + history.length) % size) x) history := by
  intro i y after at_
  obtain ⟨inside, -⟩ := List.getElem?_eq_some_iff.mp at_
  rw [Function.update_of_ne (residue_ne inside (by omega))]
  exact h i y after at_

theorem append (here : cells ((start + history.length) % size) = x) :
    Buffered size start low cells (history ++ [x]) := by
  intro i y after at_
  rw [List.getElem?_append] at at_
  split at at_
  · exact h i y after at_
  · next behind =>
    obtain ⟨only, rfl⟩ := List.getElem?_eq_some_iff.mp at_
    rw [List.length_singleton] at only
    obtain rfl : i = history.length := by omega
    simpa using here

end Buffered

end Lightc.Machine
