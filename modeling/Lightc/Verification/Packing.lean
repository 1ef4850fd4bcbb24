import Mathlib.Algebra.GroupWithZero.Nat
import Mathlib.Algebra.Order.BigOperators.Group.List
import Mathlib.Algebra.Order.Group.Nat
import Mathlib.Order.Interval.Finset.Nat

/-!
# How much fits into an address space

Stretches of cells that share none are together no longer than the space they
lie in.
-/

namespace Lightc.Verification

/-- The cells from `start` on, `length` of them. -/
structure Stretch where
  start : Nat
  length : Nat

namespace Stretch

/-- One ends before the other begins. -/
def Apart (a b : Stretch) : Prop := a.start + a.length ≤ b.start ∨ b.start + b.length ≤ a.start

def cells (a : Stretch) : Finset Nat := Finset.Ico a.start (a.start + a.length)

@[simp] theorem mem_cells {a : Stretch} {x : Nat} :
    x ∈ a.cells ↔ a.start ≤ x ∧ x < a.start + a.length := Finset.mem_Ico

@[simp] theorem card_cells (a : Stretch) : a.cells.card = a.length := by
  rw [cells, Nat.card_Ico, Nat.add_sub_cancel_left]

theorem Apart.disjoint {a b : Stretch} (h : a.Apart b) : Disjoint a.cells b.cells := by
  rw [Finset.disjoint_left]
  intro x first second
  rw [mem_cells] at first second
  rw [Apart] at h
  omega

/-- All cells of a list of stretches. -/
def covered (stretches : List Stretch) : Finset Nat :=
  stretches.foldr (fun a rest => a.cells ∪ rest) ∅

variable {stretches : List Stretch}

@[simp] theorem mem_covered {x : Nat} :
    x ∈ covered stretches ↔ ∃ a ∈ stretches, x ∈ a.cells := by
  induction stretches with
  | nil => simp [covered]
  | cons a rest ih =>
    rw [covered, List.foldr_cons, ← covered, Finset.mem_union, ih]
    simp

theorem card_covered (apart : stretches.Pairwise Apart) :
    (covered stretches).card = (stretches.map length).sum := by
  induction stretches with
  | nil => rfl
  | cons a rest ih =>
    obtain ⟨first, others⟩ := List.pairwise_cons.mp apart
    have disjoint : Disjoint a.cells (covered rest) := by
      rw [Finset.disjoint_left]
      intro x inFirst inRest
      obtain ⟨b, member, inside⟩ := mem_covered.mp inRest
      exact Finset.disjoint_left.mp (first b member).disjoint inFirst inside
    calc (covered (a :: rest)).card
        _ = a.cells.card + (covered rest).card := Finset.card_union_of_disjoint disjoint
        _ = a.length + (rest.map length).sum := by rw [card_cells, ih others]
        _ = ((a :: rest).map length).sum := by rw [List.map_cons, List.sum_cons]

/-- Stretches that lie apart below a bound are together no longer than it. -/
theorem sum_length_le {bound : Nat} (apart : stretches.Pairwise Apart)
    (inside : ∀ a ∈ stretches, a.start + a.length ≤ bound) :
    (stretches.map length).sum ≤ bound := by
  have all : covered stretches ⊆ Finset.range bound := by
    intro x member
    obtain ⟨a, listed, cell⟩ := mem_covered.mp member
    have := inside a listed
    rw [mem_cells] at cell
    rw [Finset.mem_range]
    omega
  calc (stretches.map length).sum
      _ = (covered stretches).card := (card_covered apart).symm
      _ ≤ (Finset.range bound).card := Finset.card_le_card all
      _ = bound := Finset.card_range bound

/-- The same for contents that leave some cells of every stretch unused. -/
theorem sum_contents_le {α : Type*} {items : List α} {place : α → Stretch} {content : α → Nat}
    {bound unused : Nat} (apart : (items.map place).Pairwise Apart)
    (inside : ∀ a ∈ items, (place a).start + (place a).length ≤ bound)
    (fits : ∀ a ∈ items, content a + unused ≤ (place a).length) :
    (items.map content).sum + items.length * unused ≤ bound := by
  have places : ((items.map place).map length).sum ≤ bound :=
    sum_length_le apart (List.forall_mem_map.mpr inside)
  calc (items.map content).sum + items.length * unused
      _ = (items.map fun a => content a + unused).sum := by
        rw [List.sum_map_add, List.map_const', List.sum_replicate, Nat.nsmul_eq_mul]
      _ ≤ ((items.map place).map length).sum := by
        rw [List.map_map]
        exact List.sum_le_sum fits
      _ ≤ bound := places

end Stretch

end Lightc.Verification
