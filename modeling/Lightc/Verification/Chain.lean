import Mathlib.Data.List.Basic

/-!
# Singly linked lists in memory

A list is a head and a link function with a null value; nodes are values of any
type. `Chain` says which nodes a list consists of and `Linked` that a node is met
by following the links. The link function is read only at the nodes themselves,
so a list is untouched by writes elsewhere (`Chain.congr`), and a list built in
this way has no cycle.
-/

namespace Lightc.Verification

variable {α : Type} {next next' : α → α} {null head a b : α} {nodes : List α}

/-- The nodes from a head on, up to the null link. -/
inductive Chain (next : α → α) (null : α) : α → List α → Prop
  | nil : Chain next null null []
  | cons {a : α} {rest : List α} (node : a ≠ null) (tail : Chain next null (next a) rest) :
      Chain next null a (a :: rest)

/-- The node is met on the way from the head to the null link. -/
inductive Linked (next : α → α) (null : α) : α → α → Prop
  | here {a : α} (node : a ≠ null) : Linked next null a a
  | there {a b : α} (node : a ≠ null) (tail : Linked next null (next a) b) : Linked next null a b

namespace Chain

variable (h : Chain next null head nodes)
include h

/-- A list that is not empty consists of its head and the list behind it. -/
theorem eq_cons (node : head ≠ null) :
    ∃ rest, nodes = head :: rest ∧ Chain next null (next head) rest := by
  cases h with
  | nil => exact absurd rfl node
  | @cons _ rest _ tail => exact ⟨rest, rfl, tail⟩

theorem unique {nodes' : List α} (h' : Chain next null head nodes') : nodes' = nodes := by
  induction h generalizing nodes' with
  | nil =>
    cases h' with
    | nil => rfl
    | cons node => exact absurd rfl node
  | cons node _ ih =>
    obtain ⟨rest, rfl, tail⟩ := h'.eq_cons node
    rw [ih tail]

/-- Links of other nodes do not matter. -/
theorem congr (same : ∀ a ∈ nodes, next' a = next a) : Chain next' null head nodes := by
  induction h with
  | nil => exact .nil
  | @cons a rest node _ ih =>
    have here : next' a = next a := same a List.mem_cons_self
    refine .cons node ?_
    rw [here]
    exact ih fun b member => same b (List.mem_cons_of_mem a member)

theorem mem_of_linked (met : Linked next null head a) : a ∈ nodes := by
  induction met generalizing nodes with
  | here node =>
    obtain ⟨rest, rfl, _⟩ := h.eq_cons node
    exact List.mem_cons_self
  | there node _ ih =>
    obtain ⟨rest, rfl, tail⟩ := h.eq_cons node
    exact List.mem_cons_of_mem _ (ih tail)

theorem linked_of_mem (member : a ∈ nodes) : Linked next null head a := by
  induction h with
  | nil => exact absurd member List.not_mem_nil
  | cons node _ ih =>
    rcases List.mem_cons.mp member with rfl | later
    · exact .here node
    · exact .there node (ih later)

end Chain

end Lightc.Verification
