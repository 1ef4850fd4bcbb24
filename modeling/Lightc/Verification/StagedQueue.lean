import Lightc.Verification.Transition
import Mathlib.Data.List.Basic

/-!
# Bounded queues that are filled in two stages

A producer accepts items into a staging area and from time to time publishes all
it has staged; a consumer takes published items from the front, whenever it
likes. Items that are staged or published and not yet consumed share one
capacity.

The three lists partition the history: what was accepted is what was consumed,
then what is published, then what is staged. Both parties can only move the
borders between the parts, so the consumed items are always a prefix of the
accepted ones.
-/

namespace Lightc.Verification

universe u

/-- The history of a queue, cut at the two borders. -/
structure StagedQueue (α : Type u) where
  consumed : List α
  published : List α
  staged : List α
  deriving DecidableEq, Repr

namespace StagedQueue

variable {α : Type u}

/-- No item has been accepted yet. -/
def empty : StagedQueue α := ⟨[], [], []⟩

/-- All items ever accepted, oldest first. -/
def accepted (q : StagedQueue α) : List α := q.consumed ++ q.published ++ q.staged

/-- Items that take up room. -/
def waiting (q : StagedQueue α) : Nat := q.published.length + q.staged.length

def submit (q : StagedQueue α) (x : α) : StagedQueue α := { q with staged := q.staged ++ [x] }

def publish (q : StagedQueue α) : StagedQueue α :=
  { q with published := q.published ++ q.staged, staged := [] }

/-- The consumer's next item and the queue without it. -/
def consume (q : StagedQueue α) : Option (α × StagedQueue α) :=
  match q.published with
  | [] => none
  | x :: rest => some (x, { q with consumed := q.consumed ++ [x], published := rest })

/-- Accept an item if there is room, publish, or consume. -/
inductive Step (capacity : Nat) (q : StagedQueue α) : StagedQueue α → Prop
  | submit (x : α) (room : q.waiting < capacity) : Step capacity q (q.submit x)
  | publish : Step capacity q q.publish
  | consume {x : α} {q' : StagedQueue α} (front : q.consume = some (x, q')) : Step capacity q q'

/-- Producer and consumer move in any order. -/
def system (α : Type u) (capacity : Nat) : System (StagedQueue α) where
  init q := q = empty
  step := Step capacity

variable {q q' : StagedQueue α} {x : α}

@[simp] theorem accepted_submit : (q.submit x).accepted = q.accepted ++ [x] := by
  simp [accepted, submit, List.append_assoc]

@[simp] theorem accepted_publish : q.publish.accepted = q.accepted := by
  simp [accepted, publish]

@[simp] theorem waiting_submit : (q.submit x).waiting = q.waiting + 1 := by
  simp [waiting, submit, Nat.add_assoc]

@[simp] theorem waiting_publish : q.publish.waiting = q.waiting := by
  simp [waiting, publish]

theorem publish_eq_self (nothing : q.staged = []) : q.publish = q := by
  cases q
  cases nothing
  simp [publish]

/-- What consuming does, in terms of the borders. -/
theorem consume_eq_some_iff :
    q.consume = some (x, q') ↔
      ∃ rest, q.published = x :: rest ∧ q' = ⟨q.consumed ++ [x], rest, q.staged⟩ := by
  unfold consume
  cases q.published with
  | nil => simp
  | cons y rest =>
    constructor
    · intro front
      cases front
      exact ⟨rest, rfl, rfl⟩
    · rintro ⟨_, same, rfl⟩
      cases same
      rfl

theorem accepted_consume (front : q.consume = some (x, q')) : q'.accepted = q.accepted := by
  obtain ⟨rest, found, rfl⟩ := consume_eq_some_iff.mp front
  simp [accepted, found]

theorem consumed_prefix_accepted : q.consumed <+: q.accepted :=
  ⟨q.published ++ q.staged, (List.append_assoc ..).symm⟩

@[simp] theorem length_accepted : q.accepted.length = q.consumed.length + q.waiting := by
  simp [accepted, waiting]

/-- The item the consumer gets next is the oldest accepted one it has not had. -/
theorem accepted_getElem?_consumed (front : q.consume = some (x, q')) :
    q.accepted[q.consumed.length]? = some x := by
  obtain ⟨rest, found, rfl⟩ := consume_eq_some_iff.mp front
  simp [accepted, found]

end StagedQueue

end Lightc.Verification
