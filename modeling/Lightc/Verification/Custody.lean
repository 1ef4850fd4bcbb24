import Lightc.Verification.Transition

/-!
# Custody of resources

An abstract exchange of resources between threads, their clients and mailboxes.
At every moment a resource has exactly one holder. A thread may take a free
resource, grant one it holds to the client, get one back, post one into a
mailbox, collect a whole mailbox, and retire one it holds. Nothing else moves,
so what a thread holds can only be moved by that thread.

This is all a memory allocator promises about its blocks; an implementation is
correct if its steps are such moves under some reading of its data structures.
-/

namespace Lightc.Verification

open Function

/-- Who answers for a resource. -/
inductive Holder (T M : Type)
  | free
  | thread (t : T)
  | client
  | mailbox (m : M)
  deriving DecidableEq, Repr

/-- The holder of every resource. -/
abbrev Ledger (K T M : Type) := K → Holder T M

variable {K T M : Type} [DecidableEq K] [DecidableEq T] [DecidableEq M]

/-- A thread empties a mailbox. -/
def Ledger.collect (c : Ledger K T M) (t : T) (m : M) : Ledger K T M := fun k =>
  if c k = .mailbox m then .thread t else c k

/-- What a thread may do to the ledger. -/
inductive Move (t : T) (c : Ledger K T M) : Ledger K T M → Prop
  | take {k : K} (free : c k = .free) : Move t c (update c k (.thread t))
  | grant {k : K} (held : c k = .thread t) : Move t c (update c k .client)
  | surrender {k : K} (granted : c k = .client) : Move t c (update c k (.thread t))
  | post {k : K} (m : M) (held : c k = .thread t) : Move t c (update c k (.mailbox m))
  | collect (m : M) : Move t c (c.collect t m)
  | retire {k : K} (held : c k = .thread t) : Move t c (update c k .free)

/-- Any thread moves at any time. -/
def custody (K T M : Type) [DecidableEq K] [DecidableEq T] [DecidableEq M] :
    System (Ledger K T M) where
  init c := ∀ k, c k = .free
  step c c' := ∃ t, Move t c c'

variable {c c' : Ledger K T M} {t u : T} {k : K}

omit [DecidableEq T] [DecidableEq M] in
/-- An update elsewhere, or of a resource with another holder, is not noticed. -/
theorem Ledger.update_of_holder_ne {h : Holder T M} (k' : K) (ne : c k' ≠ c k) :
    update c k' h k = c k := by
  apply update_of_ne
  rintro rfl
  exact ne rfl

omit [DecidableEq T] [DecidableEq M] in
/-- A resource that moves between two holders does not concern a third. -/
theorem Ledger.update_eq_iff {h x y z : Holder T M} {k' : K} (before : c k' = x ∨ c k' = y)
    (after : h = x ∨ h = y) (ne : z ≠ x) (ne' : z ≠ y) :
    update c k' h k = z ↔ c k = z := by
  have other : ∀ {w : Holder T M}, w = x ∨ w = y → w ≠ z := by
    rintro w (rfl | rfl)
    · exact ne.symm
    · exact ne'.symm
  by_cases self : k = k'
  · subst self
    rw [update_self]
    exact iff_of_false (other after) (other before)
  · rw [update_of_ne self]

/-- What one thread holds is not moved by another. -/
theorem Move.keeps (move : Move t c c') (other : u ≠ t) (held : c k = .thread u) :
    c' k = .thread u := by
  cases move with
  | take free => rw [Ledger.update_of_holder_ne _ (by simp [free, held]), held]
  | grant mine | retire mine =>
    rw [Ledger.update_of_holder_ne _ (by simp [mine, held, other.symm]), held]
  | surrender granted => rw [Ledger.update_of_holder_ne _ (by simp [granted, held]), held]
  | post m mine => rw [Ledger.update_of_holder_ne _ (by simp [mine, held, other.symm]), held]
  | collect m => simp [Ledger.collect, held]

end Lightc.Verification
