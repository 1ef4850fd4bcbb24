import Lightc.Machine.Memory

/-!
# Many stores

A list of stores, performed one after the other. A byte that none of them hits keeps its
value, and what becomes of a byte depends on nothing but its value before. Stores that have
no byte in common may be performed in any order.
-/

namespace Lightc.Machine

/-- A store of bytes at an address. -/
structure Write where
  address : Nat
  bytes : List UInt8

namespace Write

/-- The store writes the byte at `x`. -/
def Hits (w : Write) (x : Nat) : Prop := Within w.address w.bytes.length x

/-- No byte is written by both. -/
def Apart (v w : Write) : Prop := ∀ x, ¬ (v.Hits x ∧ w.Hits x)

def perform (w : Write) (memory : Memory) : Memory := storeBytes memory w.address w.bytes

variable {v w : Write} {memory other : Memory} {x : Nat}

theorem Apart.symm (h : v.Apart w) : w.Apart v := fun x both => h x both.symm

theorem perform_outside (missed : ¬ w.Hits x) : w.perform memory x = memory x := by
  apply storeBytes_outside
  unfold Hits Within at missed
  omega

theorem perform_congr (w : Write) (same : other x = memory x) :
    w.perform other x = w.perform memory x := by
  rw [perform, perform, storeBytes, storeBytes, same]

theorem perform_comm (apart : v.Apart w) (memory : Memory) :
    w.perform (v.perform memory) = v.perform (w.perform memory) := by
  funext x
  by_cases hit : v.Hits x
  · have missed : ¬ w.Hits x := fun other => apart x ⟨hit, other⟩
    rw [perform_outside missed]
    exact (v.perform_congr (perform_outside missed)).symm
  · rw [perform_outside hit]
    exact w.perform_congr (perform_outside hit)

end Write

/-- All stores, the first one first. -/
def performAll : List Write → Memory → Memory
  | [], memory => memory
  | w :: rest, memory => performAll rest (w.perform memory)

variable {writes writes' : List Write} {memory other : Memory} {x : Nat}

@[simp] theorem performAll_append (writes writes' : List Write) (memory : Memory) :
    performAll (writes ++ writes') memory = performAll writes' (performAll writes memory) := by
  induction writes generalizing memory with
  | nil => rfl
  | cons w rest ih => exact ih (w.perform memory)

theorem performAll_outside (missed : ∀ w ∈ writes, ¬ w.Hits x) :
    performAll writes memory x = memory x := by
  induction writes generalizing memory with
  | nil => rfl
  | cons w rest ih =>
    rw [performAll, ih fun v later => missed v (List.mem_cons_of_mem _ later)]
    exact Write.perform_outside (missed w List.mem_cons_self)

theorem performAll_congr (writes : List Write) (same : other x = memory x) :
    performAll writes other x = performAll writes memory x := by
  induction writes generalizing memory other with
  | nil => exact same
  | cons w rest ih => exact ih (w.perform_congr same)

/-- The order of stores that are pairwise apart does not matter. -/
theorem performAll_perm (perm : writes.Perm writes') (apart : writes.Pairwise Write.Apart)
    (memory : Memory) : performAll writes memory = performAll writes' memory := by
  induction perm generalizing memory with
  | nil => rfl
  | cons w _ ih => exact ih (List.pairwise_cons.mp apart).2 (w.perform memory)
  | swap v w rest =>
    have first := (List.pairwise_cons.mp apart).1 v List.mem_cons_self
    rw [performAll, performAll, performAll, performAll, Write.perform_comm first]
  | trans perm _ ih ih' =>
    have apart' := (perm.pairwise_iff Write.Apart.symm).mp apart
    rw [ih apart memory, ih' apart' memory]

end Lightc.Machine
