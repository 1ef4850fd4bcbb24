import Lightc.Machine.Memory

/-!
# The byte loops

`memcpy` and `memmove` as the runtime defines them: one byte at a time, upwards,
or downwards when `memmove` finds the destination above the source. Both are a
single `storeBytes` of the bytes the source held before the call; for `memcpy`
this needs the ranges not to overlap the wrong way, for `memmove` nothing.
-/

namespace Lightc.Machine

open Function

/-- `for (; i < count; i++) d[i] = s[i]` with `n` rounds to go. -/
def copyUp (memory : Memory) (dst src i : Nat) : Nat → Memory
  | 0 => memory
  | n + 1 => copyUp (update memory (dst + i) (memory (src + i))) dst src (i + 1) n

/-- `for (i = count; i > 0; i--) d[i - 1] = s[i - 1]`. -/
def copyDown (memory : Memory) (dst src : Nat) : Nat → Memory
  | 0 => memory
  | i + 1 => copyDown (update memory (dst + i) (memory (src + i))) dst src i

def memcpy (memory : Memory) (dst src count : Nat) : Memory := copyUp memory dst src 0 count

def memmove (memory : Memory) (dst src count : Nat) : Memory :=
  if dst < src then copyUp memory dst src 0 count else copyDown memory dst src count

variable {memory : Memory} {dst src count : Nat}

/-- Upwards, every source byte is read before it is overwritten as long as the
destination is not inside the source. -/
theorem copyUp_apply (apart : dst ≤ src ∨ src + count ≤ dst) (n i : Nat) (memory : Memory)
    (rounds : i + n = count) (x : Nat) :
    copyUp memory dst src i n x =
      if dst + i ≤ x ∧ x < dst + count then memory (src + (x - dst)) else memory x := by
  induction n generalizing i memory with
  | zero => rw [if_neg (by omega), copyUp]
  | succ n ih =>
    rw [copyUp, ih (i + 1) _ (by omega)]
    by_cases later : dst + (i + 1) ≤ x ∧ x < dst + count
    · rw [if_pos later, if_pos (by omega)]
      exact update_of_ne (by omega) _ _
    · rw [if_neg later]
      by_cases here : x = dst + i
      · rw [here, update_self, if_pos (by omega), Nat.add_sub_cancel_left]
      · rw [update_of_ne here, if_neg (by omega)]

/-- Downwards, the destination may lie anywhere at or above the source. -/
theorem copyDown_apply (above : src ≤ dst) (n : Nat) (memory : Memory) (x : Nat) :
    copyDown memory dst src n x =
      if dst ≤ x ∧ x < dst + n then memory (src + (x - dst)) else memory x := by
  induction n generalizing memory with
  | zero => rw [if_neg (by omega), copyDown]
  | succ n ih =>
    rw [copyDown, ih]
    by_cases earlier : dst ≤ x ∧ x < dst + n
    · rw [if_pos earlier, if_pos (by omega)]
      exact update_of_ne (by omega) _ _
    · rw [if_neg earlier]
      by_cases here : x = dst + n
      · rw [here, update_self, if_pos (by omega), Nat.add_sub_cancel_left]
      · rw [update_of_ne here, if_neg (by omega)]

private theorem storeBytes_loadBytes_apply (x : Nat) :
    storeBytes memory dst (loadBytes memory src count) x =
      if dst ≤ x ∧ x < dst + count then memory (src + (x - dst)) else memory x := by
  by_cases inside : dst ≤ x ∧ x < dst + count
  · rw [if_pos inside, storeBytes_inside inside.1 (by rw [length_loadBytes]; omega),
      getElem_loadBytes]
  · rw [if_neg inside, storeBytes_outside (by rw [length_loadBytes]; omega)]

theorem memcpy_eq (apart : dst ≤ src ∨ src + count ≤ dst) :
    memcpy memory dst src count = storeBytes memory dst (loadBytes memory src count) := by
  funext x
  rw [memcpy, copyUp_apply apart count 0 memory (Nat.zero_add _) x, storeBytes_loadBytes_apply,
    Nat.add_zero]

/-- `memmove` is right for every pair of ranges. -/
theorem memmove_eq :
    memmove memory dst src count = storeBytes memory dst (loadBytes memory src count) := by
  by_cases below : dst < src
  · rw [memmove, if_pos below]
    exact memcpy_eq (.inl (Nat.le_of_lt below))
  · rw [memmove, if_neg below]
    funext x
    rw [copyDown_apply (Nat.le_of_not_lt below), storeBytes_loadBytes_apply]

/-- After `memmove` the destination holds what the source held before, wherever the
two lie, and nothing else has changed; `memcpy` does the same for disjoint ranges. -/
theorem memmove_simultaneous (memory : Memory) (dst src count : Nat) :
    (∀ i, i < count → memmove memory dst src count (dst + i) = memory (src + i)) ∧
    (∀ x, x < dst ∨ dst + count ≤ x → memmove memory dst src count x = memory x) ∧
    (dst + count ≤ src ∨ src + count ≤ dst →
      memcpy memory dst src count = memmove memory dst src count) := by
  refine ⟨fun i inside => ?_, fun x outside => ?_, fun apart => ?_⟩
  · rw [memmove_eq, storeBytes_loadBytes_apply, if_pos (by omega), Nat.add_sub_cancel_left]
  · rw [memmove_eq, storeBytes_loadBytes_apply, if_neg (by omega)]
  · rw [memcpy_eq (by omega), memmove_eq]

/-- A piece of a stored interval reads back as the same piece of the bytes. -/
theorem loadBytes_copied {offset size : Nat} (inside : offset + size ≤ count) :
    loadBytes (storeBytes memory dst (loadBytes memory src count)) (dst + offset) size =
      loadBytes memory (src + offset) size := by
  apply loadBytes_congr
  intro i hi
  rw [storeBytes_loadBytes_apply, if_pos (by omega)]
  congr 1
  omega

end Lightc.Machine
