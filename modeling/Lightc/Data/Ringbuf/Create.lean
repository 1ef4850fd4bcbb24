import Lightc.Data.Ringbuf
import Mathlib.Data.Nat.Size

/-!
# The creation of a ring buffer

The capacity is rounded up to a power of two by smearing the highest bit of its
predecessor over the bits below, and the buffer is allocated for the product of
capacity and element size. Both are computed in 64 bits.
-/

namespace Lightc.Data.Ringbuf

open Machine

def nextPowerOf2 (n : Nat) : Nat :=
  if n = 0 then 1
  else
    let n := n - 1
    let n := n ||| n >>> 1
    let n := n ||| n >>> 2
    let n := n ||| n >>> 4
    let n := n ||| n >>> 8
    let n := n ||| n >>> 16
    let n := n ||| n >>> 32
    add64 n 1

structure LcRingbuf where
  data : Nat
  elementSize : Nat
  capacity : Nat
  mask : Nat
  head : Nat
  tail : Nat
  deriving DecidableEq, Repr

/-- `lc_ringbuf_create`, with what `lc_heap_allocate` answers. -/
def lcRingbufCreate (allocate : Nat → Option Nat) (elementSize minCapacity : Nat) : LcRingbuf :=
  let capacity := nextPowerOf2 minCapacity
  match allocate (mul64 capacity elementSize) with
  | none => ⟨0, elementSize, 0, 0, 0, 0⟩
  | some data => ⟨data, elementSize, capacity, sub64 capacity 1, 0, 0⟩

/-- `x` has a bit wherever `m` has one at that place or among the `width` places from it
upwards. -/
def Smeared (m width x : Nat) : Prop :=
  ∀ i, x.testBit i = true ↔ ∃ j < width, m.testBit (i + j) = true

theorem Smeared.double {m width x : Nat} (h : Smeared m width x) :
    Smeared m (width + width) (x ||| x >>> width) := by
  intro i
  rw [Nat.testBit_or, Nat.testBit_shiftRight, Bool.or_eq_true, h, h]
  constructor
  · rintro (⟨j, less, bit⟩ | ⟨j, less, bit⟩)
    · exact ⟨j, by omega, bit⟩
    · exact ⟨width + j, by omega, by rwa [show i + (width + j) = width + i + j by omega]⟩
  · rintro ⟨j, less, bit⟩
    by_cases near : j < width
    · exact .inl ⟨j, near, bit⟩
    · exact .inr ⟨j - width, by omega, by rwa [show width + i + (j - width) = i + j by omega]⟩

theorem smeared_one (m : Nat) : Smeared m 1 m := by
  intro i
  constructor
  · exact fun bit => ⟨0, Nat.one_pos, bit⟩
  · rintro ⟨j, less, bit⟩
    rwa [Nat.lt_one_iff.mp less] at bit

/-- Smearing over the whole word fills it up to the highest bit. -/
theorem Smeared.eq {m x : Nat} (h : Smeared m 64 x) (word : m < 2 ^ 64) :
    x + 1 = 2 ^ Nat.size m := by
  have filled : x = 2 ^ Nat.size m - 1 := by
    apply Nat.eq_of_testBit_eq
    intro i
    rw [Bool.eq_iff_iff, h, Nat.testBit_two_pow_sub_one, decide_eq_true_iff]
    constructor
    · rintro ⟨j, -, bit⟩
      have := Nat.lt_size.mpr (Nat.ge_two_pow_of_testBit bit)
      omega
    · intro low
      obtain ⟨top, above, bit⟩ := Nat.exists_ge_and_testBit_of_ge_two_pow (Nat.lt_size.mp low)
      have := Nat.lt_size.mpr (Nat.ge_two_pow_of_testBit bit)
      have := Nat.size_le.mpr word
      exact ⟨top - i, by omega, by rwa [Nat.add_sub_of_le above]⟩
  have := Nat.two_pow_pos (Nat.size m)
  omega

/-- The result is the least power of two that is not less, or 0 if that is `2 ^ 64`. -/
theorem nextPowerOf2_cases {n : Nat} (word : n < 2 ^ 64) :
    (n ≤ 2 ^ 63 ∧ ∃ k < 64, nextPowerOf2 n = 2 ^ k ∧ n ≤ 2 ^ k) ∨
      (2 ^ 63 < n ∧ nextPowerOf2 n = 0) := by
  by_cases zero : n = 0
  · subst zero
    exact .inl ⟨Nat.zero_le _, 0, by decide, rfl, by decide⟩
  · have filled := (smeared_one (n - 1)).double.double.double.double.double.double.eq (by omega)
    have rounded : nextPowerOf2 n = 2 ^ Nat.size (n - 1) % 2 ^ 64 := by
      rw [nextPowerOf2, if_neg zero, add64, ← filled]
    have reached := Nat.lt_size_self (n - 1)
    by_cases small : n ≤ 2 ^ 63
    · have less : Nat.size (n - 1) < 64 := Nat.lt_succ_of_le (Nat.size_le.mpr (by omega))
      have fits : 2 ^ Nat.size (n - 1) < 2 ^ 64 := Nat.pow_lt_pow_right (by decide) less
      exact .inl ⟨small, _, less, rounded.trans (Nat.mod_eq_of_lt fits), by omega⟩
    · have whole : Nat.size (n - 1) = 64 :=
        Nat.le_antisymm (Nat.size_le.mpr (by omega)) (Nat.lt_size.mpr (by omega))
      rw [whole, Nat.mod_self] at rounded
      exact .inr ⟨by omega, rounded⟩

/-- The ring `lc_ringbuf_create` makes, and the bytes of the blocks the heap hands out. -/
structure OwnsSlots (ring : LcRingbuf) (minCapacity : Nat) (blockSize : Nat → Nat) : Prop where
  power : ∃ k, ring.capacity = 2 ^ k
  mask : ring.mask = ring.capacity - 1
  enough : minCapacity ≤ ring.capacity
  block : ring.capacity * ring.elementSize ≤ blockSize ring.data
  slots : ∀ tail, mul64 (tail &&& ring.mask) ring.elementSize + ring.elementSize ≤
    blockSize ring.data

/-- A ring buffer that was created owns all its slots exactly if neither the rounding of
the capacity nor the size of the buffer leaves the 64-bit range. -/
theorem ringbuf_owns_slots_iff (allocate : Nat → Option Nat) (blockSize : Nat → Nat)
    (elementSize minCapacity : Nat) (word : minCapacity < 2 ^ 64)
    (granted : ∀ n data, allocate n = some data → n ≤ blockSize data ∧ blockSize data < 2 ^ 64)
    (created : (lcRingbufCreate allocate elementSize minCapacity).data ≠ 0) :
    OwnsSlots (lcRingbufCreate allocate elementSize minCapacity) minCapacity blockSize ↔
      minCapacity ≤ 2 ^ 63 ∧ nextPowerOf2 minCapacity * elementSize < 2 ^ 64 := by
  cases given : allocate (mul64 (nextPowerOf2 minCapacity) elementSize) with
  | none => simp [lcRingbufCreate, given] at created
  | some data =>
    obtain ⟨least, most⟩ := granted _ _ given
    rw [lcRingbufCreate, given]
    dsimp only
    rcases nextPowerOf2_cases word with ⟨small, k, less, rounded, reached⟩ | ⟨large, rounded⟩
    · rw [rounded] at least ⊢
      have positive : 0 < 2 ^ k := Nat.two_pow_pos k
      have mask := sub64_of_le (Nat.pow_lt_pow_right (by decide) less) positive
      constructor
      · exact fun owns => ⟨small, Nat.lt_of_le_of_lt owns.block most⟩
      · rintro ⟨-, product⟩
        rw [mul64_of_lt product] at least
        refine ⟨⟨k, rfl⟩, mask, reached, least, fun tail => ?_⟩
        have slot : (tail % 2 ^ k + 1) * elementSize ≤ 2 ^ k * elementSize :=
          Nat.mul_le_mul_right _ (Nat.mod_lt _ positive)
        rw [Nat.succ_mul] at slot
        dsimp only
        rw [mask, Nat.and_two_pow_sub_one_eq_mod, mul64_of_lt (by omega)]
        omega
    · constructor
      · intro owns
        have := owns.enough
        dsimp only at this
        omega
      · rintro ⟨small, -⟩
        omega

/-- A heap with one block. -/
def oneBlock (size n : Nat) : Option Nat := if n ≤ size then some 4096 else none

theorem ringbuf_owns_slots_iff_rounded :
    OwnsSlots (lcRingbufCreate (oneBlock 64) 8 5) 5 fun _ => 64 := by
  refine (ringbuf_owns_slots_iff (oneBlock 64) (fun _ => 64) 8 5 (by decide) ?_ (by decide)).mpr
    (by decide)
  intro n data given
  unfold oneBlock at given
  split at given
  · exact ⟨by assumption, by decide⟩
  · cases given

/-- The product of 16 and the element size is 16 in 64 bits, and so many bytes are
allocated. -/
theorem ringbuf_slots_missing :
    (lcRingbufCreate (oneBlock 16) (2 ^ 60 + 1) 16).data ≠ 0 ∧
      ¬ (lcRingbufCreate (oneBlock 16) (2 ^ 60 + 1) 16).capacity * (2 ^ 60 + 1) ≤ 16 := by
  decide

end Lightc.Data.Ringbuf
