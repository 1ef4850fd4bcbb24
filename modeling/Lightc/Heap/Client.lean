import Lightc.Heap.SizeClass
import Lightc.Machine.Bytes

/-!
# The allocator as its clients see it

A container holds one block at a time and grows it with `lc_heap_reallocate`.
What the allocator decides during such a call is given by an `Allocator`: the
address it answers with, or that it fails, and what its bookkeeping does to
memory. `Allocator.Honest` is its side of the contract: a new block is a range of
its own, and nothing that is in use is written to. The size checks, the classes
and the in-place path are those of the source.
-/

namespace Lightc.Heap.Client

open Machine Function

structure View where
  memory : Memory
  /-- The header that stands `HEADER_SIZE` bytes in front of a pointer. -/
  headers : Nat → Header

/-- What the allocator does during one call, for each size that may be asked for. -/
structure Allocator where
  block : Nat → Option Nat
  /-- What `lc_heap_allocate` does to memory. -/
  claim : Nat → Memory → Memory
  /-- What freeing the old block does to memory. -/
  release : Nat → Memory → Memory

/-- The header of a new block. -/
def newHeader (size : Nat) : Header := ⟨size, findBucket size, heapMagic⟩

/-- `lc_heap_allocate`; `none` is `LC_ERR_NOMEM`. -/
def lcHeapAllocate (allocator : Allocator) (h : View) (size : Nat) : Option (Nat × View) :=
  let size := requestSize size
  if findBucket size = bucketLarge ∧ size > largeSizeLimit then none
  else
    match allocator.block size with
    | none => none
    | some ptr =>
      some (ptr, ⟨allocator.claim size h.memory, update h.headers ptr (newHeader size)⟩)

/-- `lc_heap_free` of the old block, in a call that asked for `size` bytes. -/
def lcHeapFree (allocator : Allocator) (h : View) (size : Nat) : View :=
  { h with memory := allocator.release size h.memory }

/-- The end of `lc_heap_reallocate`: a new block, a copy, and the old one freed. -/
def moveBlock (allocator : Allocator) (h : View) (ptr newSize : Nat) : Option (Nat × View) :=
  let oldSize := (h.headers ptr).size
  match lcHeapAllocate allocator h newSize with
  | none => none
  | some (fresh, h) =>
    let copySize := if oldSize < newSize then oldSize else newSize
    some (fresh,
      lcHeapFree allocator { h with memory := memcpy h.memory fresh ptr copySize } newSize)

def lcHeapReallocate (allocator : Allocator) (h : View) (ptr newSize : Nat) :
    Option (Nat × View) :=
  if ptr = 0 then lcHeapAllocate allocator h newSize
  else if newSize = 0 then some (0, lcHeapFree allocator h newSize)
  else
    let header := h.headers ptr
    if header.bucket ≠ bucketLarge ∧ newSize ≤ bucketUsableSize header.bucket then
      some (ptr, { h with
        headers := update h.headers ptr { header with size := newSize } })
    else moveBlock allocator h ptr newSize

/-- A block in use: `ptr` was returned for `size` bytes and not freed since. -/
structure Block (h : View) (ptr size : Nat) : Prop where
  nonnull : ptr ≠ 0
  size_eq : (h.headers ptr).size = size
  size_le : size ≤ (h.headers ptr).extent
  limit : size ≤ largeSizeLimit
  fits : ptr + (h.headers ptr).extent ≤ 2 ^ 64

/-- The allocator's side of the contract, in a call that may replace the block at
`ptr` by one of `size` bytes while the caller keeps the addresses in `keep`. -/
structure Allocator.Honest (allocator : Allocator) (keep : Nat → Prop) (h : View)
    (ptr size : Nat) : Prop where
  nonnull : ∀ fresh, allocator.block size = some fresh → fresh ≠ 0
  fits : ∀ fresh, allocator.block size = some fresh → fresh + (newHeader size).extent ≤ 2 ^ 64
  apart : ∀ fresh, allocator.block size = some fresh → ∀ x, Within fresh (newHeader size).extent x →
    ¬ keep x ∧ (ptr ≠ 0 → ¬ Within ptr (h.headers ptr).extent x)
  claims : ∀ m x, keep x ∨ ptr ≠ 0 ∧ Within ptr (h.headers ptr).extent x →
    allocator.claim size m x = m x
  releases : ∀ m x, keep x ∨ (∃ fresh, allocator.block size = some fresh ∧
    Within fresh (newHeader size).extent x) → allocator.release size m x = m x

/-- What a successful call leaves: a block of the new size with the first `kept`
bytes of the old one, and the caller's addresses as they were. -/
structure Grown (keep : Nat → Prop) (before : View) (ptr kept newSize : Nat) (fresh : Nat)
    (after : View) : Prop where
  block : Block after fresh newSize
  contents : ∀ i, i < kept → after.memory (fresh + i) = before.memory (ptr + i)
  keeps : ∀ x, keep x → after.memory x = before.memory x
  apart : ∀ x, keep x → ¬ Within fresh (after.headers fresh).extent x

variable {allocator : Allocator} {keep : Nat → Prop} {h after : View} {ptr newSize fresh : Nat}

variable {size : Nat}

/-- An accepted size is within the large limit, whatever its class. -/
private theorem size_limit (accepted : ¬ (findBucket size = bucketLarge ∧ size > largeSizeLimit)) :
    size ≤ largeSizeLimit := by
  by_cases large : findBucket size = bucketLarge
  · exact Nat.le_of_not_lt fun big => accepted ⟨large, big⟩
  · have enough := ((findBucket_spec size).resolve_left large).2
    have bound := blockSize_le (findBucket size)
    have : 4096 ≤ largeSizeLimit := by decide
    omega

/-- `lc_heap_allocate` for a nonzero size. -/
theorem lcHeapAllocate_spec (honest : allocator.Honest keep h ptr newSize)
    (positive : 0 < newSize) (ok : lcHeapAllocate allocator h newSize = some (fresh, after)) :
    allocator.block newSize = some fresh ∧ after.memory = allocator.claim newSize h.memory ∧
      after.headers fresh = newHeader newSize ∧ Block after fresh newSize := by
  have request : requestSize newSize = newSize := if_neg (Nat.ne_of_gt positive)
  simp only [lcHeapAllocate, request] at ok
  split at ok
  · cases ok
  · rename_i accepted
    cases answer : allocator.block newSize with
    | none => simp [answer] at ok
    | some p =>
      simp only [answer, Option.some.injEq, Prod.mk.injEq] at ok
      obtain ⟨rfl, rfl⟩ := ok
      have header : (View.mk (allocator.claim newSize h.memory)
          (update h.headers p (newHeader newSize))).headers p = newHeader newSize :=
        update_self ..
      refine ⟨rfl, rfl, header, honest.nonnull p answer, ?_, ?_, size_limit accepted, ?_⟩
      · rw [header]
        rfl
      · rw [header]
        exact le_extent _ _
      · rw [header]
        exact honest.fits p answer

/-- The first block of a container. -/
theorem allocate_grown (honest : allocator.Honest keep h 0 newSize) (positive : 0 < newSize)
    (ok : lcHeapAllocate allocator h newSize = some (fresh, after)) :
    Grown keep h 0 0 newSize fresh after := by
  obtain ⟨answer, memory, header, block⟩ := lcHeapAllocate_spec honest positive ok
  refine ⟨block, fun i none => absurd none (Nat.not_lt_zero i), ?_, ?_⟩
  · intro x kept
    rw [memory]
    exact honest.claims _ x (.inl kept)
  · intro x kept inside
    rw [header] at inside
    exact (honest.apart fresh answer x inside).1 kept

/-- Moving to a new block keeps the bytes both sizes have in common. -/
theorem moveBlock_grown (honest : allocator.Honest keep h ptr newSize) (old : Block h ptr size)
    (positive : 0 < newSize) (ok : moveBlock allocator h ptr newSize = some (fresh, after)) :
    Grown keep h ptr (min size newSize) newSize fresh after := by
  simp only [moveBlock] at ok
  cases allocated : lcHeapAllocate allocator h newSize with
  | none => simp [allocated] at ok
  | some result =>
    obtain ⟨p, middle⟩ := result
    obtain ⟨answer, memory, header, block⟩ := lcHeapAllocate_spec honest positive allocated
    have apart := honest.apart p answer
    rw [allocated, old.size_eq] at ok
    simp only [lcHeapFree, Option.some.injEq, Prod.mk.injEq] at ok
    obtain ⟨rfl, rfl⟩ := ok
    have copySize : (if size < newSize then size else newSize) = min size newSize := by
      rw [Nat.min_def]
      split <;> split <;> omega
    have extent : newSize ≤ (newHeader newSize).extent := le_extent _ _
    have inOld : ∀ i, i < min size newSize → Within ptr (h.headers ptr).extent (ptr + i) := by
      intro i hi
      have := old.size_le
      exact ⟨by omega, by omega⟩
    have inNew : ∀ i, i < min size newSize → Within p (newHeader newSize).extent (p + i) := by
      intro i hi
      exact ⟨by omega, by omega⟩
    -- The copied ranges do not meet: the new block is apart from the old one.
    have disjoint : p ≤ ptr ∨ ptr + min size newSize ≤ p := by
      by_contra overlap
      have both : Within ptr (h.headers ptr).extent p := by
        have := inOld (p - ptr) (by omega)
        rwa [Nat.add_sub_of_le (by omega)] at this
      exact (apart p ⟨Nat.le_refl _, by omega⟩).2 old.nonnull both
    refine ⟨{ block with }, ?_, ?_, ?_⟩
    · intro i hi
      change allocator.release _ _ (p + i) = _
      rw [honest.releases _ _ (.inr ⟨p, answer, inNew i hi⟩), copySize, memcpy_eq disjoint,
        storeBytes_inside (Nat.le_add_right _ _) (by simpa using hi), getElem_loadBytes,
        Nat.add_sub_cancel_left, memory]
      exact honest.claims _ _ (.inr ⟨old.nonnull, inOld i hi⟩)
    · intro x kept
      have outside : ¬ Within p (newHeader newSize).extent x := fun inside =>
        (apart x inside).1 kept
      change allocator.release _ _ x = _
      rw [honest.releases _ _ (.inl kept), copySize, memcpy_eq disjoint, storeBytes_outside,
        memory]
      · exact honest.claims _ x (.inl kept)
      · rw [length_loadBytes]
        simp only [Within, not_and, not_lt] at outside
        omega
    · intro x kept inside
      rw [header] at inside
      exact (apart x inside).1 kept

/-- Growing in place only rewrites the header. -/
theorem inPlace_grown (old : Block h ptr size)
    (keepApart : ∀ x, keep x → ¬ Within ptr (h.headers ptr).extent x)
    (small : (h.headers ptr).bucket ≠ bucketLarge)
    (enough : newSize ≤ bucketUsableSize (h.headers ptr).bucket)
    (limit : newSize ≤ largeSizeLimit) :
    Grown keep h ptr (min size newSize) newSize ptr { h with
      headers := update h.headers ptr { h.headers ptr with size := newSize } } := by
  have extent : (Header.mk newSize (h.headers ptr).bucket (h.headers ptr).magic).extent =
      (h.headers ptr).extent := by
    rw [Header.extent, Header.extent, if_neg small, if_neg small]
  have usable : (h.headers ptr).extent = bucketUsableSize (h.headers ptr).bucket := if_neg small
  refine ⟨⟨old.nonnull, ?_, ?_, limit, ?_⟩, fun _ _ => rfl, fun _ _ => rfl, ?_⟩
  · simp
  · simp only [update_self, extent, usable]
    exact enough
  · simp only [update_self, extent]
    exact old.fits
  · simpa only [update_self, extent] using keepApart

/-- `lc_heap_reallocate` with a nonzero size, from no block or from a block in use. -/
theorem lcHeapReallocate_grown (honest : allocator.Honest keep h ptr newSize)
    (held : ptr = 0 ∧ size = 0 ∨ Block h ptr size)
    (keepApart : ptr ≠ 0 → ∀ x, keep x → ¬ Within ptr (h.headers ptr).extent x)
    (positive : 0 < newSize) (ok : lcHeapReallocate allocator h ptr newSize = some (fresh, after)) :
    Grown keep h ptr (min size newSize) newSize fresh after := by
  unfold lcHeapReallocate at ok
  rcases held with ⟨rfl, rfl⟩ | old
  · rw [if_pos rfl] at ok
    rw [Nat.zero_min]
    exact allocate_grown honest positive ok
  · rw [if_neg old.nonnull, if_neg (Nat.ne_of_gt positive)] at ok
    dsimp only at ok
    split at ok
    · rename_i inPlace
      cases ok
      apply inPlace_grown old (keepApart old.nonnull) inPlace.1 inPlace.2
      have bound := bucketUsableSize_le (h.headers ptr).bucket
      have : 4096 ≤ largeSizeLimit := by decide
      exact Nat.le_trans inPlace.2 (Nat.le_trans bound this)
    · exact moveBlock_grown honest old positive ok

end Lightc.Heap.Client
