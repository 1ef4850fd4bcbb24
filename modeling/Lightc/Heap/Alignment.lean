import Lightc.Heap.Ownership

/-!
# Where pointers are aligned to 16 bytes

A page starts at a multiple of 64 KiB and a header has 16 bytes, so a small pointer is
aligned exactly if the class size times the block's index is a multiple of 16. Of the 29
classes 27 are multiples of 16 themselves. The classes of 40 and 56 bytes are not: in
their pages every other block is 8 bytes off.
-/

namespace Lightc.Heap.Whole

open Machine Verification
open Heap.Small (Allocation)

variable {T : Type} {tid : T → Int} {s : State T} {size : Nat}

/-- The classes of 40 and 56 bytes. -/
def Uneven (bucket : Nat) : Prop := bucket = 1 ∨ bucket = 3

instance (bucket : Nat) : Decidable (Uneven bucket) :=
  inferInstanceAs (Decidable (bucket = 1 ∨ bucket = 3))

theorem slot_aligned_iff {bucket : Nat} (real : bucket < bucketCount) (i : Nat) :
    16 ∣ i * blockSize bucket ↔ (Uneven bucket → i % 2 = 0) := by
  by_cases uneven : Uneven bucket
  · simp only [uneven, true_imp_iff]
    rcases uneven with rfl | rfl
    · show 16 ∣ i * 40 ↔ i % 2 = 0
      omega
    · show 16 ∣ i * 56 ↔ i % 2 = 0
      omega
  · have table : ∀ b, b < bucketCount → ¬ Uneven b → 16 ∣ blockSize b := by decide
    exact ⟨fun _ both => absurd both uneven, fun _ => (table bucket real uneven).mul_left i⟩

/-- A block is aligned as its place in the page is. -/
theorem Sound.aligned_small_iff (h : Sound tid s) {p : PageRef} {i a : Nat}
    (block : s.small.IsBlock p i a) :
    16 ∣ a + headerSize ↔ (Uneven (s.small.page p).bucket → i % 2 = 0) := by
  have layout := h.small.layout
  obtain ⟨k, aligned⟩ := (layout.valid block.page.1).aligned
  rw [← slot_aligned_iff (layout.carved p block.page).1, block.address]
  simp only [PageRef.start, segmentDataStart, allocPageSize, segmentSize, headerSize] at aligned ⊢
  omega

theorem uneven_iff :
    Uneven (findBucket (requestSize size)) ↔ 17 ≤ size ∧ size ≤ 24 ∨ 33 ≤ size ∧ size ≤ 40 := by
  have table : ∀ size < 41, Uneven (findBucket (requestSize size)) ↔
      17 ≤ size ∧ size ≤ 24 ∨ 33 ≤ size ∧ size ≤ 40 := by decide +kernel
  by_cases low : size < 41
  · exact table size low
  · refine iff_of_false (fun uneven => ?_) (by omega)
    rw [requestSize, if_neg (by omega)] at uneven
    rcases findBucket_spec size with large | ⟨-, room⟩
    · rw [large] at uneven
      exact absurd uneven (by decide)
    · rcases uneven with same | same
      all_goals
        rw [same] at room
        exact low (Nat.lt_of_add_lt_add_right (Nat.lt_of_le_of_lt room (by decide)))

/-- Two requests for `size` bytes on the empty heap: the states around the second one, and
its pointer. -/
def allocateTwice (size : Nat) :
    Option (Contents.State Bool × Contents.State Bool × Option Nat) := do
  let s ← Contents.follow [(4194304, .allocate size)]
  let after ← Contents.runAllocate true Small.twoTids 4194304 32 false size s
  return (s, after)

/-- The second block of a page starts one block behind the first. -/
theorem second_block (uneven : Uneven (findBucket (requestSize size))) :
    ∃ s s', (system true Small.twoTids).Reachable s ∧
      Allocate true Small.twoTids false size s s'
        (some (4259856 + blockSize (findBucket (requestSize size)))) ∧
      s'.large.mapped = [] := by
  have runs : ∀ size < 41, Uneven (findBucket (requestSize size)) →
      (allocateTwice size).any (fun run => run.2.1.heap.large.mapped = [] ∧
        run.2.2 = some (4259856 + blockSize (findBucket (requestSize size)))) = true := by
    decide +kernel
  have low : size < 41 := by
    have := uneven_iff.mp uneven
    omega
  obtain ⟨⟨before, after, reply⟩, executed, answer⟩ :=
    (Option.any_eq_true _ _).mp (runs size low uneven)
  obtain ⟨none, rfl⟩ := of_decide_eq_true answer
  simp only [allocateTwice, Option.bind_eq_bind, Option.bind_eq_some_iff] at executed
  obtain ⟨s, followed, result, executed, same⟩ := executed
  cases same
  exact ⟨before.heap, after.heap,
    Contents.heap_reachable Small.twoTids_injective (Contents.follow_reachable followed),
    (Contents.runAllocate_sound executed).whole, none⟩

/-- `mmap` returns whole pages. Then for a given size, all pointers that `lc_heap_allocate`
returns are multiples of 16, in whatever state it is called, exactly if the size does not
belong to one of the two uneven classes. -/
theorem pointer_aligned_iff (size : Nat) :
    (∀ (T : Type) [DecidableEq T] (debug : Bool) (tid : T → Int) (t : T) (s s' : State T)
      (ptr : Nat), Function.Injective tid → (system debug tid).Reachable s →
      Allocate debug tid t size s s' (some ptr) →
      (∀ m ∈ s'.large.mapped, lcPageSize ∣ m.base) → 16 ∣ ptr) ↔
      ¬ (17 ≤ size ∧ size ≤ 24 ∨ 33 ≤ size ∧ size ≤ 40) := by
  rw [← uneven_iff]
  constructor
  · intro aligned uneven
    obtain ⟨s, s', run, call, none⟩ := second_block uneven
    have multiple := aligned Bool true Small.twoTids false s s' _ Small.twoTids_injective run call
      (by rw [none]; exact fun _ member => absurd member List.not_mem_nil)
    rcases uneven with same | same
    all_goals
      rw [same] at multiple
      exact absurd multiple (by decide)
  · intro even T _ debug tid t s s' ptr distinct run call kernel
    have h := (exact_inductive distinct).reachable run
    have allocated := h.allocate distinct call
    have sound' := allocated.toSound
    have live := (allocated.newer ptr rfl).1
    by_cases isLarge : s'.IsLarge ptr
    · have isLive := sound'.large_of_isLarge live isLarge
      obtain ⟨n, mapped, rfl⟩ := sound'.conserved.mapping_of_live isLive
      have page := kernel n mapped
      simp only [Large.Mapping.pointer, largeHeaderSize, largePreheaderSize, headerSize,
        lcPageSize] at page ⊢
      omega
    · obtain ⟨m, member, rfl⟩ := sound'.small_of_not_large live isLarge
      obtain ⟨c, held⟩ := sound'.small.held
      obtain ⟨p, i, block, bucket, -⟩ := held.granted m member
      rw [← (call.granted h distinct rfl).1, (sound'.bucket_small member).1, ← bucket] at even
      exact (sound'.aligned_small_iff block).mpr fun uneven => absurd uneven even

/-- The second block of 40 bytes starts 8 bytes past a multiple of 16. -/
theorem second_block_misaligned :
    ∃ s s', (system true Small.twoTids).Reachable s ∧
      Allocate true Small.twoTids false 24 s s' (some 4259896) ∧ ¬ 16 ∣ 4259896 := by
  obtain ⟨s, s', run, call, -⟩ := @second_block 24 (by decide)
  exact ⟨s, s', run, call, by decide⟩

end Lightc.Heap.Whole
