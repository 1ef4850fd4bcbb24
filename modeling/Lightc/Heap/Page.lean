import Lightc.Heap.SizeClass

/-!
# Pages of small blocks

A segment is four mebibytes, aligned to its size. Its first 64 KiB hold the
records of its 63 pages, the data areas of the pages follow. A page is carved
into blocks of one size class and keeps a bitmap of the blocks that are in use.
Bits from `block_count` on are set when the page is initialised, so the search
for a clear bit need not look at `block_count` at all.

Page records and data areas do not overlap, so records are kept apart from the
byte memory. A record is named by its segment and its index in it.
-/

namespace Lightc.Heap

open Machine Function

def segmentSize : Nat := 4 * 1024 * 1024

def segmentAlignMask : Nat := 2 ^ 64 - segmentSize

def allocPageSize : Nat := 64 * 1024

def pagesPerSegment : Nat := segmentSize / allocPageSize - 1

def bitmapMaxWords : Nat := 32

/-- `&seg->pages[index]`. -/
structure PageRef where
  segment : Nat
  index : Nat
  deriving DecidableEq, Repr

/-- `lc_heap_page`. -/
structure Page where
  next : Option PageRef
  dataStart : Nat
  bucket : Nat
  blockCount : Nat
  usedCount : Nat
  ownerTid : Int
  /-- The first `lc_free_node`, or 0. -/
  remoteFreeList : Nat
  bitmap : Nat → BitVec 64

def segmentDataStart (seg : Nat) : Nat := seg + allocPageSize

def pageFromPointer (ptr : Nat) : PageRef :=
  let seg := ptr &&& segmentAlignMask
  let offset := sub64 ptr (segmentDataStart seg)
  ⟨seg, offset / allocPageSize % 2 ^ 32⟩

/-! ### Bitmap operations -/

/-- The `for` loop of `bitmap_allocate_block` from word `w` on. -/
def bitmapScan (page : Page) (w : Nat) : Nat → Option (Page × Nat)
  | 0 => none
  | words + 1 =>
    if page.bitmap w ≠ BitVec.allOnes 64 then
      let bit := (~~~ page.bitmap w).ctz.toNat
      let blockIdx := w * 64 + bit
      some ({ page with
        bitmap := update page.bitmap w (page.bitmap w ||| 1#64 <<< bit)
        usedCount := (page.usedCount + 1) % 2 ^ 16 },
        page.dataStart + blockIdx * blockSize page.bucket)
    else bitmapScan page (w + 1) words

/-- The page with one more block in use, and that block. -/
def bitmapAllocateBlock (page : Page) : Option (Page × Nat) :=
  bitmapScan page 0 ((page.blockCount + 63) / 64)

/-- The index both ways of freeing compute from an address; the difference is cut
to 32 bits. -/
def Page.blockIdx (page : Page) (block : Nat) : Nat :=
  sub64 block page.dataStart % 2 ^ 32 / (blockSize page.bucket % 2 ^ 32)

/-- `bitmap_free_block`. The loop body of `drain_remote_frees` repeats it. -/
def bitmapFreeBlock (page : Page) (block : Nat) : Page :=
  let blockIdx := page.blockIdx block
  { page with
    bitmap := update page.bitmap (blockIdx / 64)
      (page.bitmap (blockIdx / 64) &&& ~~~ (1#64 <<< (blockIdx % 64)))
    usedCount := (page.usedCount + (2 ^ 16 - 1)) % 2 ^ 16 }

/-! ### Segment lifecycle -/

/-- `(addr + SEGMENT_SIZE - 1) & SEGMENT_ALIGN_MASK`. -/
def segmentAligned (addr : Nat) : Nat := add64 addr (segmentSize - 1) &&& segmentAlignMask

/-- One round of the loop of `segment_create`; the bitmap is left as it is. -/
def segmentPage (page : Page) (ref : PageRef) : Page :=
  { page with
    next := none
    dataStart := segmentDataStart ref.segment + ref.index * allocPageSize
    bucket := bucketNone
    blockCount := 0
    usedCount := 0
    ownerTid := 0
    remoteFreeList := 0 }

/-- The bitmap after the loops of `page_init_for_bucket`: clear words, a last one
whose bits from the remainder on are set, and full words up to the end. -/
def initialBitmap (bitmap : Nat → BitVec 64) (blockCount : Nat) : Nat → BitVec 64 := fun i =>
  let wordsNeeded := (blockCount + 63) / 64
  let remainder := blockCount % 64
  if i < wordsNeeded then
    if i + 1 = wordsNeeded ∧ remainder ≠ 0 then ~~~ (1#64 <<< remainder - 1#64) else 0
  else if i < bitmapMaxWords then BitVec.allOnes 64 else bitmap i

/-- `(uint16_t)(ALLOC_PAGE_SIZE / block_size)`. -/
def blocksPerPage (bucket : Nat) : Nat := allocPageSize / blockSize bucket % 2 ^ 16

def pageInitForBucket (page : Page) (bucket : Nat) (ownerTid : Int) : Page :=
  let blockCount := blocksPerPage bucket
  { page with
    bucket
    blockCount
    usedCount := 0
    ownerTid
    remoteFreeList := 0
    bitmap := initialBitmap page.bitmap blockCount }

/-! ### Which blocks are marked -/

/-- Bit `i` of the bitmap. -/
def Page.marked (page : Page) (i : Nat) : Bool := (page.bitmap (i / 64)).getLsbD (i % 64)

/-- The record with another bitmap and count of used blocks: all that taking and
freeing a block changes. -/
def Page.withBitmap (page : Page) (bitmap : Nat → BitVec 64) (usedCount : Nat) : Page :=
  { page with bitmap, usedCount }

variable {page page' : Page} {block i j w : Nat}

/-- Setting one bit of one word marks one block. -/
theorem marked_or {bit : Nat} (small : bit < 64) (used : Nat) :
    (page.withBitmap (update page.bitmap w
      (page.bitmap w ||| 1#64 <<< bit)) used).marked j =
      (page.marked j || decide (j = w * 64 + bit)) := by
  rw [Page.marked, Page.withBitmap, Page.marked]
  by_cases word : j / 64 = w
  · subst w
    have same : bit = j % 64 ↔ j = j / 64 * 64 + bit := by omega
    simp [← BitVec.twoPow_eq, BitVec.getLsbD_twoPow, small, same]
  · have other : ¬ j = w * 64 + bit := by omega
    simp [word, other]

/-- Clearing one bit of one word frees one block. -/
theorem marked_and_not {index : Nat} (used : Nat) :
    (page.withBitmap (update page.bitmap (index / 64)
      (page.bitmap (index / 64) &&& ~~~ (1#64 <<< (index % 64)))) used).marked j =
      (page.marked j && decide (j ≠ index)) := by
  rw [Page.marked, Page.withBitmap, Page.marked]
  by_cases word : j / 64 = index / 64
  · have same : j % 64 = index % 64 ↔ j = index := by omega
    have small : j % 64 < 64 := Nat.mod_lt _ (by decide)
    simp [word, ← BitVec.twoPow_eq, same, small]
  · have other : j ≠ index := by
      rintro rfl
      exact word rfl
    simp [word, other]

/-- What taking a block does: a clear bit is found and set. -/
structure Takes (page page' : Page) (block i : Nat) : Prop where
  clear : page.marked i = false
  inWords : i < (page.blockCount + 63) / 64 * 64
  address : block = page.dataStart + i * blockSize page.bucket
  after : ∃ bitmap used, page' = page.withBitmap bitmap used
  marked : ∀ j, page'.marked j = (page.marked j || decide (j = i))

theorem bitmapScan_takes {n : Nat} (inside : w + n ≤ (page.blockCount + 63) / 64)
    (found : bitmapScan page w n = some (page', block)) : ∃ i, Takes page page' block i := by
  induction n generalizing w with
  | zero => cases found
  | succ n ih =>
    rw [bitmapScan] at found
    split at found
    · rename_i gap
      have nonzero : ~~~ page.bitmap w ≠ 0#64 := by
        intro zero
        apply gap
        rw [← BitVec.not_not (b := page.bitmap w), zero]
        rfl
      have clear := BitVec.getLsbD_true_ctz_of_ne_zero nonzero
      have small : (~~~ page.bitmap w).ctz.toNat < 64 := BitVec.lt_of_getLsbD clear
      generalize (~~~ page.bitmap w).ctz.toNat = bit at found clear small
      cases found
      refine ⟨w * 64 + bit, ?_, by omega, rfl, ⟨_, _, rfl⟩, fun j => marked_or small _⟩
      rw [Page.marked, show (w * 64 + bit) / 64 = w by omega,
        show (w * 64 + bit) % 64 = bit by omega]
      simpa [small] using clear
    · exact ih (by omega) found

theorem bitmapAllocateBlock_takes (found : bitmapAllocateBlock page = some (page', block)) :
    ∃ i, Takes page page' block i :=
  bitmapScan_takes (by omega) found

/-- What freeing a block does: the bit of its index is cleared. -/
theorem bitmapFreeBlock_spec (page : Page) (block : Nat) :
    ∃ bitmap used, bitmapFreeBlock page block = page.withBitmap bitmap used ∧
      ∀ j, (bitmapFreeBlock page block).marked j =
        (page.marked j && decide (j ≠ page.blockIdx block)) :=
  ⟨_, _, rfl, fun _ => marked_and_not _⟩

/-- `(1ULL << k) - 1` has the bits below `k`. -/
theorem getLsbD_low_mask {k : Nat} (small : k < 64) (i : Nat) :
    (1#64 <<< k - 1#64).getLsbD i = decide (i < k) := by
  have power : (1#64 <<< k).toNat = 2 ^ k := by
    rw [← BitVec.twoPow_eq, BitVec.toNat_twoPow_of_lt small]
  have positive : 1#64 ≤ 1#64 <<< k := by
    rw [BitVec.le_def, power]
    exact Nat.one_le_two_pow
  rw [BitVec.getLsbD, BitVec.toNat_sub_of_le positive, power]
  exact Nat.testBit_two_pow_sub_one k i

/-- A fresh page marks exactly what lies beyond its blocks. -/
theorem pageInitForBucket_marked {bucket : Nat} (owner : Int)
    (inside : i < (blocksPerPage bucket + 63) / 64 * 64) :
    (pageInitForBucket page bucket owner).marked i = decide (blocksPerPage bucket ≤ i) := by
  rw [Page.marked, pageInitForBucket]
  generalize blocksPerPage bucket = count at inside
  simp only [initialBitmap]
  rw [if_pos (by omega)]
  split
  · rename_i last
    have small : i % 64 < 64 := Nat.mod_lt _ (by decide)
    have before : i % 64 < count % 64 ↔ i < count := by omega
    rw [BitVec.getLsbD_not, getLsbD_low_mask (Nat.mod_lt count (by decide))]
    simp only [small, before, decide_true, Bool.true_and, ← decide_not, Nat.not_lt]
  · rename_i notLast
    simp
    omega

/-! ### Where blocks lie -/

/-- The first address of a page's data area. -/
def PageRef.start (p : PageRef) : Nat := segmentDataStart p.segment + p.index * allocPageSize

/-- The record of a page in an aligned segment inside the address space. -/
structure PageRef.Valid (p : PageRef) : Prop where
  aligned : segmentSize ∣ p.segment
  inRange : p.segment + segmentSize ≤ 2 ^ 64
  index : p.index < pagesPerSegment

variable {p q : PageRef} {x bucket : Nat}

theorem pagesPerSegment_eq : pagesPerSegment = 63 := rfl

/-- The data areas fill the segment from its second 64 KiB on. -/
theorem PageRef.Valid.inSegment (valid : p.Valid) :
    p.segment + allocPageSize ≤ p.start ∧ p.start + allocPageSize ≤ p.segment + segmentSize := by
  have index := valid.index
  simp only [PageRef.start, segmentDataStart, allocPageSize, segmentSize, pagesPerSegment_eq] at *
  omega

/-- Every address of a data area leads back to its page. -/
theorem pageFromPointer_eq (valid : p.Valid) (low : p.start ≤ x)
    (high : x < p.start + allocPageSize) : pageFromPointer x = p := by
  obtain ⟨⟨k, aligned⟩, inRange, index⟩ := valid
  obtain ⟨segment, idx⟩ := p
  simp only [PageRef.start, segmentDataStart, allocPageSize, segmentSize,
    pagesPerSegment_eq] at *
  subst segment
  have word : x < 2 ^ 64 := by omega
  have masked : x &&& segmentAlignMask = 4194304 * k := by
    rw [show segmentAlignMask = 2 ^ 64 - 2 ^ 22 from rfl, and_high_mask (by decide) word]
    omega
  rw [pageFromPointer, masked]
  simp only [segmentDataStart, allocPageSize]
  rw [sub64_of_le word (by omega), Nat.mod_eq_of_lt (by omega)]
  congr 1
  omega

/-- Two pages have disjoint data areas. -/
theorem start_apart (validP : p.Valid) (validQ : q.Valid) (ne : p ≠ q) :
    p.start + allocPageSize ≤ q.start ∨ q.start + allocPageSize ≤ p.start := by
  by_contra overlap
  simp only [not_or, not_le] at overlap
  -- The later of the two starts lies in both areas, so it leads back to both pages.
  have meets : ∃ x, p.start ≤ x ∧ x < p.start + allocPageSize ∧ q.start ≤ x ∧
      x < q.start + allocPageSize := by
    refine ⟨max p.start q.start, ?_⟩
    simp only [allocPageSize] at *
    omega
  obtain ⟨x, lowP, highP, lowQ, highQ⟩ := meets
  exact ne ((pageFromPointer_eq validP lowP highP).symm.trans
    (pageFromPointer_eq validQ lowQ highQ))

theorem blockSize_bounds (real : bucket < bucketCount) :
    2 * headerSize ≤ blockSize bucket ∧ blockSize bucket ≤ 4096 := by
  have all : ∀ b, b < bucketCount → 2 * headerSize ≤ blockSize b ∧ blockSize b ≤ 4096 := by decide
  exact all bucket real

/-- The blocks of a page fit in its data area. -/
theorem block_fits (real : bucket < bucketCount) (inside : i < blocksPerPage bucket) :
    i * blockSize bucket + blockSize bucket ≤ allocPageSize := by
  have size := blockSize_bounds real
  have count : i < allocPageSize / blockSize bucket :=
    Nat.lt_of_lt_of_le inside (Nat.mod_le _ _)
  calc i * blockSize bucket + blockSize bucket = (i + 1) * blockSize bucket := by
        rw [Nat.add_mul, Nat.one_mul]
    _ ≤ allocPageSize / blockSize bucket * blockSize bucket := Nat.mul_le_mul_right _ count
    _ ≤ allocPageSize := Nat.div_mul_le_self _ _

/-- The index computed from the address of a block is the index of that block. -/
theorem blockIdx_eq (real : page.bucket < bucketCount) (inside : i < blocksPerPage page.bucket)
    (word : page.dataStart + i * blockSize page.bucket < 2 ^ 64) :
    page.blockIdx (page.dataStart + i * blockSize page.bucket) = i := by
  have size := blockSize_bounds real
  have fits := block_fits real inside
  simp only [headerSize, allocPageSize] at size fits
  rw [Page.blockIdx, sub64_of_le word (Nat.le_add_right _ _), Nat.add_sub_cancel_left,
    Nat.mod_eq_of_lt (by omega), Nat.mod_eq_of_lt (by omega), Nat.mul_div_cancel _ (by omega)]

/-- Blocks of one page at different indices do not overlap. -/
theorem slot_apart (size : Nat) (ne : i ≠ j) :
    i * size + size ≤ j * size ∨ j * size + size ≤ i * size := by
  rcases Nat.lt_or_gt_of_ne ne with less | more
  · exact .inl (by simpa [Nat.add_mul] using Nat.mul_le_mul_right size less)
  · exact .inr (by simpa [Nat.add_mul] using Nat.mul_le_mul_right size more)

/-- The aligned segment lies inside the mapping it is cut from. -/
theorem segmentAligned_spec (inRange : x + 2 * segmentSize ≤ 2 ^ 64) :
    segmentSize ∣ segmentAligned x ∧ x ≤ segmentAligned x ∧
      segmentAligned x + segmentSize ≤ x + 2 * segmentSize := by
  simp only [segmentSize] at *
  have aligned : segmentAligned x = (x + 4194303) / 4194304 * 4194304 := by
    rw [segmentAligned, add64_of_lt (by simp only [segmentSize]; omega),
      show segmentAlignMask = 2 ^ 64 - 2 ^ 22 from rfl,
      and_high_mask (by decide) (by simp only [segmentSize]; omega)]
    rfl
  rw [aligned]
  exact ⟨⟨_, Nat.mul_comm _ _⟩, by omega, by omega⟩

end Lightc.Heap
