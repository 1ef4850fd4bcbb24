import Lightc.Machine.Word

/-!
# Size classes and block headers

The constants and pure functions of the allocator that every other part of it
uses: the 29 small block sizes, the class of a request, and the page count of a
large one. A class is an index into the table, or one of two sentinel values.
-/

namespace Lightc.Heap

open Machine

/-- `sizeof(lc_heap_header)`: a size, a class and a magic number. -/
def headerSize : Nat := 16

def heapMagic : Nat := 0x4C434845

def heapMagicFreed : Nat := 0xDEADBEEF

def largePreheaderSize : Nat := 16

def largeHeaderSize : Nat := largePreheaderSize + headerSize

def bucketCount : Nat := 29

def bucketLarge : Nat := 0xFFFFFFFF

def bucketNone : Nat := 0xFFFFFFFE

def bucketBlockSizes : List Nat :=
  [32, 40, 48, 56,
    64, 80, 96, 112,
    128, 160, 192, 224,
    256, 320, 384, 448,
    512, 640, 768, 896,
    1024, 1280, 1536, 1792,
    2048, 2560, 3072, 3584, 4096]

/-- `bucket_block_sizes[bucket]`; read only for real classes. -/
def blockSize (bucket : Nat) : Nat := bucketBlockSizes.getD bucket 0

def lcPageSize : Nat := 4096

/-- The `for` loop of `find_bucket` over the table from `i` on. -/
def findBucketFrom (needed i : Nat) : List Nat → Nat
  | [] => bucketLarge
  | size :: rest => if needed ≤ size then i else findBucketFrom needed (i + 1) rest

/-- The class of a request. `63 - clz(needed)` is the binary logarithm. -/
def findBucket (size : Nat) : Nat :=
  if size > sizeMax - headerSize then bucketLarge
  else
    let needed := size + headerSize
    if needed ≤ 32 then 0
    else if needed > 4096 then bucketLarge
    else
      let base := (Nat.log2 needed - 5) * 4
      findBucketFrom needed base (bucketBlockSizes.drop base)

def bucketUsableSize (bucket : Nat) : Nat := blockSize bucket - headerSize

/-- The header in front of every pointer the heap returns. -/
structure Header where
  size : Nat
  bucket : Nat
  magic : Nat
  deriving DecidableEq, Repr

/-- `if (size == 0) size = 1`. -/
def requestSize (size : Nat) : Nat := if size = 0 then 1 else size

/-- The bytes behind a pointer that its header accounts for: the rest of the block
for a small class, the request itself for a large one. -/
def Header.extent (header : Header) : Nat :=
  if header.bucket = bucketLarge then header.size else bucketUsableSize header.bucket

/-- The bound above which the large path refuses a request, so that neither the
header nor the page round-up wraps. -/
def largeSizeLimit : Nat := sizeMax - largeHeaderSize - (lcPageSize - 1)

/-- `(size + LARGE_HEADER_SIZE + LC_PAGE_SIZE - 1) / LC_PAGE_SIZE`. -/
def largePages (size : Nat) : Nat := (size + largeHeaderSize + lcPageSize - 1) / lcPageSize

/-- An accepted request needs at least one page and its bytes stay in range. -/
theorem largePages_bounds {size : Nat} (accepted : size ≤ largeSizeLimit) :
    0 < largePages size ∧ size + largeHeaderSize ≤ largePages size * lcPageSize ∧
      largePages size * lcPageSize < 2 ^ 64 := by
  simp only [largePages, largeSizeLimit, sizeMax, largeHeaderSize, largePreheaderSize, headerSize,
    lcPageSize] at *
  omega

/-- The table search stops at the first class that is large enough. -/
theorem findBucketFrom_spec (needed i : Nat) (sizes : List Nat) :
    (∀ size ∈ sizes, size < needed) ∧ findBucketFrom needed i sizes = bucketLarge ∨
      ∃ j, ∃ h : j < sizes.length, findBucketFrom needed i sizes = i + j ∧ needed ≤ sizes[j] ∧
        ∀ k, ∀ below : k < j, sizes[k] < needed := by
  induction sizes generalizing i with
  | nil => exact .inl ⟨nofun, rfl⟩
  | cons size rest ih =>
    rw [findBucketFrom]
    split
    · rename_i enough
      exact .inr ⟨0, Nat.zero_lt_succ _, rfl, enough, nofun⟩
    · rename_i short
      have short : size < needed := Nat.lt_of_not_le short
      refine (ih (i + 1)).imp (fun none => ?_) ?_
      · exact ⟨List.forall_mem_cons.mpr ⟨short, none.1⟩, none.2⟩
      · rintro ⟨j, h, found, enough, first⟩
        refine ⟨j + 1, Nat.succ_lt_succ h, by omega, enough, fun k below => ?_⟩
        cases k with
        | zero => exact short
        | succ k => exact first k (Nat.lt_of_succ_lt_succ below)

/-- The classes before the one the leading bit points at are too small. -/
theorem blockSize_lt_of_log2 {needed b : Nat} (low : 32 < needed) (high : needed ≤ 4096)
    (below : b < (Nat.log2 needed - 5) * 4) : blockSize b < needed := by
  have least : 5 ≤ Nat.log2 needed := (Nat.le_log2 (by omega)).mpr (by omega)
  have most : Nat.log2 needed ≤ 12 := by
    have := Nat.log2_lt (n := needed) (k := 13) (by omega)
    omega
  have power : 2 ^ Nat.log2 needed ≤ needed := Nat.log2_self_le (by omega)
  have table : ∀ g, g < 8 → ∀ b, b < g * 4 → blockSize b < 2 ^ (g + 5) := by decide
  have small := table (Nat.log2 needed - 5) (by omega) b below
  rw [Nat.sub_add_cancel least] at small
  omega

/-- A request that fits into the largest class gets the smallest one it fits into. -/
theorem findBucket_isLeast {size : Nat} (small : size + headerSize ≤ 4096) :
    IsLeast {b | b < bucketCount ∧ size + headerSize ≤ blockSize b} (findBucket size) := by
  have word : ¬ size > sizeMax - headerSize := by
    simp only [sizeMax, headerSize] at small ⊢
    omega
  rw [findBucket, if_neg word]
  dsimp only
  split
  · rename_i tiny
    exact ⟨⟨by decide, tiny⟩, fun _ _ => Nat.zero_le _⟩
  · rename_i more
    rw [if_neg (Nat.not_lt_of_le small)]
    have before := fun b => blockSize_lt_of_log2 (b := b) (Nat.lt_of_not_le more) small
    generalize (Nat.log2 (size + headerSize) - 5) * 4 = base at before
    have inside : ∀ {j}, j < (bucketBlockSizes.drop base).length →
        base + j < bucketBlockSizes.length := by
      intro j h
      rw [List.length_drop] at h
      omega
    have entry : ∀ {j} (h : j < (bucketBlockSizes.drop base).length),
        (bucketBlockSizes.drop base)[j] = blockSize (base + j) := by
      intro j h
      rw [List.getElem_drop]
      simp [blockSize, inside h]
    rcases findBucketFrom_spec (size + headerSize) base (bucketBlockSizes.drop base) with
      ⟨none, _⟩ | ⟨j, h, found, enough, first⟩
    · -- The last entry of the table is large enough for everything that comes here.
      exfalso
      have last : 28 < base := by
        by_contra reached
        have h : 28 - base < (bucketBlockSizes.drop base).length := by
          rw [List.length_drop]
          exact Nat.sub_lt_sub_right (Nat.le_of_not_lt reached) (by decide)
        have short := none _ (List.getElem_mem h)
        rw [entry h, Nat.add_sub_of_le (Nat.le_of_not_lt reached)] at short
        exact Nat.not_lt_of_le small short
      exact Nat.not_lt_of_le small (before 28 last)
    · rw [found]
      refine ⟨⟨inside h, (entry h) ▸ enough⟩, fun b fits => ?_⟩
      by_contra below
      by_cases early : b < base
      · exact Nat.not_le_of_lt (before b early) fits.2
      · have near : b - base < j := by omega
        have short := first (b - base) near
        rw [entry (Nat.lt_trans near h), Nat.add_sub_of_le (Nat.le_of_not_lt early)] at short
        exact Nat.not_le_of_lt short fits.2

theorem findBucket_eq_large {size : Nat} (large : 4096 < size + headerSize) :
    findBucket size = bucketLarge := by
  rw [findBucket]
  split
  · rfl
  · dsimp only
    rw [if_neg (by omega), if_pos large]

/-- A request that is not large fits in the block of its class. -/
theorem findBucket_spec (size : Nat) :
    findBucket size = bucketLarge ∨
      findBucket size < bucketCount ∧ size + headerSize ≤ blockSize (findBucket size) := by
  by_cases small : size + headerSize ≤ 4096
  · exact .inr (findBucket_isLeast small).1
  · exact .inl (findBucket_eq_large (Nat.lt_of_not_le small))

theorem blockSize_le (bucket : Nat) : blockSize bucket ≤ 4096 := by
  by_cases real : bucket < bucketCount
  · have all : ∀ b, b < bucketCount → blockSize b ≤ 4096 := by decide
    exact all bucket real
  · rw [blockSize, List.getD_eq_getElem?_getD, List.getElem?_eq_none (Nat.le_of_not_lt real)]
    exact Nat.zero_le _

theorem bucketUsableSize_le (bucket : Nat) : bucketUsableSize bucket ≤ 4096 :=
  Nat.le_trans (Nat.sub_le _ _) (blockSize_le bucket)

/-- The extent of a fresh header covers the request. -/
theorem le_extent (size : Nat) (magic : Nat) :
    size ≤ (Header.mk size (findBucket size) magic).extent := by
  rw [Header.extent]
  split
  · exact Nat.le_refl _
  · rename_i small
    have := ((findBucket_spec size).resolve_left small).2
    rw [bucketUsableSize]
    exact Nat.le_sub_of_add_le this

end Lightc.Heap
