import Lightc.Heap.Execution

/-!
# What a successful allocation owns

`find_bucket` and the large path compute with words: the class by counting leading
zeros, the total and the page count by additions that could wrap. In the range where
the guards let them be reached, all of them come out as the numbers they are meant to
be (`findBucketWord_eq`, `largeWords_eq`). A pointer that is returned then has as many
bytes behind it as were asked for, inside one block of a page or one mapping.
-/

namespace Lightc.Heap

open Machine

/-! ### The arithmetic of a request -/

/-- `find_bucket` as the machine computes it. -/
def findBucketWord (size : UInt64) : UInt32 :=
  if size > .ofNat sizeMax - .ofNat headerSize then .ofNat bucketLarge
  else
    let needed := size + .ofNat headerSize
    if needed ≤ 32 then 0
    else if needed > 4096 then .ofNat bucketLarge
    else
      let bit : UInt32 := 63 - .ofNat needed.toBitVec.clz.toNat
      let group := bit - 5
      let base := group * 4
      .ofNat (findBucketFrom needed.toNat base.toNat (bucketBlockSizes.drop base.toNat))

/-- `total` and `pages` of the large path, or none if it refuses the request. -/
def largeWords (size : UInt64) : Option (UInt64 × UInt64) :=
  if size > .ofNat sizeMax - .ofNat largeHeaderSize - (.ofNat lcPageSize - 1) then none
  else
    let total := size + .ofNat largeHeaderSize
    some (total, (total + .ofNat lcPageSize - 1) / .ofNat lcPageSize)

/-- The leading bit is the binary logarithm. -/
theorem log2_eq_clz {needed : UInt64} (positive : needed ≠ 0) :
    Nat.log2 needed.toNat = 63 - needed.toBitVec.clz.toNat := by
  have nonzero : needed.toBitVec ≠ 0#64 := fun zero => positive (UInt64.eq_of_toBitVec_eq zero)
  have low := BitVec.two_pow_sub_clz_le_toNat_of_ne_zero (by decide) nonzero
  have high := @BitVec.toNat_lt_two_pow_sub_clz _ needed.toBitVec
  have less : needed.toBitVec.clz.toNat < 64 := by
    have := BitVec.clz_lt_iff_ne_zero.mpr nonzero
    simpa [BitVec.lt_def] using this
  refine (Nat.log2_eq_iff ?_).mpr ⟨low, ?_⟩
  · exact fun zero => positive (UInt64.toNat_inj.mp zero)
  · rwa [show 63 - needed.toBitVec.clz.toNat + 1 = 64 - needed.toBitVec.clz.toNat by omega]

@[simp] theorem findBucketWord_eq (size : UInt64) :
    (findBucketWord size).toNat = findBucket size.toNat := by
  have limit : (.ofNat sizeMax - .ofNat headerSize : UInt64).toNat = sizeMax - headerSize := by
    decide
  rw [findBucketWord, findBucket]
  by_cases huge : size.toNat > sizeMax - headerSize
  · rw [if_pos huge, if_pos (UInt64.lt_iff_toNat_lt.mpr (limit ▸ huge))]
    decide
  · rw [if_neg huge, if_neg fun more => huge (limit ▸ UInt64.lt_iff_toNat_lt.mp more)]
    have sum : (size + .ofNat headerSize).toNat = size.toNat + headerSize := by
      rw [UInt64.toNat_add, Nat.mod_eq_of_lt]
      · rfl
      · simp only [sizeMax, headerSize] at huge
        show size.toNat + 16 < 2 ^ 64
        omega
    dsimp only
    rw [← sum]
    generalize size + .ofNat headerSize = needed
    by_cases tiny : needed.toNat ≤ 32
    · rw [if_pos (show needed ≤ 32 from UInt64.le_iff_toNat_le.mpr tiny), if_pos tiny]
      rfl
    · rw [if_neg fun less : needed ≤ 32 => tiny (UInt64.le_iff_toNat_le.mp less), if_neg tiny]
      by_cases large : needed.toNat > 4096
      · rw [if_pos (show needed > 4096 from UInt64.lt_iff_toNat_lt.mpr large), if_pos large]
        decide
      · rw [if_neg fun more : needed > 4096 => large (UInt64.lt_iff_toNat_lt.mp more),
          if_neg large]
        have nonzero : needed ≠ 0 := fun zero => tiny (zero ▸ Nat.zero_le 32)
        have log := log2_eq_clz nonzero
        have least : 5 ≤ Nat.log2 needed.toNat := (Nat.le_log2 (by omega)).mpr (by omega)
        -- No subtraction or product below leaves its range.
        have base : ((63 - .ofNat needed.toBitVec.clz.toNat - 5) * 4 : UInt32).toNat =
            (Nat.log2 needed.toNat - 5) * 4 := by
          have table : ∀ c, c < 59 →
              ((63 - UInt32.ofNat c - 5) * 4).toNat = (63 - c - 5) * 4 := by decide
          rw [log]
          exact table _ (by omega)
        rw [base]
        have bounded : findBucketFrom needed.toNat ((Nat.log2 needed.toNat - 5) * 4)
            (bucketBlockSizes.drop ((Nat.log2 needed.toNat - 5) * 4)) < 2 ^ 32 := by
          generalize (Nat.log2 needed.toNat - 5) * 4 = start
          rcases findBucketFrom_spec needed.toNat start (bucketBlockSizes.drop start) with
            ⟨-, none⟩ | ⟨j, inside, found, -⟩
          · rw [none]
            decide
          · rw [found]
            rw [List.length_drop, show bucketBlockSizes.length = 29 from rfl] at inside
            omega
        exact UInt32.toNat_ofNat_of_lt' bounded

/-- The sum that is rounded up never passes the end of a word, and the quotient is exact. -/
theorem largeWords_eq (size : UInt64) :
    largeWords size = if size.toNat > largeSizeLimit then none
      else some (.ofNat (size.toNat + largeHeaderSize), .ofNat (largePages size.toNat)) := by
  have limit : (.ofNat sizeMax - .ofNat largeHeaderSize - (.ofNat lcPageSize - 1) : UInt64).toNat =
      largeSizeLimit := by decide
  rw [largeWords]
  by_cases huge : size.toNat > largeSizeLimit
  · rw [if_pos huge, if_pos (UInt64.lt_iff_toNat_lt.mpr (limit ▸ huge))]
  · rw [if_neg huge, if_neg fun more => huge (limit ▸ UInt64.lt_iff_toNat_lt.mp more)]
    have small : size.toNat ≤ 2 ^ 64 - 1 - 32 - 4095 := Nat.le_of_not_lt huge
    have total : (size + .ofNat largeHeaderSize).toNat = size.toNat + largeHeaderSize := by
      rw [UInt64.toNat_add, Nat.mod_eq_of_lt]
      · rfl
      · show size.toNat + 32 < 2 ^ 64
        omega
    -- At the limit the sum of `total + LC_PAGE_SIZE` is `2 ^ 64`, and `- 1` brings it back.
    have rounded : (size + .ofNat largeHeaderSize + .ofNat lcPageSize - 1).toNat =
        size.toNat + largeHeaderSize + lcPageSize - 1 := by
      rw [UInt64.toNat_sub, UInt64.toNat_add, total]
      show (2 ^ 64 - 1 + (size.toNat + 32 + 4096) % 2 ^ 64) % 2 ^ 64 = size.toNat + 32 + 4096 - 1
      omega
    have pages := (largePages_bounds (Nat.le_of_not_lt huge)).2.2
    have sum : size + .ofNat largeHeaderSize = .ofNat (size.toNat + largeHeaderSize) := by
      rw [← total, UInt64.ofNat_toNat]
    have quotient : (size + .ofNat largeHeaderSize + .ofNat lcPageSize - 1) / .ofNat lcPageSize =
        .ofNat (largePages size.toNat) := by
      have word : largePages size.toNat < UInt64.size := by
        show largePages size.toNat < 2 ^ 64
        simp only [lcPageSize] at pages
        omega
      apply UInt64.toNat_inj.mp
      rw [UInt64.toNat_div, rounded]
      exact (UInt64.toNat_ofNat_of_lt' word).symm
    exact congrArg some (Prod.ext sum quotient)

/-- `if (size == 0) size = 1`. -/
def requestWord (size : UInt64) : UInt64 := if size = 0 then 1 else size

@[simp]
theorem requestWord_eq (size : UInt64) : (requestWord size).toNat = requestSize size.toNat := by
  rw [requestWord, requestSize]
  by_cases zero : size = 0
  · rw [if_pos zero, if_pos (zero ▸ rfl)]
    rfl
  · have nonzero : size.toNat ≠ 0 := fun same => zero (UInt64.toNat_inj.mp same)
    rw [if_neg zero, if_neg nonzero]

theorem requestSize_eq_max (size : Nat) : requestSize size = max size 1 := by
  rw [requestSize]
  split <;> omega

/-- A total that cannot be rounded up to whole pages within a word is one that is refused. -/
theorem largePages_overflow_iff (size : Nat) :
    2 ^ 64 ≤ largePages size * lcPageSize ↔ size > largeSizeLimit := by
  constructor
  · intro large
    by_contra accepted
    have := (largePages_bounds (Nat.le_of_not_lt accepted)).2.2
    omega
  · intro refused
    simp only [largePages, largeSizeLimit, sizeMax, largeHeaderSize, largePreheaderSize, headerSize,
      lcPageSize] at *
    omega

namespace Whole

open Verification
open Heap.Small (Allocation)

variable {T : Type} {debug : Bool} {tid : T → Int} {t : T} {s s' : State T} {ptr : Nat}
variable {reply : Option Nat}

/-! ### Blocks and mappings -/

/-- The pointer is followed by `count` bytes of one block of a page or of one mapping, behind
its header and apart from everything else that is live. -/
structure Owns (s : State T) (ptr count : Nat) : Prop where
  live : ptr ∈ s.live
  obtained : (∃ p i, s.small.IsBlock p i (s.stretch ptr).start ∧
      (s.stretch ptr).length = blockSize (s.small.page p).bucket) ∨
    ∃ m ∈ s.large.mapped, s.stretch ptr = m.stretch
  header : (s.stretch ptr).start + headerSize ≤ ptr
  room : ptr + count ≤ (s.stretch ptr).start + (s.stretch ptr).length
  inRange : (s.stretch ptr).start + (s.stretch ptr).length ≤ 2 ^ 64
  apart : ∀ q ∈ s.live, q ≠ ptr → (s.stretch q).Apart (s.stretch ptr)

/-- Every live block owns the bytes its header records. -/
theorem Sound.owns (h : Sound tid s) (live : ptr ∈ s.live) : Owns s ptr (s.header ptr).size := by
  have apart : ∀ q ∈ s.live, q ≠ ptr → (s.stretch q).Apart (s.stretch ptr) :=
    fun q live' ne => h.apart_of_ne live' live ne
  have inRange := (h.stretch_spec live).1
  by_cases isLarge : s.IsLarge ptr
  · have isLive := h.large_of_isLarge live isLarge
    obtain ⟨n, mapped, rfl, same⟩ := h.stretch_large isLive
    have fits := h.spacious.fits n mapped isLive
    refine ⟨live, .inr ⟨n, mapped, same⟩, ?_, ?_, inRange, apart⟩
    · rw [same]
      exact Nat.add_le_add_left (by decide) _
    · rw [same, h.header_large isLive, n.pointer_sub]
      simp only [Large.Mapping.stretch, Large.Mapping.pointer] at fits ⊢
      omega
  · obtain ⟨m, member, rfl⟩ := h.small_of_not_large live isLarge
    have same := h.stretch_small member
    have fits := h.small.size_fits member
    obtain ⟨c, held⟩ := h.small.held
    obtain ⟨p, i, block, bucket, -⟩ := held.granted m member
    refine ⟨live, .inl ⟨p, i, ?_, ?_⟩, ?_, ?_, inRange, apart⟩
    · rw [same]
      exact block
    · rw [same, bucket]
      rfl
    · rw [same]
      exact Nat.le_refl _
    · rw [same, h.header_small member]
      simp only [Allocation.stretch, Allocation.ptr] at fits ⊢
      omega

/-- A large block lies in a mapping of at least the pages that were asked for. -/
theorem allocateLarge_granted {size : Nat} {mmap : Option Nat} (h : Sound tid s)
    (kernel : ∀ base, mmap = some base → Large.MapsFresh s.large base (largePages size))
    (answer : (allocateLarge s size mmap).2 = some ptr) :
    size ≤ largeSizeLimit ∧ ptr ∈ (allocateLarge s size mmap).1.large.live ∧
      ∃ m ∈ (allocateLarge s size mmap).1.large.mapped, m.pointer = ptr ∧
        largePages size ≤ m.pages := by
  have result := Large.allocateLarge_spec h.conserved kernel
  rw [allocateLarge] at answer ⊢
  cases result with
  | inl refused =>
    rw [refused] at answer
    cases answer
  | inr granted =>
    obtain ⟨n, after, executed, -, mapped, live, enough⟩ := granted
    obtain ⟨block, -, handed⟩ := Large.allocateLarge_ok executed
    rw [executed] at answer ⊢
    cases answer
    exact ⟨handed.accepted, live, n, mapped, rfl, enough⟩

variable [DecidableEq T] {size : Nat}

/-- The header records the class of the request, and the mapping of a large one is as long as
was asked for. -/
theorem Allocate.granted (call : Allocate debug tid t size s s' reply) (h : Exact tid s)
    (distinct : Function.Injective tid) (answer : reply = some ptr) :
    (s'.header ptr).bucket = findBucket (requestSize size) ∧
      (findBucket (requestSize size) = bucketLarge → requestSize size ≤ largeSizeLimit ∧
        largePages (requestSize size) * lcPageSize ≤ (s'.stretch ptr).length) := by
  have sound' := (h.allocate distinct call).toSound
  cases call with
  | @small block after isSmall run found kernel =>
    cases answer
    have live : (⟨block, requestSize size, findBucket (requestSize size)⟩ : Allocation) ∈
        (after.handOut t ⟨requestSize size, isSmall⟩ block).live := List.mem_cons_self
    exact ⟨(sound'.bucket_small live).1, fun isLarge => absurd isLarge isSmall⟩
  | smallFailed => cases answer
  | large isLarge kernel =>
    obtain ⟨accepted, live, m, mapped, pointer, enough⟩ :=
      allocateLarge_granted h.toSound (fun base got => (kernel base got).1) answer
    refine ⟨(sound'.bucket_large live).trans isLarge.symm, fun _ => ⟨accepted, ?_⟩⟩
    obtain ⟨n, mapped', pointer', same⟩ := sound'.stretch_large live
    have only : n = m := sound'.conserved.mapping_unique mapped' mapped
      (Nat.add_right_cancel (pointer'.trans pointer.symm))
    rw [same, only]
    exact Nat.mul_le_mul_right _ enough

/-- A request that does not fit into a word with its header and the round-up is refused
before anything happens. -/
theorem Allocate.refused (call : Allocate debug tid t size s s' reply)
    (huge : requestSize size > largeSizeLimit) : reply = none ∧ s' = s := by
  have isLarge : findBucket (requestSize size) = bucketLarge :=
    findBucket_eq_large (Nat.lt_of_lt_of_le (Nat.lt_trans (by decide) huge) (Nat.le_add_right _ _))
  cases call with
  | small isSmall | smallFailed isSmall => exact absurd isLarge isSmall
  | large _ kernel =>
    rw [allocateLarge, Large.allocateLarge, if_pos huge]
    exact ⟨rfl, rfl⟩

/-- For every word: the class, the total and the page count are computed without wrapping; a
pointer that is returned owns the bytes that were asked for; small requests get the smallest
class they fit into; and a request whose total is not a word when it is rounded up to pages is
refused. -/
theorem allocate_owns_request (distinct : Function.Injective tid)
    (run : (system debug tid).Reachable s) (size : UInt64)
    (call : Allocate debug tid t size.toNat s s' reply) :
    (∀ ptr, reply = some ptr → Owns s' ptr (max size.toNat 1) ∧
      (s'.header ptr).bucket = (findBucketWord (requestWord size)).toNat) ∧
    (max size.toNat 1 + headerSize ≤ 4096 →
      IsLeast {b | b < bucketCount ∧ max size.toNat 1 + headerSize ≤ blockSize b}
        (findBucketWord (requestWord size)).toNat) ∧
    (4096 < max size.toNat 1 + headerSize →
      (findBucketWord (requestWord size)).toNat = bucketLarge ∧
      ∀ ptr, reply = some ptr → ∃ total pages, largeWords (requestWord size) = some (total, pages) ∧
        total.toNat = max size.toNat 1 + largeHeaderSize ∧
        total.toNat ≤ pages.toNat * lcPageSize ∧
        pages.toNat * lcPageSize < total.toNat + lcPageSize ∧ pages.toNat * lcPageSize < 2 ^ 64 ∧
        pages.toNat * lcPageSize ≤ (s'.stretch ptr).length) ∧
    (2 ^ 64 ≤ largePages (max size.toNat 1) * lcPageSize →
      largeWords (requestWord size) = none ∧ reply = none ∧ s' = s) := by
  have h := (exact_inductive distinct).reachable run
  have words := largeWords_eq (requestWord size)
  rw [requestWord_eq] at words
  rw [findBucketWord_eq, requestWord_eq, ← requestSize_eq_max]
  refine ⟨fun ptr answer => ?_, findBucket_isLeast, fun large => ?_, fun overflow => ?_⟩
  · obtain ⟨live, recorded⟩ := (h.allocate distinct call).newer ptr answer
    have owns := (h.allocate distinct call).toSound.owns live
    rw [recorded] at owns
    exact ⟨owns, (call.granted h distinct answer).1⟩
  · have isLarge := findBucket_eq_large large
    refine ⟨isLarge, fun ptr answer => ?_⟩
    obtain ⟨accepted, enough⟩ := (call.granted h distinct answer).2 isLarge
    obtain ⟨-, covered, word⟩ := largePages_bounds accepted
    have tight : largePages (requestSize size.toNat) * lcPageSize <
        requestSize size.toNat + largeHeaderSize + lcPageSize := by
      simp only [largePages, lcPageSize]
      omega
    have total : (UInt64.ofNat (requestSize size.toNat + largeHeaderSize)).toNat =
        requestSize size.toNat + largeHeaderSize :=
      UInt64.toNat_ofNat_of_lt' (Nat.lt_of_le_of_lt covered word)
    have pages : (UInt64.ofNat (largePages (requestSize size.toNat))).toNat =
        largePages (requestSize size.toNat) :=
      UInt64.toNat_ofNat_of_lt' (Nat.lt_of_le_of_lt (Nat.le_mul_of_pos_right _ (by decide)) word)
    rw [if_neg (Nat.not_lt_of_le accepted)] at words
    refine ⟨_, _, words, total, ?_⟩
    rw [total, pages]
    exact ⟨covered, tight, word, enough⟩
  · have huge := (largePages_overflow_iff _).mp overflow
    rw [if_pos huge] at words
    exact ⟨words, call.refused huge⟩

/-- The first block of the heap, for 24 bytes and a header of 16. -/
theorem allocate_owns_request_first :
    ∃ s', Allocate true Small.twoTids false 24 Contents.empty.heap s' (some 4259856) ∧
      Owns s' 4259856 24 ∧ (s'.header 4259856).bucket = 1 := by
  have runs : (Contents.runAllocate true Small.twoTids 4194304 32 false 24 Contents.empty).any
      (fun after => after.2 = some 4259856) = true := by decide +kernel
  obtain ⟨⟨s', reply⟩, executed, answer⟩ := (Option.any_eq_true _ _).mp runs
  cases of_decide_eq_true answer
  have call := (Contents.runAllocate_sound executed).whole
  have reachable := Contents.heap_reachable Small.twoTids_injective
    (@Contents.follow_reachable [] Contents.empty rfl)
  obtain ⟨owns, bucket⟩ := (allocate_owns_request Small.twoTids_injective reachable 24 call).1
    4259856 rfl
  exact ⟨s'.heap, call, owns, bucket.trans (by decide)⟩

end Whole

end Lightc.Heap
