import Lightc.Heap.SizeClass
import Lightc.Verification.Transition
import Mathlib.Data.List.Perm.Basic
import Mathlib.Data.List.Nodup

/-!
# Large blocks and the cache of freed mappings

A large request is a mapping of its own. Freed mappings are kept in a cache of
sixteen entries and handed out again, best fit first, also for smaller requests;
the page count a mapping was made with therefore travels in front of the block,
in the prefix word that `lc_heap_free` reads back.

The kernel is part of the state: the mappings it has given out, in `mapped`, and
the log of unmap calls. `lcFreePages` succeeds only on a whole mapping. An unmap
of anything else has no result here, so a run that comes back never made one.
-/

namespace Lightc.Heap.Large

open Machine Verification Function
open scoped List

structure CacheEntry where
  ptr : Nat
  pages : Nat
  deriving DecidableEq, Repr

def largeCacheSize : Nat := 16

/-- One mapping obtained from the kernel. Addresses are reused after an unmap,
so the serial number tells mappings apart. -/
structure Mapping where
  id : Nat
  base : Nat
  pages : Nat
  deriving DecidableEq, Repr

/-- An unmap call: the mapping it removed and the page count it was given. -/
structure Unmap where
  mapping : Mapping
  pages : Nat
  deriving DecidableEq, Repr

structure State where
  /-- The first `large_cache_count` entries of `large_cache`. -/
  cache : List CacheEntry
  /-- `*(size_t *)block`. -/
  pagesOf : Nat → Nat
  /-- The header at `block + LARGE_PREHEADER_SIZE`. -/
  headers : Nat → Header
  mapped : List Mapping
  obtained : List Mapping
  unmaps : List Unmap
  /-- Pointers returned and not yet freed. -/
  live : List Nat

inductive Call
  /-- `reply` is what `mmap` would answer, should the cache miss. -/
  | allocate (size : Nat) (reply : Option Nat)
  | free (ptr : Nat)
  deriving DecidableEq, Repr

inductive Reply
  | ok (ptr : Nat)
  | nomem
  | freed
  | exit (code : Nat)
  deriving DecidableEq, Repr

/-- The search loop of the large path over the entries from index `i` on. -/
def bestFit (pages : Nat) : List CacheEntry → Nat → Option Nat → Nat → Option Nat
  | [], _, best, _ => best
  | entry :: rest, i, best, bestPages =>
    if entry.pages ≥ pages ∧ entry.pages < bestPages then
      if entry.pages = pages then some i
      else bestFit pages rest (i + 1) (some i) entry.pages
    else bestFit pages rest (i + 1) best bestPages

/-- `large_cache[i]`. -/
def entryAt (cache : List CacheEntry) (i : Nat) : CacheEntry := cache.getD i ⟨0, 0⟩

/-- `large_cache[best] = large_cache[--large_cache_count]`. -/
def removeSwap (cache : List CacheEntry) (best : Nat) : List CacheEntry :=
  (cache.set best (entryAt cache (cache.length - 1))).dropLast

/-- `count` further rounds of the eviction loop from index `i` on. -/
def smallestFrom (cache : List CacheEntry) (smallest i : Nat) : Nat → Nat
  | 0 => smallest
  | count + 1 =>
    smallestFrom cache
      (if (entryAt cache i).pages < (entryAt cache smallest).pages then i else smallest)
      (i + 1) count

/-- `lc_allocate_pages`, with the answer of `mmap`. -/
def lcAllocatePages (s : State) (count : Nat) (reply : Option Nat) : Option Nat × State :=
  if count * lcPageSize ≥ 2 ^ 64 then (none, s)
  else
    match reply with
    | none => (none, s)
    | some base =>
      let mapping : Mapping := ⟨s.obtained.length, base, count⟩
      (some base, { s with
        mapped := mapping :: s.mapped
        obtained := mapping :: s.obtained })

/-- `lc_free_pages` of exactly one mapping. -/
def lcFreePages (s : State) (ptr count : Nat) : Option State :=
  match s.mapped.find? fun m => m.base = ptr ∧ m.pages * lcPageSize = mul64 count lcPageSize with
  | none => none
  | some m => some { s with
      mapped := s.mapped.erase m
      unmaps := ⟨m, count⟩ :: s.unmaps }

/-- The end of the large path: write the prefix and the header, return. -/
def finishAllocate (s : State) (block blockPages size : Nat) : State × Reply :=
  ({ s with
      pagesOf := update s.pagesOf block blockPages
      headers := update s.headers block ⟨size, bucketLarge, heapMagic⟩
      live := (block + largeHeaderSize) :: s.live },
    .ok (block + largeHeaderSize))

/-- The locked part of the large path: the block taken out of the cache, if any,
with the page count of its mapping. -/
def takeCached (s : State) (pages : Nat) : Option (Nat × Nat) × State :=
  match bestFit pages s.cache 0 none sizeMax with
  | none => (none, s)
  | some best =>
    (some ((entryAt s.cache best).ptr, (entryAt s.cache best).pages),
      { s with cache := removeSwap s.cache best })

/-- The rest of the large path when the cache gave nothing. -/
def allocateFresh (s : State) (pages size : Nat) (reply : Option Nat) : State × Reply :=
  match lcAllocatePages s pages reply with
  | (none, s) => (s, .nomem)
  | (some block, s) => finishAllocate s block pages size

/-- The large path of `lc_heap_allocate`, from the size check on. -/
def allocateLarge (s : State) (size : Nat) (reply : Option Nat) : State × Reply :=
  if size > largeSizeLimit then (s, .nomem)
  else
    match takeCached s (largePages size) with
    | (none, s) => allocateFresh s (largePages size) size reply
    | (some (block, blockPages), s) =>
      -- An entry with a null pointer would fall through to `lc_allocate_pages`.
      if block ≠ 0 then finishAllocate s block blockPages size
      else allocateFresh s (largePages size) size reply

/-- `lc_heap_allocate` for a request whose class is `BUCKET_LARGE`. -/
def lcHeapAllocate (s : State) (size : Nat) (reply : Option Nat) : State × Reply :=
  allocateLarge s (requestSize size) reply

/-- The large path of `lc_heap_free`, from the reading of the prefix on. -/
def freeLarge (debug : Bool) (s : State) (block : Nat) : Option State :=
  let pages := s.pagesOf block
  let s := { s with
    headers :=
      if debug then
        update s.headers block { s.headers block with magic := heapMagicFreed }
      else s.headers
    live := s.live.erase (block + largeHeaderSize) }
  if s.cache.length < largeCacheSize then some { s with cache := s.cache ++ [⟨block, pages⟩] }
  else
    let smallest := smallestFrom s.cache 0 1 (largeCacheSize - 1)
    let victim := entryAt s.cache smallest
    if pages > victim.pages then
      lcFreePages { s with cache := s.cache.set smallest ⟨block, pages⟩ } victim.ptr victim.pages
    else lcFreePages s block pages

/-- `lc_heap_free` on large blocks; `debug` is `LC_HEAP_DEBUG`. A block whose
header names a small class belongs to the other path and has no result here. -/
def lcHeapFree (debug : Bool) (s : State) (ptr : Nat) : Option (State × Reply) :=
  if ptr = 0 then some (s, .freed)
  else
    let block := sub64 ptr largeHeaderSize
    let header := s.headers block
    if debug ∧ header.magic = heapMagicFreed then some (s, .exit 134)
    else if debug ∧ header.magic ≠ heapMagic then some (s, .exit 134)
    else if header.bucket = bucketLarge then
      (freeLarge debug s block).map fun s => (s, .freed)
    else none

/-- What `mmap` promises about a new mapping: it is somewhere in the address
space, not at the null page, and disjoint from every mapping that exists. -/
structure MapsFresh (s : State) (base pages : Nat) : Prop where
  nonnull : base ≠ 0
  fits : base + pages * lcPageSize ≤ 2 ^ 64
  disjoint : ∀ m ∈ s.mapped, base + pages * lcPageSize ≤ m.base ∨
    m.base + m.pages * lcPageSize ≤ base

/-- Requests of the large class, and frees of live pointers or of `NULL`. -/
def allowed (s : State) : Call → Prop
  | .allocate size reply =>
    findBucket (requestSize size) = bucketLarge ∧
      ∀ base, reply = some base → MapsFresh s base (largePages (requestSize size))
  | .free ptr => ptr = 0 ∨ ptr ∈ s.live

def machine (debug : Bool) : Machine State Call Reply where
  init := ⟨[], fun _ => 0, fun _ => ⟨0, 0, 0⟩, [], [], [], []⟩
  allowed := allowed
  exec s
    | .allocate size reply => some (lcHeapAllocate s size reply)
    | .free ptr => lcHeapFree debug s ptr

/-! ### The loops -/

variable {pages : Nat} {cache : List CacheEntry}

/-- The search ends on an entry with enough pages, or where it started. -/
theorem bestFit_spec (entries : List CacheEntry) (i : Nat) (best : Option Nat) (bestPages : Nat) :
    bestFit pages entries i best bestPages = best ∨
      ∃ j, ∃ h : j < entries.length, bestFit pages entries i best bestPages = some (i + j) ∧
        pages ≤ entries[j].pages := by
  induction entries generalizing i best bestPages with
  | nil => exact .inl rfl
  | cons entry rest ih =>
    -- An index found in the tail is one further from `i`.
    have shift : ∀ {found : Option Nat},
        (∃ j, ∃ h : j < rest.length, found = some (i + 1 + j) ∧ pages ≤ rest[j].pages) →
        ∃ j, ∃ h : j < (entry :: rest).length, found = some (i + j) ∧
          pages ≤ (entry :: rest)[j].pages := by
      rintro found ⟨j, h, at_, enough⟩
      exact ⟨j + 1, by simpa using h, by rw [at_]; congr 1; omega, by simpa using enough⟩
    simp only [bestFit]
    split
    · next better =>
      have here : ∃ j, ∃ h : j < (entry :: rest).length, some i = some (i + j) ∧
          pages ≤ (entry :: rest)[j].pages :=
        ⟨0, by simp, rfl, by simpa using better.1⟩
      split
      · exact .inr here
      · rcases ih (i + 1) (some i) entry.pages with same | found
        · rw [same]
          exact .inr here
        · exact .inr (shift found)
    · exact (ih (i + 1) best bestPages).imp id shift

theorem bestFit_some {best : Nat} (found : bestFit pages cache 0 none sizeMax = some best) :
    ∃ h : best < cache.length, pages ≤ cache[best].pages := by
  rcases bestFit_spec cache 0 none sizeMax with missed | ⟨j, h, at_, enough⟩
  · rw [found] at missed
    cases missed
  · rw [found, Nat.zero_add] at at_
    cases at_
    exact ⟨h, enough⟩

theorem smallestFrom_lt (count smallest i : Nat) (current : smallest < cache.length)
    (rounds : i + count ≤ cache.length) :
    smallestFrom cache smallest i count < cache.length := by
  induction count generalizing smallest i with
  | zero => exact current
  | succ count ih =>
    refine ih _ (i + 1) ?_ (by omega)
    split
    · omega
    · exact current

theorem entryAt_eq {i : Nat} (h : i < cache.length) :
    entryAt cache i = cache[i] := by
  simp [entryAt, h]

/-- Overwriting with the last entry and shortening removes one entry. -/
theorem removeSwap_perm {best : Nat} (h : best < cache.length) :
    cache.Perm (cache[best] :: removeSwap cache best) := by
  obtain ⟨front, last, rfl⟩ : ∃ front last, cache = front ++ [last] :=
    ⟨_, _, (List.dropLast_append_getLast
      (List.ne_nil_of_length_pos (Nat.zero_lt_of_lt h))).symm⟩
  have lastEntry : entryAt (front ++ [last]) ((front ++ [last]).length - 1) = last := by
    simp [entryAt]
  rw [removeSwap, lastEntry]
  by_cases inFront : best < front.length
  · rw [List.set_append_left _ _ inFront, List.dropLast_concat, List.getElem_append_left inFront]
    calc front ++ [last]
        _ ~ last :: front := List.perm_append_singleton last front
        _ ~ last :: front[best] :: front.eraseIdx best :=
          (List.getElem_cons_eraseIdx_perm inFront).symm.cons last
        _ ~ front[best] :: last :: front.eraseIdx best := .swap _ _ _
        _ ~ front[best] :: front.set best last :=
          (List.set_perm_cons_eraseIdx inFront last).symm.cons _
  · have atEnd : best = front.length := by
      simp only [List.length_append, List.length_singleton] at h
      omega
    subst atEnd
    simp

/-! ### Conservation -/

/-- The user pointer of a mapping. -/
def Mapping.pointer (m : Mapping) : Nat := m.base + largeHeaderSize

/-- The user pointer an entry's mapping had. -/
def CacheEntry.pointer (entry : CacheEntry) : Nat := entry.ptr + largeHeaderSize

/-- The invariant. `hand` lists the pointers that are in the hands of a call in
progress: taken out of the cache or freshly mapped and not yet returned, or given
to `lc_heap_free` and not yet cached or unmapped. -/
structure Conserved (hand : List Nat) (s : State) : Prop where
  accounts : s.obtained.Perm (s.mapped ++ s.unmaps.map Unmap.mapping)
  serial : ∀ m ∈ s.obtained, m.id < s.obtained.length
  distinct : s.obtained.Nodup
  apart : (s.mapped.map Mapping.pointer).Nodup
  valid : ∀ m ∈ s.mapped, m.base ≠ 0 ∧ 0 < m.pages ∧ m.base + m.pages * lcPageSize ≤ 2 ^ 64
  holders : (s.mapped.map Mapping.pointer).Perm
    (hand ++ (s.live ++ s.cache.map CacheEntry.pointer))
  cacheSize : s.cache.length ≤ largeCacheSize
  cachePages : ∀ entry ∈ s.cache, ∃ m ∈ s.mapped, m.base = entry.ptr ∧ m.pages = entry.pages
  liveHeader : ∀ m ∈ s.mapped, m.pointer ∈ s.live →
    s.pagesOf m.base = m.pages ∧ (s.headers m.base).bucket = bucketLarge ∧
      (s.headers m.base).magic = heapMagic
  unmapPages : ∀ u ∈ s.unmaps, u.pages = u.mapping.pages

variable {hand : List Nat} {s t : State}

namespace Conserved

variable {m : Mapping} {pages block : Nat}

theorem mapping_unique (h : Conserved hand s) {m' : Mapping} (hm : m ∈ s.mapped)
    (hm' : m' ∈ s.mapped) (same : m.base = m'.base) : m = m' :=
  List.inj_on_of_nodup_map h.apart hm hm' (by simp [Mapping.pointer, same])

theorem holders_nodup (h : Conserved hand s) :
    (hand ++ (s.live ++ s.cache.map CacheEntry.pointer)).Nodup :=
  h.holders.nodup_iff.mp h.apart

/-- Every held pointer is the pointer of a mapping. -/
theorem mapping_of_live (h : Conserved hand s) {ptr : Nat} (held : ptr ∈ s.live) :
    ∃ m ∈ s.mapped, m.pointer = ptr := by
  have : ptr ∈ s.mapped.map Mapping.pointer :=
    h.holders.mem_iff.mpr (by simp [held])
  simpa using this

/-- The best entry leaves the cache. -/
theorem take_cache (h : Conserved [] s) {best : Nat} (inside : best < s.cache.length) :
    Conserved [s.cache[best].pointer] { s with cache := removeSwap s.cache best } := by
  have perm := removeSwap_perm inside
  refine { h with
    holders := ?_
    cacheSize := ?_
    cachePages := fun entry member =>
      h.cachePages entry (perm.mem_iff.mpr (List.mem_cons_of_mem _ member)) }
  · refine h.holders.trans ?_
    calc s.live ++ s.cache.map CacheEntry.pointer
        _ ~ s.live ++ s.cache[best].pointer ::
              (removeSwap s.cache best).map CacheEntry.pointer :=
          (perm.map CacheEntry.pointer).append_left _
        _ ~ s.cache[best].pointer ::
              (s.live ++ (removeSwap s.cache best).map CacheEntry.pointer) :=
          List.perm_middle
  · have length := perm.length_eq
    rw [List.length_cons] at length
    have := h.cacheSize
    change (removeSwap s.cache best).length ≤ largeCacheSize
    omega

/-- The kernel makes a new mapping. -/
theorem map_fresh (h : Conserved [] s) {base : Nat} (fresh : MapsFresh s base pages)
    (some_ : 0 < pages) :
    Conserved [base + largeHeaderSize] { s with
      mapped := ⟨s.obtained.length, base, pages⟩ :: s.mapped
      obtained := ⟨s.obtained.length, base, pages⟩ :: s.obtained } := by
  have newBase : ∀ m ∈ s.mapped, m.base ≠ base := by
    intro m member same
    have valid := h.valid m member
    have positive : 0 < m.pages * lcPageSize := Nat.mul_pos valid.2.1 (by decide)
    have positive' : 0 < pages * lcPageSize := Nat.mul_pos some_ (by decide)
    rcases fresh.disjoint m member with below | above <;> omega
  refine { h with
    accounts := ?_
    serial := ?_
    distinct := ?_
    apart := ?_
    valid := ?_
    holders := ?_
    cachePages := ?_
    liveHeader := ?_ }
  · simpa using h.accounts
  · intro m member
    simp only [List.length_cons]
    rcases List.mem_cons.mp member with rfl | old
    · exact Nat.lt_succ_self _
    · exact Nat.lt_succ_of_lt (h.serial m old)
  · refine List.nodup_cons.mpr ⟨fun old => ?_, h.distinct⟩
    exact Nat.lt_irrefl _ (h.serial _ old)
  · refine List.nodup_cons.mpr ⟨?_, h.apart⟩
    simp only [List.mem_map, not_exists, not_and]
    intro m member same
    exact newBase m member (by simpa [Mapping.pointer] using same)
  · intro m member
    rcases List.mem_cons.mp member with rfl | old
    · exact ⟨fresh.nonnull, some_, fresh.fits⟩
    · exact h.valid m old
  · simpa [Mapping.pointer] using h.holders
  · intro entry member
    obtain ⟨m, old, found⟩ := h.cachePages entry member
    exact ⟨m, List.mem_cons_of_mem _ old, found⟩
  · intro m member live
    rcases List.mem_cons.mp member with rfl | old
    · obtain ⟨m', old, same⟩ := h.mapping_of_live live
      exact absurd (by simpa [Mapping.pointer] using same) (newBase m' old)
    · exact h.liveHeader m old live

/-- A block in hand is returned with its page count written in front. -/
theorem hand_out {blockPages size : Nat} (h : Conserved [block + largeHeaderSize] s)
    (member : m ∈ s.mapped) (base : m.base = block) (pages : m.pages = blockPages) :
    Conserved [] (finishAllocate s block blockPages size).1 := by
  refine { h with
    holders := ?_
    liveHeader := ?_ }
  · simpa [finishAllocate] using h.holders
  · intro m' member' live
    by_cases same : m'.base = block
    · have := h.mapping_unique member' member (same.trans base.symm)
      subst this
      simp [finishAllocate, same, pages]
    · have old : m'.pointer ∈ s.live := by
        refine (List.mem_cons.mp live).resolve_left ?_
        simpa [Mapping.pointer] using same
      simpa [finishAllocate, update, same] using h.liveHeader m' member' old

/-- A live pointer comes back; in debug builds its header is poisoned. -/
theorem take_live (h : Conserved [] s) (debug : Bool) (live : block + largeHeaderSize ∈ s.live) :
    Conserved [block + largeHeaderSize] { s with
      headers :=
        if debug then
          update s.headers block { s.headers block with magic := heapMagicFreed }
        else s.headers
      live := s.live.erase (block + largeHeaderSize) } := by
  have liveNodup : s.live.Nodup := by
    have := h.holders_nodup
    rw [List.nil_append, List.nodup_append'] at this
    exact this.1
  refine { h with
    holders := ?_
    liveHeader := ?_ }
  · refine h.holders.trans ?_
    simpa using (List.perm_cons_erase live).append_right (s.cache.map CacheEntry.pointer)
  · intro m member remains
    rw [liveNodup.mem_erase_iff] at remains
    have other : m.base ≠ block := fun same => remains.1 (by simp [Mapping.pointer, same])
    have old := h.liveHeader m member remains.2
    cases debug
    · simpa using old
    · simpa [update, other] using old

variable (h : Conserved [block + largeHeaderSize] s) (member : m ∈ s.mapped) (base : m.base = block)
include h member base

theorem put_cache (count : m.pages = pages) (room : s.cache.length < largeCacheSize) :
    Conserved [] { s with cache := s.cache ++ [⟨block, pages⟩] } := by
  refine { h with
    holders := ?_
    cacheSize := by simpa using Nat.succ_le_of_lt room
    cachePages := ?_ }
  · refine h.holders.trans ?_
    calc (block + largeHeaderSize) :: (s.live ++ s.cache.map CacheEntry.pointer)
        _ ~ (s.live ++ s.cache.map CacheEntry.pointer) ++ [block + largeHeaderSize] :=
          (List.perm_append_singleton _ _).symm
        _ = s.live ++ (s.cache ++ [(⟨block, pages⟩ : CacheEntry)]).map CacheEntry.pointer := by
          simp [CacheEntry.pointer]
  · intro entry present
    rcases List.mem_append.mp present with old | new
    · exact h.cachePages entry old
    · cases List.mem_singleton.mp new
      exact ⟨m, member, base, count⟩

/-- The block in hand takes the place of a cached one. -/
theorem swap_cache (count : m.pages = pages) {i : Nat} (inside : i < s.cache.length) :
    Conserved [s.cache[i].pointer] { s with cache := s.cache.set i ⟨block, pages⟩ } := by
  refine { h with
    holders := ?_
    cacheSize := by simpa using h.cacheSize
    cachePages := ?_ }
  · have taken := (List.getElem_cons_eraseIdx_perm inside).map CacheEntry.pointer
    have put := (List.set_perm_cons_eraseIdx inside ⟨block, pages⟩).map CacheEntry.pointer
    refine h.holders.trans ?_
    calc (block + largeHeaderSize) :: (s.live ++ s.cache.map CacheEntry.pointer)
        _ ~ (block + largeHeaderSize) :: (s.live ++ s.cache[i].pointer ::
              (s.cache.eraseIdx i).map CacheEntry.pointer) :=
          (taken.symm.append_left _).cons _
        _ ~ (block + largeHeaderSize) :: s.cache[i].pointer ::
              (s.live ++ (s.cache.eraseIdx i).map CacheEntry.pointer) :=
          List.perm_middle.cons _
        _ ~ s.cache[i].pointer :: (block + largeHeaderSize) ::
              (s.live ++ (s.cache.eraseIdx i).map CacheEntry.pointer) := .swap _ _ _
        _ ~ s.cache[i].pointer :: (s.live ++ (block + largeHeaderSize) ::
              (s.cache.eraseIdx i).map CacheEntry.pointer) := List.perm_middle.symm.cons _
        _ ~ s.cache[i].pointer ::
              (s.live ++ (s.cache.set i ⟨block, pages⟩).map CacheEntry.pointer) :=
          (put.symm.append_left _).cons _
  · intro entry present
    rcases List.mem_or_eq_of_mem_set present with old | rfl
    · exact h.cachePages entry old
    · exact ⟨m, member, base, count⟩

/-- The unmap call hits exactly the mapping in hand. -/
theorem unmap (count : m.pages = pages) :
    ∃ t, lcFreePages s block pages = some t ∧ Conserved [] t ∧ t.mapped = s.mapped.erase m := by
  have valid := h.valid m member
  have whole : m.base = block ∧ m.pages * lcPageSize = mul64 pages lcPageSize := by
    refine ⟨base, ?_⟩
    rw [← count, mul64_of_lt]
    have := valid.1
    omega
  have found : s.mapped.find? (fun m => decide (m.base = block ∧
      m.pages * lcPageSize = mul64 pages lcPageSize)) = some m := by
    cases search : s.mapped.find? (fun m => decide (m.base = block ∧
        m.pages * lcPageSize = mul64 pages lcPageSize)) with
    | none =>
      have := List.find?_eq_none.mp search m member
      exact absurd (decide_eq_true whole) this
    | some m' =>
      have hit := List.find?_some search
      have same := (of_decide_eq_true hit).1
      rw [h.mapping_unique (List.mem_of_find?_eq_some search) member (same.trans base.symm)]
  have nodup : s.mapped.Nodup := List.Nodup.of_map _ h.apart
  refine ⟨_, by rw [lcFreePages, found], ?_, rfl⟩
  have perm := List.perm_cons_erase member
  have other : ∀ m' ∈ s.mapped.erase m, m' ∈ s.mapped ∧ m' ≠ m := by
    intro m' remains
    exact ⟨List.mem_of_mem_erase remains, fun same =>
      nodup.not_mem_erase (same ▸ remains)⟩
  refine { h with
    accounts := ?_
    apart := ?_
    valid := fun m' remains => h.valid m' (other m' remains).1
    holders := ?_
    cachePages := ?_
    liveHeader := fun m' remains => h.liveHeader m' (other m' remains).1
    unmapPages := ?_ }
  · refine h.accounts.trans ?_
    calc s.mapped ++ s.unmaps.map Unmap.mapping
        _ ~ m :: s.mapped.erase m ++ s.unmaps.map Unmap.mapping := perm.append_right _
        _ ~ s.mapped.erase m ++ m :: s.unmaps.map Unmap.mapping := List.perm_middle.symm
  · have := (perm.map Mapping.pointer).nodup_iff.mp h.apart
    exact (List.nodup_cons.mp this).2
  · have := (perm.map Mapping.pointer).symm.trans h.holders
    rw [List.map_cons, show m.pointer = block + largeHeaderSize by rw [← base]; rfl] at this
    exact this.cons_inv
  · intro entry present
    obtain ⟨m', found', same⟩ := h.cachePages entry present
    refine ⟨m', (List.mem_erase_of_ne ?_).mpr found', same⟩
    rintro rfl
    have twice := h.holders_nodup
    rw [List.singleton_append, List.nodup_cons] at twice
    apply twice.1
    refine List.mem_append_right _ (List.mem_map.mpr ⟨entry, present, ?_⟩)
    rw [CacheEntry.pointer, ← same.1, base]
  · intro u present
    rcases List.mem_cons.mp present with rfl | old
    · exact count.symm
    · exact h.unmapPages u old

end Conserved

/-! ### The calls keep the invariant -/

section

variable (h : Conserved [] s)
include h

theorem takeCached_spec (pages : Nat) :
    takeCached s pages = (none, s) ∨
      ∃ m ∈ s.mapped, ∃ t, takeCached s pages = (some (m.base, m.pages), t) ∧
        Conserved [m.pointer] t ∧ t.mapped = s.mapped ∧ pages ≤ m.pages := by
  cases search : bestFit pages s.cache 0 none sizeMax with
  | none => exact .inl (by rw [takeCached, search])
  | some best =>
    obtain ⟨inside, enough⟩ := bestFit_some search
    obtain ⟨m, member, base, count⟩ := h.cachePages _ (List.getElem_mem inside)
    have taken := h.take_cache inside
    rw [CacheEntry.pointer, ← base] at taken
    refine .inr ⟨m, member, _, ?_, taken, rfl, by rw [count]; exact enough⟩
    simp only [takeCached, search, base, count, entryAt_eq inside]

theorem allocateFresh_spec {size : Nat} (positive : 0 < pages)
    (inRange : pages * lcPageSize < 2 ^ 64) {mmap : Option Nat}
    (kernel : ∀ base, mmap = some base → MapsFresh s base pages) :
    allocateFresh s pages size mmap = (s, .nomem) ∨
      ∃ m t, allocateFresh s pages size mmap = (t, .ok m.pointer) ∧ Conserved [] t ∧
        m ∈ t.mapped ∧ m.pointer ∈ t.live ∧ pages = m.pages := by
  cases mmap with
  | none => exact .inl (by simp [allocateFresh, lcAllocatePages])
  | some base =>
    have fresh := h.map_fresh (kernel base rfl) positive
    rw [allocateFresh, lcAllocatePages, if_neg (Nat.not_le_of_lt inRange)]
    exact .inr ⟨⟨s.obtained.length, base, pages⟩, _, rfl,
      fresh.hand_out List.mem_cons_self rfl rfl, List.mem_cons_self, List.mem_cons_self, rfl⟩

/-- A large allocation hands out a live mapping with enough pages, or reports
`LC_ERR_NOMEM` and changes nothing. -/
theorem allocateLarge_spec {size : Nat} {mmap : Option Nat}
    (kernel : ∀ base, mmap = some base → MapsFresh s base (largePages size)) :
    allocateLarge s size mmap = (s, .nomem) ∨
      ∃ m t, allocateLarge s size mmap = (t, .ok m.pointer) ∧ Conserved [] t ∧
        m ∈ t.mapped ∧ m.pointer ∈ t.live ∧ largePages size ≤ m.pages := by
  by_cases tooBig : size > largeSizeLimit
  · exact .inl (by rw [allocateLarge, if_pos tooBig])
  obtain ⟨positive, -, inRange⟩ := largePages_bounds (Nat.le_of_not_lt tooBig)
  rw [allocateLarge, if_neg tooBig]
  rcases takeCached_spec h (largePages size) with missed | ⟨m, member, t, hit, ok, mapped, enough⟩
  · rw [missed]
    rcases allocateFresh_spec h positive inRange kernel with refused | ⟨m, t, fresh⟩
    · exact .inl refused
    · exact .inr ⟨m, t, fresh.1, fresh.2.1, fresh.2.2.1, fresh.2.2.2.1, fresh.2.2.2.2.le⟩
  · rw [hit]
    dsimp only
    rw [if_pos (h.valid m member).1]
    have still : m ∈ t.mapped := mapped ▸ member
    exact .inr ⟨m, _, rfl, ok.hand_out still rfl rfl, still, List.mem_cons_self, enough⟩

/-- From the prefix on, a free caches the block, swaps it for the smallest entry
or unmaps it; the unmap call always finds a whole mapping. -/
theorem freeLarge_spec (debug : Bool) {block : Nat} (live : block + largeHeaderSize ∈ s.live) :
    ∃ t, freeLarge debug s block = some t ∧ Conserved [] t := by
  obtain ⟨m, member, pointer⟩ := h.mapping_of_live live
  have base : m.base = block := by simpa [Mapping.pointer] using pointer
  have pages : m.pages = s.pagesOf block := by
    rw [← base]
    exact (h.liveHeader m member (pointer ▸ live)).1.symm
  have taken := h.take_live debug live
  unfold freeLarge
  dsimp only
  by_cases room : s.cache.length < largeCacheSize
  · rw [if_pos room]
    exact ⟨_, rfl, taken.put_cache member base pages room⟩
  rw [if_neg room]
  have full : s.cache.length = largeCacheSize := by
    have := h.cacheSize
    omega
  have inside : smallestFrom s.cache 0 1 (largeCacheSize - 1) < s.cache.length :=
    smallestFrom_lt _ _ _ (by rw [full]; decide) (by rw [full]; decide)
  rw [entryAt_eq inside]
  split
  · obtain ⟨victim, victimMember, victimBase, victimCount⟩ :=
      h.cachePages _ (List.getElem_mem inside)
    obtain ⟨t, unmapped, ok, _⟩ :=
      (taken.swap_cache member base pages inside).unmap victimMember victimBase victimCount
    exact ⟨t, unmapped, ok⟩
  · obtain ⟨t, unmapped, ok, _⟩ := taken.unmap member base pages
    exact ⟨t, unmapped, ok⟩

omit h in
/-- The pointer of a mapping leads back to its base. -/
theorem Conserved.sub64_pointer (h : Conserved hand s) {m : Mapping} (member : m ∈ s.mapped) :
    sub64 m.pointer largeHeaderSize = m.base := by
  have valid := h.valid m member
  have room : 1 * lcPageSize ≤ m.pages * lcPageSize := Nat.mul_le_mul_right _ valid.2.1
  have bound : m.pointer < 2 ^ 64 := by
    simp only [Mapping.pointer, largeHeaderSize, largePreheaderSize, headerSize, lcPageSize]
      at room valid ⊢
    omega
  rw [sub64_of_le bound (Nat.le_add_left _ _), Mapping.pointer, Nat.add_sub_cancel]

/-- Freeing a live pointer succeeds. -/
theorem lcHeapFree_spec (debug : Bool) {ptr : Nat} (legal : ptr = 0 ∨ ptr ∈ s.live) :
    ∃ t, lcHeapFree debug s ptr = some (t, .freed) ∧ Conserved [] t := by
  rcases legal with rfl | live
  · exact ⟨s, rfl, h⟩
  obtain ⟨m, member, rfl⟩ := h.mapping_of_live live
  obtain ⟨_, bucket, magic⟩ := h.liveHeader m member live
  have block := h.sub64_pointer member
  obtain ⟨t, freed, ok⟩ := freeLarge_spec h debug live
  refine ⟨t, ?_, ok⟩
  have nonnull : m.pointer ≠ 0 := by simp [Mapping.pointer, largeHeaderSize, headerSize]
  rw [lcHeapFree, if_neg nonnull]
  simp [block, bucket, magic, freed, heapMagic, heapMagicFreed]

omit h in
theorem conserved_init (debug : Bool) : Conserved [] (machine debug).init := by
  refine ⟨.nil, ?_, .nil, .nil, ?_, .nil, Nat.zero_le _, ?_, ?_, ?_⟩ <;>
    simp [machine]

/-- One call keeps the invariant and comes back. -/
theorem conserved_call {debug : Bool} {call : Call} (legal : allowed s call) :
    ∃ t reply, (machine debug).exec s call = some (t, reply) ∧ Conserved [] t := by
  cases call with
  | allocate size mmap =>
    rcases allocateLarge_spec h legal.2 with refused | ⟨m, t, executed, ok, _⟩
    · exact ⟨s, .nomem, congrArg some refused, h⟩
    · exact ⟨t, .ok m.pointer, congrArg some executed, ok⟩
  | free ptr =>
    obtain ⟨t, freed, ok⟩ := lcHeapFree_spec h debug legal
    exact ⟨t, .freed, freed, ok⟩

end

/-- The invariant holds after every sequence of calls. -/
theorem conserved_of_run {debug : Bool} {history : List (Call × Reply)}
    (run : (machine debug).Run history s) : Conserved [] s := by
  induction run with
  | nil => exact conserved_init debug
  | snoc _ legal answer ih =>
    obtain ⟨t, reply, executed, ok⟩ := conserved_call ih legal
    cases executed.symm.trans answer
    exact ok

/-! ### Where a mapping is -/

inductive Status
  | live
  | cached
  | unmapped
  deriving DecidableEq, Repr

/-- Where a mapping is: in a caller's hands, in the cache, or gone. -/
def State.HasStatus (s : State) (m : Mapping) : Status → Prop
  | .live => m ∈ s.mapped ∧ m.pointer ∈ s.live
  | .cached => m ∈ s.mapped ∧ m.pointer ∈ s.cache.map CacheEntry.pointer
  | .unmapped => m ∈ s.unmaps.map Unmap.mapping

namespace Conserved

theorem status_unique (h : Conserved [] s) {m : Mapping} (member : m ∈ s.obtained) :
    ∃! status, s.HasStatus m status := by
  have once := h.accounts.nodup_iff.mp h.distinct
  have holders := h.holders_nodup
  rw [List.nil_append] at holders
  have notGone : m ∈ s.mapped → m ∉ s.unmaps.map Unmap.mapping :=
    fun mapped gone => List.disjoint_of_nodup_append once mapped gone
  have notBoth : m.pointer ∈ s.live → m.pointer ∉ s.cache.map CacheEntry.pointer :=
    fun live cached => List.disjoint_of_nodup_append holders live cached
  rcases List.mem_append.mp (h.accounts.mem_iff.mp member) with mapped | gone
  · have held : m.pointer ∈ s.live ++ s.cache.map CacheEntry.pointer :=
      h.holders.mem_iff.mp (List.mem_map_of_mem mapped)
    rcases List.mem_append.mp held with live | cached
    · refine ⟨.live, ⟨mapped, live⟩, fun status has => ?_⟩
      cases status with
      | live => rfl
      | cached => exact absurd has.2 (notBoth live)
      | unmapped => exact absurd has (notGone mapped)
    · refine ⟨.cached, ⟨mapped, cached⟩, fun status has => ?_⟩
      cases status with
      | live => exact absurd cached (notBoth has.2)
      | cached => rfl
      | unmapped => exact absurd has (notGone mapped)
  · refine ⟨.unmapped, gone, fun status has => ?_⟩
    cases status with
    | live | cached => exact absurd gone (notGone has.1)
    | unmapped => rfl

/-- The entry of a cached mapping records the mapping's own page count. -/
theorem cached_pages (h : Conserved hand s) {m : Mapping} (member : m ∈ s.mapped)
    {entry : CacheEntry} (present : entry ∈ s.cache) (base : entry.ptr = m.base) :
    entry.pages = m.pages := by
  obtain ⟨m', member', base', pages'⟩ := h.cachePages entry present
  rw [← pages', h.mapping_unique member' member (base'.trans base)]

end Conserved

/-- After any sequence of large allocations and frees: every mapping ever obtained
is live, cached or unmapped, and only one of these; the cache has at most sixteen
entries; the page count recorded for a live or cached mapping is the one it was
made with; a returned block lies in a mapping with enough pages; every unmap call
removed a whole mapping, once; and no further call gets stuck. -/
theorem large_mappings_conserved {debug : Bool} {history : List (Call × Reply)}
    (run : (machine debug).Run history s) :
    (∀ m ∈ s.obtained, ∃! status, s.HasStatus m status) ∧
      s.cache.length ≤ 16 ∧
      (∀ m, s.HasStatus m .live → s.pagesOf m.base = m.pages) ∧
      (∀ m, s.HasStatus m .cached →
        ∀ entry ∈ s.cache, entry.ptr = m.base → entry.pages = m.pages) ∧
      (∀ size mmap t ptr, allowed s (.allocate size mmap) →
        (machine debug).exec s (.allocate size mmap) = some (t, .ok ptr) →
        ∃ m ∈ t.obtained, t.HasStatus m .live ∧ ptr = m.pointer ∧
          largePages (requestSize size) ≤ m.pages) ∧
      (s.unmaps.map Unmap.mapping).Nodup ∧
      (∀ u ∈ s.unmaps, u.mapping ∈ s.obtained ∧ u.pages = u.mapping.pages) ∧
      ∀ call, allowed s call → ∃ t reply, (machine debug).exec s call = some (t, reply) := by
  have h := conserved_of_run run
  refine ⟨fun m member => h.status_unique member, h.cacheSize,
    fun m has => (h.liveHeader m has.1 has.2).1,
    fun m has entry present base => h.cached_pages has.1 present base, ?_,
    List.Nodup.of_append_right (h.accounts.nodup_iff.mp h.distinct), ?_, ?_⟩
  · intro size mmap t ptr legal executed
    have executed : allocateLarge s (requestSize size) mmap = (t, .ok ptr) :=
      Option.some.inj executed
    rcases allocateLarge_spec h legal.2 with refused | ⟨m, t', answer, ok, member, live, enough⟩
    · cases refused.symm.trans executed
    · cases answer.symm.trans executed
      exact ⟨m, ok.accounts.mem_iff.mpr (List.mem_append_left _ member), ⟨member, live⟩, rfl,
        enough⟩
  · intro u present
    refine ⟨h.accounts.mem_iff.mpr (List.mem_append_right _ ?_), h.unmapPages u present⟩
    exact List.mem_map_of_mem present
  · intro call legal
    obtain ⟨t, reply, executed, _⟩ := conserved_call h legal
    exact ⟨t, reply, executed⟩

/-- A mapping of 49 pages is freed and handed out again for two pages; its recorded
count is still 49. -/
theorem large_mappings_conserved_reused :
    ∃ history s, (machine true).Run history s ∧
      history = [(.allocate 200000 (some 65536), .ok 65568), (.free 65568, .freed),
        (.allocate 5000 none, .ok 65568)] ∧
      s.obtained = [⟨0, 65536, 49⟩] ∧ largePages 5000 = 2 ∧
      (∃! status, s.HasStatus ⟨0, 65536, 49⟩ status) ∧ s.pagesOf 65536 = 49 := by
  have first := (Machine.Run.nil (M := machine true)).call (.allocate 200000 (some 65536))
    ⟨by decide, by
      rintro base ⟨⟩
      exact ⟨by decide, by decide, fun m member => nomatch member⟩⟩ rfl
  have second := first.call (.free 65568) (.inr List.mem_cons_self) rfl
  have third := second.call (.allocate 5000 none) ⟨by decide, fun _ contra => nomatch contra⟩ rfl
  have conserved := large_mappings_conserved third
  refine ⟨_, _, third, rfl, rfl, by decide, conserved.1 _ List.mem_cons_self,
    conserved.2.2.1 ⟨0, 65536, 49⟩ ⟨List.mem_cons_self, List.mem_cons_self⟩⟩

end Lightc.Heap.Large
