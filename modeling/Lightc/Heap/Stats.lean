import Lightc.Machine.Word
import Mathlib.Algebra.BigOperators.Group.List.Basic

/-!
# The heap's counters

With `LC_STATS` on, the heap counts its calls in ten 64-bit counters that wrap.
Two of them describe the present, `active_allocs` and `active_bytes`; the others
sum up the past since the last `lc_heap_reset_stats`, or keep a maximum.

What the first two should be is a matter of one list, the sizes of the blocks that
are out (`Accounted`): an allocation adds an entry, a free takes one away and a
change in place replaces one. Nothing is known of the totals but that they wrap.
Still, what they have drifted from the active bytes by never changes between two
resets (`drift`).
-/

namespace Lightc.Heap

open Machine
open scoped List

/-- The counters `stat_*`. -/
structure Stats where
  totalAllocs : Nat
  totalFrees : Nat
  totalBytesAllocated : Nat
  totalBytesFreed : Nat
  activeAllocs : Nat
  activeBytes : Nat
  peakAllocs : Nat
  peakBytes : Nat
  largeAllocs : Nat
  largeCacheHits : Nat
  deriving DecidableEq, Repr

/-- `lc_heap_stats`, as the caller gets it. -/
structure HeapStats where
  totalAllocations : Nat
  totalFrees : Nat
  totalBytesAllocated : Nat
  totalBytesFreed : Nat
  activeAllocations : Nat
  activeBytes : Nat
  peakActiveAllocations : Nat
  peakActiveBytes : Nat
  largeAllocations : Nat
  largeCacheHits : Nat
  largeCacheCount : Nat
  deriving DecidableEq, Repr

/-- All counters start at zero. -/
def noStats : Stats := ⟨0, 0, 0, 0, 0, 0, 0, 0, 0, 0⟩

/-- The compare-exchange loop on a peak. A failed exchange reloads the peak, so
with no other thread about the loop ends with the larger of the two. -/
def raisePeak (peak value : Nat) : Nat := if value > peak then value else peak

def statTrackAlloc (stats : Stats) (size : Nat) : Stats :=
  let active := add64 stats.activeAllocs 1
  let bytes := add64 stats.activeBytes size
  { stats with
    totalAllocs := add64 stats.totalAllocs 1
    totalBytesAllocated := add64 stats.totalBytesAllocated size
    activeAllocs := active
    activeBytes := bytes
    peakAllocs := raisePeak stats.peakAllocs active
    peakBytes := raisePeak stats.peakBytes bytes }

def statTrackFree (stats : Stats) (size : Nat) : Stats :=
  { stats with
    totalFrees := add64 stats.totalFrees 1
    totalBytesFreed := add64 stats.totalBytesFreed size
    activeAllocs := sub64 stats.activeAllocs 1
    activeBytes := sub64 stats.activeBytes size }

/-- The counters of the large path of `lc_heap_allocate`; `hit` tells whether the
cache had a block. -/
def countLarge (stats : Stats) (hit : Bool) : Stats :=
  { stats with
    largeCacheHits := if hit then add64 stats.largeCacheHits 1 else stats.largeCacheHits
    largeAllocs := add64 stats.largeAllocs 1 }

/-- The adjustment in `lc_heap_reallocate` for a block that stays where it is. -/
def adjustActive (stats : Stats) (oldSize newSize : Nat) : Stats :=
  if newSize > oldSize then
    { stats with
      activeBytes := add64 stats.activeBytes (newSize - oldSize)
      totalBytesAllocated := add64 stats.totalBytesAllocated (newSize - oldSize) }
  else
    { stats with
      activeBytes := sub64 stats.activeBytes (oldSize - newSize)
      totalBytesFreed := add64 stats.totalBytesFreed (oldSize - newSize) }

def lcHeapGetStats (stats : Stats) (largeCacheCount : Nat) : HeapStats where
  totalAllocations := stats.totalAllocs
  totalFrees := stats.totalFrees
  totalBytesAllocated := stats.totalBytesAllocated
  totalBytesFreed := stats.totalBytesFreed
  activeAllocations := stats.activeAllocs
  activeBytes := stats.activeBytes
  peakActiveAllocations := stats.peakAllocs
  peakActiveBytes := stats.peakBytes
  largeAllocations := stats.largeAllocs
  largeCacheHits := stats.largeCacheHits
  largeCacheCount := largeCacheCount

def lcHeapResetStats (stats : Stats) : Stats :=
  { stats with
    totalAllocs := 0
    totalFrees := 0
    totalBytesAllocated := 0
    totalBytesFreed := 0
    peakAllocs := stats.activeAllocs
    peakBytes := stats.activeBytes
    largeAllocs := 0
    largeCacheHits := 0 }

/-! ### The present -/

/-- Both the number of the blocks and the sum of their sizes are words. -/
structure Countable (sizes : List Nat) : Prop where
  length : sizes.length < 2 ^ 64
  sum : sizes.sum < 2 ^ 64

/-- The active counters describe blocks of these sizes. -/
structure Accounted (stats : Stats) (sizes : List Nat) : Prop where
  allocs : stats.activeAllocs = sizes.length
  bytes : stats.activeBytes = sizes.sum

variable {stats stats' : Stats} {sizes sizes' rest : List Nat} {size oldSize newSize : Nat}

namespace Accounted

theorem none : Accounted noStats [] := ⟨rfl, rfl⟩

variable (h : Accounted stats sizes)
include h

theorem reset : Accounted (lcHeapResetStats stats) sizes :=
  ⟨h.allocs, h.bytes⟩

theorem large (hit : Bool) : Accounted (countLarge stats hit) sizes :=
  ⟨h.allocs, h.bytes⟩

theorem alloc (added : sizes' ~ size :: sizes) (countable : Countable sizes') :
    Accounted (statTrackAlloc stats size) sizes' := by
  have length := added.length_eq
  have sum := added.sum_eq
  obtain ⟨few, small⟩ := countable
  rw [List.length_cons] at length
  rw [List.sum_cons] at sum
  constructor
  · change add64 stats.activeAllocs 1 = sizes'.length
    rw [h.allocs, length, add64_of_lt (length ▸ few)]
  · change add64 stats.activeBytes size = sizes'.sum
    rw [h.bytes, add64_of_lt (by omega)]
    omega

theorem free (removed : sizes ~ size :: sizes') (countable : Countable sizes) :
    Accounted (statTrackFree stats size) sizes' := by
  have length := removed.length_eq
  have sum := removed.sum_eq
  obtain ⟨few, small⟩ := countable
  rw [List.length_cons] at length
  rw [List.sum_cons] at sum
  constructor
  · change sub64 stats.activeAllocs 1 = sizes'.length
    rw [h.allocs, sub64_of_le few (by omega)]
    omega
  · change sub64 stats.activeBytes size = sizes'.sum
    rw [h.bytes, sub64_of_le small (by omega)]
    omega

theorem adjust (before : sizes ~ oldSize :: rest) (after : sizes' ~ newSize :: rest)
    (countable : Countable sizes) (countable' : Countable sizes') :
    Accounted (adjustActive stats oldSize newSize) sizes' := by
  have length : sizes'.length = sizes.length := by
    rw [before.length_eq, after.length_eq, List.length_cons, List.length_cons]
  have old := before.sum_eq
  have new := after.sum_eq
  rw [List.sum_cons] at old new
  have small := countable.sum
  have small' := countable'.sum
  rw [adjustActive]
  split
  · refine ⟨h.allocs.trans length.symm, ?_⟩
    change add64 stats.activeBytes (newSize - oldSize) = sizes'.sum
    rw [h.bytes, add64_of_lt (by omega)]
    omega
  · refine ⟨h.allocs.trans length.symm, ?_⟩
    change sub64 stats.activeBytes (oldSize - newSize) = sizes'.sum
    rw [h.bytes, sub64_of_le small (by omega)]
    omega

end Accounted

/-! ### The past -/

/-- `total_bytes_allocated - total_bytes_freed`. -/
def Stats.netBytes (stats : Stats) : Nat := sub64 stats.totalBytesAllocated stats.totalBytesFreed

/-- What the totals are away from the active bytes. -/
def Stats.drift (stats : Stats) : Nat := sub64 stats.netBytes stats.activeBytes

/-- The counters that are ever subtracted are words. -/
structure Stats.Words (stats : Stats) : Prop where
  freed : stats.totalBytesFreed < 2 ^ 64
  active : stats.activeBytes < 2 ^ 64

/-- Words again, and as far away from the active bytes as before. -/
structure SameDrift (stats stats' : Stats) : Prop where
  words : stats'.Words
  drift : stats'.drift = stats.drift

theorem words_noStats : noStats.Words := ⟨by decide, by decide⟩

theorem words_reset (h : stats.Words) : (lcHeapResetStats stats).Words :=
  ⟨Nat.two_pow_pos 64, h.active⟩

namespace SameDrift

theorem refl (h : stats.Words) : SameDrift stats stats := ⟨h, rfl⟩

theorem trans {last : Stats} (first : SameDrift stats stats') (second : SameDrift stats' last) :
    SameDrift stats last := ⟨second.words, second.drift.trans first.drift⟩

theorem large (h : stats.Words) (hit : Bool) : SameDrift stats (countLarge stats hit) :=
  ⟨⟨h.freed, h.active⟩, rfl⟩

theorem alloc (h : stats.Words) (size : Nat) : SameDrift stats (statTrackAlloc stats size) := by
  obtain ⟨freed, active⟩ := h
  refine ⟨⟨freed, Nat.mod_lt _ (Nat.two_pow_pos 64)⟩, ?_⟩
  simp only [Stats.drift, Stats.netBytes, statTrackAlloc, sub64, add64]
  omega

theorem free (h : stats.Words) (word : size < 2 ^ 64) :
    SameDrift stats (statTrackFree stats size) := by
  obtain ⟨freed, active⟩ := h
  have positive := Nat.two_pow_pos 64
  refine ⟨⟨Nat.mod_lt _ positive, Nat.mod_lt _ positive⟩, ?_⟩
  simp only [Stats.drift, Stats.netBytes, statTrackFree, sub64, add64]
  omega

theorem adjust (h : stats.Words) (word : oldSize < 2 ^ 64) :
    SameDrift stats (adjustActive stats oldSize newSize) := by
  obtain ⟨freed, active⟩ := h
  have positive := Nat.two_pow_pos 64
  rw [adjustActive]
  split
  · refine ⟨⟨freed, Nat.mod_lt _ positive⟩, ?_⟩
    simp only [Stats.drift, Stats.netBytes, sub64, add64]
    omega
  · refine ⟨⟨Nat.mod_lt _ positive, Nat.mod_lt _ positive⟩, ?_⟩
    simp only [Stats.drift, Stats.netBytes, sub64, add64]
    omega

/-- With the drift unchanged, the totals have moved as far as the active bytes. -/
theorem netBytes_change (h : SameDrift stats stats') (before : stats.Words) :
    sub64 stats'.netBytes stats.netBytes = sub64 stats'.activeBytes stats.activeBytes := by
  obtain ⟨after, same⟩ := h
  have word : stats.netBytes < 2 ^ 64 := Nat.mod_lt _ (Nat.two_pow_pos 64)
  have word' : stats'.netBytes < 2 ^ 64 := Nat.mod_lt _ (Nat.two_pow_pos 64)
  have active := before.active
  have active' := after.active
  simp only [Stats.drift, sub64] at same ⊢
  omega

end SameDrift

end Lightc.Heap
