import Lightc.Heap.Stats
import Lightc.Heap.Small.Calls
import Lightc.Heap.Large.Space

/-!
# The whole heap, one call after another

`lc_heap_allocate` and its companions as the caller sees them, with `LC_STATS` on:
small blocks from the pages of the calling thread, large ones from mappings and the
cache, and the counters over both. Calls come one at a time, from any thread.

A call is a relation, since the kernel has a say in it. Any call for memory may
fail, and the small heap's part of a call is a run of its own steps. What the
kernel promises is that no mapping it makes overlaps another. The header in front
of a pointer is read where the two halves of the model keep it. What stands behind
a pointer is of no concern to the heap, and behind a large one it is not kept.
-/

namespace Lightc.Heap.Whole

open Machine Verification
open Heap.Small (Allocation Works)
open Large (Mapping MapsFresh)

structure State (T : Type) where
  small : Small.State T
  large : Large.State
  stats : Stats

variable {T : Type}

namespace State

/-- The pointers that were returned and not yet freed. -/
def live (s : State T) : List Nat := s.small.live.map Allocation.ptr ++ s.large.live

/-- The pointer lies in a large mapping. -/
def IsLarge (s : State T) (ptr : Nat) : Prop := ptr ∈ s.large.mapped.map Mapping.pointer

instance (s : State T) (ptr : Nat) : Decidable (s.IsLarge ptr) :=
  List.instDecidableMemOfLawfulBEq ..

/-- `(lc_heap_header *)((uint8_t *)ptr - HEADER_SIZE)`. -/
def header (s : State T) (ptr : Nat) : Header :=
  if s.IsLarge ptr then s.large.headers (ptr - largeHeaderSize)
  else Small.readHeader s.small.memory (ptr - headerSize)

/-- Bytes written behind a pointer. -/
def store (s : State T) (ptr : Nat) (bytes : List UInt8) : State T :=
  if s.IsLarge ptr then s
  else { s with small := { s.small with memory := storeBytes s.small.memory ptr bytes } }

/-- The sizes recorded in the headers of the live blocks. -/
def sizes (s : State T) : List Nat := s.live.map fun ptr => (s.header ptr).size

/-- `lc_heap_get_stats`. -/
def getStats (s : State T) : HeapStats := lcHeapGetStats s.stats s.large.cache.length

end State

/-- The segments lie apart from these addresses. -/
def Clear (small : Small.State T) (addresses : Stretch) : Prop :=
  ∀ seg ∈ small.allSegments, (Stretch.mk seg segmentSize).Apart addresses

/-- The segments lie apart from the large mappings. -/
def MapsApart (small : Small.State T) (large : Large.State) : Prop :=
  ∀ m ∈ large.mapped, Clear small m.stretch

/-! ### Allocating -/

/-- `large_cache_hits` is counted: the cache had a block, and not a null one. -/
def cacheHit (large : Large.State) (size : Nat) : Bool :=
  match (Large.takeCached large (largePages size)).1 with
  | some (block, _) => block ≠ 0
  | none => false

/-- The large path of `lc_heap_allocate`, with the answer of `mmap`. -/
def allocateLarge (s : State T) (size : Nat) (mmap : Option Nat) : State T × Option Nat :=
  match Large.allocateLarge s.large size mmap with
  | (large, .ok ptr) =>
    ({ s with
        large := large
        stats := statTrackAlloc (countLarge s.stats (cacheHit s.large size)) size },
      some ptr)
  | (large, _) => ({ s with large := large }, none)

variable [DecidableEq T]

/-- `lc_heap_allocate(size)` by thread `t`, with the pointer it returns, or none
for `LC_ERR_NOMEM`. -/
inductive Allocate (debug : Bool) (tid : T → Int) (t : T) (size : Nat) (s : State T) :
    State T → Option Nat → Prop
  | small {block : Nat} {after : Small.State T}
      (isSmall : findBucket (requestSize size) ≠ bucketLarge)
      (run : Works debug tid t (s.small.setPc t (.getLocal ⟨requestSize size, isSmall⟩)) after)
      (found : after.pc t = .writeHeader ⟨requestSize size, isSmall⟩ block)
      (kernel : MapsApart after s.large) :
      Allocate debug tid t size s
        { s with
          small := after.handOut t ⟨requestSize size, isSmall⟩ block
          stats := statTrackAlloc s.stats (requestSize size) }
        (some (block + headerSize))
  | smallFailed {after : Small.State T} (isSmall : findBucket (requestSize size) ≠ bucketLarge)
      (run : Works debug tid t (s.small.setPc t (.getLocal ⟨requestSize size, isSmall⟩)) after)
      (failed : after.pc t = .idle) (kernel : MapsApart after s.large) :
      Allocate debug tid t size s { s with small := after } none
  | large {mmap : Option Nat} (isLarge : findBucket (requestSize size) = bucketLarge)
      (kernel : ∀ base, mmap = some base →
        MapsFresh s.large base (largePages (requestSize size)) ∧
          Clear s.small ⟨base, largePages (requestSize size) * lcPageSize⟩) :
      Allocate debug tid t size s (allocateLarge s (requestSize size) mmap).1
        (allocateLarge s (requestSize size) mmap).2

/-- `lc_heap_allocate_zeroed(size)`. -/
inductive AllocateZeroed (debug : Bool) (tid : T → Int) (t : T) (size : Nat) (s : State T) :
    State T → Option Nat → Prop
  | ok {s' : State T} {ptr : Nat} (call : Allocate debug tid t size s s' (some ptr)) :
      AllocateZeroed debug tid t size s (s'.store ptr (List.replicate size 0)) (some ptr)
  | failed {s' : State T} (call : Allocate debug tid t size s s' none) :
      AllocateZeroed debug tid t size s s' none

/-! ### Freeing -/

/-- `lc_heap_free(ptr)` by thread `t`. The counters come first, from the size the
header has then. -/
inductive Free (debug : Bool) (tid : T → Int) (t : T) (s : State T) : Nat → State T → Prop
  | null : Free debug tid t s 0 s
  | small {m : Allocation} {after : Small.State T} (live : m ∈ s.small.live)
      (isSmall : (s.header m.ptr).bucket ≠ bucketLarge)
      (run : Works debug tid t (s.small.takeBack t m) after) (ended : after.pc t = .idle)
      (kernel : MapsApart after s.large) :
      Free debug tid t s m.ptr
        { s with
          small := after
          stats := statTrackFree s.stats (s.header m.ptr).size }
  | large {ptr : Nat} {after : Large.State} (nonnull : ptr ≠ 0)
      (isLarge : (s.header ptr).bucket = bucketLarge)
      (freed : Large.lcHeapFree debug s.large ptr = some (after, .freed)) :
      Free debug tid t s ptr
        { s with
          large := after
          stats := statTrackFree s.stats (s.header ptr).size }

/-! ### Reallocating -/

/-- The block is a small one and the new size fits where it is. -/
def State.FitsInPlace (s : State T) (ptr newSize : Nat) : Prop :=
  (s.header ptr).bucket ≠ bucketLarge ∧ newSize ≤ bucketUsableSize (s.header ptr).bucket

/-- The counters are adjusted and `header->size` is overwritten. -/
def State.resizeInPlace (s : State T) (ptr newSize : Nat) : State T :=
  { s with
    small := s.small.resize (ptr - headerSize) newSize
    stats := adjustActive s.stats (s.header ptr).size newSize }

/-- `lc_heap_reallocate(ptr, new_size)` by thread `t`. -/
inductive Reallocate (debug : Bool) (tid : T → Int) (t : T) (ptr newSize : Nat) (s : State T) :
    State T → Option Nat → Prop
  | null {s' : State T} {reply : Option Nat} (isNull : ptr = 0)
      (call : Allocate debug tid t newSize s s' reply) :
      Reallocate debug tid t ptr newSize s s' reply
  | zero {s' : State T} (nonnull : ptr ≠ 0) (isZero : newSize = 0)
      (call : Free debug tid t s ptr s') : Reallocate debug tid t ptr newSize s s' (some 0)
  | inPlace (nonnull : ptr ≠ 0) (nonzero : newSize ≠ 0) (fits : s.FitsInPlace ptr newSize) :
      Reallocate debug tid t ptr newSize s (s.resizeInPlace ptr newSize) (some ptr)
  | failed {s' : State T} (nonnull : ptr ≠ 0) (nonzero : newSize ≠ 0)
      (moves : ¬ s.FitsInPlace ptr newSize) (call : Allocate debug tid t newSize s s' none) :
      Reallocate debug tid t ptr newSize s s' none
  | moved {between s' : State T} {target : Nat} {bytes : List UInt8} (nonnull : ptr ≠ 0)
      (nonzero : newSize ≠ 0) (moves : ¬ s.FitsInPlace ptr newSize)
      (call : Allocate debug tid t newSize s between (some target))
      (copied : bytes.length = min (s.header ptr).size newSize)
      (free : Free debug tid t (between.store target bytes) ptr s') :
      Reallocate debug tid t ptr newSize s s' (some target)

/-! ### Sequences of calls -/

inductive Call
  | allocate (size : Nat)
  | allocateZeroed (size : Nat)
  | reallocate (ptr newSize : Nat)
  | free (ptr : Nat)
  | resetStats
  /-- The client writes behind a pointer it has. -/
  | write (address : Nat) (bytes : List UInt8)
  deriving DecidableEq

/-- One call by some thread. Only live pointers, or `NULL`, are freed or
reallocated, and the client stays inside its blocks. -/
inductive Performs (debug : Bool) (tid : T → Int) (s : State T) : Call → State T → Prop
  | allocate {t : T} {size : Nat} {s' : State T} {reply : Option Nat}
      (call : Allocate debug tid t size s s' reply) : Performs debug tid s (.allocate size) s'
  | allocateZeroed {t : T} {size : Nat} {s' : State T} {reply : Option Nat}
      (call : AllocateZeroed debug tid t size s s' reply) :
      Performs debug tid s (.allocateZeroed size) s'
  | reallocate {t : T} {ptr newSize : Nat} {s' : State T} {reply : Option Nat}
      (legal : ptr = 0 ∨ ptr ∈ s.live) (call : Reallocate debug tid t ptr newSize s s' reply) :
      Performs debug tid s (.reallocate ptr newSize) s'
  | free {t : T} {ptr : Nat} {s' : State T} (legal : ptr = 0 ∨ ptr ∈ s.live)
      (call : Free debug tid t s ptr s') : Performs debug tid s (.free ptr) s'
  | resetStats : Performs debug tid s .resetStats { s with stats := lcHeapResetStats s.stats }
  | write {m : Allocation} {address : Nat} {bytes : List UInt8} (live : m ∈ s.small.live)
      (low : m.ptr ≤ address)
      (high : address + bytes.length ≤ m.block + blockSize m.bucket) :
      Performs debug tid s (.write address bytes)
        { s with small := { s.small with memory := storeBytes s.small.memory address bytes } }

/-- An empty heap with all counters at zero, and any call after that. -/
def system (debug : Bool) (tid : T → Int) : System (State T) where
  init s := (Small.system debug tid).init s.small ∧ s.large = (Large.machine debug).init ∧
    s.stats = noStats
  step s s' := ∃ call, Performs debug tid s call s'

/-- Any number of calls other than `lc_heap_reset_stats`. -/
def WithoutReset (debug : Bool) (tid : T → Int) : State T → State T → Prop :=
  Relation.ReflTransGen fun s s' => ∃ call, call ≠ .resetStats ∧ Performs debug tid s call s'

end Lightc.Heap.Whole
