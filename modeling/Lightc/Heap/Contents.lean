import Lightc.Heap.Accounting

/-!
# What stands behind the pointers

The whole heap again, now with the bytes behind large pointers and with calls during
which the client does not write. A call of this model is a call of the one without the
bytes (`Allocate.whole`, `Free.whole`, `Reallocate.whole`), so its invariants are at
hand; what is added here is the frame: a call leaves every block alone that it was not
asked about (`Untouched`).

A block is untouched if it is still live, with the header and the room it had and with
the same bytes in all of that room.
-/

namespace Lightc.Heap.Contents

open Machine Verification Function
open Heap.Small (Allocation WorksAlone)
open Large (Mapping MapsFresh)
open Whole (MapsApart Clear Sound Exact)
open scoped List

structure State (T : Type) where
  heap : Whole.State T
  /-- Memory, as far as it belongs to large mappings. -/
  bytes : Memory

variable {T : Type}

namespace State

/-- The memory the block at `ptr` is in. -/
def memoryOf (s : State T) (ptr : Nat) : Memory :=
  if s.heap.IsLarge ptr then s.bytes else s.heap.small.memory

/-- The first `count` bytes behind a pointer. -/
def load (s : State T) (ptr count : Nat) : List UInt8 := loadBytes (s.memoryOf ptr) ptr count

/-- Bytes are written at some address inside the block at `ptr`. -/
def write (s : State T) (ptr address : Nat) (bytes : List UInt8) : State T :=
  if s.heap.IsLarge ptr then { s with bytes := storeBytes s.bytes address bytes }
  else
    { s with
      heap.small.memory := storeBytes s.heap.small.memory address bytes }

/-- `lc_bytes_copy(target, ptr, count)` from one block to another. -/
def copy (s : State T) (target ptr count : Nat) : State T :=
  s.write target target (s.load ptr count)

/-- The bytes between a pointer and the end of its block or mapping. -/
def usable (s : State T) (ptr : Nat) : Nat :=
  (s.heap.stretch ptr).start + (s.heap.stretch ptr).length - ptr

end State

/-! ### Calls -/

variable [DecidableEq T]

/-- `lc_heap_allocate(size)`. A mapping that exists keeps its bytes. -/
inductive Allocate (debug : Bool) (tid : T → Int) (t : T) (size : Nat) (s : State T) :
    State T → Option Nat → Prop
  | small {block : Nat} {after : Small.State T}
      (isSmall : findBucket (requestSize size) ≠ bucketLarge)
      (run : WorksAlone debug tid t
        (s.heap.small.setPc t (.getLocal ⟨requestSize size, isSmall⟩)) after)
      (found : after.pc t = .writeHeader ⟨requestSize size, isSmall⟩ block)
      (kernel : MapsApart after s.heap.large) :
      Allocate debug tid t size s
        { s with
          heap.small := after.handOut t ⟨requestSize size, isSmall⟩ block
          heap.stats := statTrackAlloc s.heap.stats (requestSize size) }
        (some (block + headerSize))
  | smallFailed {after : Small.State T} (isSmall : findBucket (requestSize size) ≠ bucketLarge)
      (run : WorksAlone debug tid t
        (s.heap.small.setPc t (.getLocal ⟨requestSize size, isSmall⟩)) after)
      (failed : after.pc t = .idle) (kernel : MapsApart after s.heap.large) :
      Allocate debug tid t size s { s with heap.small := after } none
  | large {mmap : Option Nat} {bytes : Memory}
      (isLarge : findBucket (requestSize size) = bucketLarge)
      (kernel : ∀ base, mmap = some base →
        MapsFresh s.heap.large base (largePages (requestSize size)) ∧
          Clear s.heap.small ⟨base, largePages (requestSize size) * lcPageSize⟩)
      (kept : ∀ m ∈ s.heap.large.mapped, ∀ x, Within m.base (m.pages * lcPageSize) x →
        bytes x = s.bytes x) :
      Allocate debug tid t size s
        ⟨(Whole.allocateLarge s.heap (requestSize size) mmap).1, bytes⟩
        (Whole.allocateLarge s.heap (requestSize size) mmap).2

/-- `lc_heap_free(ptr)`. -/
inductive Free (debug : Bool) (tid : T → Int) (t : T) (s : State T) : Nat → State T → Prop
  | null : Free debug tid t s 0 s
  | small {m : Allocation} {after : Small.State T} (live : m ∈ s.heap.small.live)
      (isSmall : (s.heap.header m.ptr).bucket ≠ bucketLarge)
      (run : WorksAlone debug tid t (s.heap.small.takeBack t m) after)
      (ended : after.pc t = .idle) (kernel : MapsApart after s.heap.large) :
      Free debug tid t s m.ptr
        { s with
          heap.small := after
          heap.stats := statTrackFree s.heap.stats (s.heap.header m.ptr).size }
  | large {ptr : Nat} {after : Large.State} (nonnull : ptr ≠ 0)
      (isLarge : (s.heap.header ptr).bucket = bucketLarge)
      (freed : Large.lcHeapFree debug s.heap.large ptr = some (after, .freed)) :
      Free debug tid t s ptr
        { s with
          heap.large := after
          heap.stats := statTrackFree s.heap.stats (s.heap.header ptr).size }

/-- `lc_heap_reallocate(ptr, new_size)`. The old size is read before anything else
happens. -/
inductive Reallocate (debug : Bool) (tid : T → Int) (t : T) (ptr newSize : Nat) (s : State T) :
    State T → Option Nat → Prop
  | null {s' : State T} {reply : Option Nat} (isNull : ptr = 0)
      (call : Allocate debug tid t newSize s s' reply) :
      Reallocate debug tid t ptr newSize s s' reply
  | zero {s' : State T} (nonnull : ptr ≠ 0) (isZero : newSize = 0)
      (call : Free debug tid t s ptr s') : Reallocate debug tid t ptr newSize s s' (some 0)
  | inPlace (nonnull : ptr ≠ 0) (nonzero : newSize ≠ 0) (fits : s.heap.FitsInPlace ptr newSize) :
      Reallocate debug tid t ptr newSize s { s with heap := s.heap.resizeInPlace ptr newSize }
        (some ptr)
  | failed {s' : State T} (nonnull : ptr ≠ 0) (nonzero : newSize ≠ 0)
      (moves : ¬ s.heap.FitsInPlace ptr newSize) (call : Allocate debug tid t newSize s s' none) :
      Reallocate debug tid t ptr newSize s s' none
  | moved {between s' : State T} {target : Nat} (nonnull : ptr ≠ 0) (nonzero : newSize ≠ 0)
      (moves : ¬ s.heap.FitsInPlace ptr newSize)
      (call : Allocate debug tid t newSize s between (some target))
      (free : Free debug tid t
        (between.copy target ptr (min (s.heap.header ptr).size newSize)) ptr s') :
      Reallocate debug tid t ptr newSize s s' (some target)

/-- One call by some thread, or a write of the client inside one of its blocks. An
`lc_heap_allocate_zeroed` that fails is an `lc_heap_allocate` that does. -/
inductive Performs (debug : Bool) (tid : T → Int) (s : State T) : State T → Prop
  | allocate {t : T} {size : Nat} {s' : State T} {reply : Option Nat}
      (call : Allocate debug tid t size s s' reply) : Performs debug tid s s'
  | allocateZeroed {t : T} {size : Nat} {s' : State T} {ptr : Nat}
      (call : Allocate debug tid t size s s' (some ptr)) :
      Performs debug tid s (s'.write ptr ptr (List.replicate size 0))
  | reallocate {t : T} {ptr newSize : Nat} {s' : State T} {reply : Option Nat}
      (legal : ptr = 0 ∨ ptr ∈ s.heap.live)
      (call : Reallocate debug tid t ptr newSize s s' reply) : Performs debug tid s s'
  | free {t : T} {ptr : Nat} {s' : State T} (legal : ptr = 0 ∨ ptr ∈ s.heap.live)
      (call : Free debug tid t s ptr s') : Performs debug tid s s'
  | write {ptr address : Nat} {bytes : List UInt8} (live : ptr ∈ s.heap.live)
      (low : ptr ≤ address) (high : address + bytes.length ≤ ptr + s.usable ptr) :
      Performs debug tid s (s.write ptr address bytes)
  | resetStats : Performs debug tid s { s with heap.stats := lcHeapResetStats s.heap.stats }

/-- An empty heap, and any call after that. -/
def system (debug : Bool) (tid : T → Int) : System (State T) where
  init s := (Whole.system debug tid).init s.heap
  step := Performs debug tid

variable {debug : Bool} {tid : T → Int} {t : T} {s s' : State T} {ptr size newSize : Nat}
variable {reply : Option Nat} {m : Allocation}

/-! ### The heap without the bytes -/

theorem Allocate.whole (call : Allocate debug tid t size s s' reply) :
    Whole.Allocate debug tid t size s.heap s'.heap reply := by
  cases call with
  | small isSmall run found kernel => exact .small isSmall run.works found kernel
  | smallFailed isSmall run failed kernel => exact .smallFailed isSmall run.works failed kernel
  | large isLarge kernel _ => exact .large isLarge kernel

theorem Free.whole (call : Free debug tid t s ptr s') :
    Whole.Free debug tid t s.heap ptr s'.heap := by
  cases call with
  | null => exact .null
  | small live isSmall run ended kernel => exact .small live isSmall run.works ended kernel
  | large nonnull isLarge freed => exact .large nonnull isLarge freed

omit [DecidableEq T] in
/-- A write from a pointer on, as the heap without the bytes sees it. -/
@[simp] theorem State.heap_write (s : State T) (ptr : Nat) (bytes : List UInt8) :
    (s.write ptr ptr bytes).heap = s.heap.store ptr bytes := by
  rw [write, Whole.State.store]
  split <;> rfl

theorem Reallocate.whole (call : Reallocate debug tid t ptr newSize s s' reply) :
    Whole.Reallocate debug tid t ptr newSize s.heap s'.heap reply := by
  cases call with
  | null isNull call => exact .null isNull call.whole
  | zero nonnull isZero call => exact .zero nonnull isZero call.whole
  | inPlace nonnull nonzero fits => exact .inPlace nonnull nonzero fits
  | failed nonnull nonzero moves call => exact .failed nonnull nonzero moves call.whole
  | moved nonnull nonzero moves call free =>
    have freed := free.whole
    rw [State.copy, State.heap_write] at freed
    exact .moved nonnull nonzero moves call.whole length_loadBytes freed

omit [DecidableEq T] in
theorem usable_small (h : Sound tid s.heap) (live : m ∈ s.heap.small.live) :
    m.ptr + s.usable m.ptr = m.block + blockSize m.bucket := by
  have room := h.small.size_fits live
  rw [State.usable, h.stretch_small live]
  simp only [Allocation.stretch, Allocation.ptr, headerSize] at room ⊢
  omega

omit [DecidableEq T] in
theorem usable_large (h : Sound tid s.heap) (live : ptr ∈ s.heap.large.live) :
    ∃ n ∈ s.heap.large.mapped, n.pointer = ptr ∧ s.heap.stretch ptr = n.stretch ∧
      ptr + s.usable ptr = n.base + n.pages * lcPageSize := by
  obtain ⟨n, mapped, rfl, same⟩ := h.stretch_large live
  refine ⟨n, mapped, rfl, same, ?_⟩
  have pages := (h.conserved.valid n mapped).2.1
  rw [State.usable, same]
  simp only [Mapping.stretch, Mapping.pointer, largeHeaderSize, largePreheaderSize, headerSize,
    lcPageSize]
  omega

theorem exact_write (h : Exact tid s.heap) (distinct : Injective tid) {address : Nat}
    {bytes : List UInt8} (live : ptr ∈ s.heap.live) (low : ptr ≤ address)
    (high : address + bytes.length ≤ ptr + s.usable ptr) :
    Exact tid (s.write ptr address bytes).heap := by
  rw [State.write]
  split
  · exact h
  · next notLarge =>
    obtain ⟨m, member, rfl⟩ := h.small_of_not_large live notLarge
    rw [usable_small h.toSound member] at high
    exact (h.write distinct member low high).toExact

theorem exact_inductive (distinct : Injective tid) :
    (system debug tid).Inductive fun s => Exact tid s.heap where
  init s start := (Whole.exact_inductive distinct).init s.heap start
  step s s' h next := by
    cases next with
    | allocate call => exact (h.allocate distinct call.whole).toExact
    | @allocateZeroed t size s' ptr call =>
      rw [State.heap_write]
      exact (h.allocateZeroed distinct (.ok call.whole)).toExact
    | reallocate legal call => exact (h.reallocate distinct legal call.whole).toExact
    | free legal call => exact (h.free distinct legal call.whole).toExact
    | write live low high => exact exact_write h distinct live low high
    | resetStats => exact h.resetStats

/-- The heap without the bytes takes the same run. -/
theorem heap_reachable (distinct : Injective tid)
    (run : (system debug tid).Reachable s) : (Whole.system debug tid).Reachable s.heap := by
  induction run with
  | init start => exact .init start
  | @step s s' run next ih =>
    have h := (exact_inductive distinct).reachable run
    cases next with
    | allocate call => exact ih.step ⟨_, .allocate call.whole⟩
    | allocateZeroed call =>
      rw [State.heap_write]
      exact ih.step ⟨_, .allocateZeroed (.ok call.whole)⟩
    | reallocate legal call => exact ih.step ⟨_, .reallocate legal call.whole⟩
    | free legal call => exact ih.step ⟨_, .free legal call.whole⟩
    | @write ptr address bytes live low high =>
      rw [State.write]
      split
      · exact ih
      · next notLarge =>
        obtain ⟨m, member, rfl⟩ := h.small_of_not_large live notLarge
        rw [usable_small h.toSound member] at high
        exact ih.step ⟨_, .write member low high⟩
    | resetStats => exact ih.step ⟨_, .resetStats⟩

/-! ### The frame -/

structure Untouched (s s' : State T) (ptr : Nat) : Prop where
  live : ptr ∈ s'.heap.live
  header : s'.heap.header ptr = s.heap.header ptr
  stretch : s'.heap.stretch ptr = s.heap.stretch ptr
  bytes : ∀ x, Within ptr (s.usable ptr) x → s'.memoryOf ptr x = s.memoryOf ptr x

omit [DecidableEq T]

namespace Untouched

theorem usable (h : Untouched s s' ptr) : s'.usable ptr = s.usable ptr := by
  rw [State.usable, h.stretch]
  rfl

theorem load (h : Untouched s s' ptr) {count : Nat} (inside : count ≤ s.usable ptr) :
    s'.load ptr count = s.load ptr count :=
  loadBytes_congr fun i less => h.bytes (ptr + i) ⟨Nat.le_add_right _ _, by omega⟩

theorem trans {s'' : State T} (first : Untouched s s' ptr) (second : Untouched s' s'' ptr) :
    Untouched s s'' ptr where
  live := second.live
  header := second.header.trans first.header
  stretch := second.stretch.trans first.stretch
  bytes x inside :=
    (second.bytes x (first.usable.symm ▸ inside)).trans (first.bytes x inside)

variable (h : Sound tid s.heap) (h' : Sound tid s'.heap)
include h h'

/-- All of a small block, header included, is as it was. -/
theorem of_small (live : m ∈ s.heap.small.live) (live' : m ∈ s'.heap.small.live)
    (bytes : ∀ x, Within m.block (blockSize m.bucket) x →
      s'.heap.small.memory x = s.heap.small.memory x) : Untouched s s' m.ptr := by
  have room := h.small.size_fits live
  have head : Small.SameHead s.heap.small.memory s'.heap.small.memory m.block := by
    intro i inHead
    refine bytes _ ⟨Nat.le_add_right _ _, ?_⟩
    simp only [Allocation.stretch, headerSize] at room inHead
    omega
  refine ⟨List.mem_append_left _ (List.mem_map_of_mem live'), ?_, ?_, ?_⟩
  · rw [h'.header_small live', h.header_small live, head.readHeader]
  · rw [h'.stretch_small live', h.stretch_small live]
  · intro x inside
    rw [State.memoryOf, if_neg (h'.not_large live'), State.memoryOf, if_neg (h.not_large live)]
    have ends := usable_small h live
    obtain ⟨low, high⟩ := inside
    refine bytes x ⟨Nat.le_trans (Nat.le_add_right _ _) low, ?_⟩
    omega

/-- The mapping of a large block is as it was. -/
theorem of_large (live : ptr ∈ s.heap.large.live) (live' : ptr ∈ s'.heap.large.live)
    (mapped : ∀ n ∈ s.heap.large.mapped, n.pointer = ptr → n ∈ s'.heap.large.mapped)
    (header : s'.heap.large.headers (ptr - largeHeaderSize) =
      s.heap.large.headers (ptr - largeHeaderSize))
    (bytes : ∀ n ∈ s.heap.large.mapped, n.pointer = ptr →
      ∀ x, Within n.base (n.pages * lcPageSize) x → s'.bytes x = s.bytes x) :
    Untouched s s' ptr := by
  obtain ⟨n, member, pointer, same, ends⟩ := usable_large h live
  obtain ⟨n', member', pointer', same', -⟩ := usable_large h' live'
  have base : n'.base = n.base := Nat.add_right_cancel (pointer'.trans pointer.symm)
  have only : n' = n := h'.conserved.mapping_unique member' (mapped n member pointer) base
  refine ⟨List.mem_append_right _ live', ?_, ?_, ?_⟩
  · rw [h'.header_large live', h.header_large live, header]
  · rw [same', same, only]
  · intro x inside
    rw [State.memoryOf, if_pos (h'.isLarge live'), State.memoryOf, if_pos (h.isLarge live)]
    obtain ⟨low, high⟩ := inside
    refine bytes n member pointer x ⟨?_, ?_⟩
    · rw [← pointer] at low
      exact Nat.le_trans (Nat.le_add_right _ _) low
    · omega

/-- A call that has nothing to do with small blocks. -/
theorem of_same_small (same : s'.heap.small = s.heap.small) (live : m ∈ s.heap.small.live) :
    Untouched s s' m.ptr :=
  .of_small h h' live (same ▸ live) fun x _ => by rw [same]

/-- A call that has nothing to do with large blocks. -/
theorem of_same_large (same : s'.heap.large = s.heap.large) (bytes : s'.bytes = s.bytes)
    (live : ptr ∈ s.heap.large.live) : Untouched s s' ptr :=
  .of_large h h' live (same ▸ live) (fun n member _ => same ▸ member) (by rw [same])
    fun _ _ _ x _ => by rw [bytes]

end Untouched

/-- A live block is a small one or a large one. -/
theorem forall_live {P : Nat → Prop} (small : ∀ m ∈ s.heap.small.live, P m.ptr)
    (large : ∀ ptr ∈ s.heap.large.live, P ptr) : ∀ ptr ∈ s.heap.live, P ptr := by
  intro ptr live
  cases List.mem_append.mp live with
  | inl isSmall =>
    obtain ⟨m, member, rfl⟩ := List.mem_map.mp isSmall
    exact small m member
  | inr isLarge => exact large ptr isLarge

/-- The recorded size of a live block fits behind its pointer. -/
theorem size_le_usable (h : Sound tid s.heap) (live : ptr ∈ s.heap.live) :
    (s.heap.header ptr).size ≤ s.usable ptr := by
  refine forall_live (P := fun ptr => (s.heap.header ptr).size ≤ s.usable ptr)
    (fun m live => ?_) (fun ptr live => ?_) ptr live
  · have ends := usable_small h live
    have fits := h.small.size_fits live
    have pointer : m.ptr = m.block + headerSize := rfl
    rw [h.header_small live]
    simp only [Allocation.stretch] at fits
    omega
  · obtain ⟨n, mapped, rfl, -, ends⟩ := usable_large h live
    have fits := h.spacious.fits n mapped live
    have pointer : n.pointer = n.base + largeHeaderSize := rfl
    rw [h.header_large live, n.pointer_sub]
    simp only [Mapping.stretch] at fits
    omega

theorem live_ne_zero (h : Sound tid s.heap) (live : ptr ∈ s.heap.live) : ptr ≠ 0 := by
  refine forall_live (P := fun ptr => ptr ≠ 0) (fun m _ => ?_) (fun ptr live => ?_) ptr live
  · exact Nat.succ_ne_zero _
  · obtain ⟨n, -, rfl⟩ := h.conserved.mapping_of_live live
    exact Nat.succ_ne_zero _

/-! ### What the calls leave alone -/

section Calls

variable [DecidableEq T]

omit [DecidableEq T] in
/-- The large path of `lc_heap_allocate`: the block comes from the cache or is a new
mapping, and no other one is written to. -/
theorem allocateLarge_frame (h : Exact tid s.heap) {mmap : Option Nat} {bytes : Memory}
    (kernel : ∀ base, mmap = some base → MapsFresh s.heap.large base (largePages size))
    (sound' : Sound tid (Whole.allocateLarge s.heap size mmap).1)
    (kept : ∀ m ∈ s.heap.large.mapped, ∀ x, Within m.base (m.pages * lcPageSize) x →
      bytes x = s.bytes x) :
    (∀ ptr ∈ s.heap.live, Untouched s ⟨(Whole.allocateLarge s.heap size mmap).1, bytes⟩ ptr) ∧
      (∀ ptr, (Whole.allocateLarge s.heap size mmap).2 = some ptr →
        (Whole.allocateLarge s.heap size mmap).1.live ~ ptr :: s.heap.live) ∧
      ((Whole.allocateLarge s.heap size mmap).2 = none →
        (Whole.allocateLarge s.heap size mmap).1.live = s.heap.live) := by
  have result := Large.allocateLarge_spec h.conserved kernel
  have bytesOf : ∀ {ptr : Nat}, ∀ n ∈ s.heap.large.mapped, n.pointer = ptr →
      ∀ x, Within n.base (n.pages * lcPageSize) x → bytes x = s.bytes x :=
    fun n member _ => kept n member
  rw [Whole.allocateLarge] at sound' ⊢
  cases result with
  | inl refused =>
    rw [refused] at sound' ⊢
    refine ⟨forall_live ?_ ?_, fun ptr answer => ?_, fun _ => rfl⟩
    · exact fun m live => .of_same_small h.toSound sound' rfl live
    · exact fun ptr live =>
        .of_large h.toSound sound' live live (fun n member _ => member) rfl bytesOf
    · cases answer
  | inr granted =>
    obtain ⟨n, after, executed, conserved, -, -, -⟩ := granted
    obtain ⟨block, pointer, handed⟩ := Large.allocateLarge_ok executed
    rw [executed] at sound' ⊢
    have nodup := conserved.live_nodup
    rw [handed.live, List.nodup_cons] at nodup
    refine ⟨forall_live ?_ ?_, ?_, fun absent => ?_⟩
    · exact fun m live => .of_same_small h.toSound sound' rfl live
    · intro ptr live
      refine .of_large h.toSound sound' live ?_ ?_ ?_ bytesOf
      · exact handed.live ▸ List.mem_cons_of_mem _ live
      · intro m member _
        cases handed.mapped with
        | inl same => exact same ▸ member
        | inr new =>
          obtain ⟨-, id, new⟩ := new
          exact new ▸ List.mem_cons_of_mem _ member
      · show after.headers _ = s.heap.large.headers _
        rw [handed.headers, update_of_ne]
        rintro rfl
        obtain ⟨m, -, rfl⟩ := h.conserved.mapping_of_live live
        rw [m.pointer_sub] at nodup
        exact nodup.1 live
    · rintro ptr ⟨⟩
      rw [Whole.State.live, Whole.State.live, pointer]
      show _ ++ after.live ~ _
      rw [handed.live]
      exact List.perm_middle
    · cases absent

/-- A call for memory leaves all live blocks alone and returns a new one, if any. -/
theorem Allocate.frame (call : Allocate debug tid t size s s' reply) (h : Exact tid s.heap)
    (distinct : Injective tid) :
    (∀ ptr ∈ s.heap.live, Untouched s s' ptr) ∧
      (∀ ptr, reply = some ptr → s'.heap.live ~ ptr :: s.heap.live) ∧
      (reply = none → s'.heap.live = s.heap.live) := by
  have sound' := (h.allocate distinct call.whole).toSound
  cases call with
  | @small block after isSmall run found kernel =>
    obtain ⟨worked, kept, -⟩ := h.small.allocates distinct isSmall (h.idle t) run.works
    have asked : Small.Step debug tid s.heap.small _ := .callAllocate (h.idle t) size isSmall
    have written : Small.Step debug tid after _ := .writeHeader found
    refine ⟨forall_live (fun m live => ?_) (fun ptr live => ?_), ?_, fun absent => ?_⟩
    · have live' : m ∈ after.live := kept.live ▸ live
      refine .of_small h.toSound sound' live (List.mem_cons_of_mem _ live') fun x inside => ?_
      have through := (h.small.step distinct asked).bytes_works distinct run live inside
      refine (worked.bytes_step written (fun still => ?_) live' inside).trans through
      have moved := (congrFun still t).symm.trans (update_self ..)
      rw [found] at moved
      cases moved
    · exact .of_same_large h.toSound sound' rfl rfl live
    · rintro ptr ⟨⟩
      rw [Whole.State.live, Whole.State.live, ← kept.live]
      exact .refl _
    · cases absent
  | smallFailed isSmall run failed kernel =>
    obtain ⟨worked, kept, -⟩ := h.small.allocates distinct isSmall (h.idle t) run.works
    have asked : Small.Step debug tid s.heap.small _ := .callAllocate (h.idle t) size isSmall
    refine ⟨forall_live (fun m live => ?_) (fun ptr live => ?_), fun ptr answer => ?_,
      fun _ => ?_⟩
    · exact .of_small h.toSound sound' live (kept.live ▸ live) fun x inside =>
        (h.small.step distinct asked).bytes_works distinct run live inside
    · exact .of_same_large h.toSound sound' rfl rfl live
    · cases answer
    · rw [Whole.State.live, kept.live]
      rfl
  | large isLarge kernel kept =>
    exact allocateLarge_frame h (fun base answer => (kernel base answer).1) sound' kept

/-- Freeing a block takes it out of the list and leaves all others alone. -/
theorem Free.frame (call : Free debug tid t s ptr s') (h : Exact tid s.heap)
    (distinct : Injective tid) (live : ptr ∈ s.heap.live) (nonnull : ptr ≠ 0) :
    (∀ q ∈ s.heap.live, q ≠ ptr → Untouched s s' q) ∧ s.heap.live ~ ptr :: s'.heap.live := by
  have sound' := (h.free distinct (.inr live) call.whole).toSound
  cases call with
  | null => exact absurd rfl nonnull
  | @small m after member isSmall run ended kernel =>
    have call : Small.Step debug tid s.heap.small (s.heap.small.takeBack t m) :=
      .callFree (h.idle t) member
    have sound := h.small.step distinct call
    have kept := (sound.works distinct run.works).kept
    refine ⟨forall_live (fun m' live' other => ?_) (fun q live' _ => ?_), ?_⟩
    · have still : m' ∈ s.heap.small.live.erase m :=
        (List.mem_erase_of_ne fun same : m' = m => other (congrArg _ same)).mpr live'
      exact .of_small h.toSound sound' live' (kept.live ▸ still) fun x inside =>
        sound.bytes_works distinct run still inside
    · exact .of_same_large h.toSound sound' rfl rfl live'
    · rw [Whole.State.live, Whole.State.live, kept.live]
      exact ((List.perm_cons_erase member).map Allocation.ptr).append_right _
  | @large _ after _ isLarge freed =>
    have isLive := h.large_of_bucket live isLarge
    have block := h.conserved.sub64_live isLive
    have taken := Large.lcHeapFree_some nonnull freed
    rw [block] at taken
    refine ⟨forall_live (fun m live' _ => ?_) (fun q live' other => ?_), ?_⟩
    · exact .of_same_small h.toSound sound' rfl live'
    · have still : q ∈ after.live :=
        taken.live ▸ (List.mem_erase_of_ne other).mpr live'
      refine .of_large h.toSound sound' live' still ?_ ?_ fun _ _ _ _ _ => rfl
      · -- The mapping of a block that is still live was not the one that was unmapped.
        intro n member pointer
        obtain ⟨n', member', pointer'⟩ := sound'.conserved.mapping_of_live still
        have base : n'.base = n.base := Nat.add_right_cancel (pointer'.trans pointer.symm)
        have only := h.conserved.mapping_unique (taken.mapped.subset member') member base
        exact only ▸ member'
      · refine Large.lcHeapFree_headers freed fun same => other ?_
        obtain ⟨n, -, rfl⟩ := h.conserved.mapping_of_live live'
        rw [n.pointer_sub] at same
        rw [← block, ← same]
        rfl
    · rw [Whole.State.live, Whole.State.live, taken.live]
      exact ((List.perm_cons_erase isLive).append_left _).trans List.perm_middle

/-- A write inside a block leaves its header and all other blocks alone. -/
theorem write_frame (h : Exact tid s.heap) (distinct : Injective tid) {address : Nat}
    {bytes : List UInt8} (live : ptr ∈ s.heap.live) (low : ptr ≤ address)
    (high : address + bytes.length ≤ ptr + s.usable ptr) :
    (∀ q ∈ s.heap.live, q ≠ ptr → Untouched s (s.write ptr address bytes) q) ∧
      (s.write ptr address bytes).heap.live = s.heap.live ∧
      (s.write ptr address bytes).heap.header ptr = s.heap.header ptr ∧
      (s.write ptr address bytes).usable ptr = s.usable ptr := by
  have sound' := (exact_write h distinct live low high).toSound
  by_cases isLarge : s.heap.IsLarge ptr
  · rw [State.write, if_pos isLarge] at sound' ⊢
    refine ⟨forall_live (fun m live' _ => ?_) (fun q live' other => ?_), rfl, rfl, rfl⟩
    · exact .of_same_small h.toSound sound' rfl live'
    · refine .of_large h.toSound sound' live' live' (fun _ member _ => member) rfl ?_
      intro n member pointer x inside
      obtain ⟨n₀, -, pointer₀, same₀, ends⟩ :=
        usable_large h.toSound (h.large_of_isLarge live isLarge)
      obtain ⟨n', member', pointer', same', -⟩ := usable_large h.toSound live'
      have base : n'.base = n.base := Nat.add_right_cancel (pointer'.trans pointer.symm)
      have only := h.conserved.mapping_unique member' member base
      have apart := h.apart_of_ne (List.mem_append_right _ live') live other
      rw [same', same₀, only] at apart
      obtain ⟨from_, to_⟩ := inside
      apply storeBytes_outside
      simp only [Stretch.Apart, Mapping.stretch, Mapping.pointer] at apart pointer₀
      omega
  · rw [State.write, if_neg isLarge] at sound' ⊢
    obtain ⟨m, member, rfl⟩ := h.small_of_not_large live isLarge
    have ends := usable_small h.toSound member
    rw [ends] at high
    have head : Small.SameHead s.heap.small.memory
        (storeBytes s.heap.small.memory address bytes) m.block := by
      intro i inHead
      apply storeBytes_outside
      simp only [Allocation.ptr, headerSize] at low inHead
      omega
    refine ⟨forall_live (fun m' live' other => ?_) (fun q live' _ => ?_), rfl, ?_, ?_⟩
    · refine .of_small h.toSound sound' live' live' fun x inside => ?_
      have apart := h.apart_of_ne (List.mem_append_left _ (List.mem_map_of_mem live')) live other
      rw [h.stretch_small member, h.stretch_small live'] at apart
      obtain ⟨from_, to_⟩ := inside
      apply storeBytes_outside
      simp only [Stretch.Apart, Allocation.stretch, Allocation.ptr, headerSize] at apart low
      omega
    · exact .of_same_large h.toSound sound' rfl rfl live'
    · rw [sound'.header_small member, h.header_small member]
      exact head.readHeader
    · rw [State.usable, State.usable, sound'.stretch_small member, h.stretch_small member]

end Calls

end Lightc.Heap.Contents
