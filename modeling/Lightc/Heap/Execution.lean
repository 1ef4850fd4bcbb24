import Lightc.Heap.Contents

/-!
# The heap as a program

Calls as functions, for a kernel that maps at `addr` whenever it is asked for memory and
may do so, and refuses otherwise. A call has a result here if it ends within `fuel` steps.
-/

namespace Lightc.Heap.Contents

open Machine Verification
open Heap.Small (Allocation)
open Large (MapsFresh)
open Whole (MapsApart Clear)

variable {T : Type} {debug : Bool} {tid : T → Int} {addr fuel : Nat} {t : T} {s s' : State T}
variable {ptr size newSize : Nat} {reply : Option Nat}

instance (a b : Stretch) : Decidable (a.Apart b) :=
  inferInstanceAs (Decidable (a.start + a.length ≤ b.start ∨ b.start + b.length ≤ a.start))

instance (small : Small.State T) (addresses : Stretch) : Decidable (Clear small addresses) :=
  inferInstanceAs (Decidable (∀ seg ∈ small.allSegments,
    (Stretch.mk seg segmentSize).Apart addresses))

instance (small : Small.State T) (large : Large.State) : Decidable (MapsApart small large) :=
  inferInstanceAs (Decidable (∀ m ∈ large.mapped, Clear small m.stretch))

instance (large : Large.State) (base pages : Nat) : Decidable (MapsFresh large base pages) :=
  decidable_of_iff (base ≠ 0 ∧ base + pages * lcPageSize ≤ 2 ^ 64 ∧
    ∀ m ∈ large.mapped, base + pages * lcPageSize ≤ m.base ∨
      m.base + m.pages * lcPageSize ≤ base)
    ⟨fun h => ⟨h.1, h.2.1, h.2.2⟩, fun h => ⟨h.nonnull, h.fits, h.disjoint⟩⟩

instance (s : Whole.State T) (ptr newSize : Nat) : Decidable (s.FitsInPlace ptr newSize) :=
  inferInstanceAs (Decidable (_ ∧ _))

/-- Where a segment is mapped: at `addr`, unless it would overlap a large mapping. There is
no segment at the end of the address space, so the call for it fails then. -/
def segmentAddress (large : Large.State) (addr : Nat) : Nat :=
  if ∀ m ∈ large.mapped, (Stretch.mk (segmentAligned addr) segmentSize).Apart m.stretch then addr
  else 2 ^ 64

/-- The answer of `mmap` to a call for a large block. -/
def largeAddress (s : State T) (pages addr : Nat) : Option Nat :=
  if MapsFresh s.heap.large addr pages ∧ Clear s.heap.small ⟨addr, pages * lcPageSize⟩ then
    some addr
  else none

variable [DecidableEq T]

/-- `lc_heap_allocate(size)`. -/
def runAllocate (debug : Bool) (tid : T → Int) (addr fuel : Nat) (t : T) (size : Nat)
    (s : State T) : Option (State T × Option Nat) :=
  if isSmall : findBucket (requestSize size) ≠ bucketLarge then
    let after := Small.runAlone debug tid (segmentAddress s.heap.large addr) t fuel
      (s.heap.small.setPc t (.getLocal ⟨requestSize size, isSmall⟩))
    if MapsApart after s.heap.large then
      match after.pc t with
      | .writeHeader r block =>
        if r = ⟨requestSize size, isSmall⟩ then
          some ({ s with
            heap.small := after.handOut t ⟨requestSize size, isSmall⟩ block
            heap.stats := statTrackAlloc s.heap.stats (requestSize size) },
            some (block + headerSize))
        else none
      | .idle => some ({ s with heap.small := after }, none)
      | _ => none
    else none
  else
    let answer := Whole.allocateLarge s.heap (requestSize size)
      (largeAddress s (largePages (requestSize size)) addr)
    some (⟨answer.1, s.bytes⟩, answer.2)

theorem runAllocate_sound (run : runAllocate debug tid addr fuel t size s = some (s', reply)) :
    Allocate debug tid t size s s' reply := by
  unfold runAllocate at run
  split at run
  · next isSmall =>
    dsimp only at run
    have works := Small.worksAlone_run debug tid (segmentAddress s.heap.large addr) t fuel
      (s.heap.small.setPc t (.getLocal ⟨requestSize size, isSmall⟩))
    split at run
    · next kernel =>
      split at run
      · next r block found =>
        split at run
        · next same =>
          cases run
          exact .small isSmall works (same ▸ found) kernel
        · cases run
      · next ended =>
        cases run
        exact .smallFailed isSmall works ended kernel
      · cases run
    · cases run
  · next isLarge =>
    cases run
    refine .large (not_not.mp isLarge) (fun base answer => ?_) fun _ _ _ _ => rfl
    rw [largeAddress] at answer
    split at answer
    · next kernel =>
      cases answer
      exact kernel
    · cases answer

/-- `lc_heap_free(ptr)`. -/
def runFree (debug : Bool) (tid : T → Int) (addr fuel : Nat) (t : T) (ptr : Nat) (s : State T) :
    Option (State T) :=
  if (s.heap.header ptr).bucket ≠ bucketLarge then
    match s.heap.small.live.find? fun m => m.ptr = ptr with
    | some m =>
      let after := Small.runAlone debug tid addr t fuel (s.heap.small.takeBack t m)
      if after.pc t = .idle ∧ MapsApart after s.heap.large then
        some { s with
          heap.small := after
          heap.stats := statTrackFree s.heap.stats (s.heap.header m.ptr).size }
      else none
    | none => none
  else if ptr ≠ 0 then
    match Large.lcHeapFree debug s.heap.large ptr with
    | some (after, .freed) =>
      some { s with
        heap.large := after
        heap.stats := statTrackFree s.heap.stats (s.heap.header ptr).size }
    | _ => none
  else none

theorem runFree_sound (run : runFree debug tid addr fuel t ptr s = some s') :
    Free debug tid t s ptr s' := by
  unfold runFree at run
  split at run
  · next isSmall =>
    split at run
    · next m found =>
      dsimp only at run
      obtain rfl : m.ptr = ptr := by simpa using List.find?_some found
      split at run
      · next ended =>
        cases run
        exact .small (List.mem_of_find?_eq_some found) isSmall
          (Small.worksAlone_run debug tid addr t fuel _) ended.1 ended.2
      · cases run
    · cases run
  · next isLarge =>
    split at run
    · next nonnull =>
      split at run
      · next after freed =>
        cases run
        exact .large nonnull (not_not.mp isLarge) freed
      · cases run
    · cases run

/-- `lc_heap_reallocate(ptr, new_size)`. -/
def runReallocate (debug : Bool) (tid : T → Int) (addr fuel : Nat) (t : T) (ptr newSize : Nat)
    (s : State T) : Option (State T × Option Nat) :=
  if ptr = 0 then runAllocate debug tid addr fuel t newSize s
  else if newSize = 0 then
    (runFree debug tid addr fuel t ptr s).map fun s' => (s', some 0)
  else if s.heap.FitsInPlace ptr newSize then
    some ({ s with heap := s.heap.resizeInPlace ptr newSize }, some ptr)
  else
    match runAllocate debug tid addr fuel t newSize s with
    | some (between, some target) =>
      (runFree debug tid addr fuel t ptr
        (between.copy target ptr (min (s.heap.header ptr).size newSize))).map
        fun s' => (s', some target)
    | other => other

theorem runReallocate_sound
    (run : runReallocate debug tid addr fuel t ptr newSize s = some (s', reply)) :
    Reallocate debug tid t ptr newSize s s' reply := by
  unfold runReallocate at run
  split at run
  · next isNull => exact .null isNull (runAllocate_sound run)
  · next nonnull =>
    split at run
    · next isZero =>
      obtain ⟨after, freed, same⟩ := Option.map_eq_some_iff.mp run
      cases same
      exact .zero nonnull isZero (runFree_sound freed)
    · next nonzero =>
      split at run
      · next fits =>
        cases run
        exact .inPlace nonnull nonzero fits
      · next moves =>
        split at run
        · next between target allocated =>
          obtain ⟨after, freed, same⟩ := Option.map_eq_some_iff.mp run
          cases same
          exact .moved nonnull nonzero moves (runAllocate_sound allocated)
            (runFree_sound freed)
        · next other =>
          cases reply with
          | some target => exact absurd run (other s' target)
          | none => exact .failed nonnull nonzero moves (runAllocate_sound run)

/-! ### Whole runs -/

/-- What the client does, one call after another. -/
inductive Call
  | allocate (size : Nat)
  | reallocate (ptr newSize : Nat)
  | free (ptr : Nat)
  | write (ptr address : Nat) (bytes : List UInt8)
  | resetStats
  deriving DecidableEq

/-- A call of thread `t`, made with a pointer that is live, or with `NULL`. -/
def perform (debug : Bool) (tid : T → Int) (addr fuel : Nat) (t : T) (s : State T) :
    Call → Option (State T)
  | .allocate size => (runAllocate debug tid addr fuel t size s).map Prod.fst
  | .reallocate ptr newSize =>
    if ptr = 0 ∨ ptr ∈ s.heap.live then
      (runReallocate debug tid addr fuel t ptr newSize s).map Prod.fst
    else none
  | .free ptr => if ptr ∈ s.heap.live then runFree debug tid addr fuel t ptr s else none
  | .write ptr address bytes =>
    if ptr ∈ s.heap.live ∧ ptr ≤ address ∧ address + bytes.length ≤ ptr + s.usable ptr then
      some (s.write ptr address bytes)
    else none
  | .resetStats => some { s with heap.stats := lcHeapResetStats s.heap.stats }

theorem perform_sound {call : Call} (run : perform debug tid addr fuel t s call = some s') :
    Performs debug tid s s' := by
  unfold perform at run
  cases call with
  | allocate size =>
    obtain ⟨⟨after, reply⟩, executed, rfl⟩ := Option.map_eq_some_iff.mp run
    exact .allocate (runAllocate_sound executed)
  | reallocate ptr newSize =>
    dsimp only at run
    split at run
    · next legal =>
      obtain ⟨⟨after, reply⟩, executed, rfl⟩ := Option.map_eq_some_iff.mp run
      exact .reallocate legal (runReallocate_sound executed)
    · cases run
  | free ptr =>
    dsimp only at run
    split at run
    · next live => exact .free (.inr live) (runFree_sound run)
    · cases run
  | write ptr address bytes =>
    dsimp only at run
    split at run
    · next inside =>
      cases run
      exact .write inside.1 inside.2.1 inside.2.2
    · cases run
  | resetStats =>
    cases run
    exact .resetStats

/-- Two threads, nothing allocated. -/
def empty : State Bool := ⟨⟨Small.twoThreads, (Large.machine true).init, noStats⟩, fun _ => 0⟩

/-- Calls of the first thread on the empty heap, each with the address at which the kernel
maps memory if it is asked. -/
def follow (calls : List (Nat × Call)) : Option (State Bool) :=
  calls.foldlM (fun s call => perform true Small.twoTids call.1 32 false s call.2) empty

theorem follow_reachable {calls : List (Nat × Call)} {s : State Bool}
    (run : follow calls = some s) : (system true Small.twoTids).Reachable s :=
  System.Reachable.foldlM (fun _ _ _ executed => perform_sound executed)
    (.init ⟨⟨rfl, rfl, rfl, fun _ => ⟨rfl, rfl⟩⟩, rfl, rfl⟩) run

end Lightc.Heap.Contents
