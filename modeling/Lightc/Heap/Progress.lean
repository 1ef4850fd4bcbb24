import Lightc.Heap.Execution
import Lightc.Heap.Small.Progress

/-!
# Calls come back

Wherever the kernel maps memory, or if it refuses to, a call on the heap ends with a
result: `runAllocate_total`, `runFree_total` and, put together from the two,
`runReallocate_total`. The number of steps depends on how many pages the thread has and on
how many blocks were returned to them, so it is only said that there is one that suffices,
and that any larger number gives the same result.
-/

namespace Lightc.Heap.Whole

open Machine Verification Function
open Heap.Small (Orderly)

variable {T : Type} {debug : Bool} {tid : T → Int} {t : T} {s s' : State T}
variable {ptr size newSize : Nat} {reply : Option Nat}

/-! ### Page lists between the calls -/

theorem orderly_store (h : Orderly s.small) (ptr : Nat) (bytes : List UInt8) :
    Orderly (s.store ptr bytes).small := by
  rw [State.store]
  split
  · exact h
  · exact h.congr rfl rfl rfl rfl

@[simp] theorem allocateLarge_small (s : State T) (size : Nat) (mmap : Option Nat) :
    (allocateLarge s size mmap).1.small = s.small := by
  rw [allocateLarge]
  split <;> rfl

variable [DecidableEq T]

theorem Allocate.orderly (call : Allocate debug tid t size s s' reply) (h : Exact tid s)
    (orderly : Orderly s.small) (distinct : Injective tid) : Orderly s'.small := by
  have begins : ∀ isSmall : findBucket (requestSize size) ≠ bucketLarge,
      Small.Step debug tid s.small (s.small.setPc t (.getLocal ⟨requestSize size, isSmall⟩)) :=
    .callAllocate (h.idle t) size
  have works : ∀ {isSmall : findBucket (requestSize size) ≠ bucketLarge} {after : Small.State T},
      Small.Works debug tid t (s.small.setPc t (.getLocal ⟨requestSize size, isSmall⟩)) after →
      Orderly after := by
    intro isSmall after run
    exact (orderly.step h.small distinct (begins isSmall)).works
      (h.small.step distinct (begins isSmall)) distinct run
  cases call with
  | small isSmall run found kernel =>
    have sound := (h.small.allocates distinct isSmall (h.idle t) run).sound
    exact (works run).use sound.layout (fun _ => rfl) rfl rfl rfl
      (by rw [found]; exact False.elim) fun _ => id
  | smallFailed isSmall run failed kernel => exact works run
  | large isLarge kernel =>
    rw [allocateLarge_small]
    exact orderly

theorem Free.orderly (call : Free debug tid t s ptr s') (h : Exact tid s)
    (orderly : Orderly s.small) (distinct : Injective tid) : Orderly s'.small := by
  cases call with
  | null => exact orderly
  | small live isSmall run ended kernel =>
    have begins : Small.Step debug tid s.small _ := .callFree (h.idle t) live
    exact (orderly.step h.small distinct begins).works (h.small.step distinct begins) distinct run
  | large nonnull isLarge freed => exact orderly

theorem Reallocate.orderly (call : Reallocate debug tid t ptr newSize s s' reply)
    (legal : ptr = 0 ∨ ptr ∈ s.live) (h : Exact tid s) (orderly : Orderly s.small)
    (distinct : Injective tid) : Orderly s'.small := by
  cases call with
  | null isNull call => exact call.orderly h orderly distinct
  | zero nonnull isZero call => exact call.orderly h orderly distinct
  | inPlace nonnull nonzero fits => exact orderly.congr rfl rfl rfl rfl
  | failed nonnull nonzero moves call => exact call.orderly h orderly distinct
  | moved nonnull nonzero moves call copied free =>
    obtain ⟨copies, -⟩ := h.copied distinct (legal.resolve_left nonnull) nonzero call copied
    exact free.orderly copies.toExact (orderly_store (call.orderly h orderly distinct) _ _)
      distinct

theorem orderly_reachable (distinct : Injective tid)
    (run : (system debug tid).Reachable s) : Orderly s.small := by
  refine System.Inductive.of_reachable (I := fun s => Orderly s.small) ?_ ?_ s run
  · intro s start
    have begins : (Small.system debug tid).Reachable s.small := .init start.1
    exact Small.orderly_reachable distinct begins
  · intro s s' run orderly next
    have h := (exact_inductive distinct).reachable run
    obtain ⟨call, performed⟩ := next
    cases performed with
    | allocate call => exact call.orderly h orderly distinct
    | allocateZeroed call =>
      cases call with
      | ok call => exact orderly_store (call.orderly h orderly distinct) _ _
      | failed call => exact call.orderly h orderly distinct
    | reallocate legal call => exact call.orderly legal h orderly distinct
    | free legal call => exact call.orderly h orderly distinct
    | resetStats => exact orderly
    | write => exact orderly.congr rfl rfl rfl rfl

end Lightc.Heap.Whole

namespace Lightc.Heap.Contents

open Machine Verification Function
open Heap.Small (Allocation Alone Finishes Served Returned)
open Whole (MapsApart Exact)

variable {T : Type} [DecidableEq T] {debug : Bool} {tid : T → Int} {t : T} {s : State T}
variable {ptr size newSize : Nat}

/-- Between two calls the heap belongs to whoever calls next. -/
theorem alone_reachable (distinct : Injective tid)
    (run : (system debug tid).Reachable s) (t : T) : Alone tid t s.heap.small :=
  have h := (exact_inductive distinct).reachable run
  ⟨h.small, Whole.orderly_reachable distinct (heap_reachable distinct run), fun u _ => h.idle u⟩

/-! ### Allocating -/

/-- A segment is only made where it overlaps no large mapping. -/
theorem mapsApart_run (large : Large.State) {small : Small.State T}
    (apart : MapsApart small large) (addr fuel : Nat) :
    MapsApart (Small.runAlone debug tid (segmentAddress large addr) t fuel small) large := by
  intro m mapped seg member
  rcases Small.runAlone_segments fuel member with old | ⟨rfl, inRange⟩
  · exact apart m mapped seg old
  · rw [segmentAddress] at inRange ⊢
    split at inRange
    · next clear =>
      rw [if_pos clear]
      exact clear m mapped
    · simp only [segmentSize] at inRange
      omega

variable (distinct : Injective tid) (run : (system debug tid).Reachable s)
include distinct run

theorem runAllocate_total (t : T) (addr size : Nat) :
    ∃ least s' reply, ∀ fuel, least ≤ fuel →
      runAllocate debug tid addr fuel t size s = some (s', reply) := by
  by_cases isSmall : findBucket (requestSize size) ≠ bucketLarge
  · have h := (exact_inductive distinct).reachable run
    have begins : Small.Step debug tid s.heap.small _ := .callAllocate (h.idle t) size isSmall
    have alone := (alone_reachable distinct run t).begins distinct begins rfl
    obtain ⟨least, after, ends, served⟩ :
        Finishes debug tid (segmentAddress s.heap.large addr) t (Served t _) _ :=
      alone.allocate_finishes distinct (Small.State.pc_setPc ..)
    have apart : MapsApart (s.heap.small.setPc t (.getLocal ⟨requestSize size, isSmall⟩))
        s.heap.large := h.apart
    have kernel : MapsApart after s.heap.large := by
      rw [← ends least (Nat.le_refl least)]
      exact mapsApart_run s.heap.large apart addr least
    rcases served with failed | ⟨block, found⟩
    · refine ⟨least, { s with heap.small := after }, none, fun fuel enough => ?_⟩
      simp only [runAllocate, dif_pos isSmall, ends fuel enough, if_pos kernel, failed]
    · let s' : State T := { s with
        heap.small := after.handOut t ⟨requestSize size, isSmall⟩ block
        heap.stats := statTrackAlloc s.heap.stats (requestSize size) }
      refine ⟨least, s', some (block + headerSize), fun fuel enough => ?_⟩
      simp only [runAllocate, dif_pos isSmall, ends fuel enough, if_pos kernel, found, if_true, s']
  · let answer := Whole.allocateLarge s.heap (requestSize size)
      (largeAddress s (largePages (requestSize size)) addr)
    refine ⟨0, ⟨answer.1, s.bytes⟩, answer.2, fun fuel _ => ?_⟩
    rw [runAllocate, dif_neg isSmall]

/-! ### Freeing -/

theorem runFree_total (live : ptr ∈ s.heap.live) (t : T) (addr : Nat) :
    ∃ least s', ∀ fuel, least ≤ fuel → runFree debug tid addr fuel t ptr s = some s' := by
  have h := (exact_inductive distinct).reachable run
  by_cases isSmall : (s.heap.header ptr).bucket ≠ bucketLarge
  · obtain ⟨m, member, rfl⟩ := h.small_of_bucket live isSmall
    have exists_ : (s.heap.small.live.find? fun n => n.ptr = m.ptr).isSome :=
      List.find?_isSome.mpr ⟨m, member, decide_eq_true rfl⟩
    obtain ⟨n, found⟩ := Option.isSome_iff_exists.mp exists_
    have begins : Small.Step debug tid s.heap.small _ :=
      .callFree (h.idle t) (List.mem_of_find?_eq_some found)
    have alone := (alone_reachable distinct run t).begins distinct begins rfl
    obtain ⟨least, after, ends, idle, segments⟩ : Finishes debug tid addr t (Returned t _) _ :=
      alone.free_finishes distinct (Small.State.pc_setPc ..)
    have kernel : MapsApart after s.heap.large := by
      intro m mapped seg member
      exact h.apart m mapped seg (segments ▸ member)
    let s' : State T := { s with
      heap.small := after
      heap.stats := statTrackFree s.heap.stats (s.heap.header n.ptr).size }
    refine ⟨least, s', fun fuel enough => ?_⟩
    simp only [runFree, if_pos isSmall, found]
    rw [Small.State.takeBack, ends fuel enough, if_pos ⟨idle, kernel⟩]
  · have isLarge := h.large_of_bucket live (not_not.mp isSmall)
    obtain ⟨after, freed, _⟩ := Large.lcHeapFree_spec h.conserved debug (.inr isLarge)
    let s' : State T := { s with
      heap.large := after
      heap.stats := statTrackFree s.heap.stats (s.heap.header ptr).size }
    refine ⟨0, s', fun fuel _ => ?_⟩
    simp only [runFree, if_neg isSmall, if_pos (live_ne_zero h.toSound live), freed, s']

/-! ### Reallocating -/

/-- What is copied into a new block fits there. -/
theorem copy_reachable {between : State T} {target : Nat} (nonzero : newSize ≠ 0)
    (call : Allocate debug tid t newSize s between (some target)) {count : Nat}
    (most : count ≤ newSize) : (system debug tid).Reachable (between.copy target ptr count) := by
  have h := (exact_inductive distinct).reachable run
  have allocated := h.allocate distinct call.whole
  obtain ⟨isLive, recorded⟩ := allocated.newer target rfl
  rw [requestSize, if_neg nonzero] at recorded
  have room := size_le_usable allocated.toSound isLive
  refine (run.step (.allocate call)).step (.write isLive (Nat.le_refl _) ?_)
  rw [State.load, length_loadBytes]
  omega

theorem runReallocate_total (live : ptr ∈ s.heap.live) (t : T) (addr newSize : Nat) :
    ∃ fuel s' reply, runReallocate debug tid addr fuel t ptr newSize s = some (s', reply) := by
  have h := (exact_inductive distinct).reachable run
  have nonnull := live_ne_zero h.toSound live
  by_cases isZero : newSize = 0
  · obtain ⟨fuel, s', frees⟩ := runFree_total distinct run live t addr
    refine ⟨fuel, s', some 0, ?_⟩
    rw [runReallocate, if_neg nonnull, if_pos isZero, frees fuel (Nat.le_refl fuel)]
    rfl
  by_cases fits : s.heap.FitsInPlace ptr newSize
  · refine ⟨0, { s with heap := s.heap.resizeInPlace ptr newSize }, some ptr, ?_⟩
    rw [runReallocate, if_neg nonnull, if_neg isZero, if_pos fits]
  obtain ⟨first, between, reply, allocates⟩ := runAllocate_total distinct run t addr newSize
  cases reply with
  | none =>
    refine ⟨first, between, none, ?_⟩
    rw [runReallocate, if_neg nonnull, if_neg isZero, if_neg fits,
      allocates first (Nat.le_refl first)]
  | some target =>
    have call := runAllocate_sound (allocates first (Nat.le_refl first))
    have copied : (system debug tid).Reachable
        (between.copy target ptr (min (s.heap.header ptr).size newSize)) :=
      copy_reachable distinct run isZero call (Nat.min_le_right _ _)
    have still : ptr ∈
        (between.copy target ptr (min (s.heap.header ptr).size newSize)).heap.live := by
      rw [State.copy, State.heap_write, Whole.State.live_store]
      exact (h.allocate distinct call.whole).older ptr live
    obtain ⟨second, s', frees⟩ := runFree_total distinct copied still t addr
    refine ⟨max first second, s', some target, ?_⟩
    rw [runReallocate, if_neg nonnull, if_neg isZero, if_neg fits,
      allocates _ (Nat.le_max_left first second)]
    simp only [frees _ (Nat.le_max_right first second), Option.map_some]

end Lightc.Heap.Contents
