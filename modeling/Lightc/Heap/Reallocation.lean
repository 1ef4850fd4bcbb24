import Lightc.Heap.Progress

/-!
# What `lc_heap_reallocate` preserves

A block keeps its first bytes, as many as both sizes have, whether it stays where it
is, moves within the small or the large heap or between the two, grows or shrinks; no
other block is touched; and if there is no memory for it the block itself is untouched
too. One of these happens at every call.
-/

namespace Lightc.Heap.Contents

open Machine Verification Function
open Heap.Small (Allocation)
open Whole (Sound Exact)
open scoped List

variable {T : Type} {debug : Bool} {tid : T → Int} {t : T} {s s' : State T}
variable {ptr newSize target : Nat} {reply : Option Nat}

/-- What a successful call leaves of the block at `ptr`. -/
structure Resized (s s' : State T) (ptr newSize target : Nat) : Prop where
  live : s'.heap.live ~ target :: s.heap.live.erase ptr
  size : (s'.heap.header target).size = newSize
  room : newSize ≤ s'.usable target
  contents : s'.load target (min (s.heap.header ptr).size newSize) =
    s.load ptr (min (s.heap.header ptr).size newSize)

/-- A new size in place touches nothing but the recorded size. -/
theorem resizeInPlace_frame (h : Exact tid s.heap) (live : ptr ∈ s.heap.live)
    (fits : s.heap.FitsInPlace ptr newSize) :
    (∀ q ∈ s.heap.live, q ≠ ptr →
      Untouched s { s with heap := s.heap.resizeInPlace ptr newSize } q) ∧
      Resized s { s with heap := s.heap.resizeInPlace ptr newSize } ptr newSize ptr := by
  have sound' := (h.resizeInPlace live fits).toSound
  obtain ⟨m, member, rfl⟩ := h.small_of_bucket live fits.1
  have block : m.ptr - headerSize = m.block := Nat.add_sub_cancel ..
  have size := h.small.size_fits member
  have room := fits.2
  have bound := bucketUsableSize_le m.bucket
  have ends := usable_small h.toSound member
  rw [(h.bucket_small member).1] at room
  have memory : (s.heap.resizeInPlace m.ptr newSize).small.memory =
      storeBytes s.heap.small.memory m.block (wordBytes 8 newSize) := by
    rw [Whole.State.resizeInPlace, block]
    rfl
  have member' : m ∈ (s.heap.resizeInPlace m.ptr newSize).small.live := member
  refine ⟨forall_live (fun m' live' other => ?_) (fun q live' _ => ?_), ?_, ?_, ?_, ?_⟩
  · refine .of_small h.toSound sound' live' live' fun x inside => ?_
    have apart := h.apart_of_ne (List.mem_append_left _ (List.mem_map_of_mem live')) live other
    rw [h.stretch_small member, h.stretch_small live'] at apart
    obtain ⟨low, high⟩ := inside
    rw [memory]
    apply storeBytes_outside
    rw [length_wordBytes]
    simp only [Stretch.Apart, Allocation.stretch, headerSize] at apart size
    omega
  · exact .of_same_large h.toSound sound' rfl rfl live'
  · exact List.perm_cons_erase live
  · rw [sound'.header_small member', Whole.State.resizeInPlace, block]
    exact congrArg Header.size (Small.readHeader_resize (by omega) m.block)
  · have ends' := usable_small (s := { s with heap := s.heap.resizeInPlace m.ptr newSize }) sound'
      member'
    have pointer : m.ptr = m.block + headerSize := rfl
    simp only [bucketUsableSize, Allocation.stretch] at room size
    omega
  · refine loadBytes_congr fun i less => ?_
    rw [State.memoryOf, if_neg (sound'.not_large member'), State.memoryOf,
      if_neg (h.not_large member), memory]
    apply storeBytes_outside
    rw [length_wordBytes]
    simp only [Allocation.ptr, headerSize]
    omega

/-- Bytes that were written from a pointer on are read back. -/
@[simp] theorem load_write (s : State T) (ptr : Nat) (bytes : List UInt8) :
    (s.write ptr ptr bytes).load ptr bytes.length = bytes := by
  have memory : (s.write ptr ptr bytes).memoryOf ptr = storeBytes (s.memoryOf ptr) ptr bytes := by
    by_cases isLarge : s.heap.IsLarge ptr
    · rw [State.write, if_pos isLarge, State.memoryOf, State.memoryOf, if_pos isLarge,
        if_pos isLarge]
    · have same : s.memoryOf ptr = s.heap.small.memory := if_neg isLarge
      rw [State.write, if_neg isLarge, same]
      exact if_neg isLarge
  rw [State.load, memory]
  exact loadBytes_storeBytes_same rfl

variable [DecidableEq T]

/-- The bytes that were copied to the new block are there when the old one is gone. -/
theorem moved_frame {between : State T} (h : Exact tid s.heap) (distinct : Injective tid)
    (live : ptr ∈ s.heap.live) (nonnull : ptr ≠ 0) (nonzero : newSize ≠ 0)
    (call : Allocate debug tid t newSize s between (some target))
    (free : Free debug tid t (between.copy target ptr (min (s.heap.header ptr).size newSize))
      ptr s') :
    (∀ q ∈ s.heap.live, q ≠ ptr → Untouched s s' q) ∧ Resized s s' ptr newSize target ∧
      target ≠ ptr := by
  have allocated := h.allocate distinct call.whole
  obtain ⟨kept, added, -⟩ := call.frame h distinct
  obtain ⟨isLive, recorded⟩ := allocated.newer target rfl
  rw [requestSize, if_neg nonzero] at recorded
  have room := size_le_usable allocated.toSound isLive
  rw [recorded] at room
  have new : target ∉ s.heap.live :=
    (List.nodup_cons.mp ((added target rfl).nodup_iff.mp allocated.live_nodup)).1
  have other : ∀ q ∈ s.heap.live, q ≠ target := fun q member same => new (same ▸ member)
  -- The new block has room for what is copied, and the old one has as much to copy.
  generalize count_eq : min (s.heap.header ptr).size newSize = count at free
  have fits : target + (between.load ptr count).length ≤ target + between.usable target := by
    rw [State.load, length_loadBytes]
    omega
  have enough : count ≤ s.usable ptr := by
    have := size_le_usable h.toSound live
    omega
  obtain ⟨copyKept, copyLive, copyHeader, copyUsable⟩ :=
    write_frame allocated.toExact distinct isLive (Nat.le_refl _) fits
  have copied := exact_write allocated.toExact distinct isLive (Nat.le_refl _) fits
  have still : ptr ∈ (between.copy target ptr count).heap.live := copyLive ▸ (kept ptr live).live
  obtain ⟨freeKept, removed⟩ := free.frame copied distinct still nonnull
  have last := freeKept target (copyLive ▸ isLive) (other ptr live).symm
  refine ⟨fun q member ne => ?_, ⟨?_, ?_, ?_, ?_⟩, (other ptr live).symm⟩
  · have first := kept q member
    have second := copyKept q first.live (other q member)
    exact (first.trans second).trans (freeKept q second.live ne)
  · have lists : ptr :: s'.heap.live ~ ptr :: target :: s.heap.live.erase ptr :=
      calc ptr :: s'.heap.live
        _ ~ between.heap.live := copyLive ▸ removed.symm
        _ ~ target :: s.heap.live := added target rfl
        _ ~ target :: ptr :: s.heap.live.erase ptr := (List.perm_cons_erase live).cons target
        _ ~ ptr :: target :: s.heap.live.erase ptr := .swap _ _ _
    exact lists.cons_inv
  · exact (congrArg Header.size (last.header.trans copyHeader)).trans recorded
  · rw [last.usable]
    exact copyUsable.symm ▸ room
  · rw [count_eq]
    calc s'.load target count
      _ = (between.copy target ptr count).load target count := by
        refine last.load ?_
        show count ≤ (between.write target target (between.load ptr count)).usable target
        rw [copyUsable]
        omega
      _ = between.load ptr count := by
        have back := load_write between target (between.load ptr count)
        rwa [show (between.load ptr count).length = count from length_loadBytes] at back
      _ = s.load ptr count := (kept ptr live).load enough

/-- What a call leaves of the block it was made for and of all others. -/
theorem Reallocate.frame (call : Reallocate debug tid t ptr newSize s s' reply)
    (h : Exact tid s.heap) (distinct : Injective tid) (live : ptr ∈ s.heap.live) :
    (∀ q ∈ s.heap.live, q ≠ ptr → Untouched s s' q) ∧
      (newSize = 0 ∧ reply = some 0 ∧ s.heap.live ~ ptr :: s'.heap.live ∨
        newSize ≠ 0 ∧ (∃ target, reply = some target ∧ Resized s s' ptr newSize target ∧
          (ptr ∉ s'.heap.live ↔ target ≠ ptr)) ∨
        newSize ≠ 0 ∧ reply = none ∧ s'.heap.live = s.heap.live ∧ Untouched s s' ptr) := by
  have nodup := h.live_nodup
  have released : ∀ {target : Nat}, Resized s s' ptr newSize target →
      (ptr ∉ s'.heap.live ↔ target ≠ ptr) := by
    intro target resized
    rw [resized.live.mem_iff, List.mem_cons, not_or, nodup.mem_erase_iff]
    exact ⟨fun gone same => gone.1 same.symm, fun ne => ⟨Ne.symm ne, fun both => both.1 rfl⟩⟩
  cases call with
  | null isNull call => exact absurd isNull (live_ne_zero h.toSound live)
  | zero nonnull isZero call =>
    obtain ⟨kept, removed⟩ := call.frame h distinct live nonnull
    exact ⟨kept, .inl ⟨isZero, rfl, removed⟩⟩
  | inPlace nonnull nonzero fits =>
    obtain ⟨kept, resized⟩ := resizeInPlace_frame h live fits
    exact ⟨kept, .inr (.inl ⟨nonzero, ptr, rfl, resized, released resized⟩)⟩
  | failed nonnull nonzero moves call =>
    obtain ⟨kept, -, same⟩ := call.frame h distinct
    exact ⟨fun q member _ => kept q member, .inr (.inr ⟨nonzero, rfl, same rfl, kept ptr live⟩)⟩
  | moved nonnull nonzero moves call free =>
    obtain ⟨kept, resized, -⟩ := moved_frame h distinct live nonnull nonzero call free
    exact ⟨kept, .inr (.inl ⟨nonzero, _, rfl, resized, released resized⟩)⟩

/-- For every live block, whatever it holds and however it got where it is, and for every new
size: the call comes back, wherever the kernel maps memory and if it refuses to, and every way
in which it can come back keeps the contents. -/
theorem reallocate_preserves_contents (distinct : Injective tid)
    (run : (system debug tid).Reachable s) (live : ptr ∈ s.heap.live) (t : T) (newSize : Nat) :
    (∀ addr, ∃ fuel s' reply,
      runReallocate debug tid addr fuel t ptr newSize s = some (s', reply) ∧
        Reallocate debug tid t ptr newSize s s' reply) ∧
    ∀ s' reply, Reallocate debug tid t ptr newSize s s' reply →
      (∀ q ∈ s.heap.live, q ≠ ptr → Untouched s s' q) ∧
        (newSize = 0 ∧ reply = some 0 ∧ s.heap.live ~ ptr :: s'.heap.live ∨
          newSize ≠ 0 ∧ (∃ target, reply = some target ∧ Resized s s' ptr newSize target ∧
            (ptr ∉ s'.heap.live ↔ target ≠ ptr)) ∨
          newSize ≠ 0 ∧ reply = none ∧ s'.heap.live = s.heap.live ∧ Untouched s s' ptr) := by
  have h := (exact_inductive distinct).reachable run
  refine ⟨fun addr => ?_, fun s' reply call => call.frame h distinct live⟩
  obtain ⟨fuel, s', reply, executed⟩ := runReallocate_total distinct run live t addr newSize
  exact ⟨fuel, s', reply, executed, runReallocate_sound executed⟩

/-- A block of 8 bytes is filled with a word. -/
def filled : List (Nat × Call) :=
  [(4194304, .allocate 8), (0, .write 4259856 4259856 [108, 105, 103, 104, 116, 105, 110, 103])]

theorem filled_runs : (follow filled).isSome := by decide +kernel

def filledState : State Bool := (follow filled).get filled_runs

/-- It moves to a mapping of its own when it grows to 5000 bytes. -/
theorem reallocate_preserves_contents_moved :
    ∃ s', Reallocate true Small.twoTids false 4259856 5000 filledState s' (some 65568) ∧
      s'.load 65568 8 = [108, 105, 103, 104, 116, 105, 110, 103] ∧
      4259856 ∉ s'.heap.live := by
  have run : follow filled = some filledState := (Option.some_get filled_runs).symm
  have runs : (runReallocate true Small.twoTids 65536 32 false 4259856 5000 filledState).any
      (fun after => after.2 = some 65568) = true := by decide +kernel
  obtain ⟨⟨s', reply⟩, executed, answer⟩ := (Option.any_eq_true _ _).mp runs
  cases of_decide_eq_true answer
  have call := runReallocate_sound executed
  obtain ⟨-, preserves⟩ := reallocate_preserves_contents Small.twoTids_injective
    (follow_reachable run) (show 4259856 ∈ filledState.heap.live by decide +kernel) false 5000
  obtain ⟨-, outcome⟩ := preserves s' _ call
  obtain ⟨zero, -⟩ | ⟨-, target, same, resized, released⟩ | ⟨-, failed, -⟩ := outcome
  · cases zero
  · cases same
    have contents := resized.contents
    rw [show (filledState.heap.header 4259856).size = 8 by decide +kernel] at contents
    exact ⟨s', call, contents.trans (by decide +kernel), released.mpr (by decide)⟩
  · cases failed

end Lightc.Heap.Contents
