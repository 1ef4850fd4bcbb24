import Lightc.Heap.Whole
import Lightc.Heap.Small.Execution

/-!
# The active counters describe the live blocks

Small blocks lie in segments and large ones in mappings, all of them apart, so the
blocks that are out fit into the address space together: their number and the sum
of their sizes are words (`Sound.countable`), and the active counters, which hold
both modulo `2 ^ 64`, hold them exactly.

Every call adds one size to the list of recorded sizes, takes one away, replaces
one or leaves the list alone; a block that moves does the first and then the
second. `Exact` is what holds between two calls and `Follows` what one call does.
-/

namespace Lightc.Heap.Whole

open Machine Verification Function
open Heap.Small (Allocation Works)
open Large (Mapping MapsFresh)
open scoped List

variable {T : Type} {debug : Bool} {tid : T → Int} {s s' : State T} {t : T}
variable {m : Allocation} {ptr size newSize : Nat} {reply : Option Nat}

/-- The invariants of both halves between two calls. -/
structure Sound (tid : T → Int) (s : State T) : Prop where
  small : Small.Sound tid s.small
  idle : ∀ t, s.small.pc t = .idle
  conserved : Large.Conserved [] s.large
  spacious : Large.Spacious s.large
  apart : MapsApart s.small s.large

namespace Sound

/-! ### Headers -/

variable (h : Sound tid s)
include h

/-- A small block lies apart from every large mapping. -/
theorem blocks_apart {n : Mapping} (live : m ∈ s.small.live) (mapped : n ∈ s.large.mapped) :
    m.stretch.Apart n.stretch := by
  obtain ⟨seg, member, low, high, _⟩ := h.small.in_segment live
  have apart := h.apart n mapped seg member
  simp only [Stretch.Apart, Allocation.stretch] at *
  omega

theorem not_large (live : m ∈ s.small.live) : ¬ s.IsLarge m.ptr := by
  intro large
  obtain ⟨n, mapped, pointer⟩ := List.mem_map.mp large
  have apart := h.blocks_apart live mapped
  have fits := h.small.size_fits live
  have pages := (h.conserved.valid n mapped).2.1
  simp only [Stretch.Apart, Allocation.stretch, Mapping.stretch, Mapping.pointer, Allocation.ptr,
    largeHeaderSize, largePreheaderSize, headerSize, lcPageSize] at *
  omega

theorem isLarge (live : ptr ∈ s.large.live) : s.IsLarge ptr := by
  obtain ⟨n, mapped, pointer⟩ := h.conserved.mapping_of_live live
  exact List.mem_map.mpr ⟨n, mapped, pointer⟩

theorem header_small (live : m ∈ s.small.live) :
    s.header m.ptr = Small.readHeader s.small.memory m.block := by
  rw [State.header, if_neg (h.not_large live), Allocation.ptr, Nat.add_sub_cancel]

theorem header_large (live : ptr ∈ s.large.live) :
    s.header ptr = s.large.headers (ptr - largeHeaderSize) := by
  rw [State.header, if_pos (h.isLarge live)]

theorem bucket_small (live : m ∈ s.small.live) :
    (s.header m.ptr).bucket = m.bucket ∧ m.bucket ≠ bucketLarge := by
  obtain ⟨recorded, real⟩ := h.small.bucket live
  rw [h.header_small live]
  exact ⟨recorded, Nat.ne_of_lt (Nat.lt_trans real (by decide))⟩

theorem bucket_large (live : ptr ∈ s.large.live) : (s.header ptr).bucket = bucketLarge := by
  obtain ⟨n, mapped, rfl⟩ := h.conserved.mapping_of_live live
  rw [h.header_large live, n.pointer_sub]
  exact (h.conserved.liveHeader n mapped live).2.1

/-- A live pointer whose header names a small class belongs to a small block. -/
theorem small_of_bucket (live : ptr ∈ s.live) (class_ : (s.header ptr).bucket ≠ bucketLarge) :
    ∃ m ∈ s.small.live, m.ptr = ptr := by
  cases List.mem_append.mp live with
  | inl small => exact List.mem_map.mp small
  | inr large => exact absurd (h.bucket_large large) class_

theorem small_of_not_large (live : ptr ∈ s.live) (notLarge : ¬ s.IsLarge ptr) :
    ∃ m ∈ s.small.live, m.ptr = ptr := by
  cases List.mem_append.mp live with
  | inl small => exact List.mem_map.mp small
  | inr large => exact absurd (h.isLarge large) notLarge

theorem large_of_isLarge (live : ptr ∈ s.live) (isLarge : s.IsLarge ptr) : ptr ∈ s.large.live := by
  refine (List.mem_append.mp live).resolve_left fun small => ?_
  obtain ⟨m, member, rfl⟩ := List.mem_map.mp small
  exact h.not_large member isLarge

theorem large_of_bucket (live : ptr ∈ s.live) (class_ : (s.header ptr).bucket = bucketLarge) :
    ptr ∈ s.large.live := by
  cases List.mem_append.mp live with
  | inl small =>
    obtain ⟨m, member, rfl⟩ := List.mem_map.mp small
    have bucket := h.bucket_small member
    exact absurd (bucket.1.symm.trans class_) bucket.2
  | inr large => exact large

/-- No pointer is live twice. -/
theorem live_nodup : s.live.Nodup := by
  refine List.nodup_append.mpr ⟨?_, h.conserved.live_nodup, ?_⟩
  · obtain ⟨c, held⟩ := h.small.held
    have pointers : s.small.live.map Allocation.ptr =
        (s.small.live.map Allocation.block).map (· + headerSize) := by
      rw [List.map_map]
      rfl
    rw [pointers]
    exact held.once.map fun a b same => Nat.add_right_cancel same
  · rintro ptr small other large rfl
    obtain ⟨m, member, rfl⟩ := List.mem_map.mp small
    exact h.not_large member (h.isLarge large)

/-- The sizes of the two halves. -/
theorem sizes_eq : s.sizes = s.small.sizes ++ s.large.sizes := by
  rw [State.sizes, State.live, List.map_append, List.map_map]
  congr 1
  · exact List.map_congr_left fun m member => congrArg Header.size (h.header_small member)
  · exact List.map_congr_left fun ptr member => congrArg Header.size (h.header_large member)

/-! ### The address space -/

end Sound

/-- The addresses a live block takes. -/
def State.stretch (s : State T) (ptr : Nat) : Stretch :=
  if s.IsLarge ptr then s.large.stretch ptr
  else ⟨ptr - headerSize, blockSize (s.header ptr).bucket⟩

namespace Sound

variable (h : Sound tid s)
include h

theorem stretch_small (live : m ∈ s.small.live) : s.stretch m.ptr = m.stretch := by
  rw [State.stretch, if_neg (h.not_large live), (h.bucket_small live).1, Allocation.ptr,
    Nat.add_sub_cancel]
  rfl

theorem stretch_large (live : ptr ∈ s.large.live) :
    ∃ n ∈ s.large.mapped, n.pointer = ptr ∧ s.stretch ptr = n.stretch := by
  obtain ⟨n, mapped, pointer, same⟩ := h.conserved.stretch_live live
  exact ⟨n, mapped, pointer, by rw [State.stretch, if_pos (h.isLarge live), same]⟩

/-- No two live blocks overlap. -/
theorem stretches_apart : (s.live.map s.stretch).Pairwise Stretch.Apart := by
  have small : (s.small.live.map Allocation.ptr).map s.stretch =
      s.small.live.map Allocation.stretch := by
    rw [List.map_map]
    exact List.map_congr_left fun m member => h.stretch_small member
  have large : s.large.live.map s.stretch = s.large.live.map s.large.stretch :=
    List.map_congr_left fun ptr member => if_pos (h.isLarge member)
  rw [State.live, List.map_append, small, large]
  refine List.pairwise_append.mpr
    ⟨h.small.stretches_apart, h.spacious.stretches_apart h.conserved, ?_⟩
  intro a first b second
  obtain ⟨m, live, rfl⟩ := List.mem_map.mp first
  obtain ⟨ptr, live', rfl⟩ := List.mem_map.mp second
  obtain ⟨n, mapped, _, same⟩ := h.conserved.stretch_live live'
  rw [same]
  exact h.blocks_apart live mapped

theorem apart_of_ne {q : Nat} (live : q ∈ s.live) (live' : ptr ∈ s.live) (ne : q ≠ ptr) :
    (s.stretch q).Apart (s.stretch ptr) := by
  have : Std.Symm fun a b : Nat => (s.stretch a).Apart (s.stretch b) :=
    ⟨fun _ _ apart => apart.symm⟩
  exact (List.pairwise_map.mp h.stretches_apart).forall live live' ne

/-- A live block lies in the address space and has room for a header beside the
recorded size. -/
theorem stretch_spec (live : ptr ∈ s.live) :
    (s.stretch ptr).start + (s.stretch ptr).length ≤ 2 ^ 64 ∧
      (s.header ptr).size + headerSize ≤ (s.stretch ptr).length := by
  cases List.mem_append.mp live with
  | inl small =>
    obtain ⟨m, member, rfl⟩ := List.mem_map.mp small
    obtain ⟨seg, _, _, high, inRange⟩ := h.small.in_segment member
    rw [h.stretch_small member, h.header_small member]
    exact ⟨Nat.le_trans high inRange, h.small.size_fits member⟩
  | inr large =>
    obtain ⟨n, mapped, rfl, same⟩ := h.stretch_large large
    rw [same, h.header_large large, n.pointer_sub]
    have fits := h.spacious.fits n mapped large
    rw [largeHeaderSize] at fits
    exact ⟨(h.conserved.valid n mapped).2.2, by omega⟩

/-- The live blocks are so few and so small that a word counts them. -/
theorem countable : Countable s.sizes := by
  have total := Stretch.sum_contents_le h.stretches_apart
    (fun ptr live => (h.stretch_spec live).1) fun ptr live => (h.stretch_spec live).2
  have length : s.sizes.length = s.live.length := List.length_map _
  have sum : s.sizes.sum + s.live.length * headerSize ≤ 2 ^ 64 := total
  simp only [headerSize] at sum
  -- A single block already leaves its header unused.
  cases none : s.live with
  | nil =>
    rw [State.sizes, none, List.map_nil]
    exact ⟨by decide, by decide⟩
  | cons first rest =>
    rw [none, List.length_cons] at sum length
    exact ⟨by omega, by omega⟩

end Sound

/-! ### What holds between two calls -/

structure Exact (tid : T → Int) (s : State T) : Prop extends Sound tid s where
  accounted : Accounted s.stats s.sizes
  words : s.stats.Words

/-- A call leads to such a state again, with no new drift of the totals. -/
structure Follows (tid : T → Int) (s s' : State T) : Prop extends Exact tid s' where
  drift : s'.stats.drift = s.stats.drift

theorem Follows.trans {s'' : State T} (first : Follows tid s s') (second : Follows tid s' s'') :
    Follows tid s s'' := ⟨second.toExact, second.drift.trans first.drift⟩

/-- The large path counts a little more before it comes to `stat_track_alloc`. -/
theorem Follows.of_alloc (sound : Sound tid s') {stats : Stats}
    (accounted : Accounted stats s.sizes) (drift : SameDrift s.stats stats)
    (sizes : s'.sizes ~ size :: s.sizes) (tracked : s'.stats = statTrackAlloc stats size) :
    Follows tid s s' := by
  have drift := drift.trans (.alloc drift.words size)
  rw [← tracked] at drift
  refine ⟨⟨sound, ?_, drift.words⟩, drift.drift⟩
  rw [tracked]
  exact accounted.alloc sizes sound.countable

namespace Exact

theorem refl (h : Exact tid s) : Follows tid s s := ⟨h, rfl⟩

theorem unchanged (h : Exact tid s) (sound : Sound tid s') (sizes : s'.sizes = s.sizes)
    (stats : s'.stats = s.stats) : Follows tid s s' :=
  ⟨⟨sound, by rw [sizes, stats]; exact h.accounted, stats ▸ h.words⟩, by rw [stats]⟩

theorem freed (h : Exact tid s) (sound : Sound tid s') (sizes : s.sizes ~ size :: s'.sizes)
    (tracked : s'.stats = statTrackFree s.stats size) : Follows tid s s' := by
  have sum := sizes.sum_eq
  have word := h.countable.sum
  rw [List.sum_cons] at sum
  have drift : SameDrift s.stats (statTrackFree s.stats size) := .free h.words (by omega)
  rw [← tracked] at drift
  refine ⟨⟨sound, ?_, drift.words⟩, drift.drift⟩
  rw [tracked]
  exact h.accounted.free sizes h.countable

theorem resized (h : Exact tid s) (sound : Sound tid s') {rest : List Nat}
    (before : s.sizes ~ size :: rest) (after : s'.sizes ~ newSize :: rest)
    (adjusted : s'.stats = adjustActive s.stats size newSize) : Follows tid s s' := by
  have sum := before.sum_eq
  have word := h.countable.sum
  rw [List.sum_cons] at sum
  have drift : SameDrift s.stats (adjustActive s.stats size newSize) := .adjust h.words (by omega)
  rw [← adjusted] at drift
  refine ⟨⟨sound, ?_, drift.words⟩, drift.drift⟩
  rw [adjusted]
  exact h.accounted.adjust before after h.countable sound.countable

end Exact

/-! ### Allocating -/

/-- What the caller of `lc_heap_allocate` may rely on. -/
structure Allocated (tid : T → Int) (size : Nat) (s s' : State T) (reply : Option Nat) : Prop
    extends Follows tid s s' where
  older : ∀ ptr ∈ s.live, ptr ∈ s'.live
  newer : ∀ ptr, reply = some ptr → ptr ∈ s'.live ∧ (s'.header ptr).size = requestSize size

variable [DecidableEq T]

omit [DecidableEq T] in
/-- The small heap after a call of `t`. -/
theorem Sound.withSmall (h : Sound tid s) {after : Small.State T} (sound : Small.Sound tid after)
    (others : ∀ u, u ≠ t → after.pc u = s.small.pc u) (ended : after.pc t = .idle)
    (kernel : MapsApart after s.large) (stats : Stats) :
    Sound tid { s with small := after, stats := stats } := by
  refine ⟨sound, ?_, h.conserved, h.spacious, kernel⟩
  intro u
  by_cases self : u = t
  · exact self ▸ ended
  · exact (others u self).trans (h.idle u)

omit [DecidableEq T] in
theorem Exact.allocateLarge (h : Exact tid s) {mmap : Option Nat}
    (kernel : ∀ base, mmap = some base → MapsFresh s.large base (largePages (requestSize size)) ∧
      Clear s.small ⟨base, largePages (requestSize size) * lcPageSize⟩) :
    Allocated tid size s (allocateLarge s (requestSize size) mmap).1
      (allocateLarge s (requestSize size) mmap).2 := by
  have fresh : ∀ base, mmap = some base → MapsFresh s.large base (largePages (requestSize size)) :=
    fun base answer => (kernel base answer).1
  cases Large.allocateLarge_spec h.conserved fresh with
  | inl refused =>
    have same : Whole.allocateLarge s (requestSize size) mmap = (s, none) := by
      rw [Whole.allocateLarge, refused]
    rw [same]
    exact ⟨h.refl, fun _ => id, nofun⟩
  | inr granted =>
    obtain ⟨n, after, executed, conserved, mapped, live, enough⟩ := granted
    obtain ⟨block, pointer, handed⟩ := Large.allocateLarge_ok executed
    have base : n.base = block := Nat.add_right_cancel pointer
    rw [Whole.allocateLarge, executed]
    have sound : Sound tid { s with
        large := after
        stats := statTrackAlloc (countLarge s.stats (cacheHit s.large (requestSize size)))
          (requestSize size) } := by
      refine ⟨h.small, h.idle, conserved,
        h.spacious.handOut handed fresh conserved mapped base enough, ?_⟩
      intro n' member
      cases handed.mapped with
      | inl same => exact h.apart n' (same ▸ member)
      | inr new =>
        obtain ⟨answer, id, new⟩ := new
        rw [new] at member
        cases List.mem_cons.mp member with
        | inl first => exact first ▸ (kernel block answer).2
        | inr old => exact h.apart n' old
    have sizes := handed.sizes h.conserved conserved
    refine ⟨.of_alloc sound (h.accounted.large _) (.large h.words _) ?_ rfl, ?_, ?_⟩
    · rw [sound.sizes_eq, h.sizes_eq, sizes]
      exact List.perm_middle
    · intro ptr older
      refine List.mem_append.mpr ((List.mem_append.mp older).imp id fun older => ?_)
      rw [handed.live]
      exact List.mem_cons_of_mem _ older
    · intro ptr answer
      cases answer
      refine ⟨List.mem_append_right _ live, ?_⟩
      rw [sound.header_large live, n.pointer_sub, handed.headers, base, update_self]

section

variable (h : Exact tid s) (distinct : Injective tid)
include h distinct

theorem Exact.allocate (call : Allocate debug tid t size s s' reply) :
    Allocated tid size s s' reply := by
  cases call with
  | @small block after isSmall run found kernel =>
    obtain ⟨worked, kept, others⟩ := h.small.allocates distinct isSmall (h.idle t) run
    have handed := worked.sizes_handOut found
    have sound : Sound tid { s with
        small := after.handOut t ⟨requestSize size, isSmall⟩ block
        stats := statTrackAlloc s.stats (requestSize size) } := by
      refine h.withSmall (t := t) (worked.handOut distinct found) ?_ (update_self ..)
        kernel _
      intro u other
      exact (update_of_ne other ..).trans (others u other)
    have live : (⟨block, requestSize size, findBucket (requestSize size)⟩ : Allocation) ∈
        (after.handOut t ⟨requestSize size, isSmall⟩ block).live := List.mem_cons_self
    refine ⟨.of_alloc sound h.accounted (.refl h.words) ?_ rfl, ?_, ?_⟩
    · rw [sound.sizes_eq, h.sizes_eq, handed, kept.sizes]
      exact .refl _
    · intro ptr older
      rw [State.live, ← kept.live] at older
      exact List.mem_cons_of_mem _ older
    · intro ptr answer
      cases answer
      have header := congrArg Header.size (sound.header_small live)
      exact ⟨List.mem_cons_self, header.trans (List.cons.inj handed).1⟩
  | smallFailed isSmall run failed kernel =>
    obtain ⟨worked, kept, others⟩ := h.small.allocates distinct isSmall (h.idle t) run
    have sound := h.withSmall worked others failed kernel s.stats
    refine ⟨h.unchanged sound ?_ rfl, ?_, nofun⟩
    · rw [sound.sizes_eq, h.sizes_eq, kept.sizes]
    · intro ptr older
      rwa [State.live, kept.live]
  | large _ kernel => exact h.allocateLarge kernel

/-! ### Writing behind a pointer -/

/-- The client writes inside a small block. -/
theorem Exact.write {address : Nat} {bytes : List UInt8} (live : m ∈ s.small.live)
    (low : m.ptr ≤ address) (high : address + bytes.length ≤ m.block + blockSize m.bucket) :
    Follows tid s
      { s with small := { s.small with memory := storeBytes s.small.memory address bytes } } := by
  have next : Small.Step false tid s.small _ := .clientWrite live low high
  have kept : Small.Kept s.small
      { s.small with memory := storeBytes s.small.memory address bytes } :=
    ⟨rfl, fun n member => h.small.heads next member⟩
  have sound : Sound tid
      { s with small := { s.small with memory := storeBytes s.small.memory address bytes } } :=
    ⟨h.small.step distinct next, h.idle, h.conserved, h.spacious, h.apart⟩
  refine h.unchanged sound ?_ rfl
  rw [sound.sizes_eq, h.sizes_eq, kept.sizes]

/-- As many bytes as the header records fit behind a pointer. -/
theorem Exact.store {bytes : List UInt8} (live : ptr ∈ s.live)
    (fits : bytes.length ≤ (s.header ptr).size) : Follows tid s (s.store ptr bytes) := by
  rw [State.store]
  split
  · exact h.refl
  · rename_i notLarge
    cases List.mem_append.mp live with
    | inl small =>
      obtain ⟨m, member, rfl⟩ := List.mem_map.mp small
      have room := h.small.size_fits member
      rw [h.header_small member] at fits
      refine h.write distinct member (Nat.le_refl _) ?_
      simp only [Allocation.ptr, Allocation.stretch] at room ⊢
      omega
    | inr large => exact absurd (h.isLarge large) notLarge

omit distinct h [DecidableEq T] in
@[simp] theorem State.live_store (s : State T) (ptr : Nat) (bytes : List UInt8) :
    (s.store ptr bytes).live = s.live := by
  rw [State.store]
  split <;> rfl

theorem Exact.allocateZeroed (call : AllocateZeroed debug tid t size s s' reply) :
    Follows tid s s' := by
  cases call with
  | ok call =>
    have allocated := h.allocate distinct call
    obtain ⟨live, recorded⟩ := allocated.newer _ rfl
    refine allocated.toFollows.trans (allocated.toExact.store distinct live ?_)
    rw [recorded, List.length_replicate, requestSize]
    split <;> omega
  | failed call => exact (h.allocate distinct call).toFollows

/-! ### Freeing -/

theorem Exact.free (legal : ptr = 0 ∨ ptr ∈ s.live) (call : Free debug tid t s ptr s') :
    Follows tid s s' := by
  cases call with
  | null => exact h.refl
  | @small m after live isSmall run ended kernel =>
    obtain ⟨sound, others, sizes⟩ := h.small.frees distinct (h.idle t) live run
    have sound := h.withSmall sound others ended kernel
      (statTrackFree s.stats (s.header m.ptr).size)
    refine h.freed sound ?_ rfl
    rw [sound.sizes_eq, h.sizes_eq, h.header_small live]
    exact sizes.append_right _
  | @large _ after nonnull isLarge freed =>
    have live := h.large_of_bucket (legal.resolve_left nonnull) isLarge
    obtain ⟨after', freed', conserved⟩ := Large.lcHeapFree_spec h.conserved debug (.inr live)
    cases freed'.symm.trans freed
    have taken := Large.lcHeapFree_some nonnull freed
    rw [h.conserved.sub64_live live] at taken
    have sound : Sound tid { s with
        large := after
        stats := statTrackFree s.stats (s.header ptr).size } :=
      ⟨h.small, h.idle, conserved, h.spacious.takeBack taken,
        fun n mapped => h.apart n (taken.mapped.subset mapped)⟩
    refine h.freed sound ?_ rfl
    rw [sound.sizes_eq, h.sizes_eq, h.header_large live]
    exact ((taken.sizes_perm live).append_left _).trans List.perm_middle

/-! ### Reallocating -/

omit distinct [DecidableEq T] in
theorem Exact.resizeInPlace (live : ptr ∈ s.live) (fits : s.FitsInPlace ptr newSize) :
    Follows tid s (s.resizeInPlace ptr newSize) := by
  obtain ⟨m, member, rfl⟩ := h.small_of_bucket live fits.1
  have room := fits.2
  have size := h.small.size_fits member
  have bound := bucketUsableSize_le m.bucket
  rw [(h.bucket_small member).1] at room
  have block : m.ptr - headerSize = m.block := Nat.add_sub_cancel ..
  have enough : newSize + headerSize ≤ blockSize m.bucket := by
    simp only [bucketUsableSize, Allocation.stretch] at room size
    omega
  have resized := h.small.resize member enough
  have sound : Sound tid (s.resizeInPlace m.ptr newSize) := by
    rw [State.resizeInPlace, block]
    exact ⟨resized, h.idle, h.conserved, h.spacious, h.apart⟩
  have word : newSize < 2 ^ 64 := by omega
  have before := (Small.State.sizes_perm member).append_right s.large.sizes
  have after := (h.small.sizes_resize member word).append_right s.large.sizes
  rw [← h.sizes_eq, ← h.header_small member] at before
  rw [← block] at after
  exact h.resized sound before (sound.sizes_eq ▸ after) rfl

/-- Between the two halves of a reallocation that moves: the bytes are copied, and the old block
is still there. -/
theorem Exact.copied {between : State T} {target : Nat} {bytes : List UInt8} (live : ptr ∈ s.live)
    (nonzero : newSize ≠ 0) (call : Allocate debug tid t newSize s between (some target))
    (copied : bytes.length = min (s.header ptr).size newSize) :
    Follows tid s (between.store target bytes) ∧ ptr ∈ (between.store target bytes).live := by
  have allocated := h.allocate distinct call
  obtain ⟨obtained, recorded⟩ := allocated.newer _ rfl
  have copies := allocated.toExact.store distinct obtained
    (show bytes.length ≤ _ by rw [recorded, copied, requestSize, if_neg nonzero]; omega)
  refine ⟨allocated.toFollows.trans copies, ?_⟩
  rw [State.live_store]
  exact allocated.older ptr live

theorem Exact.reallocate (legal : ptr = 0 ∨ ptr ∈ s.live)
    (call : Reallocate debug tid t ptr newSize s s' reply) : Follows tid s s' := by
  cases call with
  | null _ call => exact (h.allocate distinct call).toFollows
  | zero _ _ call => exact h.free distinct legal call
  | inPlace nonnull _ fits => exact h.resizeInPlace (legal.resolve_left nonnull) fits
  | failed _ _ _ call => exact (h.allocate distinct call).toFollows
  | moved nonnull nonzero _ call copied free =>
    obtain ⟨copies, still⟩ :=
      h.copied distinct (legal.resolve_left nonnull) nonzero call copied
    exact copies.trans (copies.toExact.free distinct (.inr still) free)

/-! ### Sequences of calls -/

theorem Exact.performs {call : Call} (other : call ≠ .resetStats)
    (performed : Performs debug tid s call s') : Follows tid s s' := by
  cases performed with
  | allocate call => exact (h.allocate distinct call).toFollows
  | allocateZeroed call => exact h.allocateZeroed distinct call
  | reallocate legal call => exact h.reallocate distinct legal call
  | free legal call => exact h.free distinct legal call
  | resetStats => exact absurd rfl other
  | write live low high => exact h.write distinct live low high

end

omit [DecidableEq T] in
theorem Exact.resetStats (h : Exact tid s) :
    Exact tid { s with stats := lcHeapResetStats s.stats } :=
  ⟨{ h with }, h.accounted.reset, words_reset h.words⟩

theorem exact_inductive (distinct : Injective tid) :
    (system debug tid).Inductive (Exact tid) where
  init s start := by
    obtain ⟨small, large, stats⟩ := start
    have ⟨segments, _, empty, idle⟩ := small
    have sound : Sound tid s := by
      refine ⟨Small.sound_reachable distinct (.init small), fun t => (idle t).2, ?_, ?_, ?_⟩
      · exact large ▸ Large.conserved_init debug
      · exact large ▸ Large.spacious_init
      · intro n _ seg member
        rw [segments] at member
        cases member
    have sizes : s.sizes = [] := by
      rw [State.sizes, State.live, empty, large]
      rfl
    exact ⟨sound, by rw [stats, sizes]; exact .none, stats ▸ words_noStats⟩
  step s s' h next := by
    obtain ⟨call, performed⟩ := next
    by_cases reset : call = .resetStats
    · subst reset
      cases performed
      exact h.resetStats
    · exact (h.performs distinct reset performed).toExact

theorem Exact.withoutReset (h : Exact tid s) (distinct : Injective tid)
    (calls : WithoutReset debug tid s s') : Follows tid s s' := by
  induction calls with
  | refl => exact h.refl
  | tail _ next ih =>
    obtain ⟨call, other, performed⟩ := next
    exact ih.trans (ih.toExact.performs distinct other performed)

/-- After every sequence of calls, `active_allocations` is the number of live blocks
and `active_bytes` the sum of the sizes in their headers; and from there on, as long
as the counters are not reset, `total_bytes_allocated - total_bytes_freed` changes by
as much as `active_bytes` does. -/
theorem active_stats_exact (distinct : Injective tid)
    (run : (system debug tid).Reachable s) :
    s.live.Nodup ∧ s.getStats.activeAllocations = s.live.length ∧
      s.getStats.activeBytes = (s.live.map fun ptr => (s.header ptr).size).sum ∧
      ∀ s', WithoutReset debug tid s s' →
        sub64
            (sub64 s'.getStats.totalBytesAllocated s'.getStats.totalBytesFreed)
            (sub64 s.getStats.totalBytesAllocated s.getStats.totalBytesFreed) =
          sub64 s'.getStats.activeBytes s.getStats.activeBytes := by
  have exact_ := (exact_inductive distinct).reachable run
  refine ⟨exact_.live_nodup, exact_.accounted.allocs.trans (List.length_map _),
    exact_.accounted.bytes, ?_⟩
  intro s' calls
  have follows := exact_.withoutReset distinct calls
  exact SameDrift.netBytes_change ⟨follows.words, follows.drift⟩ exact_.words

/-- A small block of 8 bytes and a large one of 5000 are allocated, the counters are
reset, and the small block grows to 16 bytes where it is. -/
theorem active_stats_exact_resized :
    ∃ s s' : State Bool, (system true Small.twoTids).Reachable s ∧
      WithoutReset true Small.twoTids s s' ∧ s.live = [4259856, 65568] ∧
      s.getStats.activeAllocations = 2 ∧ s.getStats.activeBytes = 5008 ∧
      s.getStats.totalBytesAllocated = 0 ∧ s'.getStats.activeBytes = 5016 ∧
      sub64
          (sub64 s'.getStats.totalBytesAllocated s'.getStats.totalBytesFreed)
          (sub64 s.getStats.totalBytesAllocated s.getStats.totalBytesFreed) = 8 := by
  have start : (system true Small.twoTids).Reachable
      ⟨Small.twoThreads, (Large.machine true).init, noStats⟩ :=
    .init ⟨⟨rfl, rfl, rfl, fun _ => ⟨rfl, rfl⟩⟩, rfl, rfl⟩
  -- The first call makes a segment and takes block 0 of its page 0.
  have taken := (Small.worksAlone_run true Small.twoTids 4194304 false 16
    (Small.twoThreads.setPc false (.getLocal ⟨8, by decide⟩))).works
  have small := start.step ⟨.allocate 8, .allocate (t := false)
    (.small (by decide) taken (show _ = Small.Pc.writeHeader _ 4259840 by decide +kernel) nofun)⟩
  -- The second one gets a mapping of its own, below the segment.
  have large := small.step ⟨.allocate 5000, .allocate (t := false)
    (@Allocate.large _ _ _ _ _ _ _ (some 65536) (by decide) (by
      rintro base ⟨⟩
      refine ⟨⟨by decide, by decide, nofun⟩, fun seg member => ?_⟩
      rw [List.mem_singleton.mp member]
      exact .inr (by decide +kernel)))⟩
  have reset := large.step ⟨.resetStats, .resetStats⟩
  have grows : ∀ {s : State Bool}, (system true Small.twoTids).Reachable s → 4259856 ∈ s.live →
      s.FitsInPlace 4259856 16 →
      WithoutReset true Small.twoTids s (s.resizeInPlace 4259856 16) :=
    fun _ live fits => .single ⟨.reallocate 4259856 16, nofun,
      .reallocate (t := false) (.inr live) (.inPlace (by decide) (by decide) fits)⟩
  have grown := grows reset List.mem_cons_self ⟨by decide +kernel, by decide +kernel⟩
  obtain ⟨_, allocs, bytes, changes⟩ := active_stats_exact Small.twoTids_injective reset
  exact ⟨_, _, reset, grown, by decide +kernel, allocs.trans (by decide +kernel),
    bytes.trans (by decide +kernel), by decide +kernel, by decide +kernel,
    (changes _ grown).trans (by decide +kernel)⟩

end Lightc.Heap.Whole
