import Lightc.Heap.Large
import Lightc.Verification.Packing

/-!
# The room large blocks take

Mappings share no page, and the size recorded for a live block fits in its mapping
even where the mapping is one that was made for another request. Both follow from
what a call does to the mappings, the live pointers and the headers; where the
cache put a mapping in between does not matter.
-/

namespace Lightc.Heap.Large

open Machine Verification Function
open scoped List

variable {s t : State} {debug : Bool} {size ptr : Nat} {mmap : Option Nat}

/-- The sizes recorded in the headers of the live blocks. -/
def State.sizes (s : State) : List Nat :=
  s.live.map fun ptr => (s.headers (ptr - largeHeaderSize)).size

/-! ### What the calls do -/

/-- A block was handed out: `block` has a new header and is live, in a mapping
that existed or in a new one. -/
structure HandsOut (s t : State) (mmap : Option Nat) (size block : Nat) : Prop where
  accepted : size ≤ largeSizeLimit
  headers : t.headers = update s.headers block ⟨size, bucketLarge, heapMagic⟩
  live : t.live = (block + largeHeaderSize) :: s.live
  mapped : t.mapped = s.mapped ∨
    mmap = some block ∧ ∃ id, t.mapped = ⟨id, block, largePages size⟩ :: s.mapped

theorem takeCached_frame {pages : Nat} {found : Option (Nat × Nat)}
    (taken : takeCached s pages = (found, t)) :
    t.headers = s.headers ∧ t.live = s.live ∧ t.mapped = s.mapped := by
  rw [takeCached] at taken
  split at taken <;> cases taken <;> exact ⟨rfl, rfl, rfl⟩

theorem lcAllocatePages_some {count block : Nat}
    (got : lcAllocatePages s count mmap = (some block, t)) :
    mmap = some block ∧ t.headers = s.headers ∧ t.live = s.live ∧
      ∃ id, t.mapped = ⟨id, block, count⟩ :: s.mapped := by
  unfold lcAllocatePages at got
  split at got
  · cases got
  · split at got
    · cases got
    · cases got
      exact ⟨rfl, rfl, rfl, _, rfl⟩

theorem allocateFresh_ok (accepted : size ≤ largeSizeLimit)
    (executed : allocateFresh s (largePages size) size mmap = (t, .ok ptr)) :
    ∃ block, ptr = block + largeHeaderSize ∧ HandsOut s t mmap size block := by
  rw [allocateFresh] at executed
  split at executed
  · cases executed
  · rename_i block after got
    obtain ⟨answer, headers, live, mapped⟩ := lcAllocatePages_some got
    cases executed
    exact ⟨block, rfl, accepted, headers ▸ rfl, live ▸ rfl, .inr ⟨answer, mapped⟩⟩

theorem allocateLarge_ok (executed : allocateLarge s size mmap = (t, .ok ptr)) :
    ∃ block, ptr = block + largeHeaderSize ∧ HandsOut s t mmap size block := by
  rw [allocateLarge] at executed
  split at executed
  · cases executed
  · rename_i accepted
    have accepted := Nat.le_of_not_lt accepted
    -- Taking an entry out of the cache changes nothing that is looked at here.
    have through : ∀ {after : State} {found : Option (Nat × Nat)} {block : Nat},
        takeCached s (largePages size) = (found, after) → HandsOut after t mmap size block →
        HandsOut s t mmap size block := by
      intro after found block taken handed
      obtain ⟨headers, live, mapped⟩ := takeCached_frame taken
      exact ⟨accepted, headers ▸ handed.headers, live ▸ handed.live, mapped ▸ handed.mapped⟩
    split at executed
    · rename_i after taken
      obtain ⟨block, pointer, handed⟩ := allocateFresh_ok accepted executed
      exact ⟨block, pointer, through taken handed⟩
    · rename_i block pages after taken
      split at executed
      · cases executed
        exact ⟨block, rfl, through taken ⟨accepted, rfl, rfl, .inl rfl⟩⟩
      · obtain ⟨block, pointer, handed⟩ := allocateFresh_ok accepted executed
        exact ⟨block, pointer, through taken handed⟩

/-- A block was given back: it is live no longer, no mapping is new and no recorded
size has changed. -/
structure TakesBack (s t : State) (ptr : Nat) : Prop where
  live : t.live = s.live.erase ptr
  mapped : t.mapped <+ s.mapped
  sizes : ∀ block, (t.headers block).size = (s.headers block).size

theorem lcFreePages_some {block count : Nat} (freed : lcFreePages s block count = some t) :
    t.live = s.live ∧ t.mapped <+ s.mapped ∧ t.headers = s.headers := by
  rw [lcFreePages] at freed
  split at freed
  · cases freed
  · cases freed
    exact ⟨rfl, List.erase_sublist, rfl⟩

theorem freeLarge_some {block : Nat} (freed : freeLarge debug s block = some t) :
    TakesBack s t (block + largeHeaderSize) := by
  -- The debug build marks the header, which has a size all the same.
  have marked : ∀ b, ((if debug then update s.headers block
      { s.headers block with magic := heapMagicFreed } else s.headers) b).size =
      (s.headers b).size := by
    intro b
    split
    · by_cases self : b = block
      · rw [self, update_self]
      · rw [update_of_ne self]
    · rfl
  unfold freeLarge at freed
  dsimp only at freed
  split at freed
  · cases freed
    exact ⟨rfl, .refl _, marked⟩
  · split at freed <;>
    · obtain ⟨live, mapped, headers⟩ := lcFreePages_some freed
      exact ⟨live, mapped, fun b => headers ▸ marked b⟩

theorem lcHeapFree_some (nonnull : ptr ≠ 0)
    (freed : lcHeapFree debug s ptr = some (t, .freed)) :
    TakesBack s t (sub64 ptr largeHeaderSize + largeHeaderSize) := by
  rw [lcHeapFree, if_neg nonnull] at freed
  dsimp only at freed
  split at freed
  · cases freed
  · split at freed
    · cases freed
    · split at freed
      · obtain ⟨after, done, same⟩ := Option.map_eq_some_iff.mp freed
        cases same
        exact freeLarge_some done
      · cases freed

/-- Only the header of the freed block is marked. -/
theorem freeLarge_headers {block b : Nat} (freed : freeLarge debug s block = some t)
    (other : b ≠ block) : t.headers b = s.headers b := by
  have unmarked : (if debug then update s.headers block
      { s.headers block with magic := heapMagicFreed } else s.headers) b = s.headers b := by
    split
    · exact update_of_ne other ..
    · rfl
  unfold freeLarge at freed
  dsimp only at freed
  split at freed
  · cases freed
    exact unmarked
  · split at freed <;> exact (congrFun (lcFreePages_some freed).2.2 b).trans unmarked

theorem lcHeapFree_headers {b : Nat} (freed : lcHeapFree debug s ptr = some (t, .freed))
    (other : b ≠ sub64 ptr largeHeaderSize) : t.headers b = s.headers b := by
  unfold lcHeapFree at freed
  split at freed
  · cases freed
    rfl
  · dsimp only at freed
    split at freed
    · cases freed
    · split at freed
      · cases freed
      · split at freed
        · obtain ⟨after, done, same⟩ := Option.map_eq_some_iff.mp freed
          cases same
          exact freeLarge_headers done other
        · cases freed

/-! ### Room -/

/-- The addresses of a mapping. -/
def Mapping.stretch (m : Mapping) : Stretch := ⟨m.base, m.pages * lcPageSize⟩

structure Spacious (s : State) : Prop where
  apart : s.mapped.Pairwise fun m m' => m.stretch.Apart m'.stretch
  fits : ∀ m ∈ s.mapped, m.pointer ∈ s.live →
    (s.headers m.base).size + largeHeaderSize ≤ m.stretch.length

@[simp] theorem Mapping.pointer_sub (m : Mapping) : m.pointer - largeHeaderSize = m.base :=
  Nat.add_sub_cancel ..

theorem spacious_init : Spacious (machine debug).init := ⟨.nil, nofun⟩

namespace Spacious

/-- A new block fits in the mapping it was given. -/
theorem handOut {block : Nat} {m : Mapping} (h : Spacious s) (handed : HandsOut s t mmap size block)
    (kernel : ∀ base, mmap = some base → MapsFresh s base (largePages size))
    (conserved : Conserved [] t) (member : m ∈ t.mapped) (base : m.base = block)
    (enough : largePages size ≤ m.pages) : Spacious t := by
  obtain ⟨accepted, headers, live, mapped⟩ := handed
  have room : size + largeHeaderSize ≤ m.stretch.length :=
    Nat.le_trans (largePages_bounds accepted).2.1 (Nat.mul_le_mul_right _ enough)
  refine ⟨?_, ?_⟩
  · cases mapped with
    | inl same => exact same ▸ h.apart
    | inr new =>
      obtain ⟨answer, id, new⟩ := new
      rw [new]
      exact .cons (fun m' member' => (kernel block answer).disjoint m' member') h.apart
  · intro m' member' isLive
    rw [headers]
    by_cases self : m'.base = block
    · cases conserved.mapping_unique member' member (self.trans base.symm)
      rw [self, update_self]
      exact room
    · rw [update_of_ne self]
      apply h.fits m'
      · cases mapped with
        | inl same => exact same ▸ member'
        | inr new =>
          obtain ⟨answer, id, new⟩ := new
          rw [new] at member'
          cases List.mem_cons.mp member' with
          | inl fresh => exact absurd (congrArg Mapping.base fresh) self
          | inr old => exact old
      · rw [live] at isLive
        cases List.mem_cons.mp isLive with
        | inl fresh => exact absurd (Nat.add_right_cancel fresh) self
        | inr old => exact old

theorem takeBack (h : Spacious s) (freed : TakesBack s t ptr) : Spacious t := by
  obtain ⟨live, mapped, sizes⟩ := freed
  refine ⟨h.apart.sublist mapped, ?_⟩
  intro m member isLive
  rw [sizes]
  rw [live] at isLive
  exact h.fits m (mapped.subset member) (List.mem_of_mem_erase isLive)

end Spacious

/-! ### Sizes -/

theorem Conserved.live_nodup (h : Conserved [] s) : s.live.Nodup :=
  List.Nodup.of_append_left h.holders_nodup

theorem HandsOut.sizes {block : Nat} (h : HandsOut s t mmap size block)
    (before : Conserved [] s) (after : Conserved [] t) : t.sizes = size :: s.sizes := by
  obtain ⟨_, headers, live, _⟩ := h
  have nodup := after.live_nodup
  rw [live, List.nodup_cons] at nodup
  rw [State.sizes, live, List.map_cons, headers, Nat.add_sub_cancel, update_self]
  congr 1
  apply List.map_congr_left
  intro ptr member
  obtain ⟨m, _, rfl⟩ := before.mapping_of_live member
  rw [m.pointer_sub, update_of_ne]
  rintro rfl
  exact nodup.1 member

theorem TakesBack.sizes_perm (h : TakesBack s t ptr) (live : ptr ∈ s.live) :
    s.sizes ~ (s.headers (ptr - largeHeaderSize)).size :: t.sizes := by
  have same : t.sizes =
      (s.live.erase ptr).map fun ptr => (s.headers (ptr - largeHeaderSize)).size := by
    rw [State.sizes, h.live]
    exact List.map_congr_left fun ptr _ => h.sizes _
  rw [same]
  exact (List.perm_cons_erase live).map _

/-! ### The address space -/

/-- The mapping of a live pointer, as its prefix records it. -/
def State.stretch (s : State) (ptr : Nat) : Stretch :=
  ⟨ptr - largeHeaderSize, s.pagesOf (ptr - largeHeaderSize) * lcPageSize⟩

theorem Conserved.stretch_live (h : Conserved [] s) (live : ptr ∈ s.live) :
    ∃ m ∈ s.mapped, m.pointer = ptr ∧ s.stretch ptr = m.stretch := by
  obtain ⟨m, member, rfl⟩ := h.mapping_of_live live
  refine ⟨m, member, rfl, ?_⟩
  rw [State.stretch, m.pointer_sub, (h.liveHeader m member live).1]
  rfl

/-- `lc_heap_free` finds the block of a live pointer. -/
theorem Conserved.sub64_live (h : Conserved [] s) (live : ptr ∈ s.live) :
    sub64 ptr largeHeaderSize + largeHeaderSize = ptr := by
  obtain ⟨m, member, rfl⟩ := h.mapping_of_live live
  rw [h.sub64_pointer member]
  rfl

/-- Live blocks lie apart. -/
theorem Spacious.stretches_apart (h : Spacious s) (conserved : Conserved [] s) :
    (s.live.map s.stretch).Pairwise Stretch.Apart := by
  have : Std.Symm fun m m' : Mapping => m.stretch.Apart m'.stretch := ⟨fun _ _ apart => apart.symm⟩
  refine List.pairwise_map.mpr (conserved.live_nodup.imp_of_mem ?_)
  intro ptr ptr' live live' ne
  obtain ⟨m, member, pointer, same⟩ := conserved.stretch_live live
  obtain ⟨m', member', pointer', same'⟩ := conserved.stretch_live live'
  rw [same, same']
  refine h.apart.forall member member' ?_
  rintro rfl
  exact ne (pointer.symm.trans pointer')

end Lightc.Heap.Large
