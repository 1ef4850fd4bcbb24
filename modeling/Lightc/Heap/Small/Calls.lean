import Lightc.Heap.Small.Disjoint
import Lightc.Verification.Packing

/-!
# One call at a time on the small heap

The steps of a single call, taken by one thread while the others stand still, and
what they leave of the blocks that are out. Until the header of a new block is
written a call changes neither the list of live blocks nor any of their headers
(`Works.kept`), and the places where it does are written out: `handOut` is the end
of `lc_heap_allocate`, `takeBack` the beginning of `lc_heap_free`.

`lc_heap_reallocate` has a step of its own. It changes the recorded size of a block
that stays where it is, which the threads of the heap never do (`Sound.resize`).
-/

namespace Lightc.Heap.Small

open Machine Verification Function
open scoped List

variable {T : Type} {debug : Bool} {tid : T → Int} {s s' : State T} {t : T}

/-- The invariants of the small heap. -/
structure Sound (tid : T → Int) (s : State T) : Prop where
  layout : Layout tid s
  lock : LockHeld s
  held : ∃ c, Held tid s c

/-- The sizes recorded in the headers of the live blocks. -/
def State.sizes (s : State T) : List Nat := s.live.map fun m => (readHeader s.memory m.block).size

/-- The same blocks are live, with the headers they had. -/
structure Kept (s s' : State T) : Prop where
  live : s'.live = s.live
  heads : ∀ m ∈ s.live, SameHead s.memory s'.memory m.block

theorem Kept.refl (s : State T) : Kept s s := ⟨rfl, fun _ _ => .refl _ _⟩

theorem SameHead.trans {memory memory' memory'' : Memory} {a : Nat}
    (first : SameHead memory memory' a) (second : SameHead memory' memory'' a) :
    SameHead memory memory'' a := fun i inside => (second i inside).trans (first i inside)

theorem Kept.trans {s'' : State T} (first : Kept s s') (second : Kept s' s'') : Kept s s'' :=
  ⟨second.live.trans first.live, fun m member =>
    (first.heads m member).trans (second.heads m (first.live.symm ▸ member))⟩

/-- The sizes of some live blocks, in a state that has kept their heads. -/
theorem map_size_eq {blocks : List Allocation}
    (heads : ∀ m ∈ blocks, SameHead s.memory s'.memory m.block) :
    (blocks.map fun m => (readHeader s'.memory m.block).size) =
      blocks.map fun m => (readHeader s.memory m.block).size := by
  apply List.map_congr_left
  intro m member
  rw [(heads m member).readHeader]

theorem Kept.sizes (h : Kept s s') : s'.sizes = s.sizes := by
  rw [State.sizes, h.live]
  exact map_size_eq h.heads

variable [DecidableEq T]

/-! ### Steps -/

theorem sound_reachable (distinct : Injective tid)
    (run : (system debug tid).Reachable s) : Sound tid s := by
  obtain ⟨c, _, held⟩ := (small_heap_refines_custody distinct).reachable run
  exact ⟨layout_reachable run, lockHeld_inductive.reachable run, c, held⟩

theorem Sound.step (h : Sound tid s) (distinct : Injective tid)
    (next : Step debug tid s s') : Sound tid s' := by
  obtain ⟨layout, lock, c, held⟩ := h
  obtain ⟨c', _, held'⟩ := held.step layout lock distinct next
  exact ⟨layout.step lock next, lock.step next, c', held'⟩

/-- Where a step writes: into a block that nobody has, or where the client may. -/
inductive Writes (s s' : State T) : Prop
  | nothing (memory : s'.memory = s.memory)
  | block {p : PageRef} {i a : Nat} (block : s.IsBlock p i a)
      (kept : a ∉ s.live.map Allocation.block)
      (outside : SameOutside s.memory s'.memory a (blockSize (s.page p).bucket))
  | client {m : Allocation} {address : Nat} {bytes : List UInt8} (live : m ∈ s.live)
      (low : m.ptr ≤ address) (high : address + bytes.length ≤ m.block + blockSize m.bucket)
      (memory : s'.memory = storeBytes s.memory address bytes) (still : s'.pc = s.pc)

theorem Sound.writes (h : Sound tid s) (next : Step debug tid s s') : Writes s s' := by
  obtain ⟨layout, _, c, held⟩ := h
  have hand : ∀ {t : T} {pc : Pc}, s.pc t = pc → Hand tid s c t pc := fun at_ => at_ ▸ held.hand _
  have kept : ∀ {a : Nat}, c a ≠ .client → a ∉ s.live.map Allocation.block :=
    fun notClient listed => notClient ((held.client _).mp listed)
  have fill : ∀ {p : PageRef} {i a : Nat}, s.IsBlock p i a → c a ≠ .client → s.HeaderOk p a →
      s'.memory = (if debug then poison s.memory a else s.memory) → Writes s s' := by
    intro p i a written notClient header memory
    split at memory
    · exact .block written (kept notClient) (memory ▸ sameOutside_poison header.size)
    · exact .nothing memory
  cases next with
  | writeHeader at_ =>
    obtain ⟨mine, p, i, written, bucket⟩ := hand at_
    refine .block written (kept (by simp [mine])) (sameOutside_storeHeader _ ?_)
    rw [bucket]
    exact Nat.le_of_add_left_le (Request.spec _).2
  | poisonOwned at_ =>
    obtain ⟨free, p, i, written, header, _⟩ := hand at_
    exact fill written (by simp [free]) header rfl
  | poisonRemote at_ =>
    obtain ⟨mine, ⟨i, written⟩, header⟩ := hand at_
    exact fill written (by simp [mine]) header rfl
  | pushLink at_ =>
    obtain ⟨mine, ⟨i, written⟩, _⟩ := hand at_
    have size := blockSize_bounds (layout.carved _ written.page).1
    refine .block written (kept (by simp [mine])) (sameOutside_storeBytes (Nat.le_refl _) ?_)
    rw [length_wordBytes]
    simp only [headerSize] at size
    omega
  | clientWrite live low high => exact .client live low high rfl rfl
  | _ => exact .nothing rfl

omit [DecidableEq T] in
/-- A write into one block leaves all of another as it was. -/
theorem Sound.same_of_outside (h : Sound tid s) {p : PageRef} {i a : Nat} {memory : Memory}
    (written : s.IsBlock p i a) (outside : SameOutside s.memory memory a
      (blockSize (s.page p).bucket)) {m : Allocation} (live : m ∈ s.live) (other : m.block ≠ a)
    {x : Nat} (inside : Within m.block (blockSize m.bucket) x) : memory x = s.memory x := by
  obtain ⟨layout, _, c, held⟩ := h
  obtain ⟨q, j, block, bucket, _⟩ := held.granted m live
  have apart := layout.block_apart written block other.symm
  rw [bucket] at apart
  obtain ⟨low, high⟩ := inside
  apply outside
  omega

/-- No step writes to the header of a live block. -/
theorem Sound.heads (h : Sound tid s) (next : Step debug tid s s') {m : Allocation}
    (live : m ∈ s.live) : SameHead s.memory s'.memory m.block := by
  cases h.writes next with
  | nothing memory =>
    rw [memory]
    exact .refl _ _
  | @block p i a written kept outside =>
    have other : m.block ≠ a := fun same => kept (same ▸ List.mem_map_of_mem live)
    obtain ⟨layout, _, c, held⟩ := h
    obtain ⟨q, j, block, _⟩ := held.granted m live
    exact layout.sameHead_of_outside written outside block other
  | client member low high memory still =>
    obtain ⟨layout, _, c, held⟩ := h
    obtain ⟨q, j, block, _⟩ := held.granted m live
    rw [memory]
    exact held.sameHead_clientWrite layout member low high block

/-! ### Calls -/

/-- Inside a call, before the header of a new block is written. -/
def Pc.Working : Pc → Prop
  | .idle | .writeHeader _ _ | .returning _ _ => False
  | _ => True

/-- A step inside the call of `t` in which no other thread moves. -/
structure Advances (debug : Bool) (tid : T → Int) (t : T) (s s' : State T) : Prop where
  working : (s.pc t).Working
  step : Step debug tid s s'
  others : ∀ u, u ≠ t → s'.pc u = s.pc u

/-- Any number of such steps. -/
def Works (debug : Bool) (tid : T → Int) (t : T) : State T → State T → Prop :=
  Relation.ReflTransGen (Advances debug tid t)

/-- Nor does the client write behind a pointer meanwhile, which would change memory and
move nobody. -/
structure AdvancesAlone (debug : Bool) (tid : T → Int) (t : T) (s s' : State T) : Prop
    extends Advances debug tid t s s' where
  quiet : s'.pc t = s.pc t → s'.memory = s.memory

/-- Any number of steps of `t` and nobody else's. -/
def WorksAlone (debug : Bool) (tid : T → Int) (t : T) : State T → State T → Prop :=
  Relation.ReflTransGen (AdvancesAlone debug tid t)

theorem WorksAlone.works (h : WorksAlone debug tid t s s') : Works debug tid t s s' :=
  h.lift id fun _ _ step => step.toAdvances

namespace State

/-- The end of `lc_heap_allocate`: the header is written and the block returned. -/
def handOut (s : State T) (t : T) (r : Request) (block : Nat) : State T :=
  { s with
    memory := storeHeader s.memory block ⟨r.size, r.bucket, heapMagic⟩
    live := ⟨block, r.size, r.bucket⟩ :: s.live }.setPc t .idle

/-- The beginning of `lc_heap_free`. -/
def takeBack (s : State T) (t : T) (m : Allocation) : State T :=
  { s with live := s.live.erase m }.setPc t (.checkHeader m.ptr)

/-- `header->size = new_size`. -/
def resize (s : State T) (block newSize : Nat) : State T :=
  { s with memory := storeBytes s.memory block (wordBytes 8 newSize) }

end State

theorem Advances.live (h : Advances debug tid t s s') : s'.live = s.live := by
  obtain ⟨working, next, others⟩ := h
  -- The two steps that change the list are taken by no working thread, and they
  -- would move any other.
  have still : ∀ {u : T} {pc : Pc}, s'.pc u = pc → ¬ (s.pc u).Working → s.pc u = pc := by
    intro u pc after notWorking
    by_cases self : u = t
    · subst u
      exact absurd working notWorking
    · exact (others u self).symm.trans after
  cases next with
  | returning at_ | callFree at_ =>
    have := still (update_self ..) (by rw [at_]; exact id)
    rw [at_] at this
    cases this
  | _ => rfl

/-- What a thread has done inside its call. -/
structure Worked (tid : T → Int) (t : T) (s s' : State T) : Prop where
  sound : Sound tid s'
  kept : Kept s s'
  others : ∀ u, u ≠ t → s'.pc u = s.pc u

section

variable (h : Sound tid s)
include h

theorem Sound.works (distinct : Injective tid) (works : Works debug tid t s s') :
    Worked tid t s s' := by
  induction works with
  | refl => exact ⟨h, .refl s, fun _ _ => rfl⟩
  | tail _ next ih =>
    have kept : Kept _ _ := ⟨next.live, fun m member => ih.sound.heads next.step member⟩
    exact ⟨ih.sound.step distinct next.step, ih.kept.trans kept,
      fun u other => (next.others u other).trans (ih.others u other)⟩

/-- `lc_heap_allocate` up to the point where it has a block or gives up. -/
theorem Sound.allocates (distinct : Injective tid) {size : Nat}
    (isSmall : findBucket (requestSize size) ≠ bucketLarge) (idle : s.pc t = .idle)
    (run : Works debug tid t (s.setPc t (.getLocal ⟨requestSize size, isSmall⟩)) s') :
    Worked tid t s s' := by
  have call : Step debug tid s _ := .callAllocate idle size isSmall
  obtain ⟨sound, kept, others⟩ := (h.step distinct call).works distinct run
  exact ⟨sound, ⟨kept.live, kept.heads⟩,
    fun u other => (others u other).trans (update_of_ne other ..)⟩

/-- A step of `t` alone writes into no live block. -/
theorem Sound.bytes_step (next : Step debug tid s s') (quiet : s'.pc = s.pc → s'.memory = s.memory)
    {m : Allocation} (live : m ∈ s.live) {x : Nat}
    (inside : Within m.block (blockSize m.bucket) x) : s'.memory x = s.memory x := by
  cases h.writes next with
  | nothing memory => rw [memory]
  | @block p i a written kept outside =>
    have other : m.block ≠ a := fun same => kept (same ▸ List.mem_map_of_mem live)
    exact h.same_of_outside written outside live other inside
  | client _ _ _ _ still => rw [quiet still]

/-- Nor does all that it does inside its call. -/
theorem Sound.bytes_works (distinct : Injective tid) (works : WorksAlone debug tid t s s')
    {m : Allocation} (live : m ∈ s.live) {x : Nat}
    (inside : Within m.block (blockSize m.bucket) x) : s'.memory x = s.memory x := by
  induction works with
  | refl => rfl
  | tail before next ih =>
    have worked := h.works distinct (WorksAlone.works before)
    refine (worked.sound.bytes_step next.step (fun still => next.quiet ?_)
      (worked.kept.live ▸ live) inside).trans ih
    rw [still]

/-- Writing the header and returning are the last two steps of the call. -/
theorem Sound.handOut (distinct : Injective tid) {r : Request} {block : Nat}
    (at_ : s.pc t = .writeHeader r block) : Sound tid (s.handOut t r block) := by
  have write : Step false tid s _ := .writeHeader at_
  have returned := (h.step distinct write).step distinct
    (@Step.returning T _ false tid _ t r block (update_self ..))
  simpa only [State.handOut, State.setPc, update_idem] using returned

theorem Sound.sizes_handOut {r : Request} {block : Nat} (at_ : s.pc t = .writeHeader r block) :
    (s.handOut t r block).sizes = r.size :: s.sizes := by
  have spec := r.spec
  have bound := blockSize_le r.bucket
  have stored : (readHeader (storeHeader s.memory block ⟨r.size, r.bucket, heapMagic⟩) block).size =
      r.size := by
    rw [readHeader_storeHeader]
    · exact Nat.lt_of_le_of_lt (Nat.le_of_add_right_le (Nat.le_trans spec.2 bound)) (by decide)
    · exact Nat.lt_trans spec.1 (by decide)
    · exact (by decide : heapMagic < 2 ^ 32)
  have write : Step false tid s _ := .writeHeader at_
  rw [State.sizes, State.handOut]
  exact congrArg₂ List.cons stored (map_size_eq fun m member => h.heads write member)

omit h in
omit [DecidableEq T] in
/-- One block's size is an entry of the list, the others are the rest. -/
theorem State.sizes_perm {m : Allocation} (live : m ∈ s.live) :
    s.sizes ~ (readHeader s.memory m.block).size ::
      (s.live.erase m).map fun m => (readHeader s.memory m.block).size :=
  (List.perm_cons_erase live).map _

/-- `lc_heap_free` takes one block away and leaves the others alone. -/
theorem Sound.frees (distinct : Injective tid) {m : Allocation} (idle : s.pc t = .idle)
    (live : m ∈ s.live) (run : Works debug tid t (s.takeBack t m) s') :
    Sound tid s' ∧ (∀ u, u ≠ t → s'.pc u = s.pc u) ∧
      s.sizes ~ (readHeader s.memory m.block).size :: s'.sizes := by
  have call : Step debug tid s (s.takeBack t m) := .callFree idle live
  obtain ⟨sound, kept, others⟩ := (h.step distinct call).works distinct run
  refine ⟨sound, fun u other => (others u other).trans (update_of_ne other ..), ?_⟩
  rw [kept.sizes]
  exact State.sizes_perm live

end

/-! ### The address space -/

/-- The addresses of a live block, header included. -/
def Allocation.stretch (m : Allocation) : Stretch := ⟨m.block, blockSize m.bucket⟩

namespace Sound

omit [DecidableEq T]

/-- Live blocks lie apart. -/
theorem stretches_apart (h : Sound tid s) :
    (s.live.map Allocation.stretch).Pairwise Stretch.Apart := by
  obtain ⟨layout, _, c, held⟩ := h
  have blocks : s.live.Pairwise fun m m' => m.block ≠ m'.block := List.pairwise_map.mp held.once
  refine List.pairwise_map.mpr (blocks.imp_of_mem ?_)
  exact fun member member' ne =>
    layout.granted_disjoint (held.granted _ member) (held.granted _ member') ne

/-- A live block lies in a segment, behind the first page. -/
theorem in_segment (h : Sound tid s) {m : Allocation} (live : m ∈ s.live) :
    ∃ seg ∈ s.allSegments, seg + allocPageSize ≤ m.block ∧
      m.block + m.stretch.length ≤ seg + segmentSize ∧ seg + segmentSize ≤ 2 ^ 64 := by
  obtain ⟨layout, _, c, held⟩ := h
  obtain ⟨p, i, block, bucket, _⟩ := held.granted m live
  have valid := layout.valid block.page.1
  have inSegment := valid.inSegment
  have inside := layout.inside block
  rw [bucket] at inside
  refine ⟨p.segment, block.page.1.1, ?_, ?_, valid.inRange⟩
  · omega
  · exact Nat.le_trans inside.2 inSegment.2

/-- The recorded size fits in the block. -/
theorem size_fits (h : Sound tid s) {m : Allocation} (live : m ∈ s.live) :
    (readHeader s.memory m.block).size + headerSize ≤ m.stretch.length := by
  obtain ⟨_, _, c, held⟩ := h
  obtain ⟨p, i, _, bucket, header⟩ := held.granted m live
  rw [Allocation.stretch, ← bucket]
  exact header.size

/-- The recorded class is the block's. -/
theorem bucket (h : Sound tid s) {m : Allocation} (live : m ∈ s.live) :
    (readHeader s.memory m.block).bucket = m.bucket ∧ m.bucket < bucketCount := by
  obtain ⟨layout, _, c, held⟩ := h
  obtain ⟨p, i, block, bucket, header⟩ := held.granted m live
  exact ⟨header.bucket.trans bucket, bucket ▸ (layout.carved p block.page).1⟩

end Sound

/-! ### A new size in place -/

section Resize

variable {m : Allocation} {newSize : Nat}

omit [DecidableEq T] in
theorem Sound.heads_resize (h : Sound tid s) (live : m ∈ s.live) {p : PageRef} {i a : Nat}
    (block : s.IsBlock p i a) (other : a ≠ m.block) :
    SameHead s.memory (s.resize m.block newSize).memory a := by
  obtain ⟨layout, _, c, held⟩ := h
  obtain ⟨q, j, written, _⟩ := held.granted m live
  have size := blockSize_bounds (layout.carved q written.page).1
  refine layout.sameHead_of_outside written (sameOutside_storeBytes (Nat.le_refl _) ?_) block other
  rw [length_wordBytes]
  simp only [headerSize] at size
  omega

omit [DecidableEq T] in
theorem readHeader_resize (word : newSize < 2 ^ 64) (block : Nat) :
    readHeader (s.resize block newSize).memory block =
      { readHeader s.memory block with size := newSize } := by
  have size : loadWord (s.resize block newSize).memory block 8 = newSize :=
    (loadWord_storeBytes_same 8 newSize).trans (Nat.mod_eq_of_lt word)
  have bucket : loadWord (s.resize block newSize).memory (block + 8) 4 =
      loadWord s.memory (block + 8) 4 := loadWord_storeBytes_disjoint (by simp)
  have magic : loadWord (s.resize block newSize).memory (block + 12) 4 =
      loadWord s.memory (block + 12) 4 := loadWord_storeBytes_disjoint (by simp)
  rw [readHeader, size, bucket, magic]
  rfl

omit [DecidableEq T] in
/-- A size that fits in the block leaves its header a good one, and nobody else
looks at it. -/
theorem Sound.resize (h : Sound tid s) (live : m ∈ s.live)
    (fits : newSize + headerSize ≤ blockSize m.bucket) : Sound tid (s.resize m.block newSize) := by
  have same : Undisturbed s (s.resize m.block newSize) := .of_eq rfl rfl
  have heads : ∀ {p i a}, s.IsBlock p i a → a ≠ m.block →
      SameHead s.memory (s.resize m.block newSize).memory a := h.heads_resize live
  have bound := blockSize_le m.bucket
  have word : newSize < 2 ^ 64 := by omega
  have header := readHeader_resize (s := s) word m.block
  obtain ⟨layout, lock, c, held⟩ := h
  obtain ⟨p, i, block, bucket, ok⟩ := held.granted m live
  have client : c m.block = .client := (held.client _).mp (List.mem_map_of_mem live)
  have used : ∀ {a holder}, c a = holder → holder ≠ .free → holder ≠ .client →
      SameHead s.memory (s.resize m.block newSize).memory a := by
    intro a holder at_ notFree notClient
    obtain ⟨q, j, other⟩ := held.domain a (by rwa [at_])
    refine heads other ?_
    rintro rfl
    exact notClient (at_.symm.trans client)
  refine ⟨layout.undisturbed same layout.locals layout.here, ⟨lock.free, lock.unique⟩, c, ?_⟩
  refine held.carry same.grows rfl (held.marks.congr same.toSamePages fun _ => rfl) ?_ ?_ ?_
  · intro q exist
    exact (held.posted q (same.hasPage.mp exist)).congr rfl
      (fun a listed => used listed nofun nofun) fun _ => .rfl
  · intro m' member
    obtain ⟨q, j, block', bucket', ok'⟩ := held.granted m' member
    by_cases self : m'.block = m.block
    · rw [self] at block' ok'
      obtain ⟨rfl, rfl⟩ := layout.block_unique block' block
      refine ⟨q, j, ?_, bucket', ?_, ?_, ?_⟩
      · exact self ▸ same.isBlock.mpr block'
      · rw [self, header]
        exact bucket ▸ fits
      · rw [self, header]
        exact ok.bucket
      · rw [self, header]
        exact ok.magic
    · exact (held.granted m' member).grows same.grows (heads block' self)
  · intro u
    refine (held.hand u).rely ⟨same.grows, fun a mine => ⟨mine, used mine nofun nofun⟩, ?_⟩
    intro q j a other _ free
    refine ⟨free, heads other ?_⟩
    rintro rfl
    rw [client] at free
    cases free

omit [DecidableEq T] in
/-- The new size takes the place of the old one in the list. -/
theorem Sound.sizes_resize (h : Sound tid s) (live : m ∈ s.live) (word : newSize < 2 ^ 64) :
    (s.resize m.block newSize).sizes ~ newSize ::
      (s.live.erase m).map fun m => (readHeader s.memory m.block).size := by
  have first : (readHeader (s.resize m.block newSize).memory m.block).size = newSize := by
    rw [readHeader_resize word]
  have others : ((s.live.erase m).map fun m' =>
        (readHeader (s.resize m.block newSize).memory m'.block).size) =
      (s.live.erase m).map fun m' => (readHeader s.memory m'.block).size := by
    apply map_size_eq
    intro m' member
    obtain ⟨c, held⟩ := h.held
    obtain ⟨q, j, block, _⟩ := held.granted m' (List.mem_of_mem_erase member)
    refine h.heads_resize live block ?_
    intro same
    have once := (List.nodup_cons.mp
      (((List.perm_cons_erase live).map Allocation.block).nodup_iff.mp held.once)).1
    exact once (same ▸ List.mem_map_of_mem member)
  have listed : m ∈ (s.resize m.block newSize).live := live
  rw [← others]
  have split := State.sizes_perm listed
  rwa [first] at split

end Resize

end Lightc.Heap.Small
