import Lightc.Heap.Small.Custody

/-!
# No small block is handed out twice

Every step of the small heap is a move in the custody system, so the ledger never
loses or duplicates a block. Live blocks are therefore different blocks, and
different blocks share no byte; a block that is about to be returned is in the
hands of its thread, so it is neither live nor on any remote list.
-/

namespace Lightc.Heap.Small

open Machine Verification Function

variable {T : Type} {debug : Bool} {tid : T → Int} {s s' : State T}
variable {c c' : Ledger Nat T PageRef} {t u : T} {p : PageRef} {i a : Nat}

/-! ### Branches -/

theorem Hand.startWalk (r : Request) (found : Option HeapLocal) :
    Hand tid s c t (startWalk r found) := by
  cases found <;> trivial

theorem Hand.afterDrain (r : Request) (p : PageRef) (page : Page) :
    Hand tid s c t (afterDrain r p page) := by
  rw [Small.afterDrain]
  split <;> trivial

theorem Hand.afterAcquire (r : Request) (old : Nat) : Hand tid s c t (afterAcquire r old) := by
  rw [Small.afterAcquire]
  split <;> trivial

theorem Hand.afterSearch (r : Request) (found : Option PageRef) :
    Hand tid s c t (afterSearch r found) := by
  cases found <;> trivial

theorem Hand.afterRelease (r : Request) (found : Option PageRef) :
    Hand tid s c t (afterRelease r found) := by
  cases found <;> trivial

/-- The header of a live block passes the checks and is not a large one. -/
theorem afterHeader_eq (layout : Layout tid s) (block : s.IsBlock p i a)
    (header : s.HeaderOk p a) (ptr : Nat) :
    afterHeader debug (readHeader s.memory a) ptr = .findOwner ptr := by
  have small : (s.page p).bucket ≠ bucketLarge :=
    Nat.ne_of_lt (Nat.lt_trans (layout.carved p block.page).1 (by decide))
  rw [afterHeader, header.magic, header.bucket, if_neg (by simp [heapMagic, heapMagicFreed]),
    if_neg (by simp), if_neg small]

/-- The owner goes to its bitmap, everybody else to the remote list. -/
theorem Hand.afterOwner (layout : Layout tid s) {found : Option HeapLocal}
    (get : GetLocal (tid t) (s.heapLocal t) found) (held : c a = .thread t)
    (block : s.IsBlock p i a) (header : s.HeaderOk p a) :
    Hand tid s c t (afterOwner p (s.page p) a found) := by
  cases found with
  | none => exact ⟨held, ⟨i, block⟩, header⟩
  | some heapLocal =>
    have own := (layout.getLocal get rfl).tid
    rw [Small.afterOwner]
    split
    · rename_i owner
      exact ⟨held, ⟨i, block⟩, header, owner.trans own⟩
    · exact ⟨held, ⟨i, block⟩, header⟩

/-- A hand does not depend on the thread's heap or its place. -/
theorem Hand.congr {pc : Pc} (h : Hand tid s c t pc) (same : SamePages s s')
    (memory : s'.memory = s.memory) : Hand tid s' c t pc :=
  h.rely ⟨same.grows, fun a held => ⟨held, memory ▸ .refl _ a⟩,
    fun _ _ a _ _ free => ⟨free, memory ▸ .refl _ a⟩⟩

/-- A list head is null or a block, so it is a word. -/
theorem Held.head_lt (h : Held tid s c) (layout : Layout tid s) (exist : s.HasPage p) :
    (s.page p).remoteFreeList < 2 ^ 64 := by
  obtain ⟨nodes, chain, _, members⟩ := h.posted p exist
  by_cases null : (s.page p).remoteFreeList = 0
  · rw [null]
    decide
  · obtain ⟨rest, rfl, _⟩ := chain.eq_cons null
    obtain ⟨j, block⟩ := h.mail p _ ((members _).mp List.mem_cons_self)
    exact (layout.address_bounds block).2

variable [DecidableEq T]

/-! ### Every step is a move -/

/-- A step of a thread that changes no data others read. -/
theorem Held.goes (h : Held tid s c) (distinct : Injective tid) {pc : Pc}
    (here : Hand tid s c t pc) : Held tid (s.setPc t pc) c := by
  have same : Undisturbed s (s.setPc t pc) := .of_eq rfl rfl
  exact h.quiet distinct rfl rfl rfl rfl rfl (here.congr same.toSamePages rfl)

/-- The same with a new heap of the thread's own. -/
theorem Held.goesWith (h : Held tid s c) (distinct : Injective tid) {pc : Pc}
    (found : Option HeapLocal) (here : Hand tid s c t pc) :
    Held tid ((s.setLocal t found).setPc t pc) c := by
  have same : Undisturbed s ((s.setLocal t found).setPc t pc) := .of_eq rfl rfl
  exact h.quiet distinct rfl rfl rfl rfl rfl (here.congr same.toSamePages rfl)

/-- The debug fill of a block the thread may write to. -/
theorem Held.poison (h : Held tid s c) (layout : Layout tid s) (distinct : Injective tid)
    {pc : Pc} (block : s.IsBlock p i a) (header : s.HeaderOk p a)
    (may : c a = .thread t ∨ c a = .free ∧ (s.page p).ownerTid = tid t)
    (here : ∀ memory, Hand tid ({ s with memory := memory }.setPc t pc) c t pc) :
    Held tid ({ s with memory := if debug then poison s.memory a else s.memory }.setPc t pc)
      c := by
  refine h.write layout distinct block may ?_ (here _)
  split
  · exact sameOutside_poison header.size
  · exact fun _ _ => rfl

omit [DecidableEq T] in
/-- The client writes behind the header, so no head changes. -/
theorem Held.sameHead_clientWrite (h : Held tid s c) (layout : Layout tid s) {m : Allocation}
    {address : Nat} {bytes : List UInt8} (live : m ∈ s.live) (low : m.ptr ≤ address)
    (high : address + bytes.length ≤ m.block + blockSize m.bucket) (block : s.IsBlock p i a) :
    SameHead s.memory (storeBytes s.memory address bytes) a := by
  obtain ⟨q, j, written, bucket, _⟩ := h.granted m live
  simp only [Allocation.ptr] at low
  have outside : SameOutside s.memory (storeBytes s.memory address bytes) m.block
      (blockSize (s.page q).bucket) :=
    sameOutside_storeBytes (by omega) (bucket ▸ high)
  by_cases self : a = m.block
  · subst a
    intro k inHead
    apply storeBytes_outside
    omega
  · exact layout.sameHead_of_outside written outside block self

omit [DecidableEq T] in
theorem Held.clientWrite (h : Held tid s c) (layout : Layout tid s) {m : Allocation}
    {address : Nat} {bytes : List UInt8} (live : m ∈ s.live) (low : m.ptr ≤ address)
    (high : address + bytes.length ≤ m.block + blockSize m.bucket) :
    Held tid { s with memory := storeBytes s.memory address bytes } c := by
  have same : Undisturbed s { s with memory := storeBytes s.memory address bytes } :=
    .of_eq rfl rfl
  have used : ∀ b, c b ≠ .free → SameHead s.memory (storeBytes s.memory address bytes) b := by
    intro b notFree
    obtain ⟨q, j, other⟩ := h.domain b notFree
    exact h.sameHead_clientWrite layout live low high other
  refine h.unmoved same.toSamePages (fun _ => rfl) (fun _ => rfl) rfl
    (fun _ b posted => used b (by simp [posted])) (fun b granted => used b (by simp [granted])) ?_
  intro u
  exact (h.hand u).rely ⟨same.grows, fun b held => ⟨held, used b (by simp [held])⟩,
    fun q j b other _ free => ⟨free, h.sameHead_clientWrite layout live low high other⟩⟩

theorem Held.step (h : Held tid s c) (layout : Layout tid s) (lock : LockHeld s)
    (distinct : Injective tid) (next : Step debug tid s s') :
    ∃ c', (c' = c ∨ ∃ t, Move t c c') ∧ Held tid s' c' := by
  -- What the moving thread knows where it stands.
  have hand : ∀ {t : T} {pc : Pc}, s.pc t = pc → Hand tid s c t pc := fun at_ => at_ ▸ h.hand _
  have known : ∀ {t : T} {pc : Pc}, s.pc t = pc → s.At (tid t) pc := fun at_ => at_ ▸ layout.here _
  have layout' : Layout tid s' := layout.step lock next
  cases next with
  | callAllocate | walkEnd | createFailed | takeNone =>
    exact ⟨c, .inl rfl, h.goes distinct trivial⟩
  | getLocal => exact ⟨c, .inl rfl, h.goesWith distinct _ (.startWalk _ _)⟩
  | @exchange t r p at_ =>
    have own : s.Owned (tid t) r.bucket p := known at_
    exact ⟨c.collect t p, .inr ⟨t, .collect p⟩, h.collect own.exist⟩
  | drainNext at_ more =>
    obtain ⟨nodes, chain, nodup, blocks⟩ := hand at_
    obtain ⟨rest, rfl, tail⟩ := chain.eq_cons more
    exact ⟨c, .inl rfl, h.goes distinct ⟨rest, tail, nodup, blocks⟩⟩
  | @drainClear t r p list next at_ =>
    obtain ⟨nodes, chain, nodup, blocks⟩ := hand at_
    obtain ⟨held, i, block⟩ := blocks list List.mem_cons_self
    obtain ⟨fresh, nodup⟩ := List.nodup_cons.mp nodup
    refine ⟨_, .inr ⟨t, .retire held⟩, h.retire layout block held ⟨nodes, chain, nodup, ?_⟩⟩
    intro b member
    obtain ⟨held', j, block'⟩ := blocks b (List.mem_cons_of_mem _ member)
    have ne : b ≠ list := by
      rintro rfl
      exact fresh member
    have same : Undisturbed s ((s.setPage p (bitmapFreeBlock (s.page p) list)).setPc t
        (.drain r p next)) := .of_update rfl rfl (bitmapFreeBlock_sameFrame _ _)
    exact ⟨(update_of_ne ne ..).trans held', j, same.isBlock.mpr block'⟩
  | drained => exact ⟨c, .inl rfl, h.goes distinct (.afterDrain _ _ _)⟩
  | acquire =>
    exact ⟨c, .inl rfl, h.quiet distinct rfl rfl rfl rfl rfl (.afterAcquire _ _)⟩
  | findPage => exact ⟨c, .inl rfl, h.goes distinct (.afterSearch _ _)⟩
  | createSegment _ mapped => exact ⟨c, .inl rfl, h.create mapped trivial⟩
  | initPage at_ => exact ⟨c, .inl rfl, h.assign (known at_).2 layout' trivial⟩
  | release =>
    exact ⟨c, .inl rfl, h.quiet distinct rfl rfl rfl rfl rfl (.afterRelease _ _)⟩
  | prepend =>
    refine ⟨c, .inl rfl, h.keep distinct (.of_update rfl rfl rfl rfl rfl)
      (forall_page_update (P := fun old new => new.bitmap = old.bitmap) rfl fun _ => rfl)
      (forall_page_update (P := fun old new => new.remoteFreeList = old.remoteFreeList) rfl
        fun _ => rfl) rfl rfl (fun _ _ a _ _ _ => .refl _ a) trivial⟩
  | @takeBlock t r p page block at_ found =>
    obtain ⟨move, held⟩ := h.take layout distinct (known at_) found
    exact ⟨_, .inr ⟨t, move⟩, held⟩
  | @writeHeader t r block at_ =>
    obtain ⟨held, p, i, isBlock, bucket⟩ := hand at_
    have spec := r.spec
    have size := blockSize_bounds spec.1
    have room : headerSize ≤ blockSize (s.page p).bucket := by
      rw [bucket]
      omega
    have stored : readHeader (storeHeader s.memory block ⟨r.size, r.bucket, heapMagic⟩) block =
        ⟨r.size, r.bucket, heapMagic⟩ := by
      apply readHeader_storeHeader
      · exact Nat.lt_of_le_of_lt (Nat.le_of_add_right_le spec.2)
          (Nat.lt_of_le_of_lt size.2 (by decide))
      · exact Nat.lt_trans spec.1 (by decide)
      · exact (by decide : heapMagic < 2 ^ 32)
    refine ⟨c, .inl rfl, h.write layout distinct isBlock (.inl held)
      (sameOutside_storeHeader _ room) ⟨held, p, i, ?_, bucket, ?_, ?_, ?_⟩⟩
    · exact { isBlock with }
    · change (readHeader (storeHeader s.memory block _) block).size + _ ≤ _
      rw [stored]
      exact bucket ▸ spec.2
    · change (readHeader (storeHeader s.memory block _) block).bucket = _
      rw [stored]
      exact bucket.symm
    · change (readHeader (storeHeader s.memory block _) block).magic = _
      rw [stored]
  | @returning t r block at_ =>
    obtain ⟨held, p, i, isBlock, bucket, header⟩ := hand at_
    exact ⟨_, .inr ⟨t, .grant held⟩, h.grant isBlock bucket header held⟩
  | @callFree t m at_ live =>
    obtain ⟨move, held⟩ := h.surrender live
    exact ⟨_, .inr ⟨t, move⟩, held⟩
  | checkHeader at_ =>
    obtain ⟨a, p, i, rfl, held, block, header⟩ := hand at_
    refine ⟨c, .inl rfl, h.goes distinct ?_⟩
    rw [Nat.add_sub_cancel, afterHeader_eq layout block header]
    exact ⟨a, p, i, rfl, held, block, header⟩
  | findOwner at_ get =>
    obtain ⟨a, p, i, rfl, held, block, header⟩ := hand at_
    refine ⟨c, .inl rfl, h.goesWith distinct _ ?_⟩
    rw [Nat.add_sub_cancel, layout.pageFromPointer_ptr block]
    exact .afterOwner layout get held block header
  | @freeOwned t p a at_ =>
    obtain ⟨held, ⟨i, block⟩, header, owner⟩ := hand at_
    have same : Undisturbed s ((s.setPage p (bitmapFreeBlock (s.page p) a)).setPc t
        (.poisonOwned a)) := .of_update rfl rfl (bitmapFreeBlock_sameFrame _ _)
    exact ⟨_, .inr ⟨t, .retire held⟩, h.retire layout block held
      ⟨update_self .., p, i, same.isBlock.mpr block,
        header.grows block same.grows (.refl _ _), (same.ownerTid p).trans owner⟩⟩
  | poisonOwned at_ =>
    obtain ⟨free, p, i, block, header, owner⟩ := hand at_
    exact ⟨c, .inl rfl, h.poison layout distinct block header (.inr ⟨free, owner⟩)
      fun _ => trivial⟩
  | poisonRemote at_ =>
    obtain ⟨held, ⟨i, block⟩, header⟩ := hand at_
    exact ⟨c, .inl rfl, h.poison layout distinct block header (.inl held)
      fun _ => ⟨held, i, block.page, block.index, block.address⟩⟩
  | pushLoad at_ =>
    obtain ⟨held, i, block⟩ := hand at_
    exact ⟨c, .inl rfl, h.goes distinct ⟨held, ⟨i, block⟩, h.head_lt layout block.page.1⟩⟩
  | @pushLink t p node old at_ =>
    obtain ⟨held, ⟨i, block⟩, word⟩ := hand at_
    have size := blockSize_bounds (layout.carved p block.page).1
    refine ⟨c, .inl rfl, h.write layout distinct block (.inl held)
      (sameOutside_storeBytes (Nat.le_refl _) ?_)
      ⟨held, ⟨i, block.page, block.index, block.address⟩, ?_⟩⟩
    · rw [length_wordBytes]
      simp only [headerSize] at size
      omega
    · exact (loadWord_storeBytes_same 8 old).trans (Nat.mod_eq_of_lt word)
  | @pushCas t p node old at_ unchanged =>
    obtain ⟨held, ⟨i, block⟩, link⟩ := hand at_
    have notNull := Nat.ne_of_gt (layout.address_bounds block).1
    exact ⟨_, .inr ⟨t, .post p held⟩, h.post block notNull held (link.trans unchanged.symm)⟩
  | pushRetry at_ =>
    obtain ⟨held, block, _⟩ := hand at_
    exact ⟨c, .inl rfl, h.goes distinct ⟨held, block⟩⟩
  | clientWrite live low high =>
    exact ⟨c, .inl rfl, h.clientWrite layout live low high⟩

/-- The small heap only ever moves blocks as the custody system does. -/
theorem small_heap_refines_custody (distinct : Injective tid) :
    (system debug tid).Refines (custody Nat T PageRef) (Held tid) where
  init s start := by
    obtain ⟨segments, _, live, idle⟩ := start
    have none : ∀ p, ¬ s.HasPage p := by
      intro p exist
      rw [State.HasPage, segments] at exist
      exact absurd exist.1 List.not_mem_nil
    refine ⟨fun _ => .free, fun _ => rfl, ?_⟩
    refine ⟨fun _ used => absurd rfl used, ⟨fun p _ _ block => absurd block.page.1 (none p),
      fun p _ assigned => absurd assigned.1 (none p)⟩, ?_, fun p exist => absurd exist (none p),
      ?_, ?_, ?_, ?_⟩
    · intro p a posted
      cases posted
    · rw [live]
      exact List.nodup_nil
    · rw [live]
      exact fun _ => ⟨fun member => absurd member List.not_mem_nil, fun granted => by cases granted⟩
    · rw [live]
      exact fun _ member => absurd member List.not_mem_nil
    · intro t
      rw [(idle t).2]
      trivial
  step s _ c run held next :=
    held.step (layout_reachable run) (lockHeld_inductive.reachable run) distinct next

/-! ### What follows -/

omit [DecidableEq T] in
/-- Different live blocks share no byte. -/
theorem Layout.granted_disjoint (layout : Layout tid s) {m m' : Allocation}
    (member : Granted s m) (member' : Granted s m') (ne : m.block ≠ m'.block) : m.Disjoint m' := by
  obtain ⟨p, i, block, bucket, _⟩ := member
  obtain ⟨q, j, block', bucket', _⟩ := member'
  rw [Allocation.Disjoint, ← bucket, ← bucket']
  exact layout.block_apart block block' ne

/-- The page whose data area holds the block, found as `lc_heap_free` finds it. -/
def Allocation.page (m : Allocation) : PageRef := pageFromPointer m.ptr

/-- The block lies wholly in the data area of a page that exists. -/
structure Allocation.InsidePage (s : State T) (m : Allocation) : Prop where
  exist : s.HasPage m.page
  low : (s.page m.page).dataStart ≤ m.block
  high : m.block + blockSize m.bucket ≤ (s.page m.page).dataStart + allocPageSize

omit [DecidableEq T] in
theorem Layout.granted_inside (layout : Layout tid s) {m : Allocation} (granted : Granted s m) :
    m.InsidePage s := by
  obtain ⟨p, i, block, bucket, _⟩ := granted
  have page : m.page = p := layout.pageFromPointer_ptr block
  have inside := layout.inside block
  rw [← layout.start p block.page.1, bucket] at inside
  exact ⟨page ▸ block.page.1, page ▸ inside.1, page ▸ inside.2⟩

/-- In every reachable state the live blocks are pairwise disjoint and each lies
wholly inside the data area of its page, and a block that `lc_heap_allocate` is
about to return overlaps no live block and is on no page's remote list. -/
theorem small_blocks_never_shared (distinct : Injective tid)
    (run : (system debug tid).Reachable s) :
    s.live.Pairwise Allocation.Disjoint ∧ (∀ m ∈ s.live, m.InsidePage s) ∧
      ∀ t r block, s.pc t = .returning r block →
        (∀ m ∈ s.live, (Allocation.mk block r.size r.bucket).Disjoint m) ∧
          ∀ p, s.HasPage p → ¬ s.OnRemoteList p block := by
  obtain ⟨c, _, held⟩ := (small_heap_refines_custody distinct).reachable run
  have layout := layout_reachable run
  refine ⟨?_, fun m member => layout.granted_inside (held.granted m member), ?_⟩
  · have blocks : s.live.Pairwise fun m m' => m.block ≠ m'.block := List.pairwise_map.mp held.once
    exact blocks.imp_of_mem fun member member' ne =>
      layout.granted_disjoint (held.granted _ member) (held.granted _ member') ne
  · intro t r block returns
    have hand := held.hand t
    rw [returns] at hand
    obtain ⟨mine, p, i, isBlock, bucket, header⟩ := hand
    refine ⟨?_, ?_⟩
    · intro m member
      refine layout.granted_disjoint ⟨p, i, isBlock, bucket, header⟩ (held.granted m member) ?_
      intro same
      have out := (held.client m.block).mp (List.mem_map_of_mem member)
      rw [← same, mine] at out
      cases out
    · intro q exist listed
      obtain ⟨nodes, chain, _, members⟩ := held.posted q exist
      have posted := (members block).mp (chain.mem_of_linked listed)
      rw [mine] at posted
      cases posted

/-! ### Private fields -/

/-- The thread is about to read or write fields of the page that only its owner
uses: its class, its counts, its bitmap, its place in a list. -/
def Pc.Uses : Pc → PageRef → Prop
  | .drain _ p _, q | .drainClear _ p _ _, q | .initPage _ p, q => p = q
  | .prepend _ p, q | .takeBlock _ p, q | .freeOwned p _, q => p = q
  | _, _ => False

omit [DecidableEq T] in
/-- A thread that uses a page owns it, or holds the lock and is about to own it. -/
theorem Held.uses (h : Held tid s c) (layout : Layout tid s) (uses : (s.pc t).Uses p) :
    s.Assigned p ∧ (s.page p).ownerTid = tid t ∨
      (s.page p).bucket = bucketNone ∧ (s.pc t).Locked := by
  have known := layout.here t
  have hand := h.hand t
  have owned : ∀ {r : Request} {q : PageRef}, s.Owned (tid t) r.bucket q →
      s.Assigned q ∧ (s.page q).ownerTid = tid t :=
    fun own => ⟨own.assigned (Request.bucket_ne_none _), own.owner⟩
  cases at_ : s.pc t with
  | drain | drainClear | prepend | takeBlock =>
    rw [at_] at known uses
    cases uses
    exact .inl (owned known)
  | initPage =>
    rw [at_] at known uses
    cases uses
    exact .inr ⟨known.2, trivial⟩
  | freeOwned =>
    rw [at_] at hand uses
    cases uses
    obtain ⟨_, ⟨i, block⟩, _, owner⟩ := hand
    exact .inl ⟨block.page, owner⟩
  | _ =>
    rw [at_] at uses
    exact uses.elim

/-- A thread at an access to the private fields of a page owns it, or holds the lock and is
about to own it, and no other thread is at one. So the plain reads and writes between two
shared accesses may be taken as one step. -/
theorem private_access_exclusive (distinct : Injective tid)
    (run : (system debug tid).Reachable s) (first : (s.pc t).Uses p) :
    (s.Assigned p ∧ (s.page p).ownerTid = tid t ∨
      (s.page p).bucket = bucketNone ∧ (s.pc t).Locked) ∧
      ∀ u, (s.pc u).Uses p → t = u := by
  obtain ⟨c, _, held⟩ := (small_heap_refines_custody distinct).reachable run
  have layout := layout_reachable run
  have mine := held.uses layout first
  refine ⟨mine, fun u second => ?_⟩
  cases mine with
  | inl own =>
    cases held.uses layout second with
    | inl own' => exact distinct (own.2.symm.trans own'.2)
    | inr fresh => exact absurd fresh.1 own.1.2
  | inr fresh =>
    cases held.uses layout second with
    | inl own => exact absurd fresh.1 own.1.2
    | inr fresh' => exact (lockHeld_inductive.reachable run).unique t u fresh.2 fresh'.2

/-- In every interleaving the remote list of a page ends, has no block twice, and every
block on it is one of the page's, marked as used and not live. -/
theorem remote_lists_sound (distinct : Injective tid) (run : (system debug tid).Reachable s)
    (exist : s.HasPage p) :
    ∃ nodes, Chain s.nextNode 0 (s.page p).remoteFreeList nodes ∧ nodes.Nodup ∧
      ∀ a ∈ nodes, (∃ i, s.IsBlock p i a ∧ (s.page p).marked i = true) ∧
        ∀ m ∈ s.live, m.block ≠ a := by
  obtain ⟨c, _, held⟩ := (small_heap_refines_custody distinct).reachable run
  obtain ⟨nodes, chain, once, members⟩ := held.posted p exist
  refine ⟨nodes, chain, once, fun a listed => ?_⟩
  have posted := (members a).mp listed
  obtain ⟨i, block⟩ := held.mail p a posted
  refine ⟨⟨i, block, (held.marks.blocks p i a block).mpr (by simp [posted])⟩, ?_⟩
  rintro m member rfl
  have out := (held.client m.block).mp (List.mem_map_of_mem member)
  rw [posted] at out
  cases out

/-! ### A run -/

/-- Two threads on an empty heap. -/
def twoThreads : State Bool where
  memory := fun _ => 0
  page := fun _ => ⟨none, 0, 0, 0, 0, 0, 0, fun _ => 0⟩
  allSegments := []
  usedPageCount := fun _ => 0
  globalLock := 0
  heapLocal := fun _ => none
  pc := fun _ => .idle
  live := []

def twoTids : Bool → Int := fun t => if t then 2 else 1

theorem twoTids_injective : Injective twoTids := by
  rw [Injective]
  decide

/-- A page that has a block gives one. -/
theorem bitmapAllocateBlock_get {page : Page} (found : (bitmapAllocateBlock page).isSome = true) :
    bitmapAllocateBlock page = some (((bitmapAllocateBlock page).get found).1,
      ((bitmapAllocateBlock page).get found).2) := (Option.some_get found).symm

/-- One thread makes a segment and allocates a block of its first page. The other frees it,
and the first one drains its list and is about to return the same block again. -/
theorem recycling : ∃ mapped pushed last : State Bool,
    ((system true twoTids).Reachable mapped ∧ (mapped.pc false).Uses ⟨4194304, 0⟩) ∧
    ((system true twoTids).Reachable pushed ∧ pushed.HasPage ⟨4194304, 0⟩ ∧
      (pushed.page ⟨4194304, 0⟩).remoteFreeList = 4259840) ∧
    (system true twoTids).Reachable last ∧
      last.pc false = .returning ⟨8, by decide⟩ 4259840 := by
  have start : (system true twoTids).Reachable twoThreads :=
    .init ⟨rfl, rfl, rfl, fun _ => ⟨rfl, rfl⟩⟩
  -- The first allocation makes a segment and takes block 0 of its page 0.
  have asked := (start.step (.callAllocate (t := false) rfl 16 (by decide))).step
    (.getLocal (t := false) rfl .created)
  have locked := (asked.step (.walkEnd (t := false) rfl)).step (.acquire (t := false) rfl)
  have mapped := (locked.step (.findPage (t := false) rfl)).step
    (.createSegment (t := false) rfl (show State.Unmapped _ 4194304 from ⟨by decide, nofun⟩))
  have owned := ((mapped.step (.initPage (t := false) rfl)).step (.release (t := false) rfl)).step
    (.prepend (t := false) rfl rfl)
  have taken := owned.step
    (.takeBlock (t := false) rfl (bitmapAllocateBlock_get (by decide +kernel)))
  have live := (taken.step (.writeHeader (t := false) rfl)).step (.returning (t := false) rfl)
  -- The other thread pushes it on the remote list.
  have freed := (live.step (.callFree (t := true) rfl List.mem_cons_self)).step
    (.checkHeader (t := true) rfl)
  have foreign := freed.step
    (.findOwner (t := true) (show _ = Pc.findOwner 4259856 by decide +kernel) .created)
  have poisoned := foreign.step (.poisonRemote (t := true)
    (show _ = Pc.poisonRemote ⟨4194304, 0⟩ 4259840 by decide +kernel))
  have linked := (poisoned.step (.pushLoad (t := true) rfl)).step (.pushLink (t := true) rfl)
  have pushed := linked.step (.pushCas (t := true) rfl (by decide +kernel))
  -- The owner drains the list before it allocates again.
  have again := (pushed.step (.callAllocate (t := false) rfl 8 (by decide))).step
    (.getLocal (t := false) rfl (.present _))
  have drains := again.step (.exchange (t := false)
    (show _ = Pc.walk ⟨8, by decide⟩ (some ⟨4194304, 0⟩) by decide +kernel))
  have next := drains.step (.drainNext (t := false)
    (show _ = Pc.drain ⟨8, by decide⟩ ⟨4194304, 0⟩ 4259840 by decide +kernel) (by decide))
  have cleared := next.step (.drainClear (t := false)
    (show _ = Pc.drainClear ⟨8, by decide⟩ ⟨4194304, 0⟩ 4259840 0 by decide +kernel))
  have drained := cleared.step (.drained (t := false)
    (show _ = Pc.drain ⟨8, by decide⟩ ⟨4194304, 0⟩ 0 by decide +kernel))
  have retaken := drained.step (.takeBlock (t := false)
    (show _ = Pc.takeBlock ⟨8, by decide⟩ ⟨4194304, 0⟩ by decide +kernel)
    (bitmapAllocateBlock_get (by decide +kernel)))
  have returns := retaken.step (.writeHeader (t := false) rfl)
  exact ⟨_, _, _, ⟨mapped, rfl⟩, ⟨pushed, ⟨List.mem_cons_self, by decide⟩, by decide +kernel⟩,
    returns, by decide +kernel⟩

/-- The block that was drained is on no list when it is returned again. -/
theorem small_blocks_never_shared_recycled :
    ∃ s : State Bool, (system true twoTids).Reachable s ∧
      ∃ r, s.pc false = .returning r 4259840 ∧ ∀ p, s.HasPage p → ¬ s.OnRemoteList p 4259840 := by
  obtain ⟨-, -, s, -, -, run, returns⟩ := recycling
  refine ⟨s, run, _, returns, ?_⟩
  exact ((small_blocks_never_shared twoTids_injective run).2.2 false _ 4259840 returns).2

theorem private_access_exclusive_fresh :
    ∃ s : State Bool, (system true twoTids).Reachable s ∧
      (s.Assigned ⟨4194304, 0⟩ ∧ (s.page ⟨4194304, 0⟩).ownerTid = 1 ∨
        (s.page ⟨4194304, 0⟩).bucket = bucketNone ∧ (s.pc false).Locked) ∧
      (s.pc false).Uses ⟨4194304, 0⟩ ∧ ¬ (s.pc true).Uses ⟨4194304, 0⟩ := by
  obtain ⟨s, -, -, ⟨run, uses⟩, -⟩ := recycling
  obtain ⟨owner, only⟩ := private_access_exclusive twoTids_injective run uses
  exact ⟨s, run, owner, uses, fun other => nomatch only true other⟩

/-- The block that was freed by the other thread is on the list of its page. -/
theorem remote_lists_sound_pushed :
    ∃ s : State Bool, (system true twoTids).Reachable s ∧ s.OnRemoteList ⟨4194304, 0⟩ 4259840 ∧
      (∃ i, s.IsBlock ⟨4194304, 0⟩ i 4259840 ∧ (s.page ⟨4194304, 0⟩).marked i = true) ∧
      ∀ m ∈ s.live, m.block ≠ 4259840 := by
  obtain ⟨-, s, -, -, ⟨run, exist, head⟩, -⟩ := recycling
  obtain ⟨nodes, chain, -, blocks⟩ := remote_lists_sound twoTids_injective run exist
  have listed : s.OnRemoteList ⟨4194304, 0⟩ 4259840 := by
    rw [State.OnRemoteList, head]
    exact .here (by decide)
  exact ⟨s, run, listed, blocks 4259840 (chain.mem_of_linked listed)⟩

end Lightc.Heap.Small
