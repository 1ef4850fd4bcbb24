import Lightc.Heap.Small.Layout
import Lightc.Verification.Custody

/-!
# Who has which block

The heap's data structures are read as a ledger: a clear bit means that a block
is free, the list of live allocations is what the client has, a page's remote
list is its mailbox, and everything else is in the hands of the thread that is
working on it. `Held` says that a ledger describes a state, and every step of
the heap is then a move of the custody system or leaves the ledger alone.

A block's first sixteen bytes are all that is ever read of it: its header while
it is live, its link while it is listed. A thread writes only to blocks in its
hands, or to a block it has just freed in a page of its own, so what the others
know about their blocks stays true (`Rely`).
-/

namespace Lightc.Heap.Small

open Machine Verification Function

/-! ### Headers -/

/-- The first sixteen bytes at `a` are the same. -/
def SameHead (memory memory' : Memory) (a : Nat) : Prop :=
  ∀ i, i < headerSize → memory' (a + i) = memory (a + i)

/-- Nothing outside `[a, a + length)` is written. -/
def SameOutside (memory memory' : Memory) (a length : Nat) : Prop :=
  ∀ x, x < a ∨ a + length ≤ x → memory' x = memory x

variable {memory memory' : Memory} {a b length : Nat}

theorem SameHead.refl (memory : Memory) (a : Nat) : SameHead memory memory a := fun _ _ => rfl

theorem SameHead.loadWord (h : SameHead memory memory' a) (offset count : Nat)
    (inside : offset + count ≤ headerSize) :
    loadWord memory' (a + offset) count = loadWord memory (a + offset) count := by
  apply loadWord_congr
  intro i hi
  have := h (offset + i) (by omega)
  rwa [← Nat.add_assoc] at this

theorem SameHead.readHeader (h : SameHead memory memory' a) :
    readHeader memory' a = readHeader memory a := by
  rw [Small.readHeader, Small.readHeader, h.loadWord 8 4 (by decide),
    h.loadWord 12 4 (by decide)]
  congr 1
  exact h.loadWord 0 8 (by decide)

theorem sameOutside_storeBytes {address : Nat} {bytes : List UInt8} (low : a ≤ address)
    (high : address + bytes.length ≤ a + length) :
    SameOutside memory (storeBytes memory address bytes) a length := by
  intro x outside
  apply storeBytes_outside
  omega

theorem SameOutside.trans {memory'' : Memory} (first : SameOutside memory memory' a length)
    (second : SameOutside memory' memory'' a length) : SameOutside memory memory'' a length :=
  fun x outside => (second x outside).trans (first x outside)

theorem sameOutside_storeHeader (header : Header) (room : headerSize ≤ length) :
    SameOutside memory (storeHeader memory a header) a length := by
  simp only [headerSize] at room
  refine (sameOutside_storeBytes (Nat.le_refl _) ?_).trans
    ((sameOutside_storeBytes (by omega) ?_).trans (sameOutside_storeBytes (by omega) ?_)) <;>
  · rw [length_wordBytes]
    omega

/-- A stored header is read back, its fields being words of their width. -/
theorem readHeader_storeHeader {header : Header} (size : header.size < 2 ^ 64)
    (bucket : header.bucket < 2 ^ 32) (magic : header.magic < 2 ^ 32) :
    readHeader (storeHeader memory a header) a = header := by
  have first : loadWord (storeHeader memory a header) a 8 = header.size := by
    rw [storeHeader, loadWord_storeBytes_disjoint (.inl (by omega)),
      loadWord_storeBytes_disjoint (.inl (by omega)), loadWord_storeBytes_same]
    exact Nat.mod_eq_of_lt size
  have second : loadWord (storeHeader memory a header) (a + 8) 4 = header.bucket := by
    rw [storeHeader, loadWord_storeBytes_disjoint (.inl (by omega)), loadWord_storeBytes_same]
    exact Nat.mod_eq_of_lt bucket
  have third : loadWord (storeHeader memory a header) (a + 12) 4 = header.magic := by
    rw [storeHeader, loadWord_storeBytes_same]
    exact Nat.mod_eq_of_lt magic
  rw [readHeader, first, second, third]

/-- The debug fill stays in the block as long as the recorded size does. -/
theorem sameOutside_poison (fits : (readHeader memory a).size + headerSize ≤ length) :
    SameOutside memory (poison memory a) a length := by
  have size : (readHeader (storeBytes memory (a + 12) (wordBytes 4 heapMagicFreed)) a).size =
      (readHeader memory a).size := loadWord_storeBytes_disjoint (by simp)
  simp only [headerSize] at fits
  rw [poison]
  refine (sameOutside_storeBytes (by omega) ?_).trans (sameOutside_storeBytes (by omega) ?_)
  · rw [length_wordBytes]
    omega
  · rw [List.length_replicate, size, headerSize]
    omega

/-! ### The ledger of a state -/

variable {T : Type} {debug : Bool} {tid : T → Int} {s s' : State T}
variable {c c' : Ledger Nat T PageRef} {t u : T} {p q : PageRef} {i j : Nat}

/-- The header of a block that was returned: a size that fits and the class of
its page. -/
structure State.HeaderOk (s : State T) (p : PageRef) (a : Nat) : Prop where
  size : (readHeader s.memory a).size + headerSize ≤ blockSize (s.page p).bucket
  bucket : (readHeader s.memory a).bucket = (s.page p).bucket
  magic : (readHeader s.memory a).magic = heapMagic

/-- What a thread at a program counter knows about the blocks it works on. -/
def Hand (tid : T → Int) (s : State T) (c : Ledger Nat T PageRef) (t : T) : Pc → Prop
  | .drain _ p list => ∃ nodes, Chain s.nextNode 0 list nodes ∧ nodes.Nodup ∧
      ∀ a ∈ nodes, c a = .thread t ∧ ∃ i, s.IsBlock p i a
  | .drainClear _ p list next => ∃ nodes, Chain s.nextNode 0 next nodes ∧ (list :: nodes).Nodup ∧
      ∀ a ∈ list :: nodes, c a = .thread t ∧ ∃ i, s.IsBlock p i a
  | .writeHeader r a => c a = .thread t ∧ ∃ p i, s.IsBlock p i a ∧ (s.page p).bucket = r.bucket
  | .returning r a => c a = .thread t ∧ ∃ p i, s.IsBlock p i a ∧ (s.page p).bucket = r.bucket ∧
      s.HeaderOk p a
  | .checkHeader ptr | .findOwner ptr => ∃ a p i, ptr = a + headerSize ∧ c a = .thread t ∧
      s.IsBlock p i a ∧ s.HeaderOk p a
  | .freeOwned p a => c a = .thread t ∧ (∃ i, s.IsBlock p i a) ∧ s.HeaderOk p a ∧
      (s.page p).ownerTid = tid t
  | .poisonOwned a => c a = .free ∧ ∃ p i, s.IsBlock p i a ∧ s.HeaderOk p a ∧
      (s.page p).ownerTid = tid t
  | .poisonRemote p a => c a = .thread t ∧ (∃ i, s.IsBlock p i a) ∧ s.HeaderOk p a
  | .pushLoad p a => c a = .thread t ∧ ∃ i, s.IsBlock p i a
  | .pushLink p a old => c a = .thread t ∧ (∃ i, s.IsBlock p i a) ∧ old < 2 ^ 64
  | .pushCas p a old => c a = .thread t ∧ (∃ i, s.IsBlock p i a) ∧ s.nextNode a = old
  | _ => True

/-- The page's remote list is its mailbox, each block once. -/
def Posted (s : State T) (c : Ledger Nat T PageRef) (p : PageRef) : Prop :=
  ∃ nodes, Chain s.nextNode 0 (s.page p).remoteFreeList nodes ∧ nodes.Nodup ∧
    ∀ a, a ∈ nodes ↔ c a = .mailbox p

/-- The allocation is a block of its class with an intact header. -/
def Granted (s : State T) (m : Allocation) : Prop :=
  ∃ p i, s.IsBlock p i m.block ∧ (s.page p).bucket = m.bucket ∧ s.HeaderOk p m.block

/-- Set bits are the blocks that are not free, and everything beyond. -/
structure Marks (s : State T) (c : Ledger Nat T PageRef) : Prop where
  blocks : ∀ p i a, s.IsBlock p i a → ((s.page p).marked i = true ↔ c a ≠ .free)
  beyond : ∀ p i, s.Assigned p → (s.page p).blockCount ≤ i →
    i < ((s.page p).blockCount + 63) / 64 * 64 → (s.page p).marked i = true

structure Held (tid : T → Int) (s : State T) (c : Ledger Nat T PageRef) : Prop where
  domain : ∀ a, c a ≠ .free → ∃ p i, s.IsBlock p i a
  marks : Marks s c
  mail : ∀ p a, c a = .mailbox p → ∃ i, s.IsBlock p i a
  posted : ∀ p, s.HasPage p → Posted s c p
  once : (s.live.map Allocation.block).Nodup
  client : ∀ a, a ∈ s.live.map Allocation.block ↔ c a = .client
  granted : ∀ m ∈ s.live, Granted s m
  hand : ∀ t, Hand tid s c t (s.pc t)

/-! ### What other threads rely on -/

/-- A step leaves what thread `u` knows alone: its own blocks, and free blocks of
its pages. -/
structure Rely (tid : T → Int) (u : T) (s : State T) (c : Ledger Nat T PageRef) (s' : State T)
    (c' : Ledger Nat T PageRef) : Prop where
  grows : Grows s s'
  mine : ∀ a, c a = .thread u → c' a = .thread u ∧ SameHead s.memory s'.memory a
  spare : ∀ p i a, s.IsBlock p i a → (s.page p).ownerTid = tid u → c a = .free →
    c' a = .free ∧ SameHead s.memory s'.memory a

theorem State.HeaderOk.grows (h : s.HeaderOk p a) (block : s.IsBlock p i a) (grows : Grows s s')
    (head : SameHead s.memory s'.memory a) : s'.HeaderOk p a := by
  refine ⟨?_, ?_, ?_⟩
  · rw [head.readHeader, grows.bucket p block.page]
    exact h.size
  · rw [head.readHeader, grows.bucket p block.page]
    exact h.bucket
  · rw [head.readHeader]
    exact h.magic

theorem Granted.grows {m : Allocation} (h : Granted s m) (grows : Grows s s')
    (head : SameHead s.memory s'.memory m.block) : Granted s' m := by
  obtain ⟨p, i, block, bucket, header⟩ := h
  exact ⟨p, i, block.grows grows, (grows.bucket p block.page).trans bucket,
    header.grows block grows head⟩

theorem SameHead.nextNode (h : SameHead s.memory s'.memory a) : s'.nextNode a = s.nextNode a :=
  h.loadWord 0 8 (by decide)

/-- A mailbox is as it was if its head and its blocks are. -/
theorem Posted.congr (h : Posted s c p)
    (head : (s'.page p).remoteFreeList = (s.page p).remoteFreeList)
    (heads : ∀ a, c a = .mailbox p → SameHead s.memory s'.memory a)
    (same : ∀ a, c' a = .mailbox p ↔ c a = .mailbox p) : Posted s' c' p := by
  obtain ⟨nodes, chain, nodup, members⟩ := h
  refine ⟨nodes, ?_, nodup, fun a => (members a).trans (same a).symm⟩
  rw [head]
  exact chain.congr fun a member => (heads a ((members a).mp member)).nextNode

variable {pc : Pc}

/-- What a thread knows survives the steps of the others. -/
theorem Hand.rely (h : Hand tid s c u pc) (rely : Rely tid u s c s' c') : Hand tid s' c' u pc := by
  have grows := rely.grows
  have mine : ∀ {a : Nat}, c a = .thread u → c' a = .thread u := fun held => (rely.mine _ held).1
  have head : ∀ {a : Nat}, c a = .thread u → SameHead s.memory s'.memory a :=
    fun held => (rely.mine _ held).2
  cases pc with
  | drain r p list =>
    obtain ⟨nodes, chain, nodup, blocks⟩ := h
    refine ⟨nodes, chain.congr fun a member => (head (blocks a member).1).nextNode, nodup, ?_⟩
    intro a member
    obtain ⟨held, i, block⟩ := blocks a member
    exact ⟨mine held, i, block.grows grows⟩
  | drainClear r p list next =>
    obtain ⟨nodes, chain, nodup, blocks⟩ := h
    refine ⟨nodes, chain.congr fun a member =>
      (head (blocks a (List.mem_cons_of_mem _ member)).1).nextNode, nodup, ?_⟩
    intro a member
    obtain ⟨held, i, block⟩ := blocks a member
    exact ⟨mine held, i, block.grows grows⟩
  | writeHeader r a =>
    obtain ⟨held, p, i, block, bucket⟩ := h
    exact ⟨mine held, p, i, block.grows grows, (grows.bucket p block.page).trans bucket⟩
  | returning r a =>
    obtain ⟨held, p, i, block, bucket, header⟩ := h
    exact ⟨mine held, p, i, block.grows grows, (grows.bucket p block.page).trans bucket,
      header.grows block grows (head held)⟩
  | checkHeader ptr | findOwner ptr =>
    obtain ⟨a, p, i, ptr, held, block, header⟩ := h
    exact ⟨a, p, i, ptr, mine held, block.grows grows, header.grows block grows (head held)⟩
  | freeOwned p a =>
    obtain ⟨held, ⟨i, block⟩, header, owner⟩ := h
    exact ⟨mine held, ⟨i, block.grows grows⟩, header.grows block grows (head held),
      (grows.ownerTid p block.page).trans owner⟩
  | poisonOwned a =>
    obtain ⟨free, p, i, block, header, owner⟩ := h
    obtain ⟨free', head'⟩ := rely.spare p i a block owner free
    exact ⟨free', p, i, block.grows grows, header.grows block grows head',
      (grows.ownerTid p block.page).trans owner⟩
  | poisonRemote p a =>
    obtain ⟨held, ⟨i, block⟩, header⟩ := h
    exact ⟨mine held, ⟨i, block.grows grows⟩, header.grows block grows (head held)⟩
  | pushLoad p a =>
    obtain ⟨held, i, block⟩ := h
    exact ⟨mine held, i, block.grows grows⟩
  | pushLink p a old =>
    obtain ⟨held, ⟨i, block⟩, word⟩ := h
    exact ⟨mine held, ⟨i, block.grows grows⟩, word⟩
  | pushCas p a old =>
    obtain ⟨held, ⟨i, block⟩, link⟩ := h
    exact ⟨mine held, ⟨i, block.grows grows⟩, (head held).nextNode.trans link⟩
  | _ => trivial

variable [DecidableEq T]

/-- A move of one thread, memory untouched, is not noticed by the others. -/
theorem Rely.of_move (move : Move t c c') (other : u ≠ t) (grows : Grows s s')
    (memory : s'.memory = s.memory)
    (spare : ∀ p i a, s.IsBlock p i a → (s.page p).ownerTid = tid u → c a = .free →
      c' a = .free) : Rely tid u s c s' c' where
  grows := grows
  mine a held := ⟨move.keeps other held, memory ▸ .refl _ a⟩
  spare p i a block owner free := ⟨spare p i a block owner free, memory ▸ .refl _ a⟩

theorem Held.hands (h : Held tid s c) (pcs : s'.pc = update s.pc t pc)
    (rely : ∀ u, u ≠ t → Rely tid u s c s' c') (here : Hand tid s' c' t pc) (u : T) :
    Hand tid s' c' u (s'.pc u) := by
  rw [pcs]
  exact (forall_update_iff s.pc (Hand tid s' c')).mpr
    ⟨here, fun u self => (h.hand u).rely (rely u self)⟩ u

/-! ### Steps that move no block -/

omit [DecidableEq T] in
theorem Marks.congr (h : Marks s c) (same : SamePages s s')
    (bitmap : ∀ p, (s'.page p).bitmap = (s.page p).bitmap) : Marks s' c := by
  have marked : ∀ p i, (s'.page p).marked i = (s.page p).marked i := by
    intro p i
    rw [Page.marked, Page.marked, bitmap p]
  refine ⟨?_, ?_⟩
  · intro p i a block
    rw [marked]
    exact h.blocks p i a (same.isBlock.mp block)
  · intro p i assigned low high
    rw [same.blockCount p] at low high
    rw [marked]
    exact h.beyond p i (same.assigned.mp assigned) low high

omit [DecidableEq T] in
/-- A mailbox nothing was posted to. -/
theorem Posted.empty (head : (s.page p).remoteFreeList = 0) (none : ∀ a, c a ≠ .mailbox p) :
    Posted s c p := by
  refine ⟨[], ?_, List.nodup_nil, fun a => by simp [none a]⟩
  rw [head]
  exact .nil

omit [DecidableEq T] in
/-- Blocks stay blocks where pages are only added, so with the same ledger only the
bitmaps, the lists and what is known of the blocks have to be looked at. -/
theorem Held.carry (h : Held tid s c) (grows : Grows s s') (live : s'.live = s.live)
    (marks : Marks s' c) (posted : ∀ p, s'.HasPage p → Posted s' c p)
    (granted : ∀ m ∈ s.live, Granted s' m) (hand : ∀ u, Hand tid s' c u (s'.pc u)) :
    Held tid s' c where
  domain a used := by
    obtain ⟨p, i, block⟩ := h.domain a used
    exact ⟨p, i, block.grows grows⟩
  marks := marks
  mail p a posted := by
    obtain ⟨i, block⟩ := h.mail p a posted
    exact ⟨i, block.grows grows⟩
  posted := posted
  once := live ▸ h.once
  client := live ▸ h.client
  granted := live ▸ granted
  hand := hand

omit [DecidableEq T] in
/-- The ledger still describes the state if no block a holder relies on has a new
head. -/
theorem Held.unmoved (h : Held tid s c) (same : SamePages s s')
    (bitmap : ∀ p, (s'.page p).bitmap = (s.page p).bitmap)
    (remote : ∀ p, (s'.page p).remoteFreeList = (s.page p).remoteFreeList)
    (live : s'.live = s.live)
    (listed : ∀ p a, c a = .mailbox p → SameHead s.memory s'.memory a)
    (granted : ∀ a, c a = .client → SameHead s.memory s'.memory a)
    (hand : ∀ u, Hand tid s' c u (s'.pc u)) : Held tid s' c := by
  refine h.carry same.grows live (h.marks.congr same bitmap) ?_ ?_ hand
  · intro p exist
    exact (h.posted p (same.hasPage.mp exist)).congr (remote p) (listed p) fun _ => .rfl
  · intro m member
    exact (h.granted m member).grows same.grows
      (granted _ ((h.client _).mp (List.mem_map_of_mem member)))

/-- A step of one thread that writes, if at all, to a block in its hands or to a
free block of a page it owns. -/
theorem Held.keep (h : Held tid s c) (distinct : Injective tid) (same : SamePages s s')
    (bitmap : ∀ p, (s'.page p).bitmap = (s.page p).bitmap)
    (remote : ∀ p, (s'.page p).remoteFreeList = (s.page p).remoteFreeList) (live : s'.live = s.live)
    (pcs : s'.pc = update s.pc t pc) (writes : ∀ p i a, s.IsBlock p i a → ¬ c a = .thread t →
      ¬ (c a = .free ∧ (s.page p).ownerTid = tid t) → SameHead s.memory s'.memory a)
    (here : Hand tid s' c t pc) : Held tid s' c := by
  -- A block with any other holder has an unchanged head.
  have heads : ∀ {a : Nat} {holder : Holder T PageRef}, c a = holder → holder ≠ .free →
      holder ≠ .thread t → SameHead s.memory s'.memory a := by
    intro a holder held used other
    obtain ⟨p, i, block⟩ := h.domain a (by rwa [held])
    exact writes p i a block (by rwa [held]) fun free => used (held ▸ free.1)
  refine h.unmoved same bitmap remote live (fun p a posted => heads posted nofun nofun)
    (fun a granted => heads granted nofun nofun) (h.hands pcs ?_ here)
  intro u other
  refine ⟨same.grows, fun a held => ⟨held, heads held nofun (by simpa using other)⟩, ?_⟩
  intro p i a block owner free
  refine ⟨free, writes p i a block (by simp [free]) ?_⟩
  rintro ⟨_, owner'⟩
  exact other (distinct (owner.symm.trans owner'))

/-- A step that changes program counters, local heaps or the lock only. -/
theorem Held.quiet (h : Held tid s c) (distinct : Injective tid)
    (segments : s'.allSegments = s.allSegments) (page : s'.page = s.page) (live : s'.live = s.live)
    (memory : s'.memory = s.memory) (pcs : s'.pc = update s.pc t pc) (here : Hand tid s' c t pc) :
    Held tid s' c :=
  h.keep distinct (Undisturbed.of_eq segments page).toSamePages (fun _ => by rw [page])
    (fun _ => by rw [page]) live pcs (fun _ _ a _ _ _ => memory ▸ .refl _ a) here

omit [DecidableEq T] in
/-- A write inside one block leaves the heads of all others. -/
theorem Layout.sameHead_of_outside (layout : Layout tid s) (block : s.IsBlock p i a)
    (outside : SameOutside s.memory memory a (blockSize (s.page p).bucket))
    (other : s.IsBlock q j b) (ne : b ≠ a) : SameHead s.memory memory b := by
  intro k inHead
  have apart := layout.block_apart block other ne.symm
  have size := blockSize_bounds (layout.carved q other.page).1
  apply outside
  omega

/-- A thread writes into a block it may write to. -/
theorem Held.write (h : Held tid s c) (layout : Layout tid s) (distinct : Injective tid)
    (block : s.IsBlock p i a) (may : c a = .thread t ∨ c a = .free ∧ (s.page p).ownerTid = tid t)
    (outside : SameOutside s.memory memory a (blockSize (s.page p).bucket))
    (here : Hand tid ({ s with memory := memory }.setPc t pc) c t pc) :
    Held tid ({ s with memory := memory }.setPc t pc) c := by
  have same : Undisturbed s ({ s with memory := memory }.setPc t pc) := .of_eq rfl rfl
  refine h.keep distinct same.toSamePages (fun _ => rfl) (fun _ => rfl) rfl rfl ?_ here
  intro q j b other notMine notSpare
  refine layout.sameHead_of_outside block outside other ?_
  rintro rfl
  cases may with
  | inl mine => exact notMine mine
  | inr spare =>
    obtain ⟨rfl, _⟩ := layout.block_unique other block
    exact notSpare spare

/-! ### Taking and retiring a block -/

/-- One bit of one page changes together with the holder of that block. -/
theorem Held.remark (h : Held tid s c) (layout : Layout tid s) {page : Page}
    {holder : Holder T PageRef} (block : s.IsBlock p i a)
    (segments : s'.allSegments = s.allSegments) (pages : s'.page = update s.page p page)
    (frame : SameFrame (s.page p) page) (remote : page.remoteFreeList = (s.page p).remoteFreeList)
    (bit : page.marked i = true ↔ holder ≠ .free)
    (bits : ∀ j, j ≠ i → page.marked j = (s.page p).marked j) (live : s'.live = s.live)
    (memory : s'.memory = s.memory) (pcs : s'.pc = update s.pc t pc)
    (move : Move t c (update c a holder)) (before : c a = .free ∨ c a = .thread t)
    (after : holder = .free ∨ holder = .thread t)
    (spare : ∀ u, u ≠ t → ∀ q j b, s.IsBlock q j b → (s.page q).ownerTid = tid u → c b = .free →
      update c a holder b = .free) (here : Hand tid s' (update c a holder) t pc) :
    Held tid s' (update c a holder) := by
  have same : SamePages s s' := (Undisturbed.of_update segments pages frame).toSamePages
  -- Neither a mailbox nor the client is concerned.
  have kept : ∀ (b : Nat) (other : Holder T PageRef), other ≠ .free → other ≠ .thread t →
      (update c a holder b = other ↔ c b = other) := fun _ _ =>
    Ledger.update_eq_iff before after
  refine ⟨?_, ⟨?_, ?_⟩, ?_, ?_, live ▸ h.once, ?_, ?_, ?_⟩
  · intro b used
    by_cases self : b = a
    · subst b
      exact ⟨p, i, same.isBlock.mpr block⟩
    · rw [update_of_ne self] at used
      obtain ⟨q, j, other⟩ := h.domain b used
      exact ⟨q, j, same.isBlock.mpr other⟩
  · intro q j b other
    have other := same.isBlock.mp other
    by_cases self : b = a
    · subst b
      obtain ⟨rfl, rfl⟩ := layout.block_unique other block
      rw [pages, update_self, update_self]
      exact bit
    · rw [update_of_ne self, ← h.marks.blocks q j b other, pages]
      by_cases here : q = p
      · subst q
        have index : j ≠ i := by
          rintro rfl
          exact self (other.address.trans block.address.symm)
        rw [update_self, bits j index]
      · rw [update_of_ne here]
  · intro q j assigned low high
    rw [same.blockCount q] at low high
    have set := h.marks.beyond q j (same.assigned.mp assigned) low high
    rw [pages]
    by_cases here : q = p
    · subst q
      have inside := block.index
      rw [update_self, bits j (by omega)]
      exact set
    · rwa [update_of_ne here]
  · intro q b posted
    obtain ⟨j, other⟩ := h.mail q b ((kept b (.mailbox q) nofun nofun).mp posted)
    exact ⟨j, same.isBlock.mpr other⟩
  · intro q exist
    refine (h.posted q (same.hasPage.mp exist)).congr ?_ (fun b _ => memory ▸ .refl _ b)
      fun b => kept b _ nofun nofun
    rw [pages]
    exact forall_page_update (P := fun old new => new.remoteFreeList = old.remoteFreeList)
      remote (fun _ => rfl) q
  · intro b
    rw [live]
    exact (h.client b).trans (kept b .client nofun nofun).symm
  · intro m member
    rw [live] at member
    exact (h.granted m member).grows same.grows (memory ▸ .refl _ _)
  · exact h.hands pcs (fun u other => .of_move move other same.grows memory (spare u other)) here

variable {r : Request}

section

variable (h : Held tid s c)
include h

/-- `bitmap_allocate_block` on a page of one's own takes a free block of it. -/
theorem Held.take (layout : Layout tid s) (distinct : Injective tid) {page : Page}
    (own : s.Owned (tid t) r.bucket p) (found : bitmapAllocateBlock (s.page p) = some (page, a)) :
    Move t c (update c a (.thread t)) ∧
      Held tid ((s.setPage p page).setPc t (.writeHeader r a))
        (update c a (.thread t)) := by
  obtain ⟨i, takes⟩ := bitmapAllocateBlock_takes found
  have assigned := own.assigned r.bucket_ne_none
  -- Bits beyond the last block are set, so the clear one belongs to a block.
  have index : i < (s.page p).blockCount := by
    by_contra beyond
    have set := h.marks.beyond p i assigned (Nat.le_of_not_lt beyond) takes.inWords
    rw [takes.clear] at set
    cases set
  have block : s.IsBlock p i a :=
    ⟨assigned, index, by rw [takes.address, layout.start p assigned.1]⟩
  have free : c a = .free := by
    by_contra used
    have set := (h.marks.blocks p i a block).mpr used
    rw [takes.clear] at set
    cases set
  have frame := sameFrame_of_takes takes
  have remote : page.remoteFreeList = (s.page p).remoteFreeList := by
    obtain ⟨bitmap, used, rfl⟩ := takes.after
    rfl
  refine ⟨.take free, h.remark layout block rfl rfl frame remote ?_ ?_ rfl rfl rfl (.take free)
    (.inl free) (.inr rfl) ?_ ?_⟩
  · rw [takes.marked i]
    simp
  · intro j ne
    rw [takes.marked j]
    simp [ne]
  · intro u other q j b spare owner free'
    rw [update_of_ne, free']
    rintro rfl
    obtain ⟨rfl, _⟩ := layout.block_unique spare block
    exact other (distinct (owner.symm.trans own.owner))
  · have same : Undisturbed s ((s.setPage p page).setPc t (.writeHeader r a)) :=
      .of_update rfl rfl frame
    exact ⟨update_self .., p, i, same.isBlock.mpr block,
      (same.bucket p).trans own.bucket⟩

/-- Clearing the bit of a block in one's hands retires it. -/
theorem Held.retire (layout : Layout tid s) (block : s.IsBlock p i a) (held : c a = .thread t)
    (here : Hand tid ((s.setPage p (bitmapFreeBlock (s.page p) a)).setPc t pc)
      (update c a .free) t pc) :
    Held tid ((s.setPage p (bitmapFreeBlock (s.page p) a)).setPc t pc) (update c a .free) := by
  obtain ⟨bitmap, used, freed, marked⟩ := bitmapFreeBlock_spec (s.page p) a
  rw [layout.blockIdx_block block] at marked
  refine h.remark layout block rfl rfl (bitmapFreeBlock_sameFrame _ _) (by rw [freed]; rfl) ?_ ?_
    rfl rfl rfl (.retire held) (.inr held) (.inl rfl) ?_ here
  · rw [marked i]
    simp
  · intro j ne
    rw [marked j]
    simp [ne]
  · intro u _ q j b _ _ free
    by_cases self : b = a
    · subst b
      exact update_self ..
    · rw [update_of_ne self, free]

/-! ### The remote list -/

/-- A new list head on one page, with blocks moving between its mailbox and the
hands of one thread. -/
theorem Held.relist {head : Nat} (move : Move t c c')
    (holder : ∀ (b : Nat) (other : Holder T PageRef), other ≠ .thread t → other ≠ .mailbox p →
      (c' b = other ↔ c b = other))
    (same : Undisturbed s ((s.setPage p { s.page p with remoteFreeList := head }).setPc t pc))
    (mail : ∀ b, c' b = .mailbox p → ∃ i, s.IsBlock p i b)
    (posted : ∃ nodes, Chain s.nextNode 0 head nodes ∧ nodes.Nodup ∧
      ∀ b, b ∈ nodes ↔ c' b = .mailbox p)
    (here : Hand tid ((s.setPage p { s.page p with remoteFreeList := head }).setPc t pc) c' t pc) :
    Held tid ((s.setPage p { s.page p with remoteFreeList := head }).setPc t pc) c' := by
  have free : ∀ b, c' b = .free ↔ c b = .free := fun b => holder b .free nofun nofun
  have bitmap : ∀ q, (update s.page p
      { s.page p with remoteFreeList := head } q).bitmap = (s.page q).bitmap :=
    forall_page_update (P := fun old new => new.bitmap = old.bitmap) rfl fun _ => rfl
  have marks := h.marks.congr same.toSamePages bitmap
  refine ⟨?_, ⟨?_, marks.beyond⟩, ?_, ?_, h.once, ?_, ?_, ?_⟩
  · intro b used
    obtain ⟨q, j, block⟩ := h.domain b ((free b).not.mp used)
    exact ⟨q, j, same.isBlock.mpr block⟩
  · exact fun q j b block => (marks.blocks q j b block).trans (free b).symm.not
  · intro q b listed
    by_cases here : q = p
    · subst q
      obtain ⟨j, block⟩ := mail b listed
      exact ⟨j, same.isBlock.mpr block⟩
    · obtain ⟨j, block⟩ := h.mail q b
        ((holder b (.mailbox q) nofun (by simpa using here)).mp listed)
      exact ⟨j, same.isBlock.mpr block⟩
  · intro q exist
    by_cases here : q = p
    · subst q
      obtain ⟨nodes, chain, exact_⟩ := posted
      refine ⟨nodes, ?_, exact_⟩
      change Chain s.nextNode 0 (update s.page p _ p).remoteFreeList nodes
      rwa [update_self]
    · refine (h.posted q (same.hasPage.mp exist)).congr ?_ (fun b _ => .refl _ b)
        fun b => holder b _ nofun (by simpa using here)
      change (update s.page p _ q).remoteFreeList = _
      rw [update_of_ne here]
  · exact fun b => (h.client b).trans (holder b .client nofun nofun).symm
  · exact fun m member => (h.granted m member).grows same.grows (.refl _ _)
  · exact h.hands rfl (fun u other => .of_move move other same.grows rfl
      fun _ _ b _ _ => (free b).mpr) here

/-- The owner's exchange empties the mailbox into its own hands. -/
theorem Held.collect (exist : s.HasPage p) :
    Held tid ((s.setPage p { s.page p with remoteFreeList := 0 }).setPc t
      (.drain r p (s.page p).remoteFreeList)) (c.collect t p) := by
  have same : Undisturbed s ((s.setPage p { s.page p with remoteFreeList := 0 }).setPc t
      (.drain r p (s.page p).remoteFreeList)) := .of_update rfl rfl ⟨rfl, rfl, rfl, rfl, rfl⟩
  have collected : ∀ b, c b = .mailbox p → c.collect t p b = .thread t :=
    fun _ listed => if_pos listed
  have kept : ∀ b, c b ≠ .mailbox p → c.collect t p b = c b :=
    fun _ other => if_neg other
  have empty : ∀ b, c.collect t p b ≠ .mailbox p := by
    intro b
    by_cases old : c b = .mailbox p
    · simp [collected b old]
    · simpa [kept b old] using old
  obtain ⟨nodes, chain, nodup, members⟩ := h.posted p exist
  refine h.relist (.collect p) ?_ same (fun b listed => absurd listed (empty b))
    ⟨[], .nil, List.nodup_nil, fun b => by simp [empty b]⟩ ?_
  · intro b other notMine notPosted
    by_cases listed : c b = .mailbox p
    · rw [collected b listed, listed]
      exact iff_of_false notMine.symm notPosted.symm
    · rw [kept b listed]
  · refine ⟨nodes, chain, nodup, fun b member => ?_⟩
    have listed := (members b).mp member
    obtain ⟨j, block⟩ := h.mail p b listed
    exact ⟨collected b listed, j, same.isBlock.mpr block⟩

/-- A successful compare-exchange puts the linked block in front of the list. -/
theorem Held.post (block : s.IsBlock p i a) (notNull : a ≠ 0) (held : c a = .thread t)
    (link : s.nextNode a = (s.page p).remoteFreeList) :
    Held tid ((s.setPage p { s.page p with remoteFreeList := a }).setPc t .idle)
      (update c a (.mailbox p)) := by
  obtain ⟨nodes, chain, nodup, members⟩ := h.posted p block.page.1
  have fresh : a ∉ nodes := by
    intro member
    rw [members a, held] at member
    cases member
  refine h.relist (.post p held) (fun _ _ => Ledger.update_eq_iff (.inl held) (.inr rfl))
    (.of_update rfl rfl ⟨rfl, rfl, rfl, rfl, rfl⟩) ?_
    ⟨a :: nodes, .cons notNull (link.symm ▸ chain), List.nodup_cons.mpr ⟨fresh, nodup⟩, ?_⟩ trivial
  · intro b listed
    by_cases self : b = a
    · subst b
      exact ⟨i, block⟩
    · rw [update_of_ne self] at listed
      exact h.mail p b listed
  · intro b
    by_cases self : b = a
    · subst b
      simp
    · simp [self, members b]

/-! ### Returning and freeing -/

/-- A new list of live blocks, with one block moving between the client and the
hands of one thread. -/
theorem Held.handOver {live : List Allocation} {holder : Holder T PageRef}
    (move : Move t c (update c a holder)) (before : c a = .thread t ∨ c a = .client)
    (after : holder = .thread t ∨ holder = .client) (once : (live.map Allocation.block).Nodup)
    (client : ∀ b, b ∈ live.map Allocation.block ↔ update c a holder b = .client)
    (granted : ∀ m ∈ live, Granted s m)
    (here : Hand tid ({ s with live := live }.setPc t pc) (update c a holder) t pc) :
    Held tid ({ s with live := live }.setPc t pc) (update c a holder) := by
  have same : Undisturbed s ({ s with live := live }.setPc t pc) := .of_eq rfl rfl
  have kept : ∀ (b : Nat) (other : Holder T PageRef), other ≠ .thread t → other ≠ .client →
      (update c a holder b = other ↔ c b = other) := fun _ _ =>
    Ledger.update_eq_iff before after
  have free : ∀ b, update c a holder b = .free ↔ c b = .free :=
    fun b => kept b .free nofun nofun
  have marks := h.marks.congr same.toSamePages fun _ => rfl
  refine ⟨?_, ⟨?_, marks.beyond⟩, ?_, ?_, once, client, ?_, ?_⟩
  · intro b used
    obtain ⟨q, j, other⟩ := h.domain b ((free b).not.mp used)
    exact ⟨q, j, same.isBlock.mpr other⟩
  · exact fun q j b other => (marks.blocks q j b other).trans (free b).symm.not
  · intro q b listed
    obtain ⟨j, other⟩ := h.mail q b ((kept b (.mailbox q) nofun nofun).mp listed)
    exact ⟨j, same.isBlock.mpr other⟩
  · exact fun q exist => (h.posted q exist).congr rfl (fun b _ => .refl _ b)
      fun b => kept b _ nofun nofun
  · exact fun m member => (granted m member).grows same.grows (.refl _ _)
  · exact h.hands rfl (fun u other => .of_move move other same.grows rfl
      fun _ _ b _ _ => (free b).mpr) here

/-- The return statement gives the block to the client. -/
theorem Held.grant (block : s.IsBlock p i a) (bucket : (s.page p).bucket = r.bucket)
    (header : s.HeaderOk p a) (held : c a = .thread t) :
    Held tid ({ s with live := ⟨a, r.size, r.bucket⟩ :: s.live }.setPc t .idle)
      (update c a .client) := by
  have fresh : a ∉ s.live.map Allocation.block := by
    intro member
    rw [h.client a, held] at member
    cases member
  refine h.handOver (.grant held) (.inl held) (.inr rfl)
    (List.nodup_cons.mpr ⟨fresh, h.once⟩) ?_ ?_ trivial
  · intro b
    rw [List.map_cons, List.mem_cons, h.client b]
    by_cases self : b = a
    · subst b
      simp
    · simp [self]
  · intro m member
    cases List.mem_cons.mp member with
    | inl new =>
      subst m
      exact ⟨p, i, block, bucket, header⟩
    | inr old => exact h.granted m old

/-- The call of `lc_heap_free` takes it back. -/
theorem Held.surrender {m : Allocation} (member : m ∈ s.live) :
    Move t c (update c m.block (.thread t)) ∧
      Held tid ({ s with live := s.live.erase m }.setPc t (.checkHeader m.ptr))
        (update c m.block (.thread t)) := by
  have out : c m.block = .client := (h.client _).mp (List.mem_map_of_mem member)
  obtain ⟨p, i, block, bucket, header⟩ := h.granted m member
  -- Block addresses are distinct, so erasing the allocation erases its address.
  have perm : (m.block :: (s.live.erase m).map Allocation.block).Perm
      (s.live.map Allocation.block) := ((List.perm_cons_erase member).map _).symm
  have nodup := perm.nodup_iff.mpr h.once
  have same : Undisturbed s ({ s with live := s.live.erase m }.setPc t (.checkHeader m.ptr)) :=
    .of_eq rfl rfl
  refine ⟨.surrender out, h.handOver (.surrender out) (.inr out) (.inl rfl)
    (List.nodup_cons.mp nodup).2 ?_ (fun m' member' => h.granted m' (List.mem_of_mem_erase member'))
    ⟨m.block, p, i, rfl, update_self .., same.isBlock.mpr block,
      header.grows block same.grows (.refl _ _)⟩⟩
  intro b
  by_cases self : b = m.block
  · subst b
    simpa using (List.nodup_cons.mp nodup).1
  · rw [update_of_ne self, ← h.client b, ← perm.mem_iff, List.mem_cons]
    simp [self]

end

/-! ### New pages -/

omit [DecidableEq T] in
/-- A step that only adds pages and touches no memory is not noticed. -/
theorem Rely.of_grows (grows : Grows s s') (memory : s'.memory = s.memory) :
    Rely tid u s c s' c :=
  ⟨grows, fun a held => ⟨held, memory ▸ .refl _ a⟩,
    fun _ _ a _ _ free => ⟨free, memory ▸ .refl _ a⟩⟩

/-- Initialising a page adds free blocks and an empty mailbox. -/
theorem Held.assign (h : Held tid s c) {bucket : Nat} {owner : Int}
    (unassigned : (s.page p).bucket = bucketNone)
    (layout : Layout tid ((s.assignPage p bucket owner).setPc t pc))
    (here : Hand tid ((s.assignPage p bucket owner).setPc t pc) c t pc) :
    Held tid ((s.assignPage p bucket owner).setPc t pc) c := by
  have grows : Grows s ((s.assignPage p bucket owner).setPc t pc) := .assign rfl rfl unassigned
  have self : ((s.assignPage p bucket owner).setPc t pc).page p =
      pageInitForBucket (s.page p) bucket owner := update_self ..
  have other : ∀ q, q ≠ p → ((s.assignPage p bucket owner).setPc t pc).page q = s.page q :=
    fun q ne => update_of_ne ne ..
  have old : ∀ q j b, q ≠ p → ((s.assignPage p bucket owner).setPc t pc).IsBlock q j b →
      s.IsBlock q j b := by
    rintro q j b ne ⟨⟨exist', assigned⟩, index, address⟩
    rw [other q ne] at assigned index address
    exact ⟨⟨exist', assigned⟩, index, address⟩
  -- Nobody has a block of a page that was not assigned.
  have unused : ∀ j b, ((s.assignPage p bucket owner).setPc t pc).IsBlock p j b → c b = .free := by
    intro j b block
    by_contra used
    obtain ⟨q, k, before⟩ := h.domain b used
    obtain ⟨rfl, _⟩ := layout.block_unique block (before.grows grows)
    exact before.page.2 unassigned
  have empty : ∀ b, c b ≠ .mailbox p := by
    intro b posted
    obtain ⟨j, block⟩ := h.mail p b posted
    exact block.page.2 unassigned
  refine h.carry grows rfl ⟨?_, ?_⟩ ?_
    (fun m member => (h.granted m member).grows grows (.refl _ _))
    (h.hands rfl (fun u _ => .of_grows grows rfl) here)
  · intro q j b block
    by_cases here : q = p
    · subst q
      have index := block.index
      rw [self] at index ⊢
      change j < blocksPerPage bucket at index
      rw [pageInitForBucket_marked owner (by omega), unused j b block]
      simpa using index
    · rw [other q here]
      exact h.marks.blocks q j b (old q j b here block)
  · intro q j assigned low high
    by_cases here : q = p
    · subst q
      rw [self] at low high ⊢
      rw [pageInitForBucket_marked owner high]
      exact decide_eq_true low
    · have before : s.Assigned q := ⟨assigned.1, other q here ▸ assigned.2⟩
      rw [other q here] at low high ⊢
      exact h.marks.beyond q j before low high
  · intro q exist'
    by_cases here : q = p
    · subst q
      refine .empty ?_ empty
      rw [self]
      rfl
    · refine (h.posted q exist').congr ?_ (fun b _ => .refl _ b) fun _ => .rfl
      rw [other q here]

/-- A new segment has no blocks yet. -/
theorem Held.create (h : Held tid s c) {addr : Nat} (mapped : s.Unmapped addr)
    (here : Hand tid ((s.segmentCreate addr).setPc t pc) c t pc) :
    Held tid ((s.segmentCreate addr).setPc t pc) c := by
  have assigned : ∀ q, ((s.segmentCreate addr).setPc t pc).Assigned q ↔ s.Assigned q :=
    fun q => State.segmentCreate_assigned mapped
  have page : ∀ q, s.HasPage q → ((s.segmentCreate addr).setPc t pc).page q = s.page q :=
    fun q exist => State.segmentCreate_page_old mapped exist
  have growsCreate := State.segmentCreate_grows mapped
  have grows : Grows s ((s.segmentCreate addr).setPc t pc) :=
    { growsCreate with }
  have old : ∀ q j b, ((s.segmentCreate addr).setPc t pc).IsBlock q j b → s.IsBlock q j b := by
    intro q j b block
    have before := (assigned q).mp block.page
    have index := block.index
    have address := block.address
    rw [page q before.1] at index address
    exact ⟨before, index, address⟩
  refine h.carry grows rfl ⟨?_, ?_⟩ ?_
    (fun m member => (h.granted m member).grows grows (.refl _ _))
    (h.hands rfl (fun u _ => .of_grows grows rfl) here)
  · intro q j b block
    have before := old q j b block
    rw [page q before.page.1]
    exact h.marks.blocks q j b before
  · intro q j given low high
    have before := (assigned q).mp given
    rw [page q before.1] at low high ⊢
    exact h.marks.beyond q j before low high
  · intro q exist
    by_cases before : s.HasPage q
    · refine (h.posted q before).congr ?_ (fun b _ => .refl _ b) fun _ => .rfl
      rw [page q before]
    · have new := (State.segmentCreate_hasPage exist).resolve_left before
      have record : ((s.segmentCreate addr).setPc t pc).page q = segmentPage (s.page q) q :=
        State.segmentCreate_page_new new.1 new.2
      have empty : ∀ b, c b ≠ .mailbox q := by
        intro b posted
        obtain ⟨j, block⟩ := h.mail q b posted
        exact before block.page.1
      refine .empty ?_ empty
      rw [record]
      rfl

end Lightc.Heap.Small
