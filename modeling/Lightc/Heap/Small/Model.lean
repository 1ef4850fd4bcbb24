import Lightc.Heap.Page
import Lightc.Machine.Atomic
import Lightc.Machine.Memory
import Lightc.Verification.Chain
import Lightc.Verification.Transition

/-!
# Threads on the small heap

Each thread owns the pages it was given and allocates from their bitmaps without
a lock. A block freed by another thread is pushed on the page's remote list with
a compare-exchange; the owner takes the whole list with one exchange and returns
its blocks to the bitmap, one by one, before it looks for a free bit. The link of
a listed block is its first word, the one that held `header->size` before.

A program counter names the next shared access of a thread and holds the values
it has in registers. Accesses to one page's private fields, to one block or to
data under the global lock are single steps; `private_access_exclusive` shows that
no two threads are ever at such accesses to the same page, so finer steps would add
nothing.

Allocation and freeing are called without bound by any number of threads. Between
the calls the client writes whatever it likes behind the pointers it has. The
hash table of thread heaps is left out: with distinct thread ids a first call
never finds an entry there, so `get_local` makes a new heap or fails.
-/

namespace Lightc.Heap.Small

open Machine Verification Function

/-! ### Headers in memory -/

/-- The header in front of a pointer, at `block`. -/
def readHeader (memory : Memory) (block : Nat) : Header :=
  ⟨loadWord memory block 8, loadWord memory (block + 8) 4, loadWord memory (block + 12) 4⟩

def storeHeader (memory : Memory) (block : Nat) (header : Header) : Memory :=
  let memory := storeBytes memory block (wordBytes 8 header.size)
  let memory := storeBytes memory (block + 8) (wordBytes 4 header.bucket)
  storeBytes memory (block + 12) (wordBytes 4 header.magic)

/-- The debug build marks a freed header and fills the bytes behind it. -/
def poison (memory : Memory) (block : Nat) : Memory :=
  let memory := storeBytes memory (block + 12) (wordBytes 4 heapMagicFreed)
  storeBytes memory (block + headerSize) (List.replicate (readHeader memory block).size 0xCC)

/-! ### State -/

/-- A request for a small block, after `if (size == 0) size = 1`. -/
structure Request where
  size : Nat
  small : findBucket size ≠ bucketLarge
  deriving DecidableEq

def Request.bucket (r : Request) : Nat := findBucket r.size

/-- The next shared access of a thread. -/
inductive Pc
  | idle
  /-- `lc_heap_allocate`, before `get_local`. -/
  | getLocal (r : Request)
  /-- At the guard of the page walk; with a page, before the exchange of its list. -/
  | walk (r : Request) (page : Option PageRef)
  /-- At the guard of the drain loop. -/
  | drain (r : Request) (page : PageRef) (list : Nat)
  /-- `list->next` has been read, the bitmap not yet updated. -/
  | drainClear (r : Request) (page : PageRef) (list next : Nat)
  /-- Before the exchange on `heap_global_lock`. -/
  | acquire (r : Request)
  /-- `get_fresh_page`, before the search. -/
  | findPage (r : Request)
  /-- `get_fresh_page` found nothing. -/
  | createSegment (r : Request)
  /-- Before `used_page_count++` and `page_init_for_bucket`. -/
  | initPage (r : Request) (page : PageRef)
  /-- Before the release of `heap_global_lock`. -/
  | release (r : Request) (page : Option PageRef)
  | prepend (r : Request) (page : PageRef)
  /-- Before `bitmap_allocate_block`. -/
  | takeBlock (r : Request) (page : PageRef)
  | writeHeader (r : Request) (block : Nat)
  /-- At `return lc_ok_ptr(block + HEADER_SIZE)`. -/
  | returning (r : Request) (block : Nat)
  /-- `lc_heap_free`, before the header is read. -/
  | checkHeader (ptr : Nat)
  /-- Before `page_from_pointer` and `get_local`. -/
  | findOwner (ptr : Nat)
  /-- Before `bitmap_free_block`. -/
  | freeOwned (page : PageRef) (header : Nat)
  /-- The owner has cleared the bit, the debug fill is left. -/
  | poisonOwned (header : Nat)
  /-- Before the debug fill of a block that goes to another thread. -/
  | poisonRemote (page : PageRef) (header : Nat)
  /-- `remote_free_push`, before the load of the head. -/
  | pushLoad (page : PageRef) (node : Nat)
  | pushLink (page : PageRef) (node oldHead : Nat)
  | pushCas (page : PageRef) (node oldHead : Nat)
  /-- `lc_kernel_exit(134)`. -/
  | exited
  /-- The large path of `lc_heap_free`. -/
  | freeLarge (ptr : Nat)
  deriving DecidableEq

/-- `lc_heap_local`: the thread's id and its page lists. -/
structure HeapLocal where
  tid : Int
  pages : Nat → Option PageRef

/-- A block that was returned and not yet passed to `lc_heap_free`. -/
structure Allocation where
  block : Nat
  size : Nat
  bucket : Nat
  deriving DecidableEq, Repr

/-- The pointer the client has. -/
def Allocation.ptr (a : Allocation) : Nat := a.block + headerSize

/-- The block, header included, shares no byte with another. -/
def Allocation.Disjoint (a b : Allocation) : Prop :=
  a.block + blockSize a.bucket ≤ b.block ∨ b.block + blockSize b.bucket ≤ a.block

structure State (T : Type) where
  memory : Memory
  page : PageRef → Page
  allSegments : List Nat
  usedPageCount : Nat → Nat
  globalLock : Nat
  heapLocal : T → Option HeapLocal
  pc : T → Pc
  live : List Allocation

variable {T : Type} [DecidableEq T]

namespace State

def setPc (s : State T) (t : T) (pc : Pc) : State T :=
  { s with pc := update s.pc t pc }

def setPage (s : State T) (p : PageRef) (page : Page) : State T :=
  { s with page := update s.page p page }

def setLocal (s : State T) (t : T) (heapLocal : Option HeapLocal) : State T :=
  { s with heapLocal := update s.heapLocal t heapLocal }

/-- `node->next`. -/
def nextNode (s : State T) (node : Nat) : Nat := loadWord s.memory node 8

/-- `get_fresh_page`, the search of one segment. -/
def freshIn (s : State T) (seg : Nat) : Option PageRef :=
  if s.usedPageCount seg < pagesPerSegment then
    ((List.range pagesPerSegment).map (PageRef.mk seg)).find? fun p =>
      (s.page p).bucket = bucketNone
  else none

/-- `get_fresh_page`, the search of all segments. -/
def findFreshPage (s : State T) : Option PageRef := s.allSegments.findSome? s.freshIn

/-- What `mmap` promises about a new mapping of two segment sizes. -/
structure Unmapped (s : State T) (addr : Nat) : Prop where
  inRange : addr + 2 * segmentSize ≤ 2 ^ 64
  apart : ∀ seg ∈ s.allSegments, addr + 2 * segmentSize ≤ seg ∨ seg + segmentSize ≤ addr

/-- `segment_create` on the mapping at `addr`. -/
def segmentCreate (s : State T) (addr : Nat) : State T :=
  let seg := segmentAligned addr
  { s with
    allSegments := seg :: s.allSegments
    usedPageCount := update s.usedPageCount seg 0
    page := fun p =>
      if p.segment = seg ∧ p.index < pagesPerSegment then segmentPage (s.page p) p
      else s.page p }

/-- `seg->used_page_count++` and `page_init_for_bucket`. -/
def assignPage (s : State T) (p : PageRef) (bucket : Nat) (tid : Int) : State T :=
  { s.setPage p (pageInitForBucket (s.page p) bucket tid) with
    usedPageCount := update s.usedPageCount p.segment (s.usedPageCount p.segment + 1) }

end State

/-- `get_local`: the thread's heap if it has one, else a new one or none. -/
inductive GetLocal (tid : Int) : Option HeapLocal → Option HeapLocal → Prop
  | present (heapLocal : HeapLocal) : GetLocal tid (some heapLocal) (some heapLocal)
  | created : GetLocal tid none (some ⟨tid, fun _ => none⟩)
  | failed : GetLocal tid none none

/-! ### Branches -/

/-- After `get_local` in `lc_heap_allocate`. -/
def startWalk (r : Request) : Option HeapLocal → Pc
  | none => .idle
  | some heapLocal => .walk r (heapLocal.pages r.bucket)

/-- After the drain of a page. -/
def afterDrain (r : Request) (p : PageRef) (page : Page) : Pc :=
  if page.usedCount < page.blockCount then .takeBlock r p else .walk r page.next

def afterAcquire (r : Request) (old : Nat) : Pc := if old ≠ 0 then .acquire r else .findPage r

def afterSearch (r : Request) : Option PageRef → Pc
  | some p => .initPage r p
  | none => .createSegment r

def afterRelease (r : Request) : Option PageRef → Pc
  | some p => .prepend r p
  | none => .idle

/-- The magic checks of the debug build and the test for a large block. -/
def afterHeader (debug : Bool) (header : Header) (ptr : Nat) : Pc :=
  if debug ∧ header.magic = heapMagicFreed then .exited
  else if debug ∧ header.magic ≠ heapMagic then .exited
  else if header.bucket = bucketLarge then .freeLarge ptr
  else .findOwner ptr

/-- The three ways to free a small block. -/
def afterOwner (p : PageRef) (page : Page) (header : Nat) : Option HeapLocal → Pc
  | none => .poisonRemote p header
  | some heapLocal =>
    if page.ownerTid = heapLocal.tid then .freeOwned p header else .poisonRemote p header

/-! ### Steps -/

/-- The atomic steps of all threads and their clients. `debug` is
`LC_HEAP_DEBUG` and `tid` the thread ids. -/
inductive Step (debug : Bool) (tid : T → Int) : State T → State T → Prop
  | callAllocate {s : State T} {t : T} (at_ : s.pc t = .idle) (size : Nat)
      (small : findBucket (requestSize size) ≠ bucketLarge) :
      Step debug tid s (s.setPc t (.getLocal ⟨requestSize size, small⟩))
  | getLocal {s : State T} {t : T} {r : Request} {found : Option HeapLocal}
      (at_ : s.pc t = .getLocal r) (get : GetLocal (tid t) (s.heapLocal t) found) :
      Step debug tid s ((s.setLocal t found).setPc t (startWalk r found))
  | walkEnd {s : State T} {t : T} {r : Request} (at_ : s.pc t = .walk r none) :
      Step debug tid s (s.setPc t (.acquire r))
  | exchange {s : State T} {t : T} {r : Request} {p : PageRef} (at_ : s.pc t = .walk r (some p)) :
      Step debug tid s
        ((s.setPage p { s.page p with
          remoteFreeList := (atomicExchange (s.page p).remoteFreeList 0).2 }).setPc t
          (.drain r p (atomicExchange (s.page p).remoteFreeList 0).1))
  | drainNext {s : State T} {t : T} {r : Request} {p : PageRef} {list : Nat}
      (at_ : s.pc t = .drain r p list) (more : list ≠ 0) :
      Step debug tid s (s.setPc t (.drainClear r p list (s.nextNode list)))
  | drainClear {s : State T} {t : T} {r : Request} {p : PageRef} {list next : Nat}
      (at_ : s.pc t = .drainClear r p list next) :
      Step debug tid s
        ((s.setPage p (bitmapFreeBlock (s.page p) list)).setPc t (.drain r p next))
  | drained {s : State T} {t : T} {r : Request} {p : PageRef} (at_ : s.pc t = .drain r p 0) :
      Step debug tid s (s.setPc t (afterDrain r p (s.page p)))
  | acquire {s : State T} {t : T} {r : Request} (at_ : s.pc t = .acquire r) :
      Step debug tid s
        ({ s with globalLock := (atomicExchange s.globalLock 1).2 }.setPc t
          (afterAcquire r (atomicExchange s.globalLock 1).1))
  | findPage {s : State T} {t : T} {r : Request} (at_ : s.pc t = .findPage r) :
      Step debug tid s (s.setPc t (afterSearch r s.findFreshPage))
  | createFailed {s : State T} {t : T} {r : Request} (at_ : s.pc t = .createSegment r) :
      Step debug tid s (s.setPc t (.release r none))
  | createSegment {s : State T} {t : T} {r : Request} {addr : Nat}
      (at_ : s.pc t = .createSegment r) (mapped : s.Unmapped addr) :
      Step debug tid s
        ((s.segmentCreate addr).setPc t (.initPage r ⟨segmentAligned addr, 0⟩))
  | initPage {s : State T} {t : T} {r : Request} {p : PageRef} (at_ : s.pc t = .initPage r p) :
      Step debug tid s ((s.assignPage p r.bucket (tid t)).setPc t (.release r (some p)))
  | release {s : State T} {t : T} {r : Request} {found : Option PageRef}
      (at_ : s.pc t = .release r found) :
      Step debug tid s ({ s with globalLock := 0 }.setPc t (afterRelease r found))
  | prepend {s : State T} {t : T} {r : Request} {p : PageRef} {heapLocal : HeapLocal}
      (at_ : s.pc t = .prepend r p) (mine : s.heapLocal t = some heapLocal) :
      Step debug tid s
        (((s.setPage p { s.page p with next := heapLocal.pages r.bucket }).setLocal t
          (some { heapLocal with
            pages := update heapLocal.pages r.bucket (some p) })).setPc t
          (.takeBlock r p))
  | takeBlock {s : State T} {t : T} {r : Request} {p : PageRef} {page : Page} {block : Nat}
      (at_ : s.pc t = .takeBlock r p)
      (found : bitmapAllocateBlock (s.page p) = some (page, block)) :
      Step debug tid s ((s.setPage p page).setPc t (.writeHeader r block))
  | takeNone {s : State T} {t : T} {r : Request} {p : PageRef} (at_ : s.pc t = .takeBlock r p)
      (full : bitmapAllocateBlock (s.page p) = none) : Step debug tid s (s.setPc t .idle)
  | writeHeader {s : State T} {t : T} {r : Request} {block : Nat}
      (at_ : s.pc t = .writeHeader r block) :
      Step debug tid s
        ({ s with memory := storeHeader s.memory block ⟨r.size, r.bucket, heapMagic⟩ }.setPc t
          (.returning r block))
  | returning {s : State T} {t : T} {r : Request} {block : Nat}
      (at_ : s.pc t = .returning r block) :
      Step debug tid s ({ s with live := ⟨block, r.size, r.bucket⟩ :: s.live }.setPc t .idle)
  | callFree {s : State T} {t : T} {a : Allocation} (at_ : s.pc t = .idle) (live : a ∈ s.live) :
      Step debug tid s ({ s with live := s.live.erase a }.setPc t (.checkHeader a.ptr))
  | checkHeader {s : State T} {t : T} {ptr : Nat} (at_ : s.pc t = .checkHeader ptr) :
      Step debug tid s
        (s.setPc t (afterHeader debug (readHeader s.memory (ptr - headerSize)) ptr))
  | findOwner {s : State T} {t : T} {ptr : Nat} {found : Option HeapLocal}
      (at_ : s.pc t = .findOwner ptr) (get : GetLocal (tid t) (s.heapLocal t) found) :
      Step debug tid s
        ((s.setLocal t found).setPc t
          (afterOwner (pageFromPointer ptr) (s.page (pageFromPointer ptr)) (ptr - headerSize)
            found))
  | freeOwned {s : State T} {t : T} {p : PageRef} {header : Nat}
      (at_ : s.pc t = .freeOwned p header) :
      Step debug tid s
        ((s.setPage p (bitmapFreeBlock (s.page p) header)).setPc t (.poisonOwned header))
  | poisonOwned {s : State T} {t : T} {header : Nat} (at_ : s.pc t = .poisonOwned header) :
      Step debug tid s
        ({ s with memory := if debug then poison s.memory header else s.memory }.setPc t .idle)
  | poisonRemote {s : State T} {t : T} {p : PageRef} {header : Nat}
      (at_ : s.pc t = .poisonRemote p header) :
      Step debug tid s
        ({ s with memory := if debug then poison s.memory header else s.memory }.setPc t
          (.pushLoad p header))
  | pushLoad {s : State T} {t : T} {p : PageRef} {node : Nat} (at_ : s.pc t = .pushLoad p node) :
      Step debug tid s (s.setPc t (.pushLink p node (s.page p).remoteFreeList))
  | pushLink {s : State T} {t : T} {p : PageRef} {node oldHead : Nat}
      (at_ : s.pc t = .pushLink p node oldHead) :
      Step debug tid s
        ({ s with memory := storeBytes s.memory node (wordBytes 8 oldHead) }.setPc t
          (.pushCas p node oldHead))
  | pushCas {s : State T} {t : T} {p : PageRef} {node oldHead : Nat}
      (at_ : s.pc t = .pushCas p node oldHead) (unchanged : (s.page p).remoteFreeList = oldHead) :
      Step debug tid s ((s.setPage p { s.page p with remoteFreeList := node }).setPc t .idle)
  /-- The head has changed, or the weak compare-exchange failed for no reason. -/
  | pushRetry {s : State T} {t : T} {p : PageRef} {node oldHead : Nat}
      (at_ : s.pc t = .pushCas p node oldHead) : Step debug tid s (s.setPc t (.pushLoad p node))
  /-- The client writes behind a pointer it has, inside the block. -/
  | clientWrite {s : State T} {a : Allocation} {address : Nat} {bytes : List UInt8}
      (live : a ∈ s.live) (low : a.ptr ≤ address)
      (high : address + bytes.length ≤ a.block + blockSize a.bucket) :
      Step debug tid s { s with memory := storeBytes s.memory address bytes }

/-- No segment, nothing allocated, every thread outside the heap. -/
def system (debug : Bool) (tid : T → Int) : System (State T) where
  init s := s.allSegments = [] ∧ s.globalLock = 0 ∧ s.live = [] ∧
    ∀ t, s.heapLocal t = none ∧ s.pc t = .idle
  step := Step debug tid

/-! ### Pages and blocks -/

namespace State

/-- The record exists. -/
def HasPage (s : State T) (p : PageRef) : Prop :=
  p.segment ∈ s.allSegments ∧ p.index < pagesPerSegment

/-- The record exists and was given to a thread. -/
def Assigned (s : State T) (p : PageRef) : Prop := s.HasPage p ∧ (s.page p).bucket ≠ bucketNone

/-- The page belongs to the thread with this id and serves this size class. -/
structure Owned (s : State T) (tid : Int) (bucket : Nat) (p : PageRef) : Prop where
  exist : s.HasPage p
  bucket : (s.page p).bucket = bucket
  owner : (s.page p).ownerTid = tid

/-- Block `i` of page `p` starts at `a`. -/
structure IsBlock (s : State T) (p : PageRef) (i a : Nat) : Prop where
  page : s.Assigned p
  index : i < (s.page p).blockCount
  address : a = p.start + i * blockSize (s.page p).bucket

/-- The block is met when the page's remote list is followed from its head. -/
def OnRemoteList (s : State T) (p : PageRef) (block : Nat) : Prop :=
  Linked s.nextNode 0 (s.page p).remoteFreeList block

end State

theorem Request.spec (r : Request) :
    r.bucket < bucketCount ∧ r.size + headerSize ≤ blockSize r.bucket :=
  (findBucket_spec r.size).resolve_left r.small

theorem Request.bucket_ne_none (r : Request) : r.bucket ≠ bucketNone :=
  Nat.ne_of_lt (Nat.lt_trans r.spec.1 (by decide))

end Lightc.Heap.Small
