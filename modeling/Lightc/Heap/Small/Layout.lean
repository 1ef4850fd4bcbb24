import Lightc.Heap.Small.Model

/-!
# Segments, owners and the global lock

What holds of the pages themselves, whatever their blocks are used for. Segments
are aligned and lie in the address space, every record names its own data area,
and once a page is assigned its size class, block count and owner never change
(`Step.grows`). A thread reaches only pages it owns, through its own lists; the
page it is about to initialise is still unassigned because the lock is held.

The last part is about the blocks of such pages: where they lie, and that an
address leads back to its block.
-/

namespace Lightc.Heap.Small

open Machine Verification Function

variable {T : Type} {debug : Bool} {tid : T → Int} {s s' : State T} {p : PageRef}

/-! ### What stays of a page -/

/-- The fields that taking, freeing and listing blocks leave alone. -/
structure SameFrame (page page' : Page) : Prop where
  next : page'.next = page.next
  dataStart : page'.dataStart = page.dataStart
  bucket : page'.bucket = page.bucket
  blockCount : page'.blockCount = page.blockCount
  ownerTid : page'.ownerTid = page.ownerTid

theorem SameFrame.refl (page : Page) : SameFrame page page := ⟨rfl, rfl, rfl, rfl, rfl⟩

theorem bitmapFreeBlock_sameFrame (page : Page) (block : Nat) :
    SameFrame page (bitmapFreeBlock page block) := by
  obtain ⟨bitmap, used, freed, _⟩ := bitmapFreeBlock_spec page block
  rw [freed]
  exact ⟨rfl, rfl, rfl, rfl, rfl⟩

variable {page : Page}

theorem sameFrame_of_takes {page' : Page} {block i : Nat} (h : Takes page page' block i) :
    SameFrame page page' := by
  obtain ⟨bitmap, used, rfl⟩ := h.after
  exact ⟨rfl, rfl, rfl, rfl, rfl⟩

/-- No page is created or assigned. -/
structure SamePages (s s' : State T) : Prop where
  segments : s'.allSegments = s.allSegments
  bucket : ∀ p, (s'.page p).bucket = (s.page p).bucket
  blockCount : ∀ p, (s'.page p).blockCount = (s.page p).blockCount
  ownerTid : ∀ p, (s'.page p).ownerTid = (s.page p).ownerTid

/-- No page is created, assigned or relinked. -/
structure Undisturbed (s s' : State T) : Prop extends SamePages s s' where
  next : ∀ p, (s'.page p).next = (s.page p).next
  dataStart : ∀ p, (s'.page p).dataStart = (s.page p).dataStart

section

variable (segments : s'.allSegments = s.allSegments)
include segments

theorem Undisturbed.of_frame (frame : ∀ p, SameFrame (s.page p) (s'.page p)) :
    Undisturbed s s' where
  segments := segments
  bucket p := (frame p).bucket
  blockCount p := (frame p).blockCount
  ownerTid p := (frame p).ownerTid
  next p := (frame p).next
  dataStart p := (frame p).dataStart

theorem Undisturbed.of_eq (page : s'.page = s.page) :
    Undisturbed s s' := .of_frame segments fun _ => page ▸ .refl _

omit segments in
/-- What holds of a changed record and of every unchanged one holds of all. -/
theorem forall_page_update {P : Page → Page → Prop} {pages : PageRef → Page}
    (here : P (pages p) page) (refl : ∀ page, P page page) (q : PageRef) :
    P (pages q) (update pages p page q) :=
  (forall_update_iff pages fun q page => P (pages q) page).mpr ⟨here, fun _ _ => refl _⟩ q

theorem Undisturbed.of_update (pages : s'.page = update s.page p page)
    (same : SameFrame (s.page p) page) :
    Undisturbed s s' :=
  .of_frame segments (pages ▸ forall_page_update same .refl)

theorem SamePages.of_update (pages : s'.page = update s.page p page)
    (bucket : page.bucket = (s.page p).bucket)
    (blockCount : page.blockCount = (s.page p).blockCount)
    (ownerTid : page.ownerTid = (s.page p).ownerTid) : SamePages s s' where
  segments := segments
  bucket := pages ▸ forall_page_update (P := fun old new => new.bucket = old.bucket) bucket
    fun _ => rfl
  blockCount := pages ▸ forall_page_update
    (P := fun old new => new.blockCount = old.blockCount) blockCount fun _ => rfl
  ownerTid := pages ▸ forall_page_update (P := fun old new => new.ownerTid = old.ownerTid) ownerTid
    fun _ => rfl

end

/-- Existing records stay, and an assigned page keeps its class and its owner. -/
structure Grows (s s' : State T) : Prop where
  pages : ∀ p, s.HasPage p → s'.HasPage p
  bucket : ∀ p, s.Assigned p → (s'.page p).bucket = (s.page p).bucket
  blockCount : ∀ p, s.Assigned p → (s'.page p).blockCount = (s.page p).blockCount
  ownerTid : ∀ p, s.Assigned p → (s'.page p).ownerTid = (s.page p).ownerTid

theorem SamePages.grows (h : SamePages s s') : Grows s s' :=
  ⟨fun _ exist => ⟨h.segments ▸ exist.1, exist.2⟩, fun p _ => h.bucket p,
    fun p _ => h.blockCount p, fun p _ => h.ownerTid p⟩

theorem SamePages.hasPage (h : SamePages s s') : s'.HasPage p ↔ s.HasPage p := by
  rw [State.HasPage, State.HasPage, h.segments]

theorem SamePages.assigned (h : SamePages s s') : s'.Assigned p ↔ s.Assigned p := by
  rw [State.Assigned, State.Assigned, h.hasPage, h.bucket p]

variable {owner : Int} {bucket : Nat} {p : PageRef}

theorem State.Owned.assigned (h : s.Owned owner bucket p) (real : bucket ≠ bucketNone) :
    s.Assigned p :=
  ⟨h.exist, h.bucket.symm ▸ real⟩

theorem State.Owned.grows (h : s.Owned owner bucket p) (real : bucket ≠ bucketNone)
    (grows : Grows s s') : s'.Owned owner bucket p :=
  ⟨grows.pages p h.exist, (grows.bucket p (h.assigned real)).trans h.bucket,
    (grows.ownerTid p (h.assigned real)).trans h.owner⟩

theorem State.Assigned.grows (h : s.Assigned p) (grows : Grows s s') :
    s'.Assigned p := ⟨grows.pages p h.1, (grows.bucket p h).symm ▸ h.2⟩

theorem State.IsBlock.grows {i a : Nat} (h : s.IsBlock p i a) (grows : Grows s s') :
    s'.IsBlock p i a :=
  ⟨h.page.grows grows, (grows.blockCount p h.page).symm ▸ h.index,
    (grows.bucket p h.page).symm ▸ h.address⟩

/-! ### The invariant -/

/-- What a thread at a program counter knows about the page it works on. -/
def State.At (s : State T) (owner : Int) : Pc → Prop
  | .walk r (some p) | .drain r p _ | .drainClear r p _ _ => s.Owned owner r.bucket p
  | .release r (some p) | .prepend r p | .takeBlock r p => s.Owned owner r.bucket p
  | .initPage _ p => s.HasPage p ∧ (s.page p).bucket = bucketNone
  | _ => True

/-- The thread's lists hold pages of its own, each under its class. -/
structure State.LocalOk (s : State T) (owner : Int) (heapLocal : HeapLocal) : Prop where
  tid : heapLocal.tid = owner
  pages : ∀ b p, b < bucketCount → heapLocal.pages b = some p → s.Owned owner b p

structure Layout (tid : T → Int) (s : State T) : Prop where
  segments : ∀ seg ∈ s.allSegments, segmentSize ∣ seg ∧ seg + segmentSize ≤ 2 ^ 64
  start : ∀ p, s.HasPage p → (s.page p).dataStart = p.start
  fresh : ∀ p, s.HasPage p → (s.page p).bucket = bucketNone → (s.page p).next = none
  carved : ∀ p, s.Assigned p → (s.page p).bucket < bucketCount ∧
    (s.page p).blockCount = blocksPerPage (s.page p).bucket
  linked : ∀ p q, s.Assigned p → (s.page p).next = some q →
    s.Owned (s.page p).ownerTid (s.page p).bucket q
  locals : ∀ t heapLocal, s.heapLocal t = some heapLocal → s.LocalOk (tid t) heapLocal
  here : ∀ t, s.At (tid t) (s.pc t)

theorem bucket_ne_none (real : bucket < bucketCount) : bucket ≠ bucketNone :=
  Nat.ne_of_lt (Nat.lt_trans real (by decide))

variable {heapLocal : HeapLocal}

theorem State.LocalOk.grows (h : s.LocalOk owner heapLocal) (grows : Grows s s') :
    s'.LocalOk owner heapLocal :=
  ⟨h.tid, fun b p real listed => (h.pages b p real listed).grows (bucket_ne_none real) grows⟩

variable {pc : Pc}

/-- Knowledge about assigned pages is never lost. Only the page about to be
initialised must not be touched in the meantime. -/
theorem State.At.grows (h : s.At owner pc) (grows : Grows s s')
    (waits : ∀ r p, pc = .initPage r p → (s'.page p).bucket = (s.page p).bucket) :
    s'.At owner pc := by
  have owned : ∀ {r : Request} {p : PageRef}, s.Owned owner r.bucket p →
      s'.Owned owner r.bucket p := fun own => own.grows (Request.bucket_ne_none _) grows
  cases pc with
  | walk r page | release r page =>
    cases page with
    | none => trivial
    | some p => exact owned h
  | drain | drainClear | prepend | takeBlock => exact owned h
  | initPage r p => exact ⟨grows.pages p h.1, (waits r p rfl).trans h.2⟩
  | _ => trivial

theorem SamePages.owned (h : SamePages s s') (own : s.Owned owner bucket p) :
    s'.Owned owner bucket p :=
  ⟨h.hasPage.mpr own.exist, (h.bucket p).trans own.bucket, (h.ownerTid p).trans own.owner⟩

/-- A step that only uses pages keeps the layout if the thread may be where it
goes. -/
theorem Layout.undisturbed (h : Layout tid s) (same : Undisturbed s s')
    (locals : ∀ t heapLocal, s'.heapLocal t = some heapLocal → s.LocalOk (tid t) heapLocal)
    (here : ∀ t, s.At (tid t) (s'.pc t)) : Layout tid s' where
  segments := same.segments ▸ h.segments
  start p exist := (same.dataStart p).trans (h.start p (same.hasPage.mp exist))
  fresh p exist none := (same.next p).trans
    (h.fresh p (same.hasPage.mp exist) (same.bucket p ▸ none))
  carved p assigned := by
    rw [same.bucket p, same.blockCount p]
    exact h.carved p (same.assigned.mp assigned)
  linked p q assigned next := by
    rw [same.bucket p, same.ownerTid p]
    exact same.owned (h.linked p q (same.assigned.mp assigned) (same.next p ▸ next))
  locals t heapLocal found := (locals t heapLocal found).grows same.grows
  here t := (here t).grows same.grows fun _ p _ => same.bucket p

variable {t : T} {found : Option HeapLocal}

/-- `get_local` returns a heap whose lists are the thread's own. -/
theorem Layout.getLocal (h : Layout tid s) (get : GetLocal (tid t) (s.heapLocal t) found)
    (some_ : found = some heapLocal) : s.LocalOk (tid t) heapLocal := by
  generalize before : s.heapLocal t = old at get
  cases get with
  | present =>
    cases some_
    exact h.locals t heapLocal before
  | created =>
    cases some_
    exact ⟨rfl, nofun⟩
  | failed => cases some_

/-! ### Branches of the walk -/

variable {r : Request}

theorem Layout.startWalk (h : Layout tid s) (get : GetLocal (tid t) (s.heapLocal t) found) :
    s.At (tid t) (startWalk r found) := by
  cases found with
  | none => trivial
  | some heapLocal =>
    rw [Small.startWalk]
    cases listed : heapLocal.pages r.bucket with
    | none => trivial
    | some p => exact (h.getLocal get rfl).pages r.bucket p r.spec.1 listed

theorem Layout.afterDrain (h : Layout tid s) (own : s.Owned (tid t) r.bucket p) :
    s.At (tid t) (afterDrain r p (s.page p)) := by
  rw [Small.afterDrain]
  split
  · exact own
  · cases next : (s.page p).next with
    | none => trivial
    | some q =>
      have linked := h.linked p q (own.assigned r.bucket_ne_none) next
      rwa [own.owner, own.bucket] at linked

theorem findFreshPage_spec (found : s.findFreshPage = some p) :
    s.HasPage p ∧ (s.page p).bucket = bucketNone := by
  obtain ⟨seg, member, inSegment⟩ := List.exists_of_findSome?_eq_some found
  rw [State.freshIn] at inSegment
  split at inSegment
  · have listed := List.mem_of_find?_eq_some inSegment
    have none := List.find?_some inSegment
    obtain ⟨i, index, rfl⟩ := List.mem_map.mp listed
    exact ⟨⟨member, List.mem_range.mp index⟩, of_decide_eq_true none⟩
  · cases inSegment

theorem At.afterSearch : s.At owner (afterSearch r s.findFreshPage) := by
  cases found : s.findFreshPage with
  | none => trivial
  | some p => exact findFreshPage_spec found

theorem At.afterHeader {header : Header} {ptr : Nat} :
    s.At owner (afterHeader debug header ptr) := by
  rw [Small.afterHeader]
  split
  · trivial
  · split
    · trivial
    · split <;> trivial

theorem At.afterOwner {header : Nat} : s.At owner (afterOwner p page header found) := by
  cases found with
  | none => trivial
  | some heapLocal =>
    rw [Small.afterOwner]
    split <;> trivial

/-! ### Creating and assigning pages -/

variable {addr : Nat}

/-- The new segment is none of the old ones. -/
theorem State.Unmapped.fresh (mapped : s.Unmapped addr) : segmentAligned addr ∉ s.allSegments := by
  intro member
  have aligned := segmentAligned_spec mapped.inRange
  have apart := mapped.apart _ member
  simp only [segmentSize] at *
  omega

theorem State.segmentCreate_page_old (mapped : s.Unmapped addr) (exist : s.HasPage p) :
    (s.segmentCreate addr).page p = s.page p := by
  apply if_neg
  rintro ⟨same, _⟩
  exact mapped.fresh (same ▸ exist.1)

theorem State.segmentCreate_page_new (segment : p.segment = segmentAligned addr)
    (index : p.index < pagesPerSegment) :
    (s.segmentCreate addr).page p = segmentPage (s.page p) p := if_pos ⟨segment, index⟩

/-- A page after `segment_create` is an old one, unchanged, or a new one. -/
theorem State.segmentCreate_hasPage (exist : (s.segmentCreate addr).HasPage p) :
    s.HasPage p ∨ p.segment = segmentAligned addr ∧ p.index < pagesPerSegment := by
  obtain ⟨member, index⟩ := exist
  cases List.mem_cons.mp member with
  | inl new => exact .inr ⟨new, index⟩
  | inr old => exact .inl ⟨old, index⟩

theorem State.segmentCreate_grows (mapped : s.Unmapped addr) :
    Grows s (s.segmentCreate addr) where
  pages _ exist := ⟨List.mem_cons_of_mem _ exist.1, exist.2⟩
  bucket _ assigned := congrArg Page.bucket (segmentCreate_page_old mapped assigned.1)
  blockCount _ assigned := congrArg Page.blockCount (segmentCreate_page_old mapped assigned.1)
  ownerTid _ assigned := congrArg Page.ownerTid (segmentCreate_page_old mapped assigned.1)

/-- New pages are unassigned. -/
theorem State.segmentCreate_assigned (mapped : s.Unmapped addr) :
    (s.segmentCreate addr).Assigned p ↔ s.Assigned p := by
  constructor
  · rintro ⟨exist, assigned⟩
    cases segmentCreate_hasPage exist with
    | inl old => exact ⟨old, segmentCreate_page_old mapped old ▸ assigned⟩
    | inr new =>
      rw [segmentCreate_page_new new.1 new.2] at assigned
      exact absurd rfl assigned
  · exact fun assigned => assigned.grows (segmentCreate_grows mapped)

theorem Layout.segmentCreate (h : Layout tid s) (mapped : s.Unmapped addr) :
    Layout tid (s.segmentCreate addr) := by
  have grows := State.segmentCreate_grows mapped
  have aligned := segmentAligned_spec mapped.inRange
  refine ⟨?_, ?_, ?_, ?_, ?_, ?_, ?_⟩
  · intro seg member
    cases List.mem_cons.mp member with
    | inl new =>
      subst seg
      exact ⟨aligned.1, Nat.le_trans aligned.2.2 mapped.inRange⟩
    | inr old => exact h.segments seg old
  · intro p exist
    cases State.segmentCreate_hasPage exist with
    | inl old =>
      rw [State.segmentCreate_page_old mapped old]
      exact h.start p old
    | inr new =>
      rw [State.segmentCreate_page_new new.1 new.2]
      rfl
  · intro p exist none
    cases State.segmentCreate_hasPage exist with
    | inl old =>
      rw [State.segmentCreate_page_old mapped old] at none ⊢
      exact h.fresh p old none
    | inr new =>
      rw [State.segmentCreate_page_new new.1 new.2]
      rfl
  · intro p assigned
    have before := (State.segmentCreate_assigned mapped).mp assigned
    rw [State.segmentCreate_page_old mapped before.1]
    exact h.carved p before
  · intro p q assigned next
    have before := (State.segmentCreate_assigned mapped).mp assigned
    rw [State.segmentCreate_page_old mapped before.1] at next ⊢
    exact (h.linked p q before next).grows before.2 grows
  · intro t heapLocal found
    exact (h.locals t heapLocal found).grows grows
  · intro t
    refine (h.here t).grows grows ?_
    intro r p initialises
    have known := h.here t
    rw [initialises] at known
    rw [State.segmentCreate_page_old mapped known.1]

/-- Assigning an unassigned page leaves the assigned ones alone. -/
theorem Grows.assign (segments : s'.allSegments = s.allSegments)
    (pages : s'.page = update s.page p page) (unassigned : (s.page p).bucket = bucketNone) :
    Grows s s' := by
  have other : ∀ q, s.Assigned q → s'.page q = s.page q := by
    intro q assigned
    rw [pages]
    apply update_of_ne
    rintro rfl
    exact assigned.2 unassigned
  exact ⟨fun _ exist => ⟨segments ▸ exist.1, exist.2⟩,
    fun q assigned => congrArg Page.bucket (other q assigned),
    fun q assigned => congrArg Page.blockCount (other q assigned),
    fun q assigned => congrArg Page.ownerTid (other q assigned)⟩

variable [DecidableEq T]

/-! ### The global lock -/

/-- Between the acquisition and the release of `heap_global_lock`. -/
def Pc.Locked : Pc → Prop
  | .findPage _ | .createSegment _ | .initPage _ _ | .release _ _ => True
  | _ => False

structure LockHeld (s : State T) : Prop where
  free : s.globalLock = 0 → ∀ t, ¬ (s.pc t).Locked
  unique : ∀ t u, (s.pc t).Locked → (s.pc u).Locked → t = u

theorem startWalk_not_locked (r : Request) (found : Option HeapLocal) :
    ¬ (startWalk r found).Locked := by
  cases found <;> exact id

theorem afterDrain_not_locked (r : Request) (p : PageRef) (page : Page) :
    ¬ (afterDrain r p page).Locked := by
  rw [afterDrain]
  split <;> exact id

theorem afterHeader_not_locked (header : Header) (ptr : Nat) :
    ¬ (afterHeader debug header ptr).Locked := by
  rw [afterHeader]
  split
  · exact id
  · split
    · exact id
    · split <;> exact id

theorem afterOwner_not_locked (p : PageRef) (page : Page) (header : Nat)
    (found : Option HeapLocal) : ¬ (afterOwner p page header found).Locked := by
  cases found with
  | none => exact id
  | some heapLocal =>
    rw [afterOwner]
    split <;> exact id

theorem locked_of_update (locked : pc.Locked → (s.pc t).Locked) :
    ∀ u, (update s.pc t pc u).Locked → (s.pc u).Locked :=
  (forall_update_iff s.pc fun u pc => pc.Locked → (s.pc u).Locked).mpr ⟨locked, fun _ _ => id⟩

/-- A step that leaves the lock word alone and does not enter the locked part. -/
theorem LockHeld.keep (h : LockHeld s) (lock : s'.globalLock = s.globalLock)
    (pcs : s'.pc = update s.pc t pc) (locked : pc.Locked → (s.pc t).Locked) : LockHeld s' := by
  have before : ∀ u, (s'.pc u).Locked → (s.pc u).Locked := by
    rw [pcs]
    exact locked_of_update locked
  exact ⟨fun zero u held => h.free (lock ▸ zero) u (before u held),
    fun u v hu hv => h.unique u v (before u hu) (before v hv)⟩

/-- The exchange enters the locked part only if it found the lock free. -/
theorem LockHeld.acquire (h : LockHeld s) (t : T) (r : Request) :
    LockHeld ({ s with globalLock := 1 }.setPc t (afterAcquire r s.globalLock)) := by
  rw [afterAcquire]
  split
  · have nobody : ∀ u, (update s.pc t (.acquire r) u).Locked → (s.pc u).Locked :=
      locked_of_update False.elim
    exact ⟨nofun, fun u v hu hv => h.unique u v (nobody u hu) (nobody v hv)⟩
  · next taken =>
    have only : ∀ u, (update s.pc t (.findPage r) u).Locked → u = t := by
      intro u held
      by_contra other
      rw [update_of_ne other] at held
      exact h.free (not_not.mp taken) u held
    exact ⟨nofun, fun u v hu hv => (only u hu).trans (only v hv).symm⟩

/-- The holder is the only thread in the locked part, so nobody is after it left. -/
theorem LockHeld.release (h : LockHeld s) (held : (s.pc t).Locked) (left : ¬ pc.Locked) :
    LockHeld ({ s with globalLock := 0 }.setPc t pc) := by
  have nobody := (forall_update_iff s.pc fun _ pc => ¬ pc.Locked).mpr
    ⟨left, fun u self locked => self (h.unique u t locked held)⟩
  exact ⟨fun _ => nobody, fun u _ hu => absurd hu (nobody u)⟩

theorem LockHeld.step (h : LockHeld s) (next : Step debug tid s s') : LockHeld s' := by
  cases next with
  | callAllocate | walkEnd | exchange | drainNext | drainClear | prepend | takeBlock | takeNone
  | writeHeader | returning | callFree | freeOwned | poisonOwned | poisonRemote | pushLoad
  | pushLink | pushCas | pushRetry => exact h.keep rfl rfl nofun
  | getLocal => exact h.keep rfl rfl fun held => (startWalk_not_locked _ _ held).elim
  | drained => exact h.keep rfl rfl fun held => (afterDrain_not_locked _ _ _ held).elim
  | acquire => exact h.acquire _ _
  | findPage at_ | createFailed at_ | createSegment at_ | initPage at_ =>
    exact h.keep rfl rfl fun _ => by rw [at_]; trivial
  | @release _ _ found at_ =>
    exact h.release (by rw [at_]; trivial) (by cases found <;> exact id)
  | checkHeader => exact h.keep rfl rfl fun held => (afterHeader_not_locked _ _ held).elim
  | findOwner => exact h.keep rfl rfl fun held => (afterOwner_not_locked _ _ _ _ held).elim
  | clientWrite => exact ⟨h.free, h.unique⟩

theorem lockHeld_inductive : (system debug tid).Inductive LockHeld where
  init s start := ⟨fun _ t => by rw [(start.2.2.2 t).2]; exact id,
    fun t _ held => by rw [(start.2.2.2 t).2] at held; exact held.elim⟩
  step _ _ h next := h.step next

/-! ### Steps that only use pages -/

section

variable (h : Layout tid s)
include h

/-- Only the moving thread has to be looked at. -/
theorem Layout.here_update (goes : s.At (tid t) pc) (u : T) :
    s.At (tid u) (update s.pc t pc u) :=
  (forall_update_iff s.pc fun u pc => s.At (tid u) pc).mpr ⟨goes, fun u _ => h.here u⟩ u

theorem Layout.use (same : Undisturbed s s') (locals : s'.heapLocal = s.heapLocal)
    (pcs : s'.pc = update s.pc t pc) (goes : s.At (tid t) pc) : Layout tid s' :=
  h.undisturbed same (locals ▸ h.locals) (pcs ▸ h.here_update goes)

/-- The thread stores the heap it got and goes on. -/
theorem Layout.setLocal (get : GetLocal (tid t) (s.heapLocal t) found) (goes : s.At (tid t) pc) :
    Layout tid ((s.setLocal t found).setPc t pc) := by
  refine h.undisturbed (.of_eq rfl rfl) ?_ (h.here_update goes)
  intro u heapLocal stored
  change update s.heapLocal t found u = some heapLocal at stored
  by_cases self : u = t
  · subst u
    rw [update_self] at stored
    exact h.getLocal get stored
  · rw [update_of_ne self] at stored
    exact h.locals u heapLocal stored

/-- Initialising the page that the lock holder chose. -/
theorem Layout.assignPage (lock : LockHeld s) (at_ : s.pc t = .initPage r p)
    (segments : s'.allSegments = s.allSegments)
    (pages : s'.page = update s.page p (pageInitForBucket (s.page p) r.bucket (tid t)))
    (locals : s'.heapLocal = s.heapLocal) (pcs : s'.pc = update s.pc t (.release r (some p))) :
    Layout tid s' := by
  obtain ⟨exists_, unassigned⟩ : s.HasPage p ∧ (s.page p).bucket = bucketNone := by
    have known := h.here t
    rwa [at_] at known
  have grows : Grows s s' := .assign segments pages unassigned
  have self : s'.page p = pageInitForBucket (s.page p) r.bucket (tid t) := by
    rw [pages, update_self]
  have other : ∀ q, q ≠ p → s'.page q = s.page q := by
    intro q ne
    rw [pages, update_of_ne ne]
  have before : ∀ q, s'.HasPage q → s.HasPage q := fun q exist => ⟨segments ▸ exist.1, exist.2⟩
  have assignedBefore : ∀ q, q ≠ p → s'.Assigned q → s.Assigned q := fun q ne assigned =>
    ⟨before q assigned.1, other q ne ▸ assigned.2⟩
  refine ⟨segments ▸ h.segments, ?_, ?_, ?_, ?_, ?_, ?_⟩
  · intro q exist
    by_cases here : q = p
    · subst q
      rw [self]
      exact h.start p exists_
    · rw [other q here]
      exact h.start q (before q exist)
  · intro q exist none
    by_cases here : q = p
    · subst q
      rw [self] at none
      exact absurd none r.bucket_ne_none
    · rw [other q here] at none ⊢
      exact h.fresh q (before q exist) none
  · intro q assigned
    by_cases here : q = p
    · subst q
      rw [self]
      exact ⟨r.spec.1, rfl⟩
    · rw [other q here]
      exact h.carved q (assignedBefore q here assigned)
  · intro q q' assigned next
    by_cases here : q = p
    · -- The fresh page is on no list yet.
      subst q
      rw [self] at next
      exact absurd ((h.fresh p exists_ unassigned).symm.trans next) nofun
    · rw [other q here] at next ⊢
      have old := assignedBefore q here assigned
      exact (h.linked q q' old next).grows old.2 grows
  · intro u heapLocal found
    exact (h.locals u heapLocal (locals ▸ found)).grows grows
  · rw [pcs]
    refine (forall_update_iff s.pc fun u pc => s'.At (tid u) pc).mpr ⟨?_, fun u actor => ?_⟩
    · exact ⟨grows.pages p exists_, by rw [self]; rfl, by rw [self]; rfl⟩
    · refine (h.here u).grows grows ?_
      intro r' q waiting
      -- Two threads about to initialise a page would both hold the lock.
      exact absurd (lock.unique u t (by rw [waiting]; trivial) (by rw [at_]; trivial)) actor

/-- Putting an owned page in front of the thread's list. -/
theorem Layout.prepend (own : s.Owned (tid t) r.bucket p) (mine : s.heapLocal t = some heapLocal)
    (segments : s'.allSegments = s.allSegments)
    (pages : s'.page = update s.page p { s.page p with next := heapLocal.pages r.bucket })
    (locals : s'.heapLocal = update s.heapLocal t
      (some { heapLocal with pages := update heapLocal.pages r.bucket (some p) }))
    (pcs : s'.pc = update s.pc t (.takeBlock r p)) : Layout tid s' := by
  have same : SamePages s s' := .of_update segments pages rfl rfl rfl
  have grows : Grows s s' := same.grows
  have lists := h.locals t heapLocal mine
  refine ⟨segments ▸ h.segments, ?_, ?_, ?_, ?_, ?_, ?_⟩
  · intro q exist
    have start : (s'.page q).dataStart = (s.page q).dataStart := by
      rw [pages]
      refine forall_page_update (P := fun old new => new.dataStart = old.dataStart) ?_
        (fun _ => rfl) q
      rfl
    exact start.trans (h.start q (same.hasPage.mp exist))
  · intro q exist none
    rw [same.bucket q] at none
    have other : q ≠ p := by
      rintro rfl
      exact (own.assigned r.bucket_ne_none).2 none
    rw [pages, update_of_ne other]
    exact h.fresh q (same.hasPage.mp exist) none
  · intro q assigned
    rw [same.bucket q, same.blockCount q]
    exact h.carved q (same.assigned.mp assigned)
  · intro q q' assigned next
    rw [same.bucket q, same.ownerTid q]
    refine same.owned ?_
    by_cases here : q = p
    · subst q
      rw [pages, update_self] at next
      rw [own.owner, own.bucket]
      exact lists.pages r.bucket q' r.spec.1 next
    · rw [pages, update_of_ne here] at next
      exact h.linked q q' (same.assigned.mp assigned) next
  · intro u found stored
    rw [locals] at stored
    refine State.LocalOk.grows ?_ grows
    by_cases self : u = t
    · subst u
      rw [update_self] at stored
      cases stored
      refine ⟨lists.tid, ?_⟩
      intro b q real listed
      change update heapLocal.pages r.bucket (some p) b = some q at listed
      by_cases class_ : b = r.bucket
      · subst b
        rw [update_self] at listed
        cases listed
        exact own
      · rw [update_of_ne class_] at listed
        exact lists.pages b q real listed
    · rw [update_of_ne self] at stored
      exact h.locals u found stored
  · intro u
    rw [pcs]
    exact (h.here_update (show s.At (tid t) (.takeBlock r p) from own) u).grows grows
      fun _ q _ => same.bucket q

/-! ### Every step -/

theorem Layout.step (lock : LockHeld s) (next : Step debug tid s s') : Layout tid s' := by
  -- What the moving thread knows where it stands.
  have known : ∀ {t : T} {pc : Pc}, s.pc t = pc → s.At (tid t) pc := fun at_ => at_ ▸ h.here _
  cases next with
  | callAllocate | walkEnd | createFailed | takeNone | writeHeader | returning | callFree
  | poisonOwned | poisonRemote | pushLoad | pushLink | pushRetry =>
    exact h.use (.of_eq rfl rfl) rfl rfl trivial
  | getLocal _ get => exact h.setLocal get (h.startWalk get)
  | exchange at_ =>
    exact h.use (.of_update rfl rfl ⟨rfl, rfl, rfl, rfl, rfl⟩) rfl rfl (known at_ :)
  | drainNext at_ => exact h.use (.of_eq rfl rfl) rfl rfl (known at_ :)
  | drainClear at_ =>
    exact h.use (.of_update rfl rfl (bitmapFreeBlock_sameFrame _ _)) rfl rfl (known at_ :)
  | drained at_ => exact h.use (.of_eq rfl rfl) rfl rfl (h.afterDrain (known at_))
  | acquire =>
    refine h.use (.of_eq rfl rfl) rfl rfl ?_
    rw [afterAcquire]
    split <;> trivial
  | findPage => exact h.use (.of_eq rfl rfl) rfl rfl At.afterSearch
  | createSegment _ mapped =>
    have new : 0 < pagesPerSegment := by decide
    refine (h.segmentCreate mapped).use (.of_eq rfl rfl) rfl rfl ?_
    exact ⟨⟨List.mem_cons_self, new⟩,
      congrArg Page.bucket (State.segmentCreate_page_new rfl new)⟩
  | initPage at_ => exact h.assignPage lock at_ rfl rfl rfl rfl
  | @release _ _ found at_ =>
    refine h.use (.of_eq rfl rfl) rfl rfl ?_
    cases found with
    | none => trivial
    | some p => exact (known at_ :)
  | prepend at_ mine => exact h.prepend (known at_) mine rfl rfl rfl rfl
  | takeBlock at_ found =>
    obtain ⟨i, takes⟩ := bitmapAllocateBlock_takes found
    exact h.use (.of_update rfl rfl (sameFrame_of_takes takes)) rfl rfl trivial
  | checkHeader => exact h.use (.of_eq rfl rfl) rfl rfl At.afterHeader
  | findOwner _ get => exact h.setLocal get At.afterOwner
  | freeOwned => exact h.use (.of_update rfl rfl (bitmapFreeBlock_sameFrame _ _)) rfl rfl trivial
  | pushCas => exact h.use (.of_update rfl rfl ⟨rfl, rfl, rfl, rfl, rfl⟩) rfl rfl trivial
  | clientWrite => exact h.undisturbed (.of_eq rfl rfl) h.locals h.here

end

theorem layout_reachable (run : (system debug tid).Reachable s) : Layout tid s := by
  refine System.Inductive.of_reachable ?_ ?_ s run
  · intro s start
    have none : ∀ p, ¬ s.HasPage p := by
      intro p exist
      rw [State.HasPage, start.1] at exist
      exact absurd exist.1 List.not_mem_nil
    refine ⟨?_, fun p exist => (none p exist).elim, fun p exist => (none p exist).elim,
      fun p assigned => (none p assigned.1).elim, fun p _ assigned => (none p assigned.1).elim,
      ?_, ?_⟩
    · rw [start.1]
      exact fun _ member => absurd member List.not_mem_nil
    · intro t heapLocal found
      rw [(start.2.2.2 t).1] at found
      cases found
    · intro t
      rw [(start.2.2.2 t).2]
      trivial
  · intro s t run h next
    exact h.step (lockHeld_inductive.reachable run) next

/-! ### Blocks of assigned pages -/

section Blocks

omit [DecidableEq T]

variable {p q : PageRef} {i j a b : Nat}

theorem SamePages.isBlock (h : SamePages s s') : s'.IsBlock p i a ↔ s.IsBlock p i a := by
  constructor
  · intro block
    exact ⟨h.assigned.mp block.page, h.blockCount p ▸ block.index, h.bucket p ▸ block.address⟩
  · exact fun block => block.grows h.grows

variable (h : Layout tid s)
include h

theorem Layout.valid (exist : s.HasPage p) : p.Valid :=
  ⟨(h.segments _ exist.1).1, (h.segments _ exist.1).2, exist.2⟩

variable (block : s.IsBlock p i a)
include block

theorem Layout.index_lt :
    i < blocksPerPage (s.page p).bucket := (h.carved p block.page).2 ▸ block.index

/-- A block lies in the data area of its page. -/
theorem Layout.inside :
    p.start ≤ a ∧ a + blockSize (s.page p).bucket ≤ p.start + allocPageSize := by
  have fits := block_fits (h.carved p block.page).1 (h.index_lt block)
  rw [block.address]
  omega

/-- Block addresses are not null and stay in the address space. -/
theorem Layout.address_bounds : 0 < a ∧ a < 2 ^ 64 := by
  have valid := h.valid block.page.1
  have inSegment := valid.inSegment
  have inRange := valid.inRange
  have inside := h.inside block
  have size := blockSize_bounds (h.carved p block.page).1
  simp only [allocPageSize, headerSize] at *
  omega

/-- The user pointer of a block leads back to its page. -/
theorem Layout.pageFromPointer_ptr : pageFromPointer (a + headerSize) = p := by
  have inside := h.inside block
  have size := blockSize_bounds (h.carved p block.page).1
  simp only [headerSize] at *
  exact pageFromPointer_eq (h.valid block.page.1) (by omega) (by omega)

theorem Layout.blockIdx_block : (s.page p).blockIdx a = i := by
  have address := block.address
  rw [← h.start p block.page.1] at address
  have word := (h.address_bounds block).2
  rw [address] at word ⊢
  exact blockIdx_eq (h.carved p block.page).1 (h.index_lt block) word

/-- An address is the start of at most one block. -/
theorem Layout.block_unique (block' : s.IsBlock q j a) : p = q ∧ i = j := by
  have same : p = q := (h.pageFromPointer_ptr block).symm.trans (h.pageFromPointer_ptr block')
  subst q
  exact ⟨rfl, (h.blockIdx_block block).symm.trans (h.blockIdx_block block')⟩

/-- Different blocks share no byte. -/
theorem Layout.block_apart (block' : s.IsBlock q j b) (ne : a ≠ b) :
    a + blockSize (s.page p).bucket ≤ b ∨ b + blockSize (s.page q).bucket ≤ a := by
  by_cases same : p = q
  · subst q
    have index : i ≠ j := by
      rintro rfl
      exact ne (block.address.trans block'.address.symm)
    have apart := slot_apart (blockSize (s.page p).bucket) index
    rw [block.address, block'.address]
    omega
  · have inside := h.inside block
    have inside' := h.inside block'
    have apart := start_apart (h.valid block.page.1) (h.valid block'.page.1) same
    omega

end Blocks

end Lightc.Heap.Small
