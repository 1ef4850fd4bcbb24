import Lightc.Heap.Small.Calls

/-!
# Page lists are finite

A thread walks the list of its pages before it asks for a new one. A page is put in
front of a list once, between its assignment and the first allocation from it, and is on
no list before; so every list ends. Next to this stands what is missing of the lock:
`LockHeld` says that it is not free while somebody holds it, `Orderly` that it is not
taken while nobody does.
-/

namespace Lightc.Heap.Small

open Machine Verification Function

variable {T : Type} {debug : Bool} {tid : T → Int} {s s' : State T} {t : T}

/-! ### Page lists and the lock -/

/-- `page->next`, with `NULL` behind the last page. -/
def State.nextPage (s : State T) : Option PageRef → Option PageRef
  | none => none
  | some p => (s.page p).next

/-- A thread's list of pages of one class starts here. -/
def State.IsList (s : State T) (head : Option PageRef) : Prop :=
  ∃ t heapLocal b, s.heapLocal t = some heapLocal ∧ b < bucketCount ∧ heapLocal.pages b = head

/-- The page is assigned and about to be put on a list. -/
def Pc.Pending : Pc → PageRef → Prop
  | .release _ (some p), q => p = q
  | .prepend _ p, q => p = q
  | _, _ => False

theorem State.nextPage_congr (next : ∀ p, (s'.page p).next = (s.page p).next) :
    s'.nextPage = s.nextPage := by
  funext a
  cases a with
  | none => rfl
  | some p => exact next p

structure Orderly (s : State T) : Prop where
  lock : s.globalLock ≠ 0 → ∃ t, (s.pc t).Locked
  lists : ∀ head, s.IsList head → ∃ nodes, Chain s.nextPage none head nodes
  unlisted : ∀ t p, (s.pc t).Pending p → ∀ head, s.IsList head →
    ¬ Linked s.nextPage none head (some p)

variable {head : Option PageRef} {pc : Pc}

/-- Only assigned pages are on a list. -/
theorem Layout.assigned_of_linked (h : Layout tid s) {a : Option PageRef}
    (first : ∀ p, head = some p → s.Assigned p) (met : Linked s.nextPage none head a) :
    ∃ p, a = some p ∧ s.Assigned p := by
  induction met with
  | @here a node =>
    obtain ⟨p, rfl⟩ := Option.ne_none_iff_exists'.mp node
    exact ⟨p, rfl, first p rfl⟩
  | @there a b node _ ih =>
    obtain ⟨p, rfl⟩ := Option.ne_none_iff_exists'.mp node
    have assigned := first p rfl
    exact ih fun q next => (h.linked p q assigned next).assigned assigned.2

theorem Layout.assigned_of_isList (h : Layout tid s) (list : s.IsList head) (p : PageRef)
    (first : head = some p) : s.Assigned p := by
  obtain ⟨t, heapLocal, b, stored, real, rfl⟩ := list
  exact ((h.locals t heapLocal stored).pages b p real first).assigned (bucket_ne_none real)

/-- The nodes of a page list are assigned pages. -/
theorem Layout.assigned_of_mem (h : Layout tid s) {nodes : List (Option PageRef)}
    (list : s.IsList head) (chain : Chain s.nextPage none head nodes) {a : Option PageRef}
    (member : a ∈ nodes) :
    ∃ p, a = some p ∧ s.Assigned p :=
  h.assigned_of_linked (h.assigned_of_isList list) (chain.linked_of_mem member)

/-- A list stays as it is if the links of its pages do. -/
theorem Orderly.chain_congr (h : Orderly s) (layout : Layout tid s) (list : s.IsList head)
    (next : ∀ p, s.Assigned p → Linked s.nextPage none head (some p) → (s'.page p).next = (s.page
      p).next) :
    ∃ nodes, Chain s.nextPage none head nodes ∧ Chain s'.nextPage none head nodes := by
  obtain ⟨nodes, chain⟩ := h.lists head list
  refine ⟨nodes, chain, chain.congr fun a member => ?_⟩
  obtain ⟨p, rfl, assigned⟩ := layout.assigned_of_mem list chain member
  exact next p assigned (chain.linked_of_mem member)

theorem Orderly.keep (h : Orderly s) (layout : Layout tid s)
    (next : ∀ p, s.Assigned p → (s'.page p).next = (s.page p).next)
    (heads : ∀ head, s'.IsList head → head = none ∨ s.IsList head)
    (pending : ∀ t p, (s'.pc t).Pending p → (s.pc t).Pending p ∨ ¬ s.Assigned p)
    (lock : s'.globalLock ≠ 0 → ∃ t, (s'.pc t).Locked) : Orderly s' := by
  have chains : ∀ head, s.IsList head → ∃ nodes, Chain s.nextPage none head nodes ∧
      Chain s'.nextPage none head nodes :=
    fun head list => h.chain_congr layout list fun p assigned _ => next p assigned
  refine ⟨lock, fun head list => ?_, fun t p waits head list met => ?_⟩
  · rcases heads head list with rfl | list
    · exact ⟨[], .nil⟩
    · obtain ⟨nodes, _, chain⟩ := chains head list
      exact ⟨nodes, chain⟩
  · rcases heads head list with rfl | list
    · cases met with
      | there node _ => exact node rfl
    · obtain ⟨nodes, chain, chain'⟩ := chains head list
      have member := chain'.mem_of_linked met
      rcases pending t p waits with before | fresh
      · exact h.unlisted t p before head list (chain.linked_of_mem member)
      · obtain ⟨q, same, assigned⟩ := layout.assigned_of_mem list chain member
        cases same
        exact fresh assigned

/-- Nothing of it depends on what is in memory or with the client. -/
theorem Orderly.congr (h : Orderly s) (page : s'.page = s.page)
    (locals : s'.heapLocal = s.heapLocal) (lock : s'.globalLock = s.globalLock)
    (pcs : s'.pc = s.pc) : Orderly s' := by
  have next : s'.nextPage = s.nextPage :=
    State.nextPage_congr fun p => congrArg (fun pages => (pages p).next) page
  have list : ∀ head, s'.IsList head → s.IsList head := by
    rintro head ⟨t, heapLocal, b, stored, rest⟩
    exact ⟨t, heapLocal, b, locals ▸ stored, rest⟩
  refine ⟨fun taken => ?_, fun head starts => ?_, fun t p waits head starts => ?_⟩
  · rw [pcs]
    exact h.lock (lock ▸ taken)
  · rw [next]
    exact h.lists head (list head starts)
  · rw [next]
    exact h.unlisted t p (pcs ▸ waits) head (list head starts)

/-- A page is put on a list by the thread it belongs to. -/
theorem Layout.owner_of_pending (h : Layout tid s) {p : PageRef} (waits : (s.pc t).Pending p) :
    (s.page p).ownerTid = tid t := by
  have known := h.here t
  generalize s.pc t = pc at waits known
  cases pc with
  | release r found =>
    cases found with
    | none => exact waits.elim
    | some q =>
      cases waits
      exact known.owner
  | prepend r q =>
    cases waits
    exact known.owner
  | _ => exact waits.elim

variable [DecidableEq T]

/-! ### Every step -/

theorem startWalk_not_pending (r : Request) (found : Option HeapLocal) (p : PageRef) :
    ¬ (startWalk r found).Pending p := by
  cases found <;> exact id

theorem afterDrain_not_pending (r : Request) (q : PageRef) (page : Page) (p : PageRef) :
    ¬ (afterDrain r q page).Pending p := by
  rw [afterDrain]
  split <;> exact id

theorem afterAcquire_not_pending (r : Request) (old : Nat) (p : PageRef) :
    ¬ (afterAcquire r old).Pending p := by
  rw [afterAcquire]
  split <;> exact id

theorem afterSearch_not_pending (r : Request) (found : Option PageRef) (p : PageRef) :
    ¬ (afterSearch r found).Pending p := by
  cases found <;> exact id

theorem afterHeader_not_pending (header : Header) (ptr : Nat) (p : PageRef) :
    ¬ (afterHeader debug header ptr).Pending p := by
  rw [afterHeader]
  split
  · exact id
  · split
    · exact id
    · split <;> exact id

theorem afterOwner_not_pending (q : PageRef) (page : Page) (header : Nat)
    (found : Option HeapLocal) (p : PageRef) : ¬ (afterOwner q page header found).Pending p := by
  cases found with
  | none => exact id
  | some heapLocal =>
    rw [afterOwner]
    split <;> exact id

/-- Only the moving thread has to be looked at. -/
theorem pending_update (pcs : s'.pc = update s.pc t pc)
    (goes : ∀ p, pc.Pending p → (s.pc t).Pending p ∨ ¬ s.Assigned p) :
    ∀ u p, (s'.pc u).Pending p → (s.pc u).Pending p ∨ ¬ s.Assigned p := by
  rw [pcs]
  exact (forall_update_iff s.pc fun u pc => ∀ p, pc.Pending p →
    (s.pc u).Pending p ∨ ¬ s.Assigned p).mpr ⟨goes, fun _ _ _ => .inl⟩

variable (h : Orderly s)
include h

theorem locked_update (lock : s'.globalLock = s.globalLock) (pcs : s'.pc = update s.pc t pc)
    (stays : (s.pc t).Locked → pc.Locked) (taken : s'.globalLock ≠ 0) : ∃ u, (s'.pc u).Locked := by
  obtain ⟨u, held⟩ := h.lock (lock ▸ taken)
  refine ⟨u, ?_⟩
  rw [pcs]
  by_cases self : u = t
  · subst u
    rw [update_self]
    exact stays held
  · rwa [update_of_ne self]

/-- A step that leaves lists, links and the lock alone. -/
theorem Orderly.use (layout : Layout tid s) (frame : ∀ p, (s'.page p).next = (s.page p).next)
    (locals : s'.heapLocal = s.heapLocal) (lock : s'.globalLock = s.globalLock)
    (pcs : s'.pc = update s.pc t pc) (stays : (s.pc t).Locked → pc.Locked)
    (goes : ∀ p, ¬ pc.Pending p) : Orderly s' := by
  refine h.keep layout (fun p _ => frame p) ?_
    (pending_update pcs fun p waits => absurd waits (goes p)) (locked_update h lock pcs stays)
  rintro head ⟨u, heapLocal, b, stored, rest⟩
  exact .inr ⟨u, heapLocal, b, locals ▸ stored, rest⟩

/-- `get_local` makes no list but empty ones. -/
theorem Orderly.setLocal (layout : Layout tid s) {found : Option HeapLocal}
    (get : GetLocal (tid t) (s.heapLocal t) found) (stays : ¬ (s.pc t).Locked)
    (goes : ∀ p, ¬ pc.Pending p) : Orderly ((s.setLocal t found).setPc t pc) := by
  refine h.keep layout (fun _ _ => rfl) ?_
    (pending_update rfl fun p waits => absurd waits (goes p))
    (locked_update h rfl rfl fun held => absurd held stays)
  rintro head ⟨u, heapLocal, b, stored, real, starts⟩
  change update s.heapLocal t found u = some heapLocal at stored
  by_cases self : u = t
  · subst u
    rw [update_self] at stored
    generalize before : s.heapLocal t = old at get
    cases get with
    | present => exact .inr ⟨t, heapLocal, b, before.trans stored, real, starts⟩
    | created =>
      cases stored
      exact .inl starts.symm
    | failed => cases stored
  · rw [update_of_ne self] at stored
    exact .inr ⟨u, heapLocal, b, stored, real, starts⟩

theorem Orderly.acquire (layout : Layout tid s) {r : Request} (at_ : s.pc t = .acquire r) :
    Orderly ({ s with globalLock := 1 }.setPc t (afterAcquire r s.globalLock)) := by
  refine h.keep layout (fun _ _ => rfl) (fun head list => .inr list)
    (pending_update rfl fun p waits => absurd waits (afterAcquire_not_pending r _ p)) fun _ => ?_
  by_cases taken : s.globalLock ≠ 0
  · obtain ⟨u, held⟩ := h.lock taken
    have other : u ≠ t := by
      rintro rfl
      rw [at_] at held
      exact held
    refine ⟨u, ?_⟩
    show (update s.pc t _ u).Locked
    rwa [update_of_ne other]
  · refine ⟨t, ?_⟩
    show (update s.pc t _ t).Locked
    rw [update_self, afterAcquire, if_neg taken]
    trivial

/-- The page that is put in front of a list is on none. -/
theorem Orderly.prepend (layout : Layout tid s) (distinct : Injective tid) {r : Request}
    {p : PageRef} {heapLocal : HeapLocal} (at_ : s.pc t = .prepend r p)
    (mine : s.heapLocal t = some heapLocal)
    (pages : s'.page = update s.page p { s.page p with next := heapLocal.pages r.bucket })
    (locals : s'.heapLocal = update s.heapLocal t
      (some { heapLocal with pages := update heapLocal.pages r.bucket (some p) }))
    (lock : s'.globalLock = s.globalLock)
    (pcs : s'.pc = update s.pc t (.takeBlock r p)) : Orderly s' := by
  have waiting : (s.pc t).Pending p := by
    rw [at_]
    rfl
  have front : s.IsList (heapLocal.pages r.bucket) :=
    ⟨t, heapLocal, r.bucket, mine, r.spec.1, rfl⟩
  have old : ∀ head, s.IsList head → ∃ nodes, Chain s.nextPage none head nodes ∧
      Chain s'.nextPage none head nodes := by
    intro head list
    refine h.chain_congr layout list fun q _ met => ?_
    have other : q ≠ p := by
      rintro rfl
      exact h.unlisted t q waiting head list met
    rw [pages, update_of_ne other]
  have link : s'.nextPage (some p) = heapLocal.pages r.bucket := by
    show (s'.page p).next = _
    rw [pages, update_self]
  have heads : ∀ head, s'.IsList head → head = some p ∨ s.IsList head := by
    rintro head ⟨u, found, b, stored, real, starts⟩
    rw [locals] at stored
    by_cases self : u = t
    · subst u
      rw [update_self] at stored
      cases stored
      change update heapLocal.pages r.bucket (some p) b = head at starts
      by_cases class_ : b = r.bucket
      · subst b
        rw [update_self] at starts
        exact .inl starts.symm
      · rw [update_of_ne class_] at starts
        exact .inr ⟨t, heapLocal, b, mine, real, starts⟩
    · rw [update_of_ne self] at stored
      exact .inr ⟨u, found, b, stored, real, starts⟩
  refine ⟨locked_update h lock pcs (by rw [at_]; exact False.elim), ?_, ?_⟩
  · intro head list
    rcases heads head list with rfl | list
    · obtain ⟨nodes, _, chain⟩ := old _ front
      exact ⟨some p :: nodes, .cons (Option.some_ne_none p) (link.symm ▸ chain)⟩
    · obtain ⟨nodes, _, chain⟩ := old head list
      exact ⟨nodes, chain⟩
  · intro u q waits head list met
    have other : u ≠ t := by
      rintro rfl
      rw [pcs, update_self] at waits
      exact waits
    rw [pcs, update_of_ne other] at waits
    have absent : ∀ head, s.IsList head → ¬ Linked s'.nextPage none head (some q) := by
      intro head list met
      obtain ⟨nodes, chain, chain'⟩ := old head list
      exact h.unlisted u q waits head list (chain.linked_of_mem (chain'.mem_of_linked met))
    rcases heads head list with rfl | list
    · cases met with
      | here =>
        -- Two threads would have the same page to put on a list.
        exact other (distinct ((layout.owner_of_pending waits).symm.trans
          (layout.owner_of_pending waiting)))
      | there _ tail => exact absent _ front (link ▸ tail)
    · exact absent head list met

theorem Orderly.step (sound : Sound tid s) (distinct : Injective tid) (next : Step debug tid s s') :
    Orderly s' := by
  have layout := sound.layout
  have outside : ∀ {t : T} {pc pc' : Pc}, s.pc t = pc → ¬ pc.Locked → (s.pc t).Locked →
      pc'.Locked := fun at_ free held => absurd (at_ ▸ held) free
  cases next with
  | getLocal at_ get =>
    exact h.setLocal layout get (by rw [at_]; exact id) (startWalk_not_pending _ _)
  | callAllocate at_ | walkEnd at_ | drainNext at_ | takeNone at_ | writeHeader at_ | returning at_
  | callFree at_ | poisonOwned at_ | poisonRemote at_ | pushLoad at_ | pushLink at_
  | pushRetry at_ =>
    exact h.use layout (fun _ => rfl) rfl rfl rfl (outside at_ id) fun _ => id
  | exchange at_ | pushCas at_ =>
    refine h.use layout ?_ rfl rfl rfl (outside at_ id) fun _ => id
    exact forall_page_update (P := fun old new => new.next = old.next) rfl fun _ => rfl
  | drainClear at_ | freeOwned at_ =>
    refine h.use layout ?_ rfl rfl rfl (outside at_ id) fun _ => id
    exact forall_page_update (P := fun old new => new.next = old.next)
      (bitmapFreeBlock_sameFrame _ _).next fun _ => rfl
  | drained at_ =>
    exact h.use layout (fun _ => rfl) rfl rfl rfl (outside at_ id) (afterDrain_not_pending _ _ _)
  | acquire at_ => exact h.acquire layout at_
  | findPage =>
    refine h.use layout (fun _ => rfl) rfl rfl rfl (fun _ => ?_) (afterSearch_not_pending _ _)
    cases s.findFreshPage <;> trivial
  | createFailed =>
    exact h.use layout (fun _ => rfl) rfl rfl rfl (fun _ => trivial) fun _ => id
  | createSegment _ mapped =>
    refine h.keep layout ?_ (fun head list => .inr list)
      (pending_update rfl fun _ => False.elim) (locked_update h rfl rfl fun _ => trivial)
    exact fun p assigned => congrArg Page.next (State.segmentCreate_page_old mapped assigned.1)
  | @initPage t r p at_ =>
    have known := layout.here t
    rw [at_] at known
    have fresh : ¬ s.Assigned p := fun assigned => assigned.2 known.2
    refine h.keep layout ?_ (fun head list => .inr list) (pending_update rfl ?_)
      (locked_update h rfl rfl fun _ => trivial)
    · intro q assigned
      refine congrArg Page.next (update_of_ne ?_ ..)
      rintro rfl
      exact fresh assigned
    · rintro q rfl
      exact .inr fresh
  | @release t r found at_ =>
    refine h.keep layout (fun _ _ => rfl) (fun head list => .inr list) (pending_update rfl ?_)
      fun taken => absurd rfl taken
    intro p waits
    rw [at_]
    cases found with
    | none => exact waits.elim
    | some q => exact .inl waits
  | prepend at_ mine => exact h.prepend layout distinct at_ mine rfl rfl rfl rfl
  | takeBlock at_ found =>
    obtain ⟨i, takes⟩ := bitmapAllocateBlock_takes found
    refine h.use layout ?_ rfl rfl rfl (outside at_ id) fun _ => id
    exact forall_page_update (P := fun old new => new.next = old.next)
      (sameFrame_of_takes takes).next fun _ => rfl
  | checkHeader at_ =>
    exact h.use layout (fun _ => rfl) rfl rfl rfl (outside at_ id) (afterHeader_not_pending _ _)
  | findOwner at_ get =>
    exact h.setLocal layout get (by rw [at_]; exact id) (afterOwner_not_pending _ _ _ _)
  | clientWrite => exact h.congr rfl rfl rfl rfl

omit h in
theorem orderly_reachable (distinct : Injective tid)
    (run : (system debug tid).Reachable s) : Orderly s := by
  refine System.Inductive.of_reachable ?_ ?_ s run
  · intro s start
    refine ⟨fun taken => absurd start.2.1 taken, ?_, ?_⟩
    · rintro head ⟨t, heapLocal, b, stored, _⟩
      rw [(start.2.2.2 t).1] at stored
      cases stored
    · intro t p waits
      rw [(start.2.2.2 t).2] at waits
      exact waits.elim
  · intro s t run h next
    exact h.step (sound_reachable distinct run) distinct next

theorem Orderly.works (sound : Sound tid s) (distinct : Injective tid)
    (works : Works debug tid t s s') : Orderly s' := by
  induction works with
  | refl => exact h
  | tail before next ih => exact ih.step (sound.works distinct before).sound distinct next.step

end Lightc.Heap.Small
