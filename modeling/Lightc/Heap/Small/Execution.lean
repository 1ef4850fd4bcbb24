import Lightc.Heap.Small.Calls

/-!
# The small heap as a program

A call of a thread that has the heap to itself is a program that runs from one
shared access to the next. Only the kernel is left to choose: `addr` is where it
maps a segment when it is asked for one.
-/

namespace Lightc.Heap.Small

open Machine Verification Function

variable {T : Type} [DecidableEq T] {debug : Bool} {tid : T → Int} {addr : Nat} {t : T}
variable {s s' : State T}

instance (s : State T) (addr : Nat) : Decidable (s.Unmapped addr) :=
  decidable_of_iff (addr + 2 * segmentSize ≤ 2 ^ 64 ∧
    ∀ seg ∈ s.allSegments, addr + 2 * segmentSize ≤ seg ∨ seg + segmentSize ≤ addr)
    ⟨fun h => ⟨h.1, h.2⟩, fun h => ⟨h.inRange, h.apart⟩⟩

/-- `get_local`, with a new heap if there is none. -/
def heapOf (tid : T → Int) (s : State T) (t : T) : HeapLocal :=
  (s.heapLocal t).getD ⟨tid t, fun _ => none⟩

/-- The next access of `t`, unless it has left the heap or has a new block in its hands. -/
def advance (debug : Bool) (tid : T → Int) (addr : Nat) (t : T) (s : State T) :
    Option (State T) :=
  match s.pc t with
  | .getLocal r => some ((s.setLocal t (some (heapOf tid s t))).setPc t
      (startWalk r (some (heapOf tid s t))))
  | .walk r none => some (s.setPc t (.acquire r))
  | .walk r (some p) => some
      ((s.setPage p { s.page p with
        remoteFreeList := (atomicExchange (s.page p).remoteFreeList 0).2 }).setPc t
        (.drain r p (atomicExchange (s.page p).remoteFreeList 0).1))
  | .drain r p list =>
    if list ≠ 0 then some (s.setPc t (.drainClear r p list (s.nextNode list)))
    else some (s.setPc t (afterDrain r p (s.page p)))
  | .drainClear r p list next => some
      ((s.setPage p (bitmapFreeBlock (s.page p) list)).setPc t (.drain r p next))
  | .acquire r => some
      ({ s with globalLock := (atomicExchange s.globalLock 1).2 }.setPc t
        (afterAcquire r (atomicExchange s.globalLock 1).1))
  | .findPage r => some (s.setPc t (afterSearch r s.findFreshPage))
  | .createSegment r =>
    if s.Unmapped addr then some
      ((s.segmentCreate addr).setPc t (.initPage r ⟨segmentAligned addr, 0⟩))
    else some (s.setPc t (.release r none))
  | .initPage r p => some ((s.assignPage p r.bucket (tid t)).setPc t (.release r (some p)))
  | .release r found => some ({ s with globalLock := 0 }.setPc t (afterRelease r found))
  | .prepend r p => (s.heapLocal t).map fun heapLocal =>
    ((s.setPage p { s.page p with next := heapLocal.pages r.bucket }).setLocal t
      (some { heapLocal with
        pages := update heapLocal.pages r.bucket (some p) })).setPc t
      (.takeBlock r p)
  | .takeBlock r p =>
    match bitmapAllocateBlock (s.page p) with
    | some (page, block) => some ((s.setPage p page).setPc t (.writeHeader r block))
    | none => some (s.setPc t .idle)
  | .checkHeader ptr => some
      (s.setPc t (afterHeader debug (readHeader s.memory (ptr - headerSize)) ptr))
  | .findOwner ptr => some
      ((s.setLocal t (some (heapOf tid s t))).setPc t
        (afterOwner (pageFromPointer ptr) (s.page (pageFromPointer ptr)) (ptr - headerSize)
          (some (heapOf tid s t))))
  | .freeOwned p header => some
      ((s.setPage p (bitmapFreeBlock (s.page p) header)).setPc t (.poisonOwned header))
  | .poisonOwned header => some
      ({ s with memory := if debug then poison s.memory header else s.memory }.setPc t .idle)
  | .poisonRemote p header => some
      ({ s with memory := if debug then poison s.memory header else s.memory }.setPc t
        (.pushLoad p header))
  | .pushLoad p node => some (s.setPc t (.pushLink p node (s.page p).remoteFreeList))
  | .pushLink p node oldHead => some
      ({ s with memory := storeBytes s.memory node (wordBytes 8 oldHead) }.setPc t
        (.pushCas p node oldHead))
  | .pushCas p node oldHead =>
    if (s.page p).remoteFreeList = oldHead then some
      ((s.setPage p { s.page p with remoteFreeList := node }).setPc t .idle)
    else some (s.setPc t (.pushLoad p node))
  | .idle | .writeHeader _ _ | .returning _ _ | .exited | .freeLarge _ => none

omit [DecidableEq T] in
theorem getLocal_heapOf (tid : T → Int) (s : State T) (t : T) :
    GetLocal (tid t) (s.heapLocal t) (some (heapOf tid s t)) := by
  rw [heapOf]
  cases s.heapLocal t with
  | none => exact .created
  | some heapLocal => exact .present heapLocal

/-- A step that moves `t` somewhere else moves nobody besides. -/
theorem AdvancesAlone.move {next : State T} {pc : Pc} (working : (s.pc t).Working)
    (step : Step debug tid s (next.setPc t pc)) (same : next.pc = s.pc)
    (quiet : pc = s.pc t → next.memory = s.memory) :
    AdvancesAlone debug tid t s (next.setPc t pc) where
  working := working
  step := step
  others u other := by
    rw [← same]
    exact update_of_ne other ..
  quiet still := quiet ((update_self ..).symm.trans still)

theorem advance_sound (run : advance debug tid addr t s = some s') :
    AdvancesAlone debug tid t s s' := by
  have working : (s.pc t).Working := by
    by_contra outside
    unfold advance at run
    cases at_ : s.pc t <;> simp only [at_, reduceCtorEq] at run
    all_goals exact outside (at_ ▸ trivial)
  have still : ∀ {next : State T} {pc : Pc}, Step debug tid s (next.setPc t pc) →
      next.pc = s.pc → next.memory = s.memory → AdvancesAlone debug tid t s (next.setPc t pc) :=
    fun step same memory => .move working step same fun _ => memory
  unfold advance at run
  cases at_ : s.pc t <;> simp only [at_, reduceCtorEq, Option.some.injEq] at run
  case getLocal => exact run ▸ still (.getLocal at_ (getLocal_heapOf tid s t)) rfl rfl
  case walk r page =>
    cases page with
    | none => exact Option.some.inj run ▸ still (.walkEnd at_) rfl rfl
    | some p => exact Option.some.inj run ▸ still (.exchange at_) rfl rfl
  case drain r p list =>
    split at run
    · next more =>
      cases run
      exact still (.drainNext at_ more) rfl rfl
    · next none =>
      cases run
      rw [not_not.mp none] at at_
      exact still (.drained at_) rfl rfl
  case drainClear => exact run ▸ still (.drainClear at_) rfl rfl
  case acquire => exact run ▸ still (.acquire at_) rfl rfl
  case findPage => exact run ▸ still (.findPage at_) rfl rfl
  case createSegment =>
    split at run
    · next mapped =>
      cases run
      exact still (.createSegment at_ mapped) rfl rfl
    · cases run
      exact still (.createFailed at_) rfl rfl
  case initPage => exact run ▸ still (.initPage at_) rfl rfl
  case release => exact run ▸ still (.release at_) rfl rfl
  case prepend =>
    obtain ⟨heapLocal, mine, rfl⟩ := Option.map_eq_some_iff.mp run
    exact still (.prepend at_ mine) rfl rfl
  case takeBlock =>
    split at run
    · next page block found =>
      cases run
      exact still (.takeBlock at_ found) rfl rfl
    · next full =>
      cases run
      exact still (.takeNone at_ full) rfl rfl
  case checkHeader => exact run ▸ still (.checkHeader at_) rfl rfl
  case findOwner => exact run ▸ still (.findOwner at_ (getLocal_heapOf tid s t)) rfl rfl
  case freeOwned => exact run ▸ still (.freeOwned at_) rfl rfl
  case pushLoad => exact run ▸ still (.pushLoad at_) rfl rfl
  case pushCas =>
    split at run
    · next unchanged =>
      cases run
      exact still (.pushCas at_ unchanged) rfl rfl
    · cases run
      exact still (.pushRetry at_) rfl rfl
  -- The steps that write to memory go to another place.
  case poisonOwned =>
    exact run ▸ .move working (.poisonOwned at_) rfl fun same => by cases same.trans at_
  case poisonRemote =>
    exact run ▸ .move working (.poisonRemote at_) rfl fun same => by cases same.trans at_
  case pushLink =>
    exact run ▸ .move working (.pushLink at_) rfl fun same => by cases same.trans at_

/-- At most `fuel` accesses of `t`. -/
def runAlone (debug : Bool) (tid : T → Int) (addr : Nat) (t : T) : Nat → State T → State T
  | 0, s => s
  | fuel + 1, s =>
    match advance debug tid addr t s with
    | some next => runAlone debug tid addr t fuel next
    | none => s

theorem worksAlone_run (debug : Bool) (tid : T → Int) (addr : Nat) (t : T) (fuel : Nat)
    (s : State T) : WorksAlone debug tid t s (runAlone debug tid addr t fuel s) := by
  induction fuel generalizing s with
  | zero => exact .refl
  | succ fuel ih =>
    rw [runAlone]
    split
    · next next run => exact .head (advance_sound run) (ih next)
    · exact .refl

end Lightc.Heap.Small
