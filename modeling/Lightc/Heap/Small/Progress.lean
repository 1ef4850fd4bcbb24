import Lightc.Heap.Small.Execution
import Lightc.Heap.Small.Lists

/-!
# Calls on the small heap come back

A call has three loops: the walk over the thread's pages, the drain of one page's remote
list, and the wait for the global lock. A thread that has the heap to itself comes to the
end of all three, wherever the kernel maps a new segment: both kinds of list are finite,
and nobody else is there to hold the lock.

The proofs follow a call from its end to its beginning, one lemma for each place, and the
two walks by induction on the nodes of the list.
-/

namespace Lightc.Heap.Small

open Machine Verification Function

variable {T : Type} [DecidableEq T] {debug : Bool} {tid : T → Int} {addr : Nat}
variable {s s' : State T} {t : T} {P : State T → Prop} {r : Request} {p : PageRef}
variable {heapLocal : HeapLocal}

@[simp] theorem State.pc_setPc (s : State T) (t : T) (pc : Pc) : (s.setPc t pc).pc t = pc :=
  update_self ..

/-- From some fuel on the run of `t` ends in one and the same state, which has this
property. -/
def Finishes (debug : Bool) (tid : T → Int) (addr : Nat) (t : T) (P : State T → Prop)
    (s : State T) : Prop :=
  ∃ least after, (∀ fuel, least ≤ fuel → runAlone debug tid addr t fuel s = after) ∧ P after

theorem Finishes.here (stops : advance debug tid addr t s = none) (holds : P s) :
    Finishes debug tid addr t P s := by
  refine ⟨0, s, fun fuel _ => ?_, holds⟩
  cases fuel with
  | zero => rfl
  | succ fuel => rw [runAlone, stops]

theorem Finishes.next (moves : advance debug tid addr t s = some s')
    (rest : Finishes debug tid addr t P s') : Finishes debug tid addr t P s := by
  obtain ⟨least, after, runs, holds⟩ := rest
  refine ⟨least + 1, after, fun fuel enough => ?_, holds⟩
  cases fuel with
  | zero => exact absurd enough (Nat.not_succ_le_zero least)
  | succ fuel =>
    rw [runAlone, moves]
    exact runs fuel (Nat.le_of_succ_le_succ enough)

theorem Finishes.idle (at_ : s.pc t = .idle) (holds : P s) : Finishes debug tid addr t P s :=
  .here (by rw [advance, at_]) holds

/-- The heap as a thread finds it that is alone in it. -/
structure Alone (tid : T → Int) (t : T) (s : State T) : Prop where
  sound : Sound tid s
  orderly : Orderly s
  others : ∀ u, u ≠ t → s.pc u = .idle

/-- `lc_heap_allocate` has a block or gives up. -/
def Served (t : T) (r : Request) (s : State T) : Prop :=
  s.pc t = .idle ∨ ∃ block, s.pc t = .writeHeader r block

/-- `lc_heap_free` has ended, and no segment was made on the way from `s`. -/
def Returned (t : T) (s after : State T) : Prop :=
  after.pc t = .idle ∧ after.allSegments = s.allSegments

namespace Alone

variable (h : Alone tid t s) (distinct : Injective tid)
include h distinct

theorem advance (run : advance debug tid addr t s = some s') : Alone tid t s' := by
  have moved := advance_sound run
  exact ⟨h.sound.step distinct moved.step, h.orderly.step h.sound distinct moved.step,
    fun u other => (moved.others u other).trans (h.others u other)⟩

/-- The first step of a call. -/
theorem begins {pc : Pc} (step : Step debug tid s (s'.setPc t pc)) (same : s'.pc = s.pc) :
    Alone tid t (s'.setPc t pc) := by
  refine ⟨h.sound.step distinct step, h.orderly.step h.sound distinct step, fun u other => ?_⟩
  have still : (s'.setPc t pc).pc u = s'.pc u := update_of_ne other ..
  rw [still, same]
  exact h.others u other

/-- It is enough to finish from the next state. -/
theorem finishes (moves : Small.advance debug tid addr t s = some s')
    (rest : Alone tid t s' → Finishes debug tid addr t P s') : Finishes debug tid addr t P s :=
  .next moves (rest (h.advance distinct moves))

/-! ### Allocating -/

theorem takeBlock_finishes (at_ : s.pc t = .takeBlock r p) :
    Finishes debug tid addr t (Served t r) s := by
  cases found : bitmapAllocateBlock (s.page p) with
  | none =>
    refine h.finishes distinct (by simp only [Small.advance, at_, found]; rfl) fun _ => ?_
    exact .idle (State.pc_setPc ..) (.inl (State.pc_setPc ..))
  | some taken =>
    refine h.finishes distinct (by simp only [Small.advance, at_, found]; rfl) fun _ => ?_
    have there : ((s.setPage p taken.1).setPc t (.writeHeader r taken.2)).pc t =
        .writeHeader r taken.2 := State.pc_setPc ..
    exact .here (by rw [Small.advance, there]) (.inr ⟨taken.2, there⟩)

theorem prepend_finishes (at_ : s.pc t = .prepend r p) (mine : s.heapLocal t = some heapLocal) :
    Finishes debug tid addr t (Served t r) s := by
  refine h.finishes distinct (by simp only [Small.advance, at_, mine]; rfl) fun alone => ?_
  exact alone.takeBlock_finishes distinct (State.pc_setPc ..)

theorem release_finishes {found : Option PageRef} (at_ : s.pc t = .release r found)
    (mine : s.heapLocal t = some heapLocal) : Finishes debug tid addr t (Served t r) s := by
  refine h.finishes distinct (by rw [Small.advance, at_]) fun alone => ?_
  cases found with
  | none => exact .idle (State.pc_setPc ..) (.inl (State.pc_setPc ..))
  | some p => exact alone.prepend_finishes distinct (State.pc_setPc ..) mine

theorem initPage_finishes (at_ : s.pc t = .initPage r p) (mine : s.heapLocal t = some heapLocal) :
    Finishes debug tid addr t (Served t r) s := by
  refine h.finishes distinct (by rw [Small.advance, at_]) fun alone => ?_
  exact alone.release_finishes distinct (State.pc_setPc ..) mine

/-- With a new segment or without. -/
theorem createSegment_finishes (at_ : s.pc t = .createSegment r)
    (mine : s.heapLocal t = some heapLocal) : Finishes debug tid addr t (Served t r) s := by
  by_cases mapped : s.Unmapped addr
  · refine h.finishes distinct (by simp only [Small.advance, at_, if_pos mapped]; rfl)
      fun alone => ?_
    exact alone.initPage_finishes distinct (State.pc_setPc ..) mine
  · refine h.finishes distinct (by simp only [Small.advance, at_, if_neg mapped]; rfl)
      fun alone => ?_
    exact alone.release_finishes distinct (State.pc_setPc ..) mine

theorem findPage_finishes (at_ : s.pc t = .findPage r) (mine : s.heapLocal t = some heapLocal) :
    Finishes debug tid addr t (Served t r) s := by
  refine h.finishes distinct (by rw [Small.advance, at_]) fun alone => ?_
  cases found : s.findFreshPage with
  | none =>
    rw [found] at alone
    exact alone.createSegment_finishes distinct (State.pc_setPc ..) mine
  | some p =>
    rw [found] at alone
    exact alone.initPage_finishes distinct (State.pc_setPc ..) mine

omit distinct in
/-- A thread that has not got the lock finds it free, since nobody else is there. -/
theorem lock_free (outside : ¬ (s.pc t).Locked) : s.globalLock = 0 := by
  by_contra taken
  obtain ⟨u, held⟩ := h.orderly.lock taken
  by_cases self : u = t
  · exact outside (self ▸ held)
  · rw [h.others u self] at held
    exact held

theorem acquire_finishes (at_ : s.pc t = .acquire r)
    (mine : s.heapLocal t = some heapLocal) : Finishes debug tid addr t (Served t r) s := by
  have free : s.globalLock = 0 := h.lock_free (by rw [at_]; exact id)
  have enters : afterAcquire r (atomicExchange s.globalLock 1).1 = .findPage r := by
    rw [free]
    rfl
  refine h.finishes distinct (by rw [Small.advance, at_]) fun alone => ?_
  rw [enters] at alone ⊢
  exact alone.findPage_finishes distinct (State.pc_setPc ..) mine

/-- The drain comes to the end of the remote list and leaves the links of the pages alone. -/
theorem drain_finishes {nodes : List Nat} {list : Nat}
    (at_ : s.pc t = .drain r p list) (mine : s.heapLocal t = some heapLocal)
    (chain : Chain s.nextNode 0 list nodes)
    (walks : ∀ s', Alone tid t s' → s'.pc t = .walk r (s.page p).next →
      s'.heapLocal t = some heapLocal → s'.nextPage = s.nextPage →
      Finishes debug tid addr t (Served t r) s') :
    Finishes debug tid addr t (Served t r) s := by
  induction nodes generalizing s list with
  | nil =>
    cases chain
    refine h.finishes distinct (by simp only [Small.advance, at_]; rfl) fun alone => ?_
    by_cases room : (s.page p).usedCount < (s.page p).blockCount
    · rw [afterDrain, if_pos room] at alone ⊢
      exact alone.takeBlock_finishes distinct (State.pc_setPc ..)
    · rw [afterDrain, if_neg room] at alone ⊢
      exact walks _ alone (State.pc_setPc ..) mine rfl
  | cons node rest ih =>
    cases chain with
    | cons more tail =>
      refine h.finishes distinct (by simp only [Small.advance, at_, if_pos more]; rfl)
        fun between => ?_
      refine between.finishes distinct (by rw [Small.advance, State.pc_setPc])
        fun alone => ?_
      have frame : ∀ q, (update s.page p (bitmapFreeBlock (s.page p) node) q).next =
          (s.page q).next :=
        forall_page_update (P := fun old new => new.next = old.next)
          (bitmapFreeBlock_sameFrame _ _).next fun _ => rfl
      refine ih alone (State.pc_setPc ..) mine tail fun s' alone' there mine' links => ?_
      exact walks s' alone' (there.trans (congrArg (Pc.walk r) (frame p))) mine'
        (links.trans (State.nextPage_congr frame))

/-- The walk comes to the end of the page list, if not to a page with a free block. -/
theorem walk_finishes {nodes : List (Option PageRef)} {page : Option PageRef}
    (at_ : s.pc t = .walk r page) (mine : s.heapLocal t = some heapLocal)
    (chain : Chain s.nextPage none page nodes) : Finishes debug tid addr t (Served t r) s := by
  induction nodes generalizing s page with
  | nil =>
    cases chain
    refine h.finishes distinct (by rw [Small.advance, at_]) fun alone => ?_
    exact alone.acquire_finishes distinct (State.pc_setPc ..) mine
  | cons a rest ih =>
    cases chain with
    | cons node tail =>
      obtain ⟨p, rfl⟩ := Option.ne_none_iff_exists'.mp node
      refine h.finishes distinct (by rw [Small.advance, at_]) fun alone => ?_
      -- What the exchange has taken is a finite list.
      obtain ⟨c, held⟩ := alone.sound.held
      have hand := held.hand t
      rw [State.pc_setPc] at hand
      obtain ⟨nodes, list, _⟩ := hand
      have frame : ∀ q, (update s.page p { s.page p with
          remoteFreeList := (atomicExchange (s.page p).remoteFreeList 0).2 } q).next =
            (s.page q).next :=
        forall_page_update (P := fun old new => new.next = old.next) rfl fun _ => rfl
      refine alone.drain_finishes distinct (State.pc_setPc ..) mine list ?_
      intro s' alone' there mine' links
      have same : s'.nextPage = s.nextPage := links.trans (State.nextPage_congr frame)
      refine ih alone' (there.trans (congrArg (Pc.walk r) (frame p))) mine' ?_
      rw [same]
      exact tail

/-- Every request ends with a block or with an error. -/
theorem allocate_finishes (at_ : s.pc t = .getLocal r) :
    Finishes debug tid addr t (Served t r) s := by
  refine h.finishes distinct (by rw [Small.advance, at_]) fun alone => ?_
  have mine : ((s.setLocal t (some (heapOf tid s t))).setPc t
      (startWalk r (some (heapOf tid s t)))).heapLocal t = some (heapOf tid s t) :=
    update_self ..
  obtain ⟨nodes, chain⟩ := alone.orderly.lists ((heapOf tid s t).pages r.bucket)
    ⟨t, heapOf tid s t, r.bucket, mine, r.spec.1, rfl⟩
  exact alone.walk_finishes distinct (State.pc_setPc ..) mine chain

/-! ### Freeing -/

/-- Nobody else changes the list between the load and the exchange. -/
theorem pushLoad_finishes {node : Nat} (at_ : s.pc t = .pushLoad p node) :
    Finishes debug tid addr t (Returned t s) s := by
  refine h.finishes distinct (by rw [Small.advance, at_]) fun linking => ?_
  refine linking.finishes distinct (by rw [Small.advance, State.pc_setPc]) fun exchanging => ?_
  refine exchanging.finishes distinct
    (by simp only [Small.advance, State.pc_setPc]; exact if_pos rfl) fun _ => ?_
  exact .idle (State.pc_setPc ..) ⟨State.pc_setPc .., rfl⟩

theorem afterOwner_finishes {page : Page} {header : Nat}
    {found : Option HeapLocal} (at_ : s.pc t = afterOwner p page header found) :
    Finishes debug tid addr t (Returned t s) s := by
  have goes : s.pc t = .freeOwned p header ∨ s.pc t = .poisonRemote p header := by
    rw [at_]
    cases found with
    | none => exact .inr rfl
    | some heapLocal =>
      rw [afterOwner]
      split
      · exact .inl rfl
      · exact .inr rfl
  rcases goes with owned | remote
  · refine h.finishes distinct (by rw [Small.advance, owned]) fun filling => ?_
    refine filling.finishes distinct (by rw [Small.advance, State.pc_setPc]) fun _ => ?_
    exact .idle (State.pc_setPc ..) ⟨State.pc_setPc .., rfl⟩
  · refine h.finishes distinct (by rw [Small.advance, remote]) fun alone => ?_
    exact alone.pushLoad_finishes distinct (State.pc_setPc ..)

/-- A block that was live passes the checks, so its call ends where it should. -/
theorem free_finishes {ptr : Nat} (at_ : s.pc t = .checkHeader ptr) :
    Finishes debug tid addr t (Returned t s) s := by
  obtain ⟨layout, _, c, held⟩ := h.sound
  have hand := held.hand t
  rw [at_] at hand
  obtain ⟨a, p, i, rfl, _, block, header⟩ := hand
  have passes : afterHeader debug (readHeader s.memory (a + headerSize - headerSize))
      (a + headerSize) = .findOwner (a + headerSize) := by
    rw [Nat.add_sub_cancel]
    exact afterHeader_eq layout block header _
  refine h.finishes distinct (by rw [Small.advance, at_]) fun alone => ?_
  rw [passes] at alone ⊢
  refine alone.finishes distinct (by rw [Small.advance, State.pc_setPc]) fun alone' => ?_
  exact alone'.afterOwner_finishes distinct (State.pc_setPc ..)

end Alone

/-! ### New segments -/

/-- A segment that was not there before is one the kernel has mapped at `addr`. -/
theorem advance_segments (run : advance debug tid addr t s = some s') {seg : Nat}
    (member : seg ∈ s'.allSegments) :
    seg ∈ s.allSegments ∨ seg = segmentAligned addr ∧ addr + 2 * segmentSize ≤ 2 ^ 64 := by
  by_cases creates : ∃ r, s.pc t = .createSegment r
  · obtain ⟨r, at_⟩ := creates
    simp only [advance, at_] at run
    split at run
    · next mapped =>
      obtain rfl := Option.some.inj run
      cases List.mem_cons.mp member with
      | inl new => exact .inr ⟨new, mapped.inRange⟩
      | inr old => exact .inl old
    · obtain rfl := Option.some.inj run
      exact .inl member
  · have moved := advance_sound run
    cases moved.step with
    | @createSegment u r elsewhere at_ =>
      have other : u ≠ t := fun self => creates ⟨r, self ▸ at_⟩
      have still := moved.others u other
      rw [State.pc_setPc, at_] at still
      cases still
    | _ => exact .inl member

theorem runAlone_segments (fuel : Nat) {seg : Nat}
    (member : seg ∈ (runAlone debug tid addr t fuel s).allSegments) :
    seg ∈ s.allSegments ∨ seg = segmentAligned addr ∧ addr + 2 * segmentSize ≤ 2 ^ 64 := by
  induction fuel generalizing s with
  | zero => exact .inl member
  | succ fuel ih =>
    rw [runAlone] at member
    split at member
    · next next run =>
      rcases ih member with before | new
      · exact advance_segments run before
      · exact .inr new
    · exact .inl member

end Lightc.Heap.Small
