import Lightc.Heap.Reallocation

/-!
# What the peaks are the maximum of

`peak_active_allocations` and `peak_active_bytes` are meant to be the largest values the
two active counters have had since the last reset. To say so, a run carries along what
`lc_heap_get_stats` would have returned at each of its values (`Watched`). A reallocation
that moves a block passes through a value of its own, with the new block counted and the
old one not yet given back.

`stat_track_alloc` raises both peaks. The one other place where a counter grows is the
reallocation in place: it adds to the active bytes and leaves the peak alone. That does
no harm exactly as long as the peak is high enough already.
-/

namespace Lightc.Heap

open Machine Function

variable {stats stats' : Stats} {sizes : List Nat} {size : Nat}

/-! ### One change of the counters -/

@[simp] theorem raisePeak_eq_max (peak value : Nat) : raisePeak peak value = max peak value := by
  rw [raisePeak]
  split <;> omega

/-- Peaks that cover their counters go along with them. This is all that happens to the
counters apart from growing in place. -/
structure Counts (stats stats' : Stats) : Prop where
  allocs : stats.activeAllocs ≤ stats.peakAllocs →
    stats'.peakAllocs = max stats.peakAllocs stats'.activeAllocs
  bytes : stats.activeBytes ≤ stats.peakBytes →
    stats'.peakBytes = max stats.peakBytes stats'.activeBytes

namespace Counts

/-- Counters that do not grow need no higher peaks. -/
theorem lowered (peakAllocs : stats'.peakAllocs = stats.peakAllocs)
    (peakBytes : stats'.peakBytes = stats.peakBytes)
    (allocs : stats'.activeAllocs ≤ stats.activeAllocs)
    (bytes : stats'.activeBytes ≤ stats.activeBytes) : Counts stats stats' where
  allocs below := by rw [peakAllocs, max_eq_left (allocs.trans below)]
  bytes below := by rw [peakBytes, max_eq_left (bytes.trans below)]

theorem same (equal : stats' = stats) : Counts stats stats' := by
  subst equal
  exact .lowered rfl rfl (Nat.le_refl _) (Nat.le_refl _)

theorem alloc (stats : Stats) (size : Nat) : Counts stats (statTrackAlloc stats size) :=
  ⟨fun _ => raisePeak_eq_max _ _, fun _ => raisePeak_eq_max _ _⟩

theorem allocLarge (stats : Stats) (hit : Bool) (size : Nat) :
    Counts stats (statTrackAlloc (countLarge stats hit) size) :=
  ⟨fun _ => raisePeak_eq_max _ _, fun _ => raisePeak_eq_max _ _⟩

theorem free (h : Accounted stats sizes) (countable : Countable sizes) (member : size ∈ sizes) :
    Counts stats (statTrackFree stats size) := by
  have some : 1 ≤ stats.activeAllocs := h.allocs ▸ List.length_pos_of_mem member
  have fits : size ≤ stats.activeBytes := h.bytes ▸ List.le_sum_of_mem member
  refine .lowered rfl rfl ?_ ?_
  · show sub64 stats.activeAllocs 1 ≤ stats.activeAllocs
    rw [sub64_of_le (h.allocs ▸ countable.length) some]
    exact Nat.sub_le _ _
  · show sub64 stats.activeBytes size ≤ stats.activeBytes
    rw [sub64_of_le (h.bytes ▸ countable.sum) fits]
    exact Nat.sub_le _ _

theorem shrink {newSize : Nat} (h : Accounted stats sizes) (countable : Countable sizes)
    (member : size ∈ sizes) (less : ¬ newSize > size) :
    Counts stats (adjustActive stats size newSize) := by
  have fits : size ≤ stats.activeBytes := h.bytes ▸ List.le_sum_of_mem member
  rw [adjustActive, if_neg less]
  refine .lowered rfl rfl (Nat.le_refl _) ?_
  show sub64 stats.activeBytes (size - newSize) ≤ stats.activeBytes
  rw [sub64_of_le (h.bytes ▸ countable.sum) (by omega)]
  exact Nat.sub_le _ _

end Counts

/-! ### One more value -/

/-- Whenever a value was passed, newest first, the peak was the largest so far. -/
def AlwaysGreatest (counter peak : HeapStats → Nat) : List HeapStats → Prop
  | [] => True
  | v :: older => IsGreatest (counter '' {u | u ∈ v :: older}) (peak v) ∧
      AlwaysGreatest counter peak older

section AlwaysGreatest

variable {counter peak : HeapStats → Nat} {v v' : HeapStats} {older : List HeapStats}

theorem AlwaysGreatest.below (h : AlwaysGreatest counter peak (v :: older)) :
    counter v ≤ peak v :=
  h.1.2 ⟨v, List.mem_cons_self, rfl⟩

theorem alwaysGreatest_singleton (same : peak v = counter v) :
    AlwaysGreatest counter peak [v] := by
  refine ⟨⟨⟨v, List.mem_singleton_self v, same.symm⟩, ?_⟩, trivial⟩
  rintro _ ⟨u, member, rfl⟩
  rw [List.mem_singleton.mp member, same]

/-- The peak stays the largest value exactly if it takes the new one into account. -/
@[simp] theorem alwaysGreatest_cons : AlwaysGreatest counter peak (v' :: v :: older) ↔
    AlwaysGreatest counter peak (v :: older) ∧ peak v' = max (peak v) (counter v') := by
  have next : AlwaysGreatest counter peak (v :: older) →
      IsGreatest (counter '' {u | u ∈ v' :: v :: older}) (max (peak v) (counter v')) := by
    intro h
    have values : {u | u ∈ v' :: v :: older} = insert v' {u | u ∈ v :: older} :=
      Set.ext fun _ => List.mem_cons
    rw [values, Set.image_insert_eq, max_comm]
    exact h.1.insert _
  constructor
  · rintro ⟨greatest, h⟩
    exact ⟨h, greatest.unique (next h)⟩
  · rintro ⟨h, same⟩
    refine ⟨?_, h⟩
    rw [same]
    exact next h

end AlwaysGreatest

namespace Whole

open Verification
open Heap.Small (Allocation)

variable {T : Type} {debug : Bool} {tid : T → Int} {t : T} {s s' : State T}
variable {ptr newSize : Nat} {reply : Option Nat}

/-! ### Runs with what their counters passed through -/

/-- A block grew where it was. -/
structure Growth where
  before : HeapStats
  oldSize : Nat
  newSize : Nat

/-- The peak was high enough for the additional bytes. -/
def Growth.Covered (g : Growth) : Prop :=
  g.before.activeBytes + g.newSize - g.oldSize ≤ g.before.peakActiveBytes

structure Watched (T : Type) where
  state : State T
  older : List HeapStats
  grown : List Growth

/-- The statistics since the last reset, newest first. -/
def Watched.past (w : Watched T) : List HeapStats := w.state.getStats :: w.older

def Watched.start (s : State T) : Watched T := ⟨s, [], []⟩

def Watched.reach (w : Watched T) (s : State T) : Watched T := ⟨s, w.past, w.grown⟩

def Watched.grow (w : Watched T) (ptr newSize : Nat) : Watched T :=
  ⟨w.state.resizeInPlace ptr newSize, w.past,
    ⟨w.state.getStats, (w.state.header ptr).size, newSize⟩ :: w.grown⟩

variable {w w' : Watched T} [DecidableEq T]

/-- The calls of `Performs`, with the values they pass through. A reallocation that moves its
block shows one in between, and growing in place is noted; the other ones are `plain`. -/
inductive Watches (debug : Bool) (tid : T → Int) (w : Watched T) : Watched T → Prop
  | other {call : Call} {s' : State T} (performed : Performs debug tid w.state call s')
      (keeps : call ≠ .resetStats) (others : ∀ ptr newSize, call ≠ .reallocate ptr newSize) :
      Watches debug tid w (w.reach s')
  | reallocate {t : T} {ptr newSize : Nat} {s' : State T} {reply : Option Nat}
      (legal : ptr = 0 ∨ ptr ∈ w.state.live)
      (call : Reallocate debug tid t ptr newSize w.state s' reply)
      (plain : ptr = 0 ∨ newSize = 0 ∨ reply = none ∨
        w.state.FitsInPlace ptr newSize ∧ ¬ newSize > (w.state.header ptr).size) :
      Watches debug tid w (w.reach s')
  | moved {t : T} {ptr newSize target : Nat} {between s' : State T} {bytes : List UInt8}
      (live : ptr ∈ w.state.live) (nonnull : ptr ≠ 0) (nonzero : newSize ≠ 0)
      (moves : ¬ w.state.FitsInPlace ptr newSize)
      (call : Allocate debug tid t newSize w.state between (some target))
      (copied : bytes.length = min (w.state.header ptr).size newSize)
      (free : Free debug tid t (between.store target bytes) ptr s') :
      Watches debug tid w ((w.reach (between.store target bytes)).reach s')
  | grow {t : T} {ptr newSize : Nat} (live : ptr ∈ w.state.live) (nonnull : ptr ≠ 0)
      (nonzero : newSize ≠ 0) (fits : w.state.FitsInPlace ptr newSize)
      (more : newSize > (w.state.header ptr).size) : Watches debug tid w (w.grow ptr newSize)
  | resetStats :
      Watches debug tid w (.start { w.state with stats := lcHeapResetStats w.state.stats })

def watched (debug : Bool) (tid : T → Int) : System (Watched T) where
  init w := (system debug tid).init w.state ∧ w = .start w.state
  step := Watches debug tid

/-! ### Watching changes nothing -/

theorem Watches.performs (step : Watches debug tid w w') :
    ∃ call, Performs debug tid w.state call w'.state := by
  cases step with
  | other performed => exact ⟨_, performed⟩
  | reallocate legal call => exact ⟨_, .reallocate legal call⟩
  | moved live nonnull nonzero moves call copied free =>
    exact ⟨_, .reallocate (.inr live) (.moved nonnull nonzero moves call copied free)⟩
  | @grow t _ _ live nonnull nonzero fits =>
    exact ⟨_, .reallocate (t := t) (.inr live) (.inPlace nonnull nonzero fits)⟩
  | resetStats => exact ⟨_, .resetStats⟩

/-- Every call can be watched. -/
theorem Performs.watches {call : Call} (performed : Performs debug tid w.state call s') :
    ∃ w', Watches debug tid w w' ∧ w'.state = s' := by
  cases performed with
  | @reallocate t ptr newSize _ _ legal call =>
    by_cases plain : ptr = 0 ∨ newSize = 0
    · exact ⟨_, .reallocate legal call (plain.imp_right .inl), rfl⟩
    · obtain ⟨nonnull, nonzero⟩ := not_or.mp plain
      have live := legal.resolve_left nonnull
      cases call with
      | null null => exact absurd null nonnull
      | zero _ zero => exact absurd zero nonzero
      | failed _ _ moves call =>
        exact ⟨_, .reallocate legal (.failed nonnull nonzero moves call) (.inr (.inr (.inl rfl))),
          rfl⟩
      | moved _ _ moves call copied free =>
        exact ⟨_, .moved live nonnull nonzero moves call copied free, rfl⟩
      | inPlace _ _ fits =>
        by_cases more : newSize > (w.state.header ptr).size
        · exact ⟨_, .grow (t := t) live nonnull nonzero fits more, rfl⟩
        · exact ⟨_, .reallocate (t := t) legal (.inPlace nonnull nonzero fits)
            (.inr (.inr (.inr ⟨fits, more⟩))), rfl⟩
  | resetStats => exact ⟨_, .resetStats, rfl⟩
  | allocate call => exact ⟨_, .other (.allocate call) nofun nofun, rfl⟩
  | allocateZeroed call => exact ⟨_, .other (.allocateZeroed call) nofun nofun, rfl⟩
  | free legal call => exact ⟨_, .other (.free legal call) nofun nofun, rfl⟩
  | write live low high => exact ⟨_, .other (.write live low high) nofun nofun, rfl⟩

theorem Watched.reachable (run : (watched debug tid).Reachable w) :
    (system debug tid).Reachable w.state := by
  induction run with
  | init start => exact .init start.1
  | step _ next ih => exact ih.step next.performs

theorem exists_watched (run : (system debug tid).Reachable s) :
    ∃ w, (watched debug tid).Reachable w ∧ w.state = s := by
  induction run with
  | @init s start => exact ⟨.start s, .init ⟨start, rfl⟩, rfl⟩
  | step _ next ih =>
    obtain ⟨w, run, rfl⟩ := ih
    obtain ⟨call, performed⟩ := next
    obtain ⟨w', step, same⟩ := performed.watches
    exact ⟨w', run.step step, same⟩

/-! ### What each call does to the counters -/

theorem Allocate.counts {size : Nat} (call : Allocate debug tid t size s s' reply) :
    Counts s.stats s'.stats := by
  cases call with
  | small => exact .alloc _ _
  | smallFailed => exact .same rfl
  | large =>
    rw [allocateLarge]
    split
    · exact .allocLarge _ _ _
    · exact .same rfl

omit [DecidableEq T] in
@[simp] theorem State.stats_store (s : State T) (ptr : Nat) (bytes : List UInt8) :
    (s.store ptr bytes).stats = s.stats := by
  rw [State.store]
  split <;> rfl

theorem AllocateZeroed.counts {size : Nat} (call : AllocateZeroed debug tid t size s s' reply) :
    Counts s.stats s'.stats := by
  cases call with
  | ok call =>
    rw [State.stats_store]
    exact call.counts
  | failed call => exact call.counts

omit [DecidableEq T] in
theorem State.size_mem (s : State T) (live : ptr ∈ s.live) : (s.header ptr).size ∈ s.sizes :=
  List.mem_map_of_mem live

theorem Free.counts (h : Exact tid s) (legal : ptr = 0 ∨ ptr ∈ s.live)
    (call : Free debug tid t s ptr s') : Counts s.stats s'.stats := by
  cases call with
  | null => exact .same rfl
  | small live =>
    exact .free h.accounted h.countable
      (s.size_mem (List.mem_append_left _ (List.mem_map_of_mem live)))
  | large nonnull =>
    exact .free h.accounted h.countable (s.size_mem (legal.resolve_left nonnull))

omit [DecidableEq T] in
/-- A block that grows adds what it is said to: the sum of the sizes, which the new one is
a part of, is a word. -/
theorem Exact.activeBytes_grow (h : Exact tid s) (live : ptr ∈ s.live)
    (fits : s.FitsInPlace ptr newSize) (more : newSize > (s.header ptr).size) :
    (s.resizeInPlace ptr newSize).stats.activeBytes =
      s.stats.activeBytes + newSize - (s.header ptr).size := by
  have after := (h.resizeInPlace live fits).accounted.bytes
  have resized := (Contents.resizeInPlace_frame (s := ⟨s, fun _ => 0⟩) h live fits).2
  have part := List.le_sum_of_mem (State.size_mem (s.resizeInPlace ptr newSize) live)
  rw [resized.size, ← after] at part
  have word := h.words.active
  rw [State.resizeInPlace, adjustActive, if_pos more] at part ⊢
  simp only [add64] at part ⊢
  omega

/-! ### The invariant -/

/-- The peak of the blocks is always their maximum, the peak of the bytes as long as every
growth in place was covered. -/
structure Tracked (tid : T → Int) (w : Watched T) : Prop where
  exact_ : Exact tid w.state
  allocs : AlwaysGreatest HeapStats.activeAllocations HeapStats.peakActiveAllocations w.past
  bytes : AlwaysGreatest HeapStats.activeBytes HeapStats.peakActiveBytes w.past ↔
    ∀ g ∈ w.grown, g.Covered

namespace Tracked

omit [DecidableEq T] in
theorem start (exact_ : Exact tid s) (allocs : s.stats.peakAllocs = s.stats.activeAllocs)
    (bytes : s.stats.peakBytes = s.stats.activeBytes) : Tracked tid (.start s) where
  exact_ := exact_
  allocs := alwaysGreatest_singleton allocs
  bytes := iff_of_true (alwaysGreatest_singleton bytes)
    fun _ member => absurd member List.not_mem_nil

omit [DecidableEq T] in
theorem reach (h : Tracked tid w) (exact_ : Exact tid s') (counts : Counts w.state.stats s'.stats) :
    Tracked tid (w.reach s') where
  exact_ := exact_
  allocs := alwaysGreatest_cons.mpr ⟨h.allocs, counts.allocs h.allocs.below⟩
  bytes := alwaysGreatest_cons.trans <|
    (and_iff_left_of_imp fun greatest => counts.bytes greatest.below).trans h.bytes

omit [DecidableEq T] in
theorem grow (h : Tracked tid w) (live : ptr ∈ w.state.live)
    (fits : w.state.FitsInPlace ptr newSize) (more : newSize > (w.state.header ptr).size) :
    Tracked tid (w.grow ptr newSize) := by
  have active := h.exact_.activeBytes_grow live fits more
  have stats : (w.grow ptr newSize).state.stats = _ := if_pos more
  refine ⟨(h.exact_.resizeInPlace live fits).toExact, alwaysGreatest_cons.mpr ⟨h.allocs, ?_⟩, ?_⟩
  · rw [State.getStats, stats]
    exact (max_eq_left h.allocs.below).symm
  · rw [Watched.grow, List.forall_mem_cons, and_comm]
    refine alwaysGreatest_cons.trans (and_congr h.bytes ?_)
    show (w.grow ptr newSize).state.stats.peakBytes =
      max w.state.stats.peakBytes (w.state.resizeInPlace ptr newSize).stats.activeBytes ↔ _
    rw [active, stats]
    exact eq_comm.trans max_eq_left_iff

theorem watches (h : Tracked tid w) (distinct : Injective tid)
    (step : Watches debug tid w w') : Tracked tid w' := by
  have before := h.exact_
  cases step with
  | other performed keeps others =>
    refine h.reach (before.performs distinct keeps performed).toExact ?_
    cases performed with
    | allocate call => exact call.counts
    | allocateZeroed call => exact call.counts
    | free legal call => exact call.counts before legal
    | write => exact .same rfl
    | reallocate => exact absurd rfl (others _ _)
    | resetStats => exact absurd rfl keeps
  | reallocate legal call plain =>
    refine h.reach (before.reallocate distinct legal call).toExact ?_
    cases call with
    | null _ call | failed _ _ _ call => exact call.counts
    | zero _ _ call => exact call.counts before legal
    | inPlace nonnull nonzero fits =>
      obtain ⟨-, less⟩ : _ ∧ _ := by simpa [nonnull, nonzero] using plain
      exact .shrink before.accounted before.countable
        (w.state.size_mem (legal.resolve_left nonnull)) (Nat.not_lt.mpr less)
    | moved nonnull nonzero moves => simp [nonnull, nonzero, moves] at plain
  | @moved _ _ _ target between _ bytes live _ nonzero _ call copied free =>
    obtain ⟨copies, still⟩ := before.copied distinct live nonzero call copied
    have counts := call.counts
    rw [← between.stats_store target bytes] at counts
    exact (h.reach copies.toExact counts).reach
      (copies.toExact.free distinct (.inr still) free).toExact
      (free.counts copies.toExact (.inr still))
  | grow live _ _ fits more => exact h.grow live fits more
  | resetStats => exact start before.resetStats rfl rfl

end Tracked

theorem tracked_inductive (distinct : Injective tid) :
    (watched debug tid).Inductive (Tracked tid) where
  init w start := by
    obtain ⟨init, first⟩ := start
    have stats := init.2.2
    rw [first]
    exact .start ((exact_inductive distinct).init _ init) (by rw [stats]; rfl) (by rw [stats]; rfl)
  step _ _ h next := h.watches distinct next

/-- Since the last reset, or the start: `peak_active_allocations` has always been the largest
value that `active_allocations` had had. `peak_active_bytes` has always been the largest that
`active_bytes` had had exactly if it covered each growth in place when that began. -/
theorem peaks_are_maxima_iff (distinct : Injective tid)
    (run : (watched debug tid).Reachable w) :
    AlwaysGreatest HeapStats.activeAllocations HeapStats.peakActiveAllocations w.past ∧
      (AlwaysGreatest HeapStats.activeBytes HeapStats.peakActiveBytes w.past ↔
        ∀ g ∈ w.grown, g.Covered) :=
  have h := (tracked_inductive distinct).reachable run
  ⟨h.allocs, h.bytes⟩

/-- A request for 64 bytes that are freed, and one for 8 bytes that grow to 16. -/
theorem peaks_are_maxima_iff_grown :
    ∃ w v, (watched true Small.twoTids).Reachable w ∧ w.grown = [⟨v, 8, 16⟩] ∧
      v.activeBytes = 8 ∧ v.peakActiveBytes = 64 ∧
      AlwaysGreatest HeapStats.activeBytes HeapStats.peakActiveBytes w.past := by
  have runs : (do
      let first ← Contents.runAllocate true Small.twoTids 4194304 32 false 64 Contents.empty
      let freed ← Contents.runFree true Small.twoTids 4194304 32 false 4259856 first.1
      let second ← Contents.runAllocate true Small.twoTids 4194304 32 false 8 freed
      return (first.1.heap, second.1.heap)).any (fun run : State Bool × State Bool =>
        4259856 ∈ run.1.live ∧ 4325392 ∈ run.2.live ∧ run.2.FitsInPlace 4325392 16 ∧
          (run.2.header 4325392).size = 8 ∧ run.2.getStats.activeBytes = 8 ∧
          run.2.getStats.peakActiveBytes = 64) = true := by decide +kernel
  obtain ⟨⟨s, s'⟩, executed, answer⟩ := (Option.any_eq_true _ _).mp runs
  obtain ⟨live, live', fits, size, active, peak⟩ := of_decide_eq_true answer
  have covered : Growth.Covered ⟨s'.getStats, (s'.header 4325392).size, 16⟩ := by
    dsimp only [Growth.Covered] at active size peak ⊢
    rw [active, size, peak]
    decide
  simp only [Option.bind_eq_bind, Option.bind_eq_some_iff] at executed
  obtain ⟨_, allocated, _, freed, _, again, same⟩ := executed
  cases same
  have start : (watched true Small.twoTids).Reachable (.start Contents.empty.heap) :=
    .init ⟨⟨⟨rfl, rfl, rfl, fun _ => ⟨rfl, rfl⟩⟩, rfl, rfl⟩, rfl⟩
  have first := start.step
    (.other (.allocate (Contents.runAllocate_sound allocated).whole) nofun nofun)
  have emptied := first.step
    (.other (.free (.inr live) (Contents.runFree_sound freed).whole) nofun nofun)
  have second := emptied.step
    (.other (.allocate (Contents.runAllocate_sound again).whole) nofun nofun)
  have run := second.step
    (.grow (t := false) live' (by decide) (by decide) fits (size ▸ by decide))
  refine ⟨_, _, run, congrArg (fun n => [Growth.mk _ n 16]) size, active, peak, ?_⟩
  exact (peaks_are_maxima_iff Small.twoTids_injective run).2.mpr
    (List.forall_mem_singleton.mpr covered)

/-- A block of 8 bytes grows to 16 where it is. -/
theorem active_exceeds_peak :
    ∃ s : State Bool, (system true Small.twoTids).Reachable s ∧
      s.getStats.activeBytes = 16 ∧ s.getStats.peakActiveBytes = 8 := by
  have runs : (Contents.follow [(4194304, .allocate 8), (0, .reallocate 4259856 16)]).any
      (fun s => s.heap.getStats.activeBytes = 16 ∧ s.heap.getStats.peakActiveBytes = 8) = true := by
    decide +kernel
  obtain ⟨s, executed, answer⟩ := (Option.any_eq_true _ _).mp runs
  exact ⟨s.heap, Contents.heap_reachable Small.twoTids_injective
    (Contents.follow_reachable executed), of_decide_eq_true answer⟩

end Whole

end Lightc.Heap
