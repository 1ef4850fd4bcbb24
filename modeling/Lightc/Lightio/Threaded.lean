import Lightc.Machine.Signed
import Lightc.Machine.Word
import Lightc.Sync.Join
import Lightc.Verification.Total

/-!
# Starting and joining the workers of a threaded loop

`lio_loop_run_threaded` has an array of sixteen thread objects on its stack. It
creates a worker on each of the first `thread_count` of them, counts how many were
created, sleeps until the loop is stopped, tells the workers to stop and joins as
many objects as it has counted, from the first one on. A creation may fail at any
place, so the objects it joins need not be those it has created.

A failed creation leaves its object as it was or with a stack that is no longer
mapped, and `alive` as the stack of the caller had it. To join such an object is
to wait for a word that nobody will clear, unless it happens to be zero.

A worker that was created exits when it is told to stop, and the kernel then
clears `alive`. `Lightc.Sync.Join` is about the accesses that `lc_thread_join`
makes meanwhile; here it is one step.
-/

namespace Lightc.Lightio.Threaded

open Machine Verification Function
open Program (bind_done)
open Machine.Signed (toInt32 toInt32_eq fits32_iff)
open Sync.Join (LcThread)

/-- `LIO_MAX_WORKERS`. -/
def maxWorkers : Nat := 16

/-- `LC_DEFAULT_STACK_SIZE`. -/
def defaultStackSize : Nat := 1024 * 1024

/-- `LC_ERR_NOMEM`. -/
def errNomem : Int := 12

structure LcResult where
  value : Int
  error : Int

def lcOk (value : Int) : LcResult := ⟨value, 0⟩

def lcErr (error : Int) : LcResult := ⟨0, error⟩

def lcIsOk (r : LcResult) : Bool := r.error = 0

/-- `lio_worker_args`, without the address of the stop flag, which all workers share. -/
structure LioWorkerArgs where
  serverFd : Int
  handler : Nat
  workerId : Nat

/-- How the kernel and the network answer, by the index of the thread object. -/
structure World where
  /-- `lc_runtime_page_size`. -/
  pageSize : Nat
  /-- `lc_kernel_map_memory`, `none` for `MAP_FAILED`. -/
  mapMemory : Nat → Option Nat
  /-- Whether `lc_kernel_protect_memory` succeeds. -/
  protects : Nat → Bool
  /-- What `clone` returns to the parent. -/
  clone : Nat → Int
  /-- Whether `lc_socket_connect_to` succeeds. -/
  connects : Nat → Bool
  /-- A thread id, which is positive, or an error number below 4096, negated. -/
  documented : ∀ i, clone i ≠ 0 ∧ -4096 < clone i ∧ clone i < 2 ^ 31

/-- The local variables of `lio_loop_run_threaded` and what its calls do. -/
structure State where
  threads : Nat → LcThread
  args : Nat → LioWorkerArgs
  stopFlag : Bool
  serverFd : Int
  acceptHandler : Nat
  running : Bool
  /-- The objects on which a worker was started. -/
  workers : List Nat := []
  /-- The objects on which `lc_thread_join` was called, in the order of the calls. -/
  joined : List Nat := []
  /-- Connections made to wake the workers, all of them closed again. -/
  connections : Nat := 0
  /-- The mappings that were unmapped, with their sizes. -/
  unmapped : List (Nat × Nat) := []

/-- A call that does not come back: nobody clears `alive` of the object. -/
inductive Hang where
  | join (i : Nat)
  deriving DecidableEq

/-! ### Threads -/

def setThread (i : Nat) (thread : LcThread → LcThread) : Program Hang State Unit :=
  Program.modify fun s => { s with
    threads := update s.threads i (thread (s.threads i)) }

def unmapMemory (base size : Nat) : Program Hang State Unit :=
  Program.modify fun s => { s with unmapped := s.unmapped ++ [(base, size)] }

/-- A successful `clone`: `CLONE_PARENT_SETTID` stores the thread id in `alive`. -/
def startWorker (i : Nat) (tid : Int) : Program Hang State Unit :=
  Program.modify fun s => { s with
    threads := update s.threads i
      { s.threads i with alive := .ofInt tid, tid := .ofInt tid }
    workers := s.workers ++ [i] }

/-- `lc_thread_create_with_stack` for the object `threads[i]`. -/
def lcThreadCreateWithStack (w : World) (i stackSize : Nat) : Program Hang State LcResult :=
  let totalSize := add64 stackSize w.pageSize
  match w.mapMemory i with
  | none => pure (lcErr errNomem)
  | some stack =>
    if w.protects i = false then do
      unmapMemory stack totalSize
      pure (lcErr errNomem)
    else do
      setThread i fun thread => { thread with stackBase := stack, stackSize := totalSize }
      if w.clone i < 0 then do
        unmapMemory stack totalSize
        pure (lcErr (toInt32 (-w.clone i)))
      else do
        startWorker i (w.clone i)
        pure (lcOk (toInt32 (w.clone i)))

def lcThreadCreate (w : World) (i : Nat) : Program Hang State LcResult :=
  lcThreadCreateWithStack w i defaultStackSize

/-- The loop of `lc_thread_join`, which ends when `alive` is 0. -/
def awaitExit (i : Nat) : Program Hang State Unit := fun s =>
  if (s.threads i).alive = 0 then .done () s
  else if i ∈ s.workers then setThread i (fun thread => { thread with alive := 0 }) s
  else .failed (.join i) s

/-- The end of `lc_thread_join`: whoever claims the stack unmaps it. -/
def freeStack (i : Nat) : Program Hang State Unit := do
  let s ← Program.get
  setThread i fun thread => { thread with stackBase := 0 }
  if (s.threads i).stackBase ≠ 0 then
    unmapMemory (s.threads i).stackBase (s.threads i).stackSize
  else pure ()

/-- `lc_thread_join` of the object `threads[i]`. -/
def lcThreadJoin (i : Nat) : Program Hang State Unit := do
  Program.modify fun s => { s with joined := s.joined ++ [i] }
  awaitExit i
  freeStack i

/-! ### The threaded loop -/

/-- How many workers are to be created. -/
def workerCount (threadCount : Nat) : Nat :=
  let threadCount := if threadCount = 0 then 4 else threadCount
  if threadCount > maxWorkers then maxWorkers else threadCount

def createRound (w : World) (i createdCount : Nat) : Program Hang State (Step Nat Empty) := do
  Program.modify fun s => { s with
    args := update s.args i ⟨s.serverFd, s.acceptHandler, i⟩ }
  let r ← lcThreadCreate w i
  pure (.next (if lcIsOk r then add32 createdCount 1 else createdCount))

/-- The main thread sleeps, a tenth of a second at a time, until `lio_loop_stop` has
cleared `running`. -/
def awaitStop : Program Hang State Unit :=
  Program.modify fun s => { s with running := false }

def wakeRound (w : World) (i : Nat) (_ : Unit) : Program Hang State (Step Unit Empty) := do
  Program.modify fun s =>
    if w.connects i then { s with connections := s.connections + 1 } else s
  pure (.next ())

def joinRound (i : Nat) (_ : Unit) : Program Hang State (Step Unit Empty) := do
  lcThreadJoin i
  pure (.next ())

/-- Each of as many connections as there are workers wakes one of them. -/
def wakeWorkers (w : World) (createdCount : Nat) : Program Hang State Unit := do
  let _ ← Program.upTo (wakeRound w) createdCount 0 ()
  pure ()

def joinWorkers (createdCount : Nat) : Program Hang State Unit := do
  let _ ← Program.upTo joinRound createdCount 0 ()
  pure ()

def lioLoopRunThreaded (w : World) (threadCount : Nat) : Program Hang State Unit := do
  match ← Program.upTo (createRound w) (workerCount threadCount) 0 0 with
  | .leave impossible => nomatch impossible
  | .next createdCount => do
    Program.modify fun s => { s with running := true }
    awaitStop
    Program.modify fun s => { s with stopFlag := true }
    wakeWorkers w createdCount
    joinWorkers createdCount

/-! ### What is created -/

variable {w : World} {i j n : Nat} {s t : State}

/-- The creation of the worker at `i` succeeds. -/
def World.Creates (w : World) (i : Nat) : Prop :=
  (w.mapMemory i).isSome ∧ w.protects i = true ∧ 0 ≤ w.clone i

instance : DecidablePred w.Creates := fun _ => inferInstanceAs (Decidable (_ ∧ _ ∧ _))

/-- The objects below `n` whose creation succeeds. -/
def World.created (w : World) (n : Nat) : List Nat := (List.range n).filter (w.Creates ·)

@[simp] theorem mem_created : i ∈ w.created n ↔ i < n ∧ w.Creates i := by
  rw [World.created, List.mem_filter, List.mem_range, decide_eq_true_iff]

@[simp] theorem created_succ :
    w.created (n + 1) = if w.Creates n then w.created n ++ [n] else w.created n := by
  unfold World.created
  rw [List.range_succ, List.filter_append, List.filter_singleton]
  by_cases creates : w.Creates n
  · rw [if_pos creates, decide_eq_true creates, cond_true]
  · rw [if_neg creates, decide_eq_false creates, cond_false, List.append_nil]

/-- No creation succeeds after one that failed. -/
def World.FailuresLast (w : World) (n : Nat) : Prop :=
  ∀ i j, i < j → j < n → w.Creates j → w.Creates i

/-- Then the objects that were created are the first ones. -/
theorem World.FailuresLast.created_eq (last : w.FailuresLast n) :
    w.created n = List.range (w.created n).length := by
  induction n with
  | zero => rfl
  | succ n ih =>
    rw [created_succ]
    by_cases creates : w.Creates n
    · have all : w.created n = List.range n := by
        apply List.filter_eq_self.mpr
        intro i inside
        exact decide_eq_true (last i n (List.mem_range.mp inside) (Nat.lt_succ_self n) creates)
      rw [if_pos creates, all, ← List.range_succ, List.length_range]
    · rw [if_neg creates]
      exact ih fun i j less below => last i j less (Nat.lt_succ_of_lt below)

/-- An error number is not lost in the conversion. -/
theorem World.errno_ne_zero (w : World) (failed : w.clone i < 0) : toInt32 (-w.clone i) ≠ 0 := by
  have documented := w.documented i
  rw [toInt32_eq (fits32_iff.mpr (by omega))]
  omega

/-- A creation tells whether it succeeded, and nothing else is started or joined. -/
structure Created (w : World) (i : Nat) (s : State) (r : LcResult) (t : State) : Prop where
  ok : lcIsOk r = true ↔ w.Creates i
  workers : t.workers = if w.Creates i then s.workers ++ [i] else s.workers
  joined : t.joined = s.joined

/-- A creation that fails reports an error. -/
theorem Created.fail {error : Int} (nonzero : error ≠ 0) (fails : ¬ w.Creates i)
    (workers : t.workers = s.workers) (joined : t.joined = s.joined) :
    Created w i s (lcErr error) t where
  ok := iff_of_false (fun ok => nonzero (of_decide_eq_true ok)) fails
  workers := by rw [if_neg fails, workers]
  joined := joined

theorem lcThreadCreate_total (w : World) (i : Nat) (s : State) :
    Total (fun t => t = s) (lcThreadCreate w i) (Created w i s) := by
  rintro _ rfl
  unfold lcThreadCreate lcThreadCreateWithStack
  cases mapped : w.mapMemory i with
  | none =>
    have fails : ¬ w.Creates i := fun creates => by
      have found := creates.1
      rw [mapped] at found
      cases found
    exact ⟨_, _, rfl, .fail (by decide) fails rfl rfl⟩
  | some stack =>
    by_cases guarded : w.protects i = false
    · have fails : ¬ w.Creates i := fun creates =>
        absurd (guarded.symm.trans creates.2.1) Bool.false_ne_true
      simp only [if_pos guarded]
      exact ⟨_, _, rfl, .fail (by decide) fails rfl rfl⟩
    · simp only [if_neg guarded]
      by_cases failed : w.clone i < 0
      · have fails : ¬ w.Creates i := fun creates => Int.not_lt.mpr creates.2.2 failed
        simp only [if_pos failed]
        exact ⟨_, _, rfl, .fail (w.errno_ne_zero failed) fails rfl rfl⟩
      · have creates : w.Creates i :=
          ⟨by rw [mapped]; rfl, Bool.eq_true_of_not_eq_false guarded, Int.not_lt.mp failed⟩
        simp only [if_neg failed]
        exact ⟨_, _, rfl, iff_of_true rfl creates, by rw [if_pos creates], rfl⟩

/-! ### The three loops -/

theorem workerCount_le (threadCount : Nat) : workerCount threadCount ≤ 16 := by
  unfold workerCount
  generalize (if threadCount = 0 then 4 else threadCount) = count
  dsimp only
  split
  · exact Nat.le_refl _
  · next small => exact Nat.le_of_not_lt small

/-- After the creations below `i`: the count is the number of workers. -/
structure Counted (w : World) (i createdCount : Nat) (s : State) : Prop where
  workers : s.workers = w.created i
  count : createdCount = (w.created i).length
  joined : s.joined = []

theorem length_created_le : (w.created n).length ≤ n :=
  (List.length_filter_le _ _).trans_eq List.length_range

theorem createRound_total {createdCount : Nat} (small : i < 16) :
    Total (Counted w i createdCount) (createRound w i createdCount)
      fun r t => r.Meets (Counted w (i + 1) · t) fun _ => False := by
  intro s counted
  obtain ⟨r, t, run, created⟩ := lcThreadCreate_total w i
    { s with args := update s.args i ⟨s.serverFd, s.acceptHandler, i⟩ } _ rfl
  refine ⟨_, t, (bind_done rfl).trans (bind_done run), ?_⟩
  have few : (w.created i).length ≤ i := length_created_le
  have workers := created.workers
  have joined : t.joined = [] := created.joined.trans counted.joined
  by_cases creates : w.Creates i
  · have next : w.created (i + 1) = w.created i ++ [i] := by rw [created_succ, if_pos creates]
    rw [if_pos (created.ok.mpr creates)]
    rw [if_pos creates] at workers
    refine ⟨?_, ?_, joined⟩
    · rw [workers, next, ← counted.workers]
    · rw [next, List.length_append, counted.count, add32, List.length_singleton]
      omega
  · have next : w.created (i + 1) = w.created i := by rw [created_succ, if_neg creates]
    rw [if_neg fun ok => creates (created.ok.mp ok)]
    rw [if_neg creates] at workers
    refine ⟨?_, ?_, joined⟩
    · rw [workers, next, ← counted.workers]
    · rw [next, counted.count]

/-- Waking the workers starts and joins none. -/
theorem wakeWorkers_total (createdCount : Nat) (workers : List Nat) :
    Total (fun s => s.workers = workers ∧ s.joined = []) (wakeWorkers w createdCount)
      fun _ t => t.workers = workers ∧ t.joined = [] := by
  apply Total.bind (Total.upTo (I := fun _ _ (t : State) => t.workers = workers ∧ t.joined = [])
    (Q := fun _ _ => False) (fun i _ _ s known => ?_) createdCount 0 () (Nat.zero_add _))
  · intro r
    cases r with
    | next => exact Total.ret fun _ known => known
    | leave impossible => nomatch impossible
  · refine ⟨_, _, rfl, ?_⟩
    show _ ∧ _
    split
    · exact known
    · exact known

/-- What neither the wait for an exit nor the end of a join changes. -/
def Unmoved (s t : State) : Prop := t.joined = s.joined ∧ t.workers = s.workers

theorem awaitExit_ends (i : Nat) (s : State) :
    (∃ t, awaitExit i s = .done () t ∧ Unmoved s t) ∨
      (i ∉ s.workers ∧ awaitExit i s = .failed (.join i) s) := by
  unfold awaitExit
  split
  · exact .inl ⟨s, rfl, rfl, rfl⟩
  · split
    · exact .inl ⟨_, rfl, rfl, rfl⟩
    · next nobody => exact .inr ⟨nobody, rfl⟩

theorem freeStack_total (i : Nat) (s : State) :
    Total (fun t => t = s) (freeStack i) fun _ t => Unmoved s t := by
  apply Total.get_bind
  rintro s rfl
  apply Total.bind (Q := fun _ t => Unmoved s t)
  · rintro s rfl
    exact ⟨(), _, rfl, rfl, rfl⟩
  intro _
  apply Total.ite
  · exact fun _ => Total.modify fun _ unmoved => unmoved
  · exact fun _ => Total.ret fun _ unmoved => unmoved

/-- A call of `lc_thread_join` comes back, or it hangs on an object without a worker. -/
theorem lcThreadJoin_ends (i : Nat) (s : State) :
    (∃ t, lcThreadJoin i s = .done () t ∧ t.joined = s.joined ++ [i] ∧ t.workers = s.workers) ∨
      (i ∉ s.workers ∧ ∃ t, lcThreadJoin i s = .failed (.join i) t ∧
        t.joined = s.joined ++ [i]) := by
  obtain ⟨t, exits, joined, workers⟩ | ⟨nobody, hangs⟩ :=
    awaitExit_ends i { s with joined := s.joined ++ [i] }
  · obtain ⟨_, u, frees, joined', workers'⟩ := freeStack_total i t t rfl
    refine .inl ⟨u, ?_, joined'.trans joined, workers'.trans workers⟩
    exact (bind_done rfl).trans ((bind_done exits).trans frees)
  · exact .inr ⟨nobody, _, (bind_done rfl).trans (Program.bind_failed hangs), rfl⟩

theorem joinRounds_ends (rounds : Nat) (joined : s.joined = List.range i) :
    (∃ t, Program.upTo joinRound rounds i () s = .done (.next ()) t ∧
        t.joined = List.range (i + rounds)) ∨
      ∃ j t, Program.upTo joinRound rounds i () s = .failed (.join j) t ∧
        j ∉ s.workers ∧ j < i + rounds ∧ t.joined = List.range (j + 1) := by
  induction rounds generalizing i s with
  | zero => exact .inl ⟨s, rfl, joined⟩
  | succ rounds ih =>
    rw [Program.upTo, ← Nat.succ_add_eq_add_succ i rounds]
    have next : s.joined ++ [i] = List.range (i + 1) := by rw [joined, List.range_succ]
    obtain ⟨t, comes, joined', workers⟩ | ⟨nobody, t, hangs, joined'⟩ := lcThreadJoin_ends i s
    · have round : joinRound i () s = .done (.next ()) t := bind_done comes
      rw [bind_done round]
      have rest := ih (joined'.trans next)
      rwa [workers] at rest
    · have round : joinRound i () s = .failed (.join i) t := Program.bind_failed hangs
      exact .inr ⟨i, t, Program.bind_failed round, nobody, by omega, joined'.trans next⟩

/-- All the joins come back, or one of them hangs on an object without a worker. -/
theorem joinWorkers_ends (createdCount : Nat) (joined : s.joined = []) :
    (∃ t, joinWorkers createdCount s = .done () t ∧ t.joined = List.range createdCount) ∨
      ∃ j t, joinWorkers createdCount s = .failed (.join j) t ∧
        j ∉ s.workers ∧ j < createdCount ∧ t.joined = List.range (j + 1) := by
  have ends := joinRounds_ends (i := 0) createdCount joined
  rw [Nat.zero_add] at ends
  obtain ⟨t, comes, all⟩ | ⟨j, t, hangs, rest⟩ := ends
  · exact .inl ⟨t, bind_done comes, all⟩
  · exact .inr ⟨j, t, Program.bind_failed hangs, rest⟩

/-! ### Which objects are joined -/

/-- Every object whose creation succeeded is joined, once, and no other. -/
def JoinsCreated (w : World) (threadCount : Nat) (s : State) : Prop :=
  s.joined.Nodup ∧ ∀ i, i ∈ s.joined ↔ i < workerCount threadCount ∧ w.Creates i

/-- The objects that were joined are those that were created if these come first. -/
theorem joins_first_iff {threadCount : Nat}
    (joined : s.joined = List.range (w.created (workerCount threadCount)).length) :
    JoinsCreated w threadCount s ↔ w.FailuresLast (workerCount threadCount) := by
  constructor
  · rintro ⟨-, exact_⟩ i j less below creates
    have inside : j ∈ s.joined := (exact_ j).mpr ⟨below, creates⟩
    rw [joined, List.mem_range] at inside
    have before : i ∈ s.joined := by
      rw [joined, List.mem_range]
      exact Nat.lt_trans less inside
    exact ((exact_ i).mp before).2
  · intro last
    rw [← last.created_eq] at joined
    refine ⟨joined ▸ List.nodup_range.filter _, fun i => ?_⟩
    rw [joined]
    exact mem_created

/-- The run up to the joins. -/
theorem lioLoopRunThreaded_eq (w : World) (threadCount : Nat) {s : State}
    (workers : s.workers = []) (joined : s.joined = []) :
    ∃ t, t.workers = w.created (workerCount threadCount) ∧ t.joined = [] ∧
      lioLoopRunThreaded w threadCount s =
        joinWorkers (w.created (workerCount threadCount)).length t := by
  obtain ⟨r, t, creates, met⟩ := Total.upTo (I := Counted w) (Q := fun _ _ => False)
    (fun i b below => createRound_total (Nat.lt_of_lt_of_le below (workerCount_le threadCount)))
    (workerCount threadCount) 0 0 (Nat.zero_add _) s ⟨workers, rfl, joined⟩
  cases r with
  | leave impossible => nomatch impossible
  | next createdCount =>
    obtain ⟨workers', count, joined'⟩ := met
    subst count
    obtain ⟨_, u, wakes, workers'', joined''⟩ := wakeWorkers_total (w := w)
      (w.created (workerCount threadCount)).length (w.created (workerCount threadCount))
      { t with running := false, stopFlag := true } ⟨workers', joined'⟩
    refine ⟨u, workers'', joined'', ?_⟩
    unfold lioLoopRunThreaded
    rw [bind_done creates]
    exact bind_done wakes

/-- The state on entry. The arrays hold what earlier calls have left on the stack. -/
def enter (threads : Nat → LcThread) (args : Nat → LioWorkerArgs) (serverFd : Int)
    (acceptHandler : Nat) (running : Bool) : State where
  threads := threads
  args := args
  stopFlag := false
  serverFd := serverFd
  acceptHandler := acceptHandler
  running := running

/-- The run comes back in `s`, or hangs there. -/
def EndsIn (run : Outcome Hang State Unit) (s : State) : Prop :=
  run = .done () s ∨ ∃ j, run = .failed (.join j) s

/-- `lio_loop_run_threaded`, once the loop is stopped, joins exactly the workers it has created
if and only if no creation succeeds after one that failed. In this case it comes back. -/
theorem threaded_joins_created_iff (w : World) (threadCount : Nat) (threads : Nat → LcThread)
    (args : Nat → LioWorkerArgs) (serverFd : Int) (acceptHandler : Nat) (running : Bool) :
    let run := lioLoopRunThreaded w threadCount (enter threads args serverFd acceptHandler running)
    ∃ s, EndsIn run s ∧
      (JoinsCreated w threadCount s ↔ w.FailuresLast (workerCount threadCount)) ∧
      (w.FailuresLast (workerCount threadCount) → run = .done () s) := by
  intro run
  obtain ⟨t, workers, none_, joins⟩ := lioLoopRunThreaded_eq w threadCount
    (s := enter threads args serverFd acceptHandler running) rfl rfl
  have same : run = joinWorkers (w.created (workerCount threadCount)).length t := joins
  rw [same]
  obtain ⟨s, comes, joined⟩ | ⟨j, s, hangs, nobody, early, joined⟩ :=
    joinWorkers_ends (w.created (workerCount threadCount)).length none_
  · exact ⟨s, .inl comes, joins_first_iff joined, fun _ => comes⟩
  · rw [workers] at nobody
    -- the object on which the join hangs is one of those that were counted
    have wrong : ¬ w.FailuresLast (workerCount threadCount) := by
      intro last
      rw [last.created_eq, List.mem_range] at nobody
      exact nobody early
    have foreign : ¬ JoinsCreated w threadCount s := by
      rintro ⟨-, exact_⟩
      have inside : j ∈ s.joined := by
        rw [joined, List.mem_range]
        exact Nat.lt_succ_self j
      exact nobody (mem_created.mpr ((exact_ j).mp inside))
    exact ⟨s, .inr ⟨j, hangs⟩, iff_of_false foreign wrong, fun last => absurd last wrong⟩

/-- The first of two threads cannot be started (`EAGAIN`), the second can. -/
def secondOnly : World where
  pageSize := 4096
  mapMemory i := some (0x7f0000000000 + 0x200000 * i)
  protects _ := true
  clone i := if i = 0 then -11 else 1000
  connects _ := true
  documented i := by split <;> decide

/-- The call joins the object without a worker, unmaps a stack that is not mapped any more,
and comes back while the worker still runs. -/
theorem second_worker_not_joined :
    ∃ s, lioLoopRunThreaded secondOnly 2
        (enter (fun _ => ⟨0, 0, 0, 0⟩) (fun _ => ⟨0, 0, 0⟩) 3 0 false) = .done () s ∧
      s.workers = [1] ∧ s.joined = [0] ∧ (s.threads 1).alive = 1000 ∧
      s.unmapped = [(0x7f0000000000, 0x101000), (0x7f0000000000, 0x101000)] ∧
      ¬ JoinsCreated secondOnly 2 s := by
  refine ⟨_, rfl, rfl, rfl, rfl, rfl, fun joins => ?_⟩
  exact absurd ((joins.2 1).mpr (by decide)) (by decide)

end Lightc.Lightio.Threaded
