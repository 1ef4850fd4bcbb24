import Lightc.Machine.Word
import Lightc.Verification.Transition

/-!
# Coroutines, schedulers and the thread that runs them

A thread has one stack of its own and one for each coroutine; a `Flow` is one of
these stacks. `lc_coroutine_switch` stores where the executing flow stands into
one context and continues at another. A saved context is good for one
resumption: once its flow has been resumed, the frames it points to are gone.
The ghost `asleep` remembers at which save a flow sleeps, and restoring anything
else than that, or starting a coroutine a second time, leaves the program in the
state `lost`, from which nothing more is said.

`lc_scheduler_run` is left when its `main_context` is restored, so the flow that
called it is asleep in the meantime. Bodies are arbitrary: at any time an
executing coroutine may make any call or return.
-/

namespace Lightc.Coroutines

open Machine Verification Function

/-- `lc_coroutine_state`. -/
inductive Status
  | ready
  | running
  | finished
  deriving DecidableEq, Repr

/-- A stack: the thread's own or a coroutine's. -/
inductive Flow (S : Type)
  | main
  | coroutine (s : S) (i : Nat)
  deriving DecidableEq, Repr

/-- `lc_coroutine_context`, read as what restoring it does: nothing sensible,
enter `coroutine_trampoline`, or continue a flow where it was saved. -/
inductive Context (S : Type)
  | zero
  | entry
  | saved (flow : Flow S) (moment : Nat)
  deriving DecidableEq, Repr

/-- `lc_coroutine`. -/
structure Coroutine (S : Type) where
  context : Context S
  state : Status
  func : Nat
  arg : Nat
  stackBase : Nat
  stackSize : Nat
  deriving DecidableEq, Repr

/-- `lc_scheduler`, with the coroutine array in place of the pointer to it. -/
structure Scheduler (S : Type) where
  coroutines : Nat → Coroutine S
  capacity : Nat
  count : Nat
  activeCount : Nat
  current : Nat
  mainContext : Context S

/-- What the processor is executing. -/
inductive Control (S : Type)
  | flow (f : Flow S)
  | lost
  deriving DecidableEq, Repr

/-- The schedulers a thread uses, its thread-local scheduler pointer, and where
it stands. `entered` lists the coroutines whose functions have been called, and
`ran` the schedulers with coroutines that were run, latest first. -/
structure Thread (S : Type) where
  schedulers : S → Scheduler S
  currentScheduler : Option S
  control : Control S
  asleep : Flow S → Option Nat
  clock : Nat
  entered : List (S × Nat)
  ran : List S

/-- A context of a scheduler. -/
inductive Slot (S : Type)
  | coroutine (s : S) (i : Nat)
  | main (s : S)
  deriving DecidableEq, Repr

/-- The context a call switched to, if it switched. -/
inductive Label (S : Type)
  | stayed
  | switched (target : Slot S)
  deriving DecidableEq, Repr

variable {S : Type}

/-! ### Schedulers -/

namespace Scheduler

def setCoroutine (d : Scheduler S) (i : Nat) (co : Coroutine S) : Scheduler S :=
  { d with coroutines := update d.coroutines i co }

def setState (d : Scheduler S) (i : Nat) (state : Status) : Scheduler S :=
  d.setCoroutine i { d.coroutines i with state := state }

/-- The candidates of the round-robin search, in its order. -/
def candidates (d : Scheduler S) : List Nat :=
  (List.range' 1 d.count).map fun i => add32 d.current i % d.count

/-- The next coroutine that is not finished. -/
def findNext (d : Scheduler S) : Option Nat :=
  d.candidates.find? fun c => (d.coroutines c).state ≠ .finished

/-- One turn of the loop of `lc_scheduler_run` over `(runnable, first)`. -/
def countOne (d : Scheduler S) (acc : Nat × Nat) (i : Nat) : Nat × Nat :=
  if (d.coroutines i).state ≠ .finished then
    (acc.1 + 1, if acc.2 = d.count then i else acc.2)
  else acc

/-- How many coroutines can run, and the first of them. -/
def countRunnable (d : Scheduler S) : Nat × Nat :=
  (List.range d.count).foldl d.countOne (0, d.count)

/-- The scheduler as `lc_scheduler_create_with_capacity` returns it. -/
def create (capacity : Nat) : Scheduler S :=
  ⟨fun _ => ⟨.zero, .ready, 0, 0, 0, 0⟩, capacity, 0, 0, 0, .zero⟩

/-- `LC_COROUTINE_STACK_SIZE`. -/
def stackSize : Nat := 64 * 1024

/-- `lc_coroutine_create`: `stack` is what `lc_kernel_map_memory` returned, and
`guarded` whether the guard page could be protected. -/
def lcCoroutineCreate (d : Scheduler S) (func arg pageSize : Nat) (stack : Option Nat)
    (guarded : Bool) : Scheduler S :=
  if d.capacity ≤ d.count then d
  else
    match stack with
    | none => d
    | some base =>
      if guarded then
        { d with
          count := d.count + 1
          coroutines := update d.coroutines d.count
            ⟨.entry, .ready, func, arg, base, stackSize + pageSize⟩ }
      else d

/-- `lc_scheduler_destroy`. -/
def lcSchedulerDestroy (d : Scheduler S) : Scheduler S :=
  { d with
    coroutines := fun _ => ⟨.zero, .ready, 0, 0, 0, 0⟩
    count := 0
    activeCount := 0
    capacity := 0 }

end Scheduler

/-! ### The thread -/

namespace Thread

variable [DecidableEq S]

def setScheduler (t : Thread S) (s : S) (d : Scheduler S) : Thread S :=
  { t with schedulers := update t.schedulers s d }

def context (t : Thread S) : Slot S → Context S
  | .coroutine s i => ((t.schedulers s).coroutines i).context
  | .main s => (t.schedulers s).mainContext

def setContext (t : Thread S) (slot : Slot S) (c : Context S) : Thread S :=
  match slot with
  | .coroutine s i =>
    t.setScheduler s ((t.schedulers s).setCoroutine i
      { (t.schedulers s).coroutines i with context := c })
  | .main s => t.setScheduler s { t.schedulers s with mainContext := c }

/-- The first half of a switch: the flow's place goes into a context. -/
def suspend (t : Thread S) (f : Flow S) (slot : Slot S) : Thread S :=
  { t.setContext slot (.saved f t.clock) with
    asleep := update t.asleep f (some t.clock)
    clock := t.clock + 1 }

/-- `coroutine_trampoline` up to the call of the coroutine's function. It finds
the coroutine through the thread-local pointer. -/
def trampoline (t : Thread S) (slot : Slot S) : Thread S :=
  match t.currentScheduler with
  | none => { t with control := .lost }
  | some s =>
    let i := (t.schedulers s).current
    if slot = .coroutine s i ∧ (s, i) ∉ t.entered then
      { t with control := .flow (.coroutine s i), entered := t.entered ++ [(s, i)] }
    else { t with control := .lost }

/-- A sleeping flow goes on. -/
def wake (t : Thread S) (f : Flow S) : Thread S :=
  { t with control := .flow f, asleep := update t.asleep f none }

/-- The second half of a switch. -/
def resume (t : Thread S) (slot : Slot S) : Thread S :=
  match t.context slot with
  | .zero => { t with control := .lost }
  | .entry => t.trampoline slot
  | .saved f moment =>
    if t.asleep f = some moment then t.wake f else { t with control := .lost }

/-- `lc_coroutine_switch`, executed by the flow `f`. -/
def switch (t : Thread S) (f : Flow S) (save restore : Slot S) : Thread S :=
  (t.suspend f save).resume restore

/-- The turn goes to `next`, which is marked as running. -/
def giveTurn (t : Thread S) (s : S) (next : Nat) : Thread S :=
  t.setScheduler s ({ t.schedulers s with current := next }.setState next .running)

/-- `lc_scheduler_run`, up to the switch. -/
def lcSchedulerRun (t : Thread S) (f : Flow S) (s : S) : Thread S × Label S :=
  let d := t.schedulers s
  if d.count = 0 then (t, .stayed)
  else
    let t := { t with currentScheduler := some s, ran := s :: t.ran }
    let (runnable, first) := d.countRunnable
    if runnable = 0 then (t, .stayed)
    else
      let t := (t.setScheduler s { d with activeCount := runnable }).giveTurn s first
      (t.switch f (.main s) (.coroutine s first), .switched (.coroutine s first))

/-- The second half of `lc_coroutine_yield`: find the next coroutine, or return
to `lc_scheduler_run`. -/
def switchToNext (t : Thread S) (f : Flow S) (s : S) : Thread S × Label S :=
  let i := (t.schedulers s).current
  match (t.schedulers s).findNext with
  | none => (t.switch f (.coroutine s i) (.main s), .switched (.main s))
  | some next =>
    ((t.giveTurn s next).switch f (.coroutine s i) (.coroutine s next),
      .switched (.coroutine s next))

/-- `lc_coroutine_yield`, called by the flow `f`, up to the switch. -/
def lcCoroutineYield (t : Thread S) (f : Flow S) : Thread S × Label S :=
  match t.currentScheduler with
  | none => (t, .stayed)
  | some s =>
    let d := t.schedulers s
    if d.count = 0 then (t, .stayed)
    else if (d.coroutines d.current).state = .running then
      (t.setScheduler s (d.setState d.current .ready)).switchToNext f s
    else t.switchToNext f s

/-- `coroutine_trampoline` after the coroutine's function has returned. Its last
yield must not return, and its flow must not be resumed. -/
def trampolineEnd (t : Thread S) (s : S) (i : Nat) : Thread S × Label S :=
  let d := t.schedulers s
  let t := t.setScheduler s
    ({ d with activeCount := sub32 d.activeCount 1 }.setState i .finished)
  match t.lcCoroutineYield (.coroutine s i) with
  | (t, .stayed) => ({ t with control := .lost }, .stayed)
  | (t, label) => ({ t with asleep := update t.asleep (.coroutine s i) none }, label)

/-- `lc_scheduler_destroy`: the stacks go away, and with them the flows on them. -/
def lcSchedulerDestroy (t : Thread S) (f : Flow S) (s : S) : Thread S :=
  { t.setScheduler s (t.schedulers s).lcSchedulerDestroy with
    asleep := fun g =>
      match g with
      | .main => t.asleep .main
      | .coroutine s' i => if s' = s then none else t.asleep (.coroutine s' i)
    control :=
      match f with
      | .main => t.control
      | .coroutine s' _ => if s' = s then .lost else t.control }

end Thread

/-- The calls a flow may make; a coroutine may also return. -/
inductive Action (S : Type)
  | create (s : S) (func arg pageSize : Nat) (stack : Option Nat) (guarded : Bool)
  | run (s : S)
  | destroy (s : S)
  | yield
  | finish
  deriving DecidableEq, Repr

/-- What the executing flow does next. -/
def perform [DecidableEq S] (t : Thread S) (a : Action S) : Option (Thread S × Label S) :=
  match t.control with
  | .lost => none
  | .flow f =>
    match a with
    | .create s func arg pageSize stack guarded =>
      some (t.setScheduler s
        ((t.schedulers s).lcCoroutineCreate func arg pageSize stack guarded), .stayed)
    | .run s => some (t.lcSchedulerRun f s)
    | .destroy s => some (t.lcSchedulerDestroy f s, .stayed)
    | .yield => some (t.lcCoroutineYield f)
    | .finish =>
      match f with
      | .main => none
      | .coroutine s i => some (t.trampolineEnd s i)

/-- How many guarded stacks the kernel maps for a process. It refuses mappings
beyond `vm.max_map_count`, which is a positive `int`, and a stack with its guard
page is two of them. -/
def maxStacks : Nat := 2 ^ 30

/-- The kernel maps a stack only while it has room for one. -/
def KernelAllows (t : Thread S) : Action S → Prop
  | .create s _ _ _ stack _ => stack ≠ none → (t.schedulers s).count < maxStacks
  | _ => True

instance decidableKernelAllows (t : Thread S) : (a : Action S) → Decidable (KernelAllows t a)
  | .create s _ _ _ stack _ =>
    inferInstanceAs (Decidable (stack ≠ none → (t.schedulers s).count < maxStacks))
  | .run _ => .isTrue trivial
  | .destroy _ => .isTrue trivial
  | .yield => .isTrue trivial
  | .finish => .isTrue trivial

/-- A thread that has made its schedulers, each with some capacity, and no other
call. -/
def Thread.Fresh (t : Thread S) : Prop :=
  (∀ s, ∃ capacity, capacity < 2 ^ 32 ∧ t.schedulers s = .create capacity) ∧
    t.currentScheduler = none ∧ t.control = .flow .main ∧ (∀ f, t.asleep f = none) ∧
    t.entered = [] ∧ t.ran = []

/-- Runs in which every action follows a rule about who may do what. -/
def usedBy [DecidableEq S] (rule : Thread S → Action S → Prop) : System (Thread S) where
  init := Thread.Fresh
  step t t' := ∃ a label, rule t a ∧ perform t a = some (t', label)

/-- The fresh thread whose schedulers all have the same capacity. -/
def Thread.fresh (S : Type) (capacity : Nat) : Thread S :=
  ⟨fun _ => .create capacity, none, .flow .main, fun _ => none, 0, [], []⟩

/-- The thread after some actions from there, if all of them follow the rule. -/
def afterwards [DecidableEq S] (rule : Thread S → Action S → Prop) [∀ t a, Decidable (rule t a)]
    (capacity : Nat) (actions : List (Action S)) : Option (Thread S) :=
  actions.foldlM (fun t a => if rule t a then (perform t a).map (·.1) else none)
    (.fresh S capacity)

theorem reachable_afterwards [DecidableEq S] {rule : Thread S → Action S → Prop}
    [∀ t a, Decidable (rule t a)] {capacity : Nat} (word : capacity < 2 ^ 32)
    {actions : List (Action S)} {t : Thread S}
    (executed : afterwards rule capacity actions = some t) :
    (usedBy rule).Reachable t := by
  have fresh : (Thread.fresh S capacity).Fresh :=
    ⟨fun _ => ⟨capacity, word, rfl⟩, rfl, rfl, fun _ => rfl, rfl, rfl⟩
  refine System.Reachable.foldlM (fun t a t' step => ?_) (.init fresh) executed
  split at step
  · next permitted =>
    obtain ⟨⟨u, label⟩, performed, rfl⟩ := Option.map_eq_some_iff.mp step
    exact ⟨a, label, permitted, performed⟩
  · cases step

end Lightc.Coroutines
