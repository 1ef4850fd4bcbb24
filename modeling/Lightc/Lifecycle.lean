import Lightc.Machine.Atomic
import Lightc.Verification.Transition

/-!
# Exit handlers and shutdown signals

One thread, as the stack of the functions it is in: the program's own code, calls of
`lc_atexit` and `lc_exit`, exit handlers, and `shutdown_handler` on top of whatever a
`SIGTERM` or `SIGINT` has interrupted. Signals may come between any two accesses to memory,
also inside `shutdown_handler`. The program and the handlers are arbitrary: at any time
they may register a handler or exit, and a handler may return.

`handlers[handler_count++] = func` makes two stores whose order C does not fix. Both
orders are modelled. If the count is stored first and a signal comes before the slot is,
`lc_exit` calls through a slot that is still `NULL`; the ghost `torn` records that an exit
began there.
-/

namespace Lightc.Lifecycle

open Machine Verification Function

/-- `LC_MAX_ATEXIT_HANDLERS`. -/
def maxHandlers : Nat := 32

/-- Inside `lc_atexit`; `i` is the value `handler_count++` had. -/
inductive AtexitPc
  /-- Before the comparison of `handler_count`. -/
  | check
  /-- Before the two stores. -/
  | write
  /-- The count is stored and the slot is not. -/
  | incremented (i : Nat)
  /-- The slot is stored and the count is not. -/
  | stored (i : Nat)
  deriving DecidableEq, Repr

/-- Which of the two stores is made first. -/
inductive First
  | count
  | slot
  deriving DecidableEq, Repr

/-- Inside `lc_exit`. -/
inductive ExitPc
  /-- Before the compare-exchange. -/
  | cas
  /-- Before the load of `handler_count`. -/
  | snapshot
  /-- At the loop guard, with `i` handlers still to be called. -/
  | loop (i : Nat)
  deriving DecidableEq, Repr

variable {H : Type}

/-- A function the thread is in. -/
inductive Frame (H : Type)
  | program
  | atexit (pc : AtexitPc) (func : H)
  | exit (pc : ExitPc) (code : Int)
  | handler (func : H)
  /-- `shutdown_handler`, before the load of `exiting`. -/
  | shutdown
  deriving DecidableEq, Repr

/-- What `lc_atexit` returns. -/
inductive Result
  | ok
  /-- `LC_ERR_FULL`. -/
  | full
  deriving DecidableEq, Repr

inductive Status
  | running
  | exited (code : Int)
  /-- A call through `NULL`. -/
  | crashed
  deriving DecidableEq, Repr

/-- The moment a compare-exchange of `exiting` succeeded. -/
structure Beginning (H : Type) where
  /-- The handlers registered until then, oldest first. -/
  registered : List H
  /-- A call of `lc_atexit` had stored the count and not the slot. -/
  torn : Bool
  deriving DecidableEq, Repr

structure State (H : Type) where
  handlers : Nat → Option H
  handlerCount : Nat
  exiting : Int32
  /-- Innermost first. -/
  stack : List (Frame H)
  status : Status
  /-- What the last `lc_atexit` returned. -/
  result : Option Result
  /-- The completed registrations, oldest first. -/
  registered : List H
  began : Option (Beginning H)
  /-- The handlers called, in that order, with their slots. -/
  executed : List (H × Nat)
  /-- A handler has called `lc_exit`. -/
  reentered : Bool

@[simp] def Frame.isTorn : Frame H → Bool
  | .atexit (.incremented _) _ => true
  | _ => false

def Frame.isHandler : Frame H → Bool
  | .handler _ => true
  | _ => false

/-- The frame is code of the program's author. -/
def Frame.Calls : Frame H → Prop
  | .program | .handler _ => True
  | _ => False

namespace State

def push (s : State H) (frame : Frame H) : State H := { s with stack := frame :: s.stack }

def setSlot (s : State H) (i : Nat) (func : H) : State H :=
  { s with handlers := update s.handlers i (some func) }

/-- The registration is complete and the call returns. -/
def complete (s : State H) (func : H) (below : List (Frame H)) : State H :=
  { s with registered := s.registered ++ [func], stack := below, result := some .ok }

end State

/-- One step of `lc_atexit`, called from `below`. -/
def lcAtexit (s : State H) (pc : AtexitPc) (func : H) (below : List (Frame H)) (first : First) :
    State H :=
  match pc with
  | .check =>
    if maxHandlers ≤ s.handlerCount then { s with stack := below, result := some .full }
    else { s with stack := .atexit .write func :: below }
  | .write =>
    let i := s.handlerCount
    match first with
    | .count =>
      { s with handlerCount := i + 1, stack := .atexit (.incremented i) func :: below }
    | .slot => { s.setSlot i func with stack := .atexit (.stored i) func :: below }
  | .incremented i => (s.setSlot i func).complete func below
  | .stored i => { s.complete func below with handlerCount := i + 1 }

/-- One step of `lc_exit`, called from `below`. -/
def lcExit (s : State H) (pc : ExitPc) (code : Int) (below : List (Frame H)) : State H :=
  match pc with
  | .cas =>
    let (first, exiting) := atomicCompareExchange s.exiting 0 1
    if first then
      { s with
        exiting := exiting
        stack := .exit .snapshot code :: below
        began := some ⟨s.registered, s.stack.any Frame.isTorn⟩ }
    else { s with exiting := exiting, status := .exited code }
  | .snapshot => { s with stack := .exit (.loop s.handlerCount) code :: below }
  | .loop 0 => { s with status := .exited code }
  | .loop (i + 1) =>
    match s.handlers i with
    | none => { s with status := .crashed }
    | some func =>
      { s with
        stack := .handler func :: .exit (.loop i) code :: below
        executed := s.executed ++ [(func, i)] }

/-- `shutdown_handler`, which ends in a call of `lc_exit` that does not return. -/
def shutdownHandler (s : State H) (below : List (Frame H)) : State H :=
  if s.exiting ≠ 0 then { s with stack := below }
  else { s with stack := .exit .cas 0 :: below }

/-- The steps of a process that is running. -/
inductive Step (s : State H) : State H → Prop
  | signal : Step s (s.push .shutdown)
  | callAtexit {caller : Frame H} {below : List (Frame H)} (at_ : s.stack = caller :: below)
      (calls : caller.Calls) (func : H) : Step s (s.push (.atexit .check func))
  | callExit {caller : Frame H} {below : List (Frame H)} (at_ : s.stack = caller :: below)
      (calls : caller.Calls) (code : Int) :
      Step s { s.push (.exit .cas code) with reentered := s.reentered || caller.isHandler }
  | handlerReturns {func : H} {below : List (Frame H)} (at_ : s.stack = .handler func :: below) :
      Step s { s with stack := below }
  | atexit {pc : AtexitPc} {func : H} {below : List (Frame H)}
      (at_ : s.stack = .atexit pc func :: below) (first : First) :
      Step s (lcAtexit s pc func below first)
  | exit {pc : ExitPc} {code : Int} {below : List (Frame H)}
      (at_ : s.stack = .exit pc code :: below) : Step s (lcExit s pc code below)
  | shutdown {below : List (Frame H)} (at_ : s.stack = .shutdown :: below) :
      Step s (shutdownHandler s below)

/-- A process before its first registration. -/
def start (H : Type) : State H where
  handlers _ := none
  handlerCount := 0
  exiting := 0
  stack := [.program]
  status := .running
  result := none
  registered := []
  began := none
  executed := []
  reentered := false

def system (H : Type) : System (State H) where
  init s := s = start H
  step s s' := s.status = .running ∧ Step s s'

/-! ### Before the exit -/

/-- The stack before the exit has begun: the program's code or a call of `lc_atexit` it
makes, and above it only what has not yet exchanged `exiting`. -/
inductive Before : Option (AtexitPc × H) → List (Frame H) → Prop
  | program : Before none [.program]
  | atexit (pc : AtexitPc) (func : H) : Before (some (pc, func)) [.atexit pc func, .program]
  | exit {call : Option (AtexitPc × H)} {stack : List (Frame H)} (h : Before call stack)
      (code : Int) : Before call (.exit .cas code :: stack)
  | signal {call : Option (AtexitPc × H)} {stack : List (Frame H)} (h : Before call stack) :
      Before call (.shutdown :: stack)

/-- The table holds the registrations, and the one in progress as far as it has come. -/
def Booked (s : State H) : Option (AtexitPc × H) → Prop
  | some (.incremented i, _) =>
    i = s.registered.length ∧ s.handlerCount = i + 1 ∧ ∀ j, i ≤ j → s.handlers j = none
  | some (.stored i, func) =>
    i = s.registered.length ∧ s.handlerCount = i ∧ s.handlers i = some func ∧
      ∀ j, i < j → s.handlers j = none
  | none | some (.check, _) | some (.write, _) =>
    s.handlerCount = s.registered.length ∧ ∀ j, s.registered.length ≤ j → s.handlers j = none

/-- The first slots hold these handlers. -/
def Filled (s : State H) (registered : List H) : Prop :=
  ∀ i func, registered[i]? = some func → s.handlers i = some func

/-! ### During the exit -/

/-- What is executing on top of the `lc_exit` that runs the handlers. -/
inductive Level
  | exit (pc : ExitPc)
  /-- A handler, with `i` more to be called. -/
  | handler (i : Nat)
  | atexit (i : Nat) (pc : AtexitPc)
  /-- A call of `lc_exit` by a handler. -/
  | again (i : Nat)

/-- The stack during the exit. What `lc_exit` was called from never continues. -/
inductive During : Level → List (Frame H) → Prop
  | exit {pc : ExitPc} (started : pc ≠ .cas) (code : Int) (below : List (Frame H)) :
      During (.exit pc) (.exit pc code :: below)
  | handler {i : Nat} {stack : List (Frame H)} (h : During (.exit (.loop i)) stack) (func : H) :
      During (.handler i) (.handler func :: stack)
  | atexit {i : Nat} {stack : List (Frame H)} (h : During (.handler i) stack) (pc : AtexitPc)
      (func : H) : During (.atexit i pc) (.atexit pc func :: stack)
  | again {i : Nat} {stack : List (Frame H)} (h : During (.handler i) stack) (code : Int) :
      During (.again i) (.exit .cas code :: stack)
  | signal {level : Level} {stack : List (Frame H)} (h : During level stack) :
      During level (.shutdown :: stack)

/-- The handlers called when `i` are still to be called. -/
def called (registered : List H) (i : Nat) : List (H × Nat) :=
  registered.zipIdx.reverse.take (registered.length - i)

/-- How far the chain has come, for an exit that began with `registered`. -/
def Progress (s : State H) (registered : List H) : Level → Prop
  | .exit .cas => False
  | .exit .snapshot =>
    s.executed = [] ∧ s.handlerCount = registered.length ∧ s.reentered = false
  | .exit (.loop i) | .handler i =>
    i ≤ registered.length ∧ s.executed = called registered i ∧
      registered.length ≤ s.handlerCount ∧ s.reentered = false
  | .atexit i pc =>
    (i ≤ registered.length ∧ s.executed = called registered i ∧
      registered.length ≤ s.handlerCount ∧ s.reentered = false) ∧
      match pc with
      | .check | .write => True
      | .incremented k | .stored k => registered.length ≤ k
  | .again i => s.executed = called registered i ∧ s.reentered = true

/-- Where a process is. -/
inductive Phase (s : State H) : Prop
  | before (call : Option (AtexitPc × H)) (running : s.status = .running) (exiting : s.exiting = 0)
      (stack : Before call s.stack) (booked : Booked s call) (filled : Filled s s.registered)
      (began : s.began = none) (executed : s.executed = []) (reentered : s.reentered = false)
  | torn (registered : List H) (pc : ExitPc) (running : s.status = .running)
      (exiting : s.exiting = 1) (stack : During (.exit pc) s.stack)
      (at_ : pc = .snapshot ∨ pc = .loop (registered.length + 1))
      (count : s.handlerCount = registered.length + 1)
      (null : s.handlers registered.length = none)
      (began : s.began = some ⟨registered, true⟩) (executed : s.executed = [])
  | chain (registered : List H) (level : Level) (running : s.status = .running)
      (exiting : s.exiting = 1) (stack : During level s.stack) (filled : Filled s registered)
      (began : s.began = some ⟨registered, false⟩) (progress : Progress s registered level)
  | crashed (registered : List H) (status : s.status = .crashed)
      (began : s.began = some ⟨registered, true⟩) (executed : s.executed = [])
  | exited (registered : List H) (code : Int) (i : Nat) (status : s.status = .exited code)
      (began : s.began = some ⟨registered, false⟩) (executed : s.executed = called registered i)
      (all : s.reentered = false → i = 0)

/-! ### The table -/

variable {s s' : State H} {registered : List H}

theorem Filled.setSlot (h : Filled s registered) {k : Nat} (beyond : registered.length ≤ k)
    (func : H) : Filled (s.setSlot k func) registered := by
  intro i f at_
  have inside := (List.getElem?_eq_some_iff.mp at_).1
  exact (update_of_ne (by omega) ..).trans (h i f at_)

variable {func : H} {call : Option (AtexitPc × H)} {below : List (Frame H)}

theorem Filled.snoc (h : Filled s registered) (next : s.handlers registered.length = some func) :
    Filled s (registered ++ [func]) := by
  intro i f at_
  rcases Nat.lt_trichotomy i registered.length with inside | same | beyond
  · rw [List.getElem?_append_left inside] at at_
    exact h i f at_
  · subst same
    simp only [List.getElem?_append_right, le_refl, Nat.sub_self, List.getElem?_cons_zero,
      Option.some.injEq] at at_
    rw [next, at_]
  · rw [List.getElem?_eq_none (by simp; omega)] at at_
    cases at_

@[simp] theorem called_length : called registered registered.length = [] := by simp [called]

/-- One more handler is called. -/
theorem called_succ {i : Nat} (at_ : registered[i]? = some func) :
    called registered (i + 1) ++ [(func, i)] = called registered i := by
  obtain ⟨inside, value⟩ := List.getElem?_eq_some_iff.mp at_
  have index : registered.length - (i + 1) < registered.zipIdx.reverse.length := by
    simp only [List.length_reverse, List.length_zipIdx]
    omega
  have element : registered.zipIdx.reverse[registered.length - (i + 1)] = (func, i) := by
    rw [List.getElem_reverse]
    simp only [List.length_zipIdx, List.getElem_zipIdx]
    have same : registered.length - 1 - (registered.length - (i + 1)) = i := by omega
    simp only [same, value, Nat.zero_add]
  have more : registered.length - i = registered.length - (i + 1) + 1 := by omega
  rw [called, called, more, List.take_succ_eq_append_getElem index, element]

@[simp] theorem called_zero : called registered 0 = registered.zipIdx.reverse := by
  rw [called, List.take_of_length_le]
  simp

/-! ### Steps before the exit -/

/-- Whether an exit from here would find an empty slot. -/
theorem Before.any_isTorn {stack : List (Frame H)} (h : Before call stack) :
    stack.any Frame.isTorn = true ↔ ∃ i func, call = some (.incremented i, func) := by
  induction h with
  | program => simp
  | atexit pc func => cases pc <;> simp
  | exit _ _ ih => simpa using ih
  | signal _ ih => simpa using ih

theorem phase_atexit {pc : AtexitPc} (running : s.status = .running) (exiting : s.exiting = 0)
    (booked : Booked s (some (pc, func))) (filled : Filled s s.registered) (began : s.began = none)
    (executed : s.executed = []) (reentered : s.reentered = false) (first : First) :
    Phase (lcAtexit s pc func [.program] first) := by
  cases pc with
  | check =>
    simp only [lcAtexit]
    split
    · exact .before none running exiting .program booked filled began executed reentered
    · exact .before (some (.write, func)) running exiting (.atexit .write func) booked filled
        began executed reentered
  | write =>
    obtain ⟨count, empty⟩ := booked
    cases first with
    | count =>
      refine .before (some (.incremented s.handlerCount, func)) running exiting
        (.atexit _ func) ⟨count, rfl, fun j beyond => ?_⟩ filled began executed reentered
      exact empty j (count ▸ beyond)
    | slot =>
      refine .before (some (.stored s.handlerCount, func)) running exiting (.atexit _ func)
        ⟨count, rfl, update_self .., fun j beyond => ?_⟩
        (filled.setSlot count.ge func) began executed reentered
      exact (update_of_ne (Nat.ne_of_gt beyond) ..).trans (empty j (by omega))
  | incremented i =>
    obtain ⟨same, count, empty⟩ := booked
    have stored : (s.setSlot i func).handlers s.registered.length = some func := by
      rw [same]
      exact update_self ..
    refine .before none running exiting .program ⟨?_, fun j beyond => ?_⟩
      ((filled.setSlot same.ge func).snoc stored) began executed reentered
    · show s.handlerCount = (s.registered ++ [func]).length
      rw [List.length_append, count, same]
      rfl
    · have beyond : i < j := by
        have : (s.registered ++ [func]).length ≤ j := beyond
        simp only [List.length_append, List.length_singleton] at this
        omega
      exact (update_of_ne (Nat.ne_of_gt beyond) ..).trans (empty j (Nat.le_of_lt beyond))
  | stored i =>
    obtain ⟨same, count, stored, empty⟩ := booked
    subst same
    refine .before none running exiting .program ⟨?_, fun j beyond => ?_⟩ (filled.snoc stored)
      began executed reentered
    · show s.registered.length + 1 = (s.registered ++ [func]).length
      rw [List.length_append]
      rfl
    · have : (s.registered ++ [func]).length ≤ j := beyond
      simp only [List.length_append, List.length_singleton] at this
      exact empty j (by omega)

/-- The exchange succeeds, and the exit begins. -/
theorem phase_cas {code : Int} (running : s.status = .running) (exiting : s.exiting = 0)
    (stack : Before call s.stack) (booked : Booked s call) (filled : Filled s s.registered)
    (executed : s.executed = []) (reentered : s.reentered = false) :
    Phase (lcExit s .cas code below) := by
  have torn := stack.any_isTorn
  simp only [lcExit, atomicCompareExchange, exiting, if_true]
  have snapshot : During (.exit .snapshot) (.exit .snapshot code :: below) :=
    .exit (by decide) code below
  by_cases window : ∃ i func, call = some (.incremented i, func)
  · have marked := torn.mpr window
    obtain ⟨i, func, rfl⟩ := window
    obtain ⟨same, count, empty⟩ := booked
    subst same
    exact .torn s.registered .snapshot running rfl snapshot (.inl rfl) count (empty _ le_rfl)
      (by simp [marked]) executed
  · have unmarked : s.stack.any Frame.isTorn = false := by
      rw [← Bool.not_eq_true]
      exact fun marked => window (torn.mp marked)
    have count : s.handlerCount = s.registered.length := by
      match call, booked with
      | none, booked => exact booked.1
      | some (.check, _), booked => exact booked.1
      | some (.write, _), booked => exact booked.1
      | some (.incremented i, func), _ => exact absurd ⟨i, func, rfl⟩ window
      | some (.stored i, _), booked => exact booked.2.1.trans booked.1
    exact .chain s.registered (.exit .snapshot) running rfl snapshot filled (by simp [unmarked])
      ⟨executed, count, reentered⟩

theorem Phase.step_before (running : s.status = .running) (exiting : s.exiting = 0)
    (stack : Before call s.stack) (booked : Booked s call) (filled : Filled s s.registered)
    (began : s.began = none) (executed : s.executed = []) (reentered : s.reentered = false)
    (step : Step s s') : Phase s' := by
  cases step with
  | signal => exact .before call running exiting stack.signal booked filled began executed reentered
  | callAtexit at_ calls func =>
    rw [at_] at stack
    cases stack with
    | program =>
      refine .before (some (.check, func)) running exiting ?_ booked filled began executed
        reentered
      rw [State.push, at_]
      exact .atexit .check func
    | atexit | exit | signal => exact calls.elim
  | callExit at_ calls code =>
    have plain : ∀ {caller : Frame H} {below : List (Frame H)},
        Before call (caller :: below) → caller.isHandler = false := by
      intro caller below h
      cases h <;> rfl
    refine .before call running exiting (stack.exit code) booked filled began executed ?_
    rw [at_] at stack
    simp [reentered, plain stack]
  | handlerReturns at_ =>
    rw [at_] at stack
    cases stack
  | atexit at_ first =>
    rw [at_] at stack
    cases stack with
    | atexit => exact phase_atexit running exiting booked filled began executed reentered first
  | exit at_ =>
    have top := stack
    rw [at_] at top
    cases top with
    | exit => exact phase_cas running exiting stack booked filled executed reentered
  | shutdown at_ =>
    rw [at_] at stack
    cases stack with
    | signal below =>
      rw [shutdownHandler, if_neg (not_not.mpr exiting)]
      exact .before call running exiting (below.exit 0) booked filled began executed reentered

/-! ### Steps during the exit -/

theorem shutdownHandler_ignored (exiting : s.exiting = 1) (below : List (Frame H)) :
    shutdownHandler s below = { s with stack := below } := by
  simp [shutdownHandler, exiting]

section

variable (running : s.status = .running) (exiting : s.exiting = 1)
include running exiting

theorem Phase.step_torn {pc : ExitPc} (stack : During (.exit pc) s.stack)
    (at_ : pc = .snapshot ∨ pc = .loop (registered.length + 1))
    (count : s.handlerCount = registered.length + 1) (null : s.handlers registered.length = none)
    (began : s.began = some ⟨registered, true⟩) (executed : s.executed = []) (step : Step s s') :
    Phase s' := by
  cases step with
  | signal =>
    exact .torn registered pc running exiting stack.signal at_ count null began executed
  | callAtexit top calls | callExit top calls =>
    rw [top] at stack
    cases stack <;> exact calls.elim
  | handlerReturns top | atexit top =>
    rw [top] at stack
    cases stack
  | @exit pc code below top =>
    rw [top] at stack
    cases stack with
    | exit =>
      rcases at_ with rfl | rfl
      · exact .torn registered (.loop s.handlerCount) running exiting
          (.exit (by simp) code below) (.inr (by rw [count])) count null began executed
      · simp only [lcExit, null]
        exact .crashed registered rfl began executed
  | shutdown top =>
    rw [top] at stack
    cases stack with
    | signal below =>
      rw [shutdownHandler_ignored exiting]
      exact .torn registered pc running exiting below at_ count null began executed

/-- A handler registers another one while the chain is running. -/
theorem phase_atexit_during {i : Nat} {pc : AtexitPc} (stack : During (.handler i) below)
    (filled : Filled s registered) (began : s.began = some ⟨registered, false⟩)
    (progress : Progress s registered (.atexit i pc)) (first : First) :
    Phase (lcAtexit s pc func below first) := by
  obtain ⟨⟨inside, executed, more, reentered⟩, beyond⟩ := progress
  cases pc with
  | check =>
    simp only [lcAtexit]
    split
    · exact .chain registered (.handler i) running exiting stack filled began
        ⟨inside, executed, more, reentered⟩
    · exact .chain registered (.atexit i .write) running exiting (stack.atexit _ func) filled
        began ⟨⟨inside, executed, more, reentered⟩, trivial⟩
  | write =>
    cases first with
    | count =>
      exact .chain registered (.atexit i (.incremented s.handlerCount)) running exiting
        (stack.atexit _ func) filled began
        ⟨⟨inside, executed, Nat.le_succ_of_le more, reentered⟩, more⟩
    | slot =>
      exact .chain registered (.atexit i (.stored s.handlerCount)) running exiting
        (stack.atexit _ func) (filled.setSlot more func) began
        ⟨⟨inside, executed, more, reentered⟩, more⟩
  | incremented k =>
    exact .chain registered (.handler i) running exiting stack (filled.setSlot beyond func) began
      ⟨inside, executed, more, reentered⟩
  | stored k =>
    exact .chain registered (.handler i) running exiting stack filled began
      ⟨inside, executed, Nat.le_succ_of_le beyond, reentered⟩

/-- The next step of the `lc_exit` that runs the chain. -/
theorem phase_exit_during {pc : ExitPc} {code : Int} (filled : Filled s registered)
    (began : s.began = some ⟨registered, false⟩) (progress : Progress s registered (.exit pc)) :
    Phase (lcExit s pc code below) := by
  match pc, progress with
  | .snapshot, ⟨executed, count, reentered⟩ =>
    refine .chain registered (.exit (.loop s.handlerCount)) running exiting
      (.exit (by simp) code below) filled began ⟨count.le, ?_, count.ge, reentered⟩
    rw [count, called_length]
    exact executed
  | .loop 0, ⟨_, executed, _, _⟩ => exact .exited registered code 0 rfl began executed fun _ => rfl
  | .loop (i + 1), ⟨inside, executed, more, reentered⟩ =>
    have value : registered[i]? = some registered[i] := List.getElem?_eq_getElem inside
    simp only [lcExit, filled i _ value]
    refine .chain registered (.handler i) running exiting
      ((During.exit (by simp) code below).handler _) filled began
      ⟨Nat.le_of_lt inside, ?_, more, reentered⟩
    rw [← called_succ value, ← executed]

theorem Phase.step_chain {level : Level} (stack : During level s.stack)
    (filled : Filled s registered) (began : s.began = some ⟨registered, false⟩)
    (progress : Progress s registered level) (step : Step s s') : Phase s' := by
  cases step with
  | signal =>
    refine .chain registered level running exiting stack.signal filled began ?_
    exact progress
  | callAtexit top calls func =>
    have handler := stack
    rw [top] at handler
    cases handler with
    | handler =>
      exact .chain registered (.atexit _ .check) running exiting (stack.atexit .check func)
        filled began ⟨progress, trivial⟩
    | exit | atexit | again | signal => exact calls.elim
  | callExit top calls code =>
    have handler := stack
    rw [top] at handler
    cases handler with
    | handler =>
      exact .chain registered (.again _) running exiting (stack.again code) filled began
        ⟨progress.2.1, by simp [Frame.isHandler]⟩
    | exit | atexit | again | signal => exact calls.elim
  | handlerReturns top =>
    rw [top] at stack
    cases stack with
    | handler below => exact .chain registered _ running exiting below filled began progress
  | atexit top first =>
    rw [top] at stack
    cases stack with
    | atexit below => exact phase_atexit_during running exiting below filled began progress first
  | @exit pc code below top =>
    rw [top] at stack
    cases stack with
    | exit => exact phase_exit_during running exiting filled began progress
    | @again i =>
      -- The exchange fails.
      simp only [lcExit, atomicCompareExchange, exiting]
      refine .exited registered code i rfl began progress.1 fun none_ => ?_
      exact absurd (progress.2.symm.trans none_) (by decide)
  | shutdown top =>
    rw [top] at stack
    cases stack with
    | signal below =>
      rw [shutdownHandler_ignored exiting]
      exact .chain registered level running exiting below filled began progress

end

theorem phase_inductive : (system H).Inductive Phase where
  init s start := by
    subst start
    have filled : Filled (start H) [] := fun i f at_ => by cases at_
    exact .before none rfl rfl .program ⟨rfl, fun _ _ => rfl⟩ filled rfl rfl rfl
  step s s' h step := by
    obtain ⟨running, step⟩ := step
    cases h with
    | before call _ exiting stack booked filled began executed reentered =>
      exact .step_before running exiting stack booked filled began executed reentered step
    | torn registered pc _ exiting stack at_ count null began executed =>
      exact .step_torn running exiting stack at_ count null began executed step
    | chain registered level _ exiting stack filled began progress =>
      exact .step_chain running exiting stack filled began progress step
    | crashed _ status => cases running.symm.trans status
    | exited _ _ _ status => cases running.symm.trans status

/-! ### The handlers that are executed -/

theorem called_prefix (i : Nat) : called registered i <+: registered.zipIdx.reverse :=
  List.take_prefix ..

theorem nodup_of_prefix {executed : List (H × Nat)}
    (h : executed <+: registered.zipIdx.reverse) : (executed.map Prod.snd).Nodup := by
  refine List.Nodup.sublist (h.map Prod.snd).sublist ?_
  rw [List.map_reverse, List.nodup_reverse, List.zipIdx_map_snd]
  exact List.nodup_range'

theorem Phase.executed_prefix (h : Phase s) {b : Beginning H} (began : s.began = some b) :
    s.executed <+: b.registered.zipIdx.reverse := by
  cases h with
  | before _ _ _ _ _ _ none_ => cases none_.symm.trans began
  | torn _ _ _ _ _ _ _ _ _ executed =>
    rw [executed]
    exact List.nil_prefix
  | chain registered level _ _ _ _ same progress =>
    cases same.symm.trans began
    match level, progress with
    | .exit .snapshot, progress =>
      rw [progress.1]
      exact List.nil_prefix
    | .exit (.loop i), progress => exact progress.2.1 ▸ called_prefix i
    | .handler i, progress => exact progress.2.1 ▸ called_prefix i
    | .atexit i pc, progress => exact progress.1.2.1 ▸ called_prefix i
    | .again i, progress => exact progress.1 ▸ called_prefix i
  | crashed _ _ _ executed =>
    rw [executed]
    exact List.nil_prefix
  | exited registered _ i _ same executed =>
    cases same.symm.trans began
    exact executed ▸ called_prefix i

theorem Phase.executed_all_iff (h : Phase s) {b : Beginning H} (began : s.began = some b)
    (ended : s.status ≠ .running) (once : s.reentered = false) :
    s.executed = b.registered.zipIdx.reverse ↔ b.torn = false ∨ b.registered = [] := by
  cases h with
  | before _ running => exact absurd running ended
  | torn _ _ running | chain _ _ running => exact absurd running ended
  | crashed registered _ same executed =>
    cases same.symm.trans began
    rw [executed]
    simp
  | exited registered _ i _ same executed all =>
    cases same.symm.trans began
    rw [executed, all once, called_zero]
    simp

/-- Whatever is registered, whatever the handlers do and wherever signals come: no handler is
executed before an exit begins, no registration is executed twice, and the executed ones are
the latest of those registered when the exit began, newest first. If no handler exits, all
of them have been executed when the process ends exactly if the exit did not begin between
the two stores of an `lc_atexit` (or nothing was registered). -/
theorem exit_handlers_run_once_iff {s : State H} (run : (system H).Reachable s) :
    (s.began = none → s.executed = []) ∧ (s.executed.map Prod.snd).Nodup ∧
      ∀ b, s.began = some b →
        s.executed <+: b.registered.zipIdx.reverse ∧
        (s.status ≠ .running → s.reentered = false →
          (s.executed = b.registered.zipIdx.reverse ↔ b.torn = false ∨ b.registered = [])) := by
  have phase : Phase s := phase_inductive.reachable run
  have idle : s.began = none → s.executed = [] := by
    intro none_
    cases phase with
    | before _ _ _ _ _ _ _ executed => exact executed
    | torn _ _ _ _ _ _ _ _ began | chain _ _ _ _ _ _ began | crashed _ _ began
      | exited _ _ _ _ began => cases began.symm.trans none_
  refine ⟨idle, ?_, fun b began => ⟨phase.executed_prefix began, phase.executed_all_iff began⟩⟩
  cases began : s.began with
  | none =>
    rw [idle began]
    exact List.nodup_nil
  | some b => exact nodup_of_prefix (phase.executed_prefix began)

/-! ### Two processes -/

/-- A step to be taken. -/
inductive Event (H : Type)
  | signal
  | callAtexit (func : H)
  | callExit (code : Int)
  | handlerReturns
  /-- The next step of the library function in progress. -/
  | next (first : First)

def perform (s : State H) (event : Event H) : Option (State H) :=
  if s.status ≠ .running then none
  else
    match event, s.stack with
    | .signal, _ => some (s.push .shutdown)
    | .callAtexit func, .program :: _ => some (s.push (.atexit .check func))
    | .callAtexit func, .handler _ :: _ => some (s.push (.atexit .check func))
    | .callExit code, .program :: _ =>
      some { s.push (.exit .cas code) with reentered := s.reentered || false }
    | .callExit code, .handler _ :: _ =>
      some { s.push (.exit .cas code) with reentered := s.reentered || true }
    | .handlerReturns, .handler _ :: below => some { s with stack := below }
    | .next first, .atexit pc func :: below => some (lcAtexit s pc func below first)
    | .next _, .exit pc code :: below => some (lcExit s pc code below)
    | .next _, .shutdown :: below => some (shutdownHandler s below)
    | _, _ => none

theorem step_of_perform {event : Event H} (performed : perform s event = some s') :
    (system H).step s s' := by
  unfold perform at performed
  split at performed
  · cases performed
  · next running =>
    refine ⟨not_not.mp running, ?_⟩
    split at performed
    · exact Option.some.inj performed ▸ .signal
    · next at_ => exact Option.some.inj performed ▸ .callAtexit at_ trivial _
    · next at_ => exact Option.some.inj performed ▸ .callAtexit at_ trivial _
    · next at_ => exact Option.some.inj performed ▸ .callExit at_ trivial _
    · next at_ => exact Option.some.inj performed ▸ .callExit at_ trivial _
    · next at_ => exact Option.some.inj performed ▸ .handlerReturns at_
    · next at_ => exact Option.some.inj performed ▸ .atexit at_ _
    · next at_ => exact Option.some.inj performed ▸ .exit at_
    · next at_ => exact Option.some.inj performed ▸ .shutdown at_
    · cases performed

/-- The state after some steps, if they can be taken. -/
def follow (events : List (Event H)) : Option (State H) := events.foldlM perform (start H)

theorem reachable_of_follow {events : List (Event H)} (followed : follow events = some s) :
    (system H).Reachable s :=
  System.Reachable.foldlM (fun _ _ _ => step_of_perform) (.init rfl) followed

/-- A registration that is not interrupted. -/
def registration (func : H) : List (Event H) :=
  .callAtexit func :: List.replicate 3 (.next .count)

/-- Two handlers are registered, and a signal comes. While the first handler is executing,
another signal comes, and the handler registers a third one. -/
def interruptedExit : List (Event Nat) :=
  registration 1 ++ registration 2 ++ [.signal] ++ List.replicate 4 (.next .count) ++
    [.signal, .next .count] ++ registration 3 ++ [.handlerReturns, .next .count, .handlerReturns,
      .next .count]

theorem exit_handlers_run_once_iff_interrupted :
    ∃ s b, follow interruptedExit = some s ∧ s.began = some b ∧ s.status = .exited 0 ∧
      s.executed = b.registered.zipIdx.reverse ∧ s.executed = [(2, 1), (1, 0)] := by
  have followed := (Option.some_get (x := follow interruptedExit) (by decide +kernel)).symm
  have began : ((follow interruptedExit).get (by decide +kernel)).began =
      some ⟨[1, 2], false⟩ := by
    decide +kernel
  obtain ⟨-, -, main⟩ := exit_handlers_run_once_iff (reachable_of_follow followed)
  exact ⟨_, _, followed, began, by decide +kernel,
    ((main _ began).2 (by decide +kernel) (by decide +kernel)).mpr (.inl rfl), by decide +kernel⟩

/-- One handler is registered. During the registration of a second one a signal comes between
the store of the count and that of the slot. -/
def tornExit : List (Event Nat) :=
  registration 1 ++ [.callAtexit 2, .next .count, .next .count, .signal] ++
    List.replicate 4 (.next .count)

/-- The exit calls through the empty slot, and the registered handler is never executed. -/
theorem signal_inside_atexit_skips_handlers :
    ∃ s : State Nat, (system Nat).Reachable s ∧ s.status = .crashed ∧
      s.began = some ⟨[1], true⟩ ∧ s.executed = [] ∧ s.reentered = false := by
  have followed := (Option.some_get (x := follow tornExit) (by decide +kernel)).symm
  exact ⟨_, reachable_of_follow followed, by decide +kernel, by decide +kernel, by decide +kernel,
    by decide +kernel⟩

end Lightc.Lifecycle
