import Lightc.Lightio.Release

/-!
# The account of the slots

`active_count` is adjusted where a slot is taken, where it is rolled back for want of a
stack, and where the loop cleans up after a finished coroutine. Together with the marks of
the slots this leaves the books in order whenever the loop has control: the counter is the
number of slots in use, each of them has its stack and its stream its index, and nothing is
left of a coroutine that has switched back.

All this rests on handlers using their own streams. `lio_read`, `lio_write` and `lio_sleep`
suspend the coroutine that called them in the slot of the stream they are given.
-/

namespace Lightc.Lightio

open Machine Verification

/-- The slot is not `SLOT_FREE`. -/
@[simp] def Slot.inUse (slot : Slot) : Bool := decide (slot.state ≠ .free)

/-- A free slot has no stack; the stream of another one bears its index. -/
def Slot.Ordered (i : SlotIndex) (slot : Slot) : Prop :=
  (slot.state = .free → slot.stackBase = none) ∧ (slot.state ≠ .free → slot.streamSlot = (i : Nat))

theorem countOf_inUse_le (slots : SlotIndex → Slot) : countOf Slot.inUse slots ≤ 1024 :=
  (countOf_le Slot.inUse slots).trans_eq (Fintype.card_fin maxSlots)

namespace State

/-- The slot whose coroutine is executing. -/
def executor (s : State) : Option SlotIndex :=
  match s.pc with
  | .handler i _ => some i
  | .submit i _ _ => some i
  | .flush i _ _ => some i
  | .retry i _ _ => some i
  | _ => none

/-- The slot whose coroutine is executing or has just switched back. -/
def holder (s : State) : Option SlotIndex :=
  match s.pc with
  | .handler i _ => some i
  | .submit i _ _ => some i
  | .flush i _ _ => some i
  | .retry i _ _ => some i
  | .back i => some i
  | _ => none

/-- The loop has control, between two of its steps, or it is not running. -/
def Between (s : State) : Prop := s.holder = none ∧ s.pc ≠ .destroyed

/-- The counter, the marks of the slots and their streams. -/
structure Tallied (s : State) : Prop where
  active : s.activeCount = countOf Slot.inUse s.slots
  ordered : ∀ i, (s.slots i).Ordered i
  running : ∀ i, (s.slots i).state = .running → s.executor = some i
  finished : ∀ i, (s.slots i).state = .finished → s.pc = .back i

variable {mode : Mode} {s s' : State} {i : SlotIndex} {slot : Slot}

/-- A resumed call returns to its handler or submits once more. -/
theorem executor_continueCall (result : Int) (call : Call)
    (pc : s'.pc = s.continueCall i result call) : s'.executor = some i := by
  unfold executor
  unfold continueCall at pc
  cases call with
  | read | sleep => rw [pc]
  | write buf count written =>
    dsimp only at pc
    split at pc
    · rw [pc]
    · split at pc <;> rw [pc]

theorem tallied_create (timeoutBase : UInt64) : (create timeoutBase).Tallied :=
  ⟨(countOf_eq_zero.mpr fun _ => rfl).symm, fun _ => ⟨fun _ => rfl, fun used => absurd rfl used⟩,
    fun _ => nofun, fun _ => nofun⟩

namespace Tallied

variable (h : s.Tallied)
include h

/-- Nothing changes but the place in the code. -/
theorem moved (slots : s'.slots = s.slots) (active : s'.activeCount = s.activeCount)
    (executing : ∀ i, s.executor = some i → s'.executor = some i)
    (back : ∀ i, s.pc = .back i → (s.slots i).state = .finished → s'.pc = .back i) :
    s'.Tallied := by
  refine ⟨?_, ?_, fun i running => ?_, fun i finished => ?_⟩
  · rw [active, slots]
    exact h.active
  · rw [slots]
    exact h.ordered
  · rw [slots] at running
    exact executing i (h.running i running)
  · rw [slots] at finished
    exact back i (h.finished i finished) finished

/-- The kernel, or whoever owns the loop, leaves its place alone. -/
theorem stays (slots : s'.slots = s.slots) (active : s'.activeCount = s.activeCount)
    (pc : s'.pc = s.pc) : s'.Tallied := by
  refine h.moved slots active (fun i mine => ?_) fun i back _ => pc.trans back
  unfold executor at mine ⊢
  rwa [pc]

/-- While the loop has control, nobody is marked, so it may go anywhere. -/
theorem anywhere (loop : s.holder = none) (slots : s'.slots = s.slots)
    (active : s'.activeCount = s.activeCount) : s'.Tallied := by
  refine h.moved slots active (fun i mine => ?_) fun i back => ?_
  · unfold holder executor at *
    cases at_ : s.pc <;> simp_all
  · rw [holder, back] at loop
    cases loop

/-- One slot changes, while no other coroutine has control. -/
theorem update (slots : s'.slots = Function.update s.slots i slot)
    (active : s'.activeCount = countOf Slot.inUse s'.slots) (ordered : slot.Ordered i)
    (others : ∀ j, s.holder = some j → j = i)
    (running : slot.state = .running → s'.executor = some i)
    (finished : slot.state = .finished → s'.pc = .back i) : s'.Tallied := by
  have holds : ∀ j, s.executor = some j ∨ s.pc = .back j → j = i := by
    intro j mine
    apply others
    unfold holder
    cases at_ : s.pc <;> simp_all [executor]
  refine ⟨active, ?_, ?_, ?_⟩
  · rw [slots]
    exact (Function.forall_update_iff s.slots fun j slot => slot.Ordered j).mpr
      ⟨ordered, fun j _ => h.ordered j⟩
  · rw [slots]
    refine (Function.forall_update_iff s.slots fun j slot => slot.state = .running →
      s'.executor = some j).mpr ⟨running, fun j other marked => ?_⟩
    exact absurd (holds j (.inl (h.running j marked))) other
  · rw [slots]
    refine (Function.forall_update_iff s.slots fun j slot => slot.state = .finished →
      s'.pc = .back j).mpr ⟨finished, fun j other marked => ?_⟩
    exact absurd (holds j (.inr (h.finished j marked))) other

/-- A slot in use gets another mark. -/
theorem mark (slots : s'.slots = Function.update s.slots i slot)
    (active : s'.activeCount = s.activeCount) (before : (s.slots i).state ≠ .free)
    (after : slot.state ≠ .free) (index : slot.streamSlot = (s.slots i).streamSlot)
    (others : ∀ j, s.holder = some j → j = i)
    (running : slot.state = .running → s'.executor = some i)
    (finished : slot.state = .finished → s'.pc = .back i) : s'.Tallied := by
  refine h.update slots ?_ ⟨fun free => absurd free after, fun _ => ?_⟩ others running finished
  · rw [active, slots, countOf_update_same (by simp [before, after])]
    exact h.active
  · exact index.trans ((h.ordered i).2 before)

/-- A coroutine's finished slot is cleaned up. -/
theorem release (back : s.pc = .back i) (finished : (s.slots i).state = .finished) :
    (s.release i).Tallied := by
  have released : (s.release i).slots = Function.update s.slots i { s.slots i with
        state := .free
        fd := if 0 ≤ (s.slots i).fd then -1 else (s.slots i).fd
        stackBase := none } ∧
      (s.release i).activeCount = sub32 s.activeCount 1 := by
    unfold State.release
    split <;> split <;> exact ⟨rfl, rfl⟩
  have fewer := countOf_update_leave (P := Slot.inUse) (f := s.slots) (t := i)
    (a := { s.slots i with
      state := .free
      fd := if 0 ≤ (s.slots i).fd then -1 else (s.slots i).fd
      stackBase := none }) (by simp [finished]) (by simp)
  have few := countOf_inUse_le s.slots
  refine h.update released.1 ?_ ⟨fun _ => rfl, fun used => absurd rfl used⟩ (fun j mine => ?_)
    nofun nofun
  · rw [released.1, released.2, h.active, sub32]
    omega
  · rw [holder, back] at mine
    exact (Option.some.inj mine).symm

/-- A connection is set up, rolled back or turned away. -/
theorem takeIn (loop : s.holder = none) (result : Int) (stack : Option Nat)
    (slots : s'.slots = (s.takeIn result stack).slots)
    (active : s'.activeCount = (s.takeIn result stack).activeCount) : s'.Tallied := by
  have nobody : ∀ {i} j, s.holder = some j → j = i := by simp [loop]
  have few := countOf_inUse_le s.slots
  unfold State.takeIn at slots active
  split at slots
  · next valid =>
    rw [if_pos valid] at active
    cases found : s.findFree with
    | none =>
      simp only [found] at slots active
      exact h.anywhere loop slots active
    | some i =>
      have free : (s.slots i).state = .free := by
        simpa using List.find?_some found
      simp only [found] at slots active
      cases stack with
      | none =>
        simp only [initCoroutineForSlot, allocSlot, setSlot, closeFile, Function.update_self,
          if_pos valid, Function.update_idem] at slots active
        refine h.update slots ?_ ⟨fun _ => rfl, fun used => absurd rfl used⟩ nobody
          (by simp) (by simp)
        rw [active, slots, countOf_update_same (by simp [free]), h.active, add32, sub32]
        omega
      | some base =>
        simp only [initCoroutineForSlot, allocSlot, setSlot, Function.update_self,
          Function.update_idem] at slots active
        refine h.update slots ?_ ⟨by simp, fun _ => rfl⟩ nobody (by simp) (by simp)
        rw [active, slots, countOf_update_enter (by simp [free])
          (by simp), h.active, add32]
        omega
  · next invalid =>
    rw [if_neg invalid] at active
    exact h.anywhere loop slots active

/-! ### Every step -/

theorem resume (loop : s.holder = none) (ready : (s.slots i).state = .ready) :
    (s.resume i).Tallied := by
  obtain ⟨pc, place, eq⟩ := s.resume_eq i
  have executing : (s.resume i).executor = some i := by
    have at_ : (s.resume i).pc = pc := by rw [eq]
    rcases place with rfl | ⟨call, rfl⟩
    · rw [executor, at_]
    · exact executor_continueCall _ call at_
  rw [eq] at executing ⊢
  exact h.mark rfl rfl (by rw [ready]; decide) nofun rfl
    (fun j mine => absurd (loop.symm.trans mine) nofun) (fun _ => executing) fun no => nomatch no

/-- A coroutine tries to submit its request. It is suspended, or goes on elsewhere. -/
theorem attempt {request : Async.Submit} {call : Call} {pc : Pc} (held : s.executor = some i)
    (running : (s.slots i).state = .running) (elsewhere : executor { s with pc := pc } = some i)
    (step : (match s.submitAndSuspend i request call with
      | none => some { s with pc := pc }
      | some t => some t) = some s') : s'.Tallied := by
  cases submitted : s.submitAndSuspend i request call with
  | none =>
    simp only [submitted, Option.some.injEq] at step
    subst step
    refine h.moved rfl rfl (fun j mine => elsewhere.trans (held.symm.trans mine)) fun j back => ?_
    rw [executor, back] at held
    cases held
  | some t =>
    simp only [submitted, Option.some.injEq] at step
    subst step
    obtain ⟨u, attempt, rfl⟩ := Option.map_eq_some_iff.mp submitted
    obtain ⟨-, rfl⟩ := trySubmit_eq_some attempt
    refine h.mark rfl rfl (by rw [running]; decide) nofun rfl (fun j mine => ?_)
      nofun nofun
    unfold holder executor at *
    cases at_ : s.pc <;> simp_all

theorem processAccept (loop : s.holder = none) (rearm : Bool) (result : Int) (stack : Option Nat)
    (batch : List Completion) :
    Tallied { s.processAccept rearm result stack with pc := .process batch } := by
  have frame : (s.processAccept rearm result stack).slots = (s.takeIn result stack).slots ∧
      (s.processAccept rearm result stack).activeCount =
        (s.takeIn result stack).activeCount := by
    unfold State.processAccept
    dsimp only
    split
    · rcases submitAccept_cases { s.takeIn result stack with
          rearms := (s.takeIn result stack).rearms ++
            [⟨rearm, (s.takeIn result stack).queue.waiting⟩] } with ⟨-, same⟩ | ⟨-, same⟩
      all_goals
        rw [same]
        exact ⟨rfl, rfl⟩
    · exact ⟨rfl, rfl⟩
  exact h.takeIn loop result stack frame.1 frame.2

theorem processResult (loop : s.holder = none) (c : Completion) (batch : List Completion) :
    Tallied { s.processResult c with pc := .process batch } := by
  unfold State.processResult
  split
  · exact h.anywhere loop rfl rfl
  · split
    · next waiting =>
      exact h.mark rfl rfl (by rw [waiting]; decide) nofun rfl
        (fun j mine => absurd (loop.symm.trans mine) nofun) nofun nofun
    · exact h.anywhere loop rfl rfl

theorem advance {stack : Option Nat} (executing : s.Executing)
    (step : s.advance mode stack = some s') : s'.Tallied := by
  unfold State.advance at step
  unfold Executing at executing
  cases at_ : s.pc <;> rw [at_] at step executing <;> dsimp only at step executing
  case idle | handler | destroyed => cases step
  case top | wait =>
    cases step
    exact h.anywhere (by rw [holder, at_]) rfl rfl
  case scan =>
    split at step <;> cases step
    · exact h.anywhere (by rw [holder, at_]) rfl rfl
    · next found => exact h.resume (by rw [holder, at_]) (ready_of_nextReady found)
  case submit | retry => exact h.attempt (by rw [executor, at_]) executing.1 rfl step
  case flush =>
    cases step
    refine h.moved rfl rfl (fun j mine => ?_) fun j back => ?_
    · rw [executor, at_] at mine
      exact mine
    · cases at_.symm.trans back
  case back =>
    split at step <;> cases step
    · next finished => exact h.release at_ finished
    · next unfinished =>
      refine h.moved rfl rfl (fun j mine => ?_) fun j back finished => ?_
      · rw [executor, at_] at mine
        cases mine
      · cases at_.symm.trans back
        exact absurd finished unfinished
  case afterScan =>
    split at step
    all_goals
      cases step
      exact h.anywhere (by rw [holder, at_]) rfl rfl
  case process batch =>
    have loop : s.holder = none := by rw [holder, at_]
    cases batch with
    | nil =>
      cases step
      exact h.anywhere loop rfl rfl
    | cons c batch =>
      dsimp only at step
      split at step <;> cases step
      · exact h.processAccept loop _ _ _ _
      · exact h.processResult loop c batch

theorem handle {call : HandlerCall} (executing : s.Executing) (step : s.handle call = some s') :
    s'.Tallied := by
  unfold State.handle at step
  cases at_ : s.pc with
  | idle | top | scan | submit | flush | retry | back | afterScan | wait | process | destroyed =>
    simp [at_] at step
  | handler i value =>
    have own : ∀ j, s.holder = some j → j = i := by
      intro j mine
      rw [holder, at_] at mine
      exact (Option.some.inj mine).symm
    have goesOn : ∀ {t : State}, t.slots = s.slots → t.activeCount = s.activeCount →
        t.executor = some i → t.Tallied := by
      intro t slots active executor
      refine h.moved slots active (fun j mine => ?_) fun j back => ?_
      · rw [State.executor, at_] at mine
        exact executor.trans mine
      · cases at_.symm.trans back
    simp only [Executing, at_] at executing step
    have used : (s.slots i).state ≠ .free := by
      rw [executing]
      decide
    cases call with
    | read buf count =>
      cases step
      exact goesOn rfl rfl rfl
    | write buf count =>
      dsimp only at step
      split at step
      all_goals
        cases step
        exact goesOn rfl rfl rfl
    | sleep milliseconds =>
      cases step
      exact goesOn rfl rfl rfl
    | close =>
      cases step
      by_cases valid : 0 ≤ (s.slots i).streamFd
      · simp only [lioClose, if_pos valid]
        exact h.mark rfl rfl used used rfl own (fun _ => rfl) fun finished =>
          absurd (executing.symm.trans finished) (by decide)
      · simp only [lioClose, if_neg valid]
        exact goesOn rfl rfl rfl
    | finish =>
      cases step
      exact h.mark rfl rfl used (by simp) rfl own (by simp) fun _ => rfl

theorem perform {a : Action} (executing : s.Executing) (step : perform mode s a = some s') :
    s'.Tallied := by
  cases a <;> simp only [Lightio.perform, Option.ite_none_right_eq_some,
    Option.ite_none_left_eq_some, Option.some.injEq] at step
  case serve fd =>
    obtain ⟨-, rfl⟩ := step
    rcases submitAccept_cases { s with serverFd := fd, served := s.served + 1 } with
      ⟨-, same⟩ | ⟨-, same⟩
    all_goals
      rw [serve, same]
      exact h.stays rfl rfl rfl
  case run =>
    obtain ⟨idle, rfl⟩ := step
    exact h.anywhere (by rw [holder, idle]) rfl rfl
  case advance => exact h.advance executing step
  case handle => exact h.handle executing step
  case stop =>
    cases mode with
    | loop | worker =>
      cases step
      exact h.stays rfl rfl rfl
  case consume =>
    obtain ⟨⟨r, q⟩, -, rfl⟩ := Option.map_eq_some_iff.mp step.2
    exact h.stays rfl rfl rfl
  case complete =>
    obtain ⟨-, step⟩ := step
    unfold kernelComplete at step
    split at step
    · cases step
    · split at step
      · split at step <;> (cases step; exact h.stays rfl rfl rfl)
      · cases step
        exact h.stays rfl rfl rfl
  case destroy =>
    obtain ⟨⟨-, idle⟩, rfl⟩ := step
    exact h.anywhere (by rw [holder, idle]) rfl rfl

end Tallied

end State

theorem tallied_of_reachable {mode : Mode} {s : State} (reachable : (system mode).Reachable s) :
    s.Tallied := by
  refine System.Inductive.of_reachable (I := State.Tallied) ?_ ?_ s reachable
  · rintro s ⟨timeoutBase, rfl⟩
    exact State.tallied_create timeoutBase
  · rintro s s' reachable tallied ⟨a, -, step⟩
    exact tallied.perform (executing_of_reachable reachable) step

/-- Handlers do what they like with their own streams, connections come or fail to come, and
memory for their stacks may be missing. Whenever the loop has control between two steps, the
counter is the number of slots in use, no slot is marked as running or finished, the free
ones have no stack, and the others have one that is mapped and a stream that bears their
index. -/
theorem slots_accounted {mode : Mode} {s : State} (reachable : (system mode).Reachable s)
    (between : s.Between) :
    s.activeCount = countOf Slot.inUse s.slots ∧
      ∀ i, (s.slots i).state ≠ .running ∧ (s.slots i).state ≠ .finished ∧
        ((s.slots i).state = .free → (s.slots i).stackBase = none) ∧
        ((s.slots i).state ≠ .free →
          (∃ base, (s.slots i).stackBase = some base ∧ s.unmapped base < s.mapped base) ∧
            (s.slots i).streamSlot = (i : Nat)) := by
  have tallied := tallied_of_reachable reachable
  have owned : s.Owned :=
    (owned_of_reachable reachable).resolve_left fun destroyed => between.2 destroyed.2
  have loop := between.1
  refine ⟨tallied.active, fun i => ⟨fun running => ?_, fun finished => ?_,
    (tallied.ordered i).1, fun used => ⟨?_, ?_⟩⟩⟩
  · have executing := tallied.running i running
    unfold State.holder State.executor at *
    cases at_ : s.pc <;> simp_all
  · rw [State.holder, tallied.finished i finished] at loop
    cases loop
  · obtain ⟨base, stack⟩ := Option.ne_none_iff_exists'.mp (owned.memory.stack i used)
    refine ⟨base, stack, ?_⟩
    have here : countOf (Slot.runsOn base) s.slots ≠ 0 := by
      intro none_
      have no := countOf_eq_zero.mp none_ i
      simp [Slot.runsOn, used, stack] at no
    have balance := owned.memory.balance base
    omega
  · exact (tallied.ordered i).2 used

/-- A connection is accepted and its handler reads from it. -/
def firstReads : List Action :=
  [.serve 3, .run, .advance none, .advance none, .advance none, .consume, .complete 0 5,
    .advance none, .advance (some 4096), .advance none, .advance none, .advance none,
    .handle (.read 8192 16), .advance none, .advance none, .advance none, .advance none]

theorem slots_accounted_waiting :
    ∃ s, (system .loop).Reachable s ∧ s.pc = .wait ∧ (s.slots ⟨0, by decide⟩).state = .waiting ∧
      s.activeCount = countOf Slot.inUse s.slots ∧
      (∃ base, (s.slots ⟨0, by decide⟩).stackBase = some base ∧ s.unmapped base < s.mapped base) ∧
      (s.slots ⟨0, by decide⟩).streamSlot = 0 := by
  have facts : ∃ s, (system .loop).Reachable s ∧ s.holder = none ∧ s.pc = .wait ∧
      (s.slots ⟨0, by decide⟩).state = .waiting :=
    exists_of_follow .loop firstReads (by decide +kernel)
  obtain ⟨s, reachable, loop, wait, waiting⟩ := facts
  obtain ⟨active, each⟩ := slots_accounted reachable ⟨loop, by rw [wait]; exact nofun⟩
  obtain ⟨stack, index⟩ := (each ⟨0, by decide⟩).2.2.2 (by rw [waiting]; exact nofun)
  exact ⟨_, reachable, wait, waiting, active, stack, index⟩

/-! ### Streams of others -/

/-- The executing handler calls `lio_read` on the stream of slot `k`, and its request is
queued at the first attempt. The tag, the slot that is marked as waiting and the context in
which the caller is saved are all found through the stream. -/
def State.lioReadOn (s : State) (k : SlotIndex) (buf : UInt64) (count : Nat) : Option State :=
  match s.pc with
  | .handler i _ =>
    (s.submitAndSuspend k (.read (.ofInt (s.slots k).streamFd) buf (.ofNat count)
      0xFFFFFFFFFFFFFFFF (State.slotTag k)) .read).map fun t => { t with pc := .back i }
  | _ => none

/-- On its own stream this is what a handler does with two steps. -/
theorem State.lioReadOn_own {mode : Mode} {s : State} {i : SlotIndex} {value : Int}
    (at_ : s.pc = .handler i value) (room : s.queue.waiting < ringSize) (buf : UInt64)
    (count : Nat) (stack : Option Nat) :
    s.lioReadOn i buf count = (s.handle (.read buf count)).bind (·.advance mode stack) := by
  simp only [State.lioReadOn, State.handle, at_, Option.bind_some]
  unfold State.advance
  simp [State.submitAndSuspend, State.trySubmit, room, State.suspend]

/-- A second connection is accepted and its handler started. -/
def secondStarts : List Action :=
  firstReads ++ [.consume, .complete 0 6, .advance none, .advance (some 69632), .advance none,
    .advance none, .advance none]

/-- The second handler reads from the stream of the first one. It is suspended in the slot
of the first, and its own slot stays marked as running. -/
theorem foreign_stream_left_running :
    ∃ s t u, (system .loop).Reachable s ∧ s.pc = .handler ⟨1, by decide⟩ 0 ∧
      s.lioReadOn ⟨0, by decide⟩ 12288 16 = some t ∧ t.advance .loop none = some u ∧ u.Between ∧
      (u.slots ⟨1, by decide⟩).state = .running := by
  have facts : ∃ s, (system .loop).Reachable s ∧ s.pc = .handler ⟨1, by decide⟩ 0 ∧
      ∃ t ∈ s.lioReadOn ⟨0, by decide⟩ 12288 16, ∃ u ∈ t.advance .loop none,
        (u.holder = none ∧ u.pc ≠ .destroyed) ∧ (u.slots ⟨1, by decide⟩).state = .running :=
    exists_of_follow .loop secondStarts (by decide +kernel)
  obtain ⟨s, reachable, started, t, suspended, u, back, between, running⟩ := facts
  exact ⟨s, t, u, reachable, started, suspended, back, between, running⟩

end Lightc.Lightio
