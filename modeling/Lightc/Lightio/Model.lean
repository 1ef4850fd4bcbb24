import Lightc.Async.Ring
import Lightc.Machine.Signed
import Lightc.Verification.StagedQueue
import Mathlib.Data.List.FinRange

/-!
# The event loop and its connections

One thread runs the loop; every connection is a coroutine on one of the loop's
slots. A coroutine that waits for the kernel submits a request tagged with its
slot, marks the slot as waiting and switches back to the loop, which goes on with
its scan of the slots. Completions are reaped in batches of at most 64 and, one
after another, make a waiting slot ready or set up a new connection.

The submission ring is the staged queue that `lc_async_submit_*` and
`lc_async_flush` implement. The kernel consumes published requests and completes
consumed ones at any time and in any order; what `io_uring_enter` returns makes no
difference to the loop. Handlers are arbitrary but use only their own stream. A
`lio_worker_thread` runs the same loop with other conditions for stopping.

Requests are numbered, and a slot remembers the number its coroutine waits for.
These numbers, the counters of opened and closed descriptors and of mapped and
unmapped stacks, and the lists of posted and returned results are ghost data.
-/

namespace Lightc.Lightio

open Machine Verification Function
open Machine.Signed (toInt32)
open Async (Submit Sqe)

/-- `LIO_MAX_SLOTS`. -/
def maxSlots : Nat := 1024

/-- `LIO_RING_SIZE`. -/
def ringSize : Nat := 512

/-- The length of the loop's array of results. -/
def batchSize : Nat := 64

/-- `LIO_TAG_ACCEPT`. -/
def tagAccept : UInt64 := 0xFFFFFFFF

/-- `IORING_OP_TIMEOUT`. -/
def opTimeout : UInt8 := 11

/-- `IORING_OP_ACCEPT`. -/
def opAccept : UInt8 := 13

/-- `LC_ERR_AGAIN`. -/
def errAgain : Int := 11

abbrev SlotIndex := Fin maxSlots

inductive SlotState
  | free
  | ready
  | running
  | waiting
  | finished
  deriving DecidableEq, Repr

/-- The call in which a coroutine is suspended, with its local variables. -/
inductive Call
  | read
  | sleep
  | write (buf : UInt64) (count written : Nat)
  deriving DecidableEq, Repr

/-- `lio_slot`, with the slot and the descriptor of its `lio_stream`. In place of the saved
registers it has the suspended call, which is absent before the handler is entered. -/
structure Slot where
  state : SlotState
  fd : Int
  stackBase : Option Nat
  pendingResult : Int
  streamSlot : Int
  streamFd : Int
  suspended : Option Call
  awaiting : Option Nat
  deriving DecidableEq, Repr

/-- A submitted request and its number. -/
structure Request where
  id : Nat
  sqe : Sqe
  deriving DecidableEq, Repr

def Request.tag (r : Request) : UInt64 := r.sqe.userData

/-- `lc_async_result`, with the number of the request. -/
structure Completion where
  id : Nat
  tag : UInt64
  result : Int
  deriving DecidableEq, Repr

/-- What the call returns if its request could not be queued. -/
def Call.failure : Call → Int
  | .read => -errAgain
  | .sleep => 0
  | .write _ _ written => if 0 < written then toInt32 written else -errAgain

/-- The loop's next step, or the slot whose coroutine is executing. `submit`,
`flush` and `retry` are the stages of `lio_try_submit_*` and of `lio_sleep`;
`handler` has the value its last call returned; `back` is the loop after a switch
back from a coroutine. -/
inductive Pc
  | idle
  | top
  | scan (i : Nat)
  | handler (i : SlotIndex) (value : Int)
  | submit (i : SlotIndex) (request : Submit) (call : Call)
  | flush (i : SlotIndex) (request : Submit) (call : Call)
  | retry (i : SlotIndex) (request : Submit) (call : Call)
  | back (i : SlotIndex)
  | afterScan
  | wait
  | process (batch : List Completion)
  | destroyed
  deriving DecidableEq, Repr

/-- The loop when the completion of an accept was processed. -/
structure Rearm where
  running : Bool
  waiting : Nat
  deriving DecidableEq, Repr

structure State where
  slots : SlotIndex → Slot
  timeoutBase : UInt64
  timeoutSpecs : SlotIndex → Int × Int
  currentSlot : Int
  activeCount : Nat
  running : Bool
  stopFlag : Bool
  serverFd : Int
  queue : StagedQueue Request
  inFlight : List Request
  completions : List Completion
  pc : Pc
  nextId : Nat
  opened : Int → Nat
  closed : Int → Nat
  mapped : Nat → Nat
  unmapped : Nat → Nat
  posted : List (Nat × Int)
  returned : List (Nat × Int)
  served : Nat
  rearms : List Rearm

/-- `lio_loop_run`, or `lio_worker_thread`. -/
inductive Mode
  | loop
  | worker
  deriving DecidableEq, Repr

/-- `lio_loop_create`, with the address of `timeout_specs` in the new loop. -/
def State.create (timeoutBase : UInt64) : State where
  slots _ := ⟨.free, -1, none, 0, 0, 0, none, none⟩
  timeoutBase := timeoutBase
  timeoutSpecs _ := (0, 0)
  currentSlot := -1
  activeCount := 0
  running := false
  stopFlag := false
  serverFd := -1
  queue := .empty
  inFlight := []
  completions := []
  pc := .idle
  nextId := 0
  opened _ := 0
  closed _ := 0
  mapped _ := 0
  unmapped _ := 0
  posted := []
  returned := []
  served := 0
  rearms := []

namespace State

@[simp] def setSlot (s : State) (i : SlotIndex) (slot : Slot) : State :=
  { s with slots := update s.slots i slot }

def closeFile (s : State) (fd : Int) : State :=
  { s with closed := update s.closed fd (s.closed fd + 1) }

def unmapMemory (s : State) (base : Nat) : State :=
  { s with unmapped := update s.unmapped base (s.unmapped base + 1) }

/-! ### Submitting -/

/-- `lc_async_submit_*`: refused with `LC_ERR_AGAIN` if the ring is full. -/
def trySubmit (s : State) (request : Submit) : Option State :=
  if s.queue.waiting < ringSize then
    some { s with
      queue := s.queue.submit ⟨s.nextId, request.request⟩
      nextId := s.nextId + 1 }
  else none

/-- The accept request of the server, whose refusal goes unnoticed. -/
def submitAccept (s : State) : State :=
  (s.trySubmit (.raw opAccept (.ofInt s.serverFd) 0 0 0 0 tagAccept)).getD s

def slotTag (i : SlotIndex) : UInt64 := .ofNat i

/-- The request of one turn of the loop of `lio_write`. -/
def writeRequest (s : State) (i : SlotIndex) (buf : UInt64) (count written : Nat) : Submit :=
  .write (.ofInt (s.slots i).streamFd) (buf + .ofNat written) (.ofNat (count - written))
    0xFFFFFFFFFFFFFFFF (slotTag i)

/-- The coroutine marks its slot and switches back to the loop. -/
def suspend (s : State) (i : SlotIndex) (call : Call) (id : Nat) : State :=
  { s.setSlot i { s.slots i with
      state := .waiting
      suspended := some call
      awaiting := some id } with
    pc := .back i }

/-- A submission that suspends the coroutine if it succeeds. -/
def submitAndSuspend (s : State) (i : SlotIndex) (request : Submit) (call : Call) : Option State :=
  (s.trySubmit request).map fun t => t.suspend i call s.nextId

/-- Some memory was or was not found for a coroutine's stack. Without it the slot
is rolled back. -/
def initCoroutineForSlot (s : State) (i : SlotIndex) (stack : Option Nat) : State :=
  match stack with
  | none =>
    let t := if 0 ≤ (s.slots i).fd then s.closeFile (s.slots i).fd else s
    { t.setSlot i { s.slots i with
        state := .free
        fd := if 0 ≤ (s.slots i).fd then -1 else (s.slots i).fd
        stackBase := none } with
      activeCount := sub32 s.activeCount 1 }
  | some base =>
    { s.setSlot i { s.slots i with stackBase := some base, suspended := none } with
      mapped := update s.mapped base (s.mapped base + 1) }

/-- The search of `alloc_slot`. -/
def findFree (s : State) : Option SlotIndex :=
  (List.finRange maxSlots).find? fun i => (s.slots i).state = .free

/-- `alloc_slot`, for the slot it found. -/
def allocSlot (s : State) (i : SlotIndex) (fd : Int) : State :=
  { s.setSlot i { s.slots i with
      state := .ready
      fd := fd
      pendingResult := 0
      streamSlot := i
      streamFd := fd } with
    activeCount := add32 s.activeCount 1 }

/-! ### The loop -/

/-- What happens to a slot whose coroutine has finished. -/
def release (s : State) (i : SlotIndex) : State :=
  let t := if 0 ≤ (s.slots i).fd then s.closeFile (s.slots i).fd else s
  let u :=
    match (s.slots i).stackBase with
    | none => t
    | some base => t.unmapMemory base
  { u.setSlot i { s.slots i with
      state := .free
      fd := if 0 ≤ (s.slots i).fd then -1 else (s.slots i).fd
      stackBase := none } with
    activeCount := sub32 s.activeCount 1
    pc := .scan (i + 1) }

/-- The loop's scan from index `i` on. -/
def nextReady (s : State) (i : Nat) : Option SlotIndex :=
  (List.finRange maxSlots).find? fun j => i ≤ j ∧ (s.slots j).state = .ready

/-- Where a coroutine goes on when its call has got its result. -/
def continueCall (s : State) (i : SlotIndex) (result : Int) : Call → Pc
  | .read => .handler i result
  | .sleep => .handler i 0
  | .write buf count written =>
    if result ≤ 0 then .handler i result
    else
      let written := add32 written result.toNat
      if written < count then
        .submit i (s.writeRequest i buf count written) (.write buf count written)
      else .handler i (toInt32 written)

/-- The loop switches to the coroutine of a ready slot. -/
def resume (s : State) (i : SlotIndex) : State :=
  let slot := s.slots i
  let t := { s.setSlot i { slot with state := .running, suspended := none, awaiting := none } with
    currentSlot := i }
  match slot.suspended with
  | none => { t with pc := .handler i 0 }
  | some call =>
    { t with
      returned := t.returned ++ slot.awaiting.toList.map (·, slot.pendingResult)
      pc := s.continueCall i slot.pendingResult call }

/-- A connection is set up for an accepted descriptor, if there is a free slot. -/
def takeIn (s : State) (result : Int) (stack : Option Nat) : State :=
  if 0 ≤ result then
    match s.findFree with
    | some i => (s.allocSlot i result).initCoroutineForSlot i stack
    | none => s.closeFile result
  else s

/-- A completed accept. The next one is submitted unless the loop is to stop. -/
def processAccept (s : State) (rearm : Bool) (result : Int) (stack : Option Nat) : State :=
  let t := s.takeIn result stack
  let u := { t with rearms := t.rearms ++ [⟨rearm, t.queue.waiting⟩] }
  if rearm then u.submitAccept else u

/-- The slot a tag names: its low 32 bits, if they are in range. -/
def slotOfTag (tag : UInt64) : Option SlotIndex :=
  if h : tag.toNat % 2 ^ 32 < maxSlots then some ⟨tag.toNat % 2 ^ 32, h⟩ else none

/-- A completed read, write or sleep. -/
def processResult (s : State) (c : Completion) : State :=
  match slotOfTag c.tag with
  | none => s
  | some i =>
    if (s.slots i).state = .waiting then
      s.setSlot i { s.slots i with pendingResult := c.result, state := .ready }
    else s

/-- The condition of the `while` loop. -/
def continues (s : State) : Mode → Bool
  | .loop => s.running
  | .worker => s.running && !s.stopFlag

/-- The test after the scan. -/
def breaks (s : State) : Mode → Bool
  | .loop => !s.running
  | .worker => s.stopFlag

/-- The test before the next accept is submitted. -/
def goesOn (s : State) : Mode → Bool
  | .loop => s.running
  | .worker => !s.stopFlag

/-- Whether there is anything to wait for. A worker does not ask. -/
def hasWork (s : State) : Mode → Bool
  | .loop => decide (0 < s.activeCount) || decide (0 ≤ s.serverFd)
  | .worker => true

/-- `lc_async_flush`: what is staged is published. -/
def flush (s : State) : State := { s with queue := s.queue.publish }

/-- A worker leaves with its loop; otherwise `lio_loop_run` returns. -/
def exitPc : Mode → Pc
  | .loop => .idle
  | .worker => .destroyed

/-- The next step of the loop, or of a call by a coroutine. `stack` is what
`lc_kernel_map_memory` returns if the step calls it. -/
def advance (mode : Mode) (s : State) (stack : Option Nat) : Option State :=
  match s.pc with
  | .top => some { s with pc := if s.continues mode then .scan 0 else exitPc mode }
  | .scan i =>
    match s.nextReady i with
    | none => some { s with pc := .afterScan }
    | some j => some (s.resume j)
  | .submit i request call =>
    match s.submitAndSuspend i request call with
    | none => some { s with pc := .flush i request call }
    | some t => some t
  | .flush i request call => some { s.flush with pc := .retry i request call }
  | .retry i request call =>
    match s.submitAndSuspend i request call with
    | none => some { s with pc := .handler i call.failure }
    | some t => some t
  | .back i =>
    if (s.slots i).state = .finished then some (s.release i)
    else some { s with pc := .scan (i + 1) }
  | .afterScan =>
    if s.breaks mode then some { s with pc := exitPc mode }
    else some { s.flush with pc := if s.hasWork mode then .wait else exitPc mode }
  | .wait =>
    some { s.flush with
      completions := s.completions.drop batchSize
      pc := .process (s.completions.take batchSize) }
  | .process [] => some { s with pc := .top }
  | .process (c :: batch) =>
    if c.tag = tagAccept then
      some { s.processAccept (s.goesOn mode) c.result stack with pc := .process batch }
    else some { s.processResult c with pc := .process batch }
  | _ => none

/-! ### Handlers -/

end State

/-- What a handler may do with its stream. -/
inductive HandlerCall
  | read (buf : UInt64) (count : Nat)
  | write (buf : UInt64) (count : Nat)
  | sleep (milliseconds : Int)
  | close
  | finish
  deriving DecidableEq, Repr

namespace State

/-- `lio_close`. -/
def lioClose (s : State) (i : SlotIndex) : State :=
  if 0 ≤ (s.slots i).streamFd then
    (s.closeFile (s.slots i).streamFd).setSlot i { s.slots i with streamFd := -1, fd := -1 }
  else s

/-- The executing handler makes a call or returns to `connection_trampoline`. -/
def handle (s : State) (call : HandlerCall) : Option State :=
  match s.pc with
  | .handler i _ =>
    match call with
    | .read buf count =>
      some { s with
        pc := .submit i (.read (.ofInt (s.slots i).streamFd) buf (.ofNat count)
          0xFFFFFFFFFFFFFFFF (slotTag i)) .read }
    | .write buf count =>
      if 0 < count then
        some { s with
          pc := .submit i (s.writeRequest i buf count 0) (.write buf count 0) }
      else some { s with pc := .handler i 0 }
    | .sleep milliseconds =>
      some { s with
        timeoutSpecs := update s.timeoutSpecs i
          (milliseconds.tdiv 1000, milliseconds.tmod 1000 * 1000000)
        pc := .submit i
          (.raw opTimeout (-1) (s.timeoutBase + .ofNat (16 * i)) 1 0 0 (slotTag i)) .sleep }
    | .close => some { s.lioClose i with pc := .handler i 0 }
    | .finish =>
      some { s.setSlot i { s.slots i with state := .finished } with pc := .back i }
  | _ => none

/-! ### The kernel and the owner of the loop -/

def kernelConsume (s : State) : Option State :=
  s.queue.consume.map fun (r, q) => { s with queue := q, inFlight := s.inFlight ++ [r] }

/-- The kernel completes the consumed request at place `k`. A successful accept
opens a descriptor. -/
def kernelComplete (s : State) (k : Nat) (result : Int) : Option State :=
  match s.inFlight[k]? with
  | none => none
  | some r =>
    let t := { s with
      inFlight := s.inFlight.eraseIdx k
      completions := s.completions ++ [⟨r.id, r.tag, result⟩] }
    if r.sqe.opcode = opAccept then
      some (if 0 ≤ result then
        { t with opened := update s.opened result (s.opened result + 1) } else t)
    else some { t with posted := s.posted ++ [(r.id, result)] }

/-- The successful end of `lio_tcp_serve`, and of the start of a worker. -/
def serve (s : State) (fd : Int) : State :=
  { s with serverFd := fd, served := s.served + 1 }.submitAccept

/-- The stack of a slot in use is unmapped. -/
def unmapSlot (s : State) (unmapped : Nat → Nat) (i : SlotIndex) : Nat → Nat :=
  if (s.slots i).state ≠ .free then
    match (s.slots i).stackBase with
    | none => unmapped
    | some base => update unmapped base (unmapped base + 1)
  else unmapped

/-- `lio_loop_destroy`. The server's own descriptor is not one of the clients'. -/
def lioLoopDestroy (s : State) : State :=
  { s with
    unmapped := (List.finRange maxSlots).foldl s.unmapSlot s.unmapped
    pc := .destroyed }

end State

/-- Whose turn it is, and how the kernel answers. -/
inductive Action
  | serve (fd : Int)
  | run
  | advance (stack : Option Nat)
  | handle (call : HandlerCall)
  | stop
  | consume
  | complete (k : Nat) (result : Int)
  | destroy
  deriving DecidableEq, Repr

/-- One step of the loop, a handler, the kernel, or whoever owns or stops the
loop. -/
def perform (mode : Mode) (s : State) : Action → Option State
  | .serve fd => if s.pc = .idle ∧ 0 ≤ fd then some (s.serve fd) else none
  | .run => if s.pc = .idle then some { s with running := true, pc := .top } else none
  | .advance stack => s.advance mode stack
  | .handle call => s.handle call
  | .stop =>
    match mode with
    | .loop => some { s with running := false }
    | .worker => some { s with stopFlag := true }
  | .consume => if s.pc = .destroyed then none else s.kernelConsume
  | .complete k result => if s.pc = .destroyed then none else s.kernelComplete k result
  | .destroy =>
    if mode = .loop ∧ s.pc = .idle then some s.lioLoopDestroy else none

/-- The kernel hands out descriptors that are not open and memory that is not
mapped. -/
def KernelAllows (s : State) : Action → Prop
  | .advance (some base) => s.mapped base = s.unmapped base
  | .complete k result => 0 ≤ result → (∃ r, s.inFlight[k]? = some r ∧ r.sqe.opcode = opAccept) →
      s.opened result = s.closed result
  | _ => True

instance (s : State) : ∀ a, Decidable (KernelAllows s a)
  | .advance (some base) => inferInstanceAs (Decidable (s.mapped base = s.unmapped base))
  | .complete k result => inferInstanceAs (Decidable (0 ≤ result →
      (∃ r ∈ s.inFlight[k]?, r.sqe.opcode = opAccept) → s.opened result = s.closed result))
  | .serve _ | .run | .advance none | .handle _ | .stop | .consume | .destroy => .isTrue trivial

/-- Runs of a loop or a worker from its creation on. -/
def system (mode : Mode) : System State where
  init s := ∃ timeoutBase, s = .create timeoutBase
  step s s' := ∃ a, KernelAllows s a ∧ perform mode s a = some s'

/-- The state after some steps, if the kernel may take its part in them. -/
def follow (mode : Mode) (s : State) (schedule : List Action) : Option State :=
  schedule.foldlM (fun s a => if KernelAllows s a then perform mode s a else none) s

theorem reachable_of_follow {mode : Mode} {s t : State} {schedule : List Action}
    (run : (system mode).Reachable s) (followed : follow mode s schedule = some t) :
    (system mode).Reachable t := by
  refine run.foldlM (fun s a t step => ?_) followed
  obtain ⟨allowed, performed⟩ := Option.ite_none_right_eq_some.mp step
  exact ⟨a, allowed, performed⟩

/-- A schedule of a new loop, with a check of the state it leads to. -/
theorem exists_of_follow (mode : Mode) (schedule : List Action) {P : State → Prop}
    [DecidablePred P] (passes : (follow mode (.create 0) schedule).any (P ·) = true) :
    ∃ s, (system mode).Reachable s ∧ P s := by
  obtain ⟨s, followed, passed⟩ := (Option.any_eq_true _ _).mp passes
  exact ⟨s, reachable_of_follow (.init ⟨0, rfl⟩) followed, of_decide_eq_true passed⟩

end Lightc.Lightio
