import Lightc.Machine.Word
import Lightc.Verification.Transition

/-!
# The submission side of the asynchronous I/O ring

`sq_head` and `sq_tail` are 32-bit counters in memory shared with the kernel. The
application fills entries behind the tail and counts them in `sq_pending`; only
`lc_async_flush` moves the tail over them. The kernel moves the head, whenever it
likes, over entries below the tail. A call of the application is a sequence of
accesses to shared memory and of system calls, each of them one step, so that the
kernel may act between any two.

What `io_uring_enter` returns is not tied to what the kernel consumed: it may be
a partial count, an interruption or an error. The ghost lists `submitted` and
`consumed` record the requests whose submission succeeded and the entries the
kernel has read out of the ring.
-/

namespace Lightc.Async

open Machine Verification Function

/-- `io_uring_sqe`. -/
structure Sqe where
  opcode : UInt8
  flags : UInt8
  ioprio : UInt16
  fd : Int32
  off : UInt64
  addr : UInt64
  len : UInt32
  rwFlags : UInt32
  userData : UInt64
  bufIndex : UInt16
  personality : UInt16
  spliceFdIn : Int32
  pad0 : UInt64
  pad1 : UInt64
  deriving DecidableEq, Repr

/-- An entry after `lc_bytes_fill(sqe, 0, sizeof(*sqe))`. -/
def Sqe.zero : Sqe := ⟨0, 0, 0, 0, 0, 0, 0, 0, 0, 0, 0, 0, 0, 0⟩

/-- `IORING_OP_READ`. -/
def ioringOpRead : UInt8 := 22

/-- `IORING_OP_WRITE`. -/
def ioringOpWrite : UInt8 := 23

/-- `LC_ERR_INTR`. -/
def errIntr : Int := 4

/-- The three ways to stage a request, with the arguments of the call. -/
inductive Submit
  | read (fd : Int32) (buf : UInt64) (count : UInt32) (offset tag : UInt64)
  | write (fd : Int32) (buf : UInt64) (count : UInt32) (offset tag : UInt64)
  | raw (opcode : UInt8) (fd : Int32) (addr : UInt64) (len : UInt32) (offset : UInt64)
      (opFlags : UInt32) (tag : UInt64)
  deriving DecidableEq, Repr

/-- The assignments of `submit_rw`. -/
def submitRw (opcode : UInt8) (fd : Int32) (addr : UInt64) (len : UInt32) (offset tag : UInt64)
    (sqe : Sqe) : Sqe :=
  { sqe with
    opcode := opcode
    fd := fd
    addr := addr
    len := len
    off := offset
    userData := tag }

/-- The assignments of `lc_async_submit_raw`, which also sets the flags. -/
def submitRaw (opcode : UInt8) (fd : Int32) (addr : UInt64) (len : UInt32) (offset : UInt64)
    (opFlags : UInt32) (tag : UInt64) (sqe : Sqe) : Sqe :=
  { sqe with
    opcode := opcode
    fd := fd
    addr := addr
    len := len
    off := offset
    rwFlags := opFlags
    userData := tag }

/-- What a call assigns to the entry it was given. -/
def Submit.fill : Submit → Sqe → Sqe
  | .read fd buf count offset tag => submitRw ioringOpRead fd buf count offset tag
  | .write fd buf count offset tag => submitRw ioringOpWrite fd buf count offset tag
  | .raw opcode fd addr len offset opFlags tag => submitRaw opcode fd addr len offset opFlags tag

/-- The request a call stands for: its arguments in an otherwise empty entry. -/
def Submit.request (call : Submit) : Sqe := call.fill .zero

/-- The entry count and mask the kernel reported, for a ring it set up. -/
structure Ring where
  entries : Nat
  mask : Nat
  exponent : Nat
  exponent_lt : exponent < 32
  entries_eq : entries = 2 ^ exponent
  mask_eq : mask = entries - 1

/-- The next step of the application. A flush made by `lc_async_wait` has
`wait` set. -/
inductive Pc
  | idle
  | submitTail (call : Submit)
  | submitHead (call : Submit) (tail : Nat)
  | submitZero (call : Submit) (tail index : Nat)
  | submitFill (call : Submit) (tail index : Nat)
  | submitArray (call : Submit) (tail index : Nat)
  | submitCount (call : Submit)
  | flushStart (wait : Bool)
  | flushTail (toSubmit : Nat) (wait : Bool)
  | flushClear (toSubmit : Nat) (wait : Bool)
  | flushEnter (toSubmit submitted : Nat) (wait : Bool)
  | waitEnter
  | freeTail
  | freeHead (tail : Nat)
  deriving DecidableEq, Repr

/-- The submission ring, the application's place and the ghost lists. -/
structure State where
  sqHead : Nat
  sqTail : Nat
  sqPending : Nat
  sqArray : Nat → Nat
  sqes : Nat → Sqe
  pc : Pc
  submitted : List Sqe
  consumed : List Sqe

/-- What a step lets the caller see. -/
inductive Event
  | internal
  | ok
  | again
  | flushed (submitted : Nat)
  | waited
  | free (slots : Nat)
  deriving DecidableEq, Repr

/-- The next step of the submission in progress. -/
def submitStep (r : Ring) (s : State) : Option (Event × State) :=
  match s.pc with
  | .submitTail call => some (.internal, { s with pc := .submitHead call s.sqTail })
  | .submitHead call tail =>
    if r.entries ≤ sub32 (add32 tail s.sqPending) s.sqHead then
      some (.again, { s with pc := .idle })
    else
      some (.internal,
        { s with pc := .submitZero call tail (add32 tail s.sqPending &&& r.mask) })
  | .submitZero call tail index =>
    some (.internal, { s with
      sqes := update s.sqes index .zero
      pc := .submitFill call tail index })
  | .submitFill call tail index =>
    some (.internal, { s with
      sqes := update s.sqes index (call.fill (s.sqes index))
      pc := .submitArray call tail index })
  | .submitArray call tail index =>
    some (.internal, { s with
      sqArray := update s.sqArray (add32 tail s.sqPending &&& r.mask) index
      pc := .submitCount call })
  | .submitCount call =>
    some (.ok, { s with
      sqPending := add32 s.sqPending 1
      submitted := s.submitted ++ [call.request]
      pc := .idle })
  | _ => none

/-- The flush returns to its caller. -/
def flushReturn (submitted : Nat) (wait : Bool) (s : State) : Event × State :=
  if wait then (.internal, { s with pc := .waitEnter })
  else (.flushed submitted, { s with pc := .idle })

/-- The next step of `lc_async_flush`, or of the wait after it. `ret` is what
`io_uring_enter` returns if the step calls it. -/
def flushStep (ret : Int) (s : State) : Option (Event × State) :=
  match s.pc with
  | .flushStart wait =>
    if s.sqPending = 0 then some (flushReturn 0 wait s)
    else some (.internal, { s with pc := .flushTail s.sqPending wait })
  | .flushTail toSubmit wait =>
    some (.internal, { s with
      sqTail := add32 s.sqTail toSubmit
      pc := .flushClear toSubmit wait })
  | .flushClear toSubmit wait =>
    some (.internal, { s with sqPending := 0, pc := .flushEnter toSubmit 0 wait })
  | .flushEnter toSubmit submitted wait =>
    if submitted < toSubmit then
      if ret = -errIntr then some (.internal, s)
      else if ret ≤ 0 then some (flushReturn submitted wait s)
      else some (.internal,
        { s with pc := .flushEnter toSubmit (add32 submitted (ret.toNat % 2 ^ 32)) wait })
    else some (flushReturn submitted wait s)
  | .waitEnter =>
    if ret = -errIntr then some (.internal, s)
    else some (.waited, { s with pc := .idle })
  | _ => none

/-- The next step of `lc_async_get_free_slots`. -/
def freeStep (r : Ring) (s : State) : Option (Event × State) :=
  match s.pc with
  | .freeTail => some (.internal, { s with pc := .freeHead s.sqTail })
  | .freeHead tail =>
    let used := add32 (sub32 tail s.sqHead) s.sqPending
    if r.entries ≤ used then some (.free 0, { s with pc := .idle })
    else some (.free (sub32 r.entries used), { s with pc := .idle })
  | _ => none

/-- The entry the kernel would consume `k` entries from now. -/
def Ring.entry (r : Ring) (s : State) (k : Nat) : Nat :=
  s.sqArray (add32 s.sqHead k &&& r.mask)

/-- The kernel consumes the published entry at the head. -/
def kernelConsume (r : Ring) (s : State) : Option State :=
  if s.sqHead = s.sqTail then none
  else some { s with
    sqHead := add32 s.sqHead 1
    consumed := s.consumed ++ [s.sqes (r.entry s 0)] }

/-- The calls the application may make. -/
inductive Call
  | submit (call : Submit)
  | flush
  | wait
  | getFreeSlots
  deriving DecidableEq, Repr

def Call.entry : Call → Pc
  | .submit call => .submitTail call
  | .flush => .flushStart false
  | .wait => .flushStart true
  | .getFreeSlots => .freeTail

/-- Whose turn it is. `ret` is the result of `io_uring_enter` if the step makes
that call. -/
inductive Action
  | call (call : Call)
  | submit
  | flush (ret : Int)
  | free
  | kernel
  deriving DecidableEq, Repr

/-- One step of the application or of the kernel. -/
def perform (r : Ring) (s : State) : Action → Option (Event × State)
  | .call call => if s.pc = .idle then some (.internal, { s with pc := call.entry }) else none
  | .submit => submitStep r s
  | .flush ret => flushStep ret s
  | .free => freeStep r s
  | .kernel => (kernelConsume r s).map (.internal, ·)

/-- Runs start from an empty ring with both counters at any 32-bit value. -/
def system (r : Ring) : System State where
  init s := s.sqHead = s.sqTail ∧ s.sqHead < 2 ^ 32 ∧ s.sqPending = 0 ∧ s.pc = .idle ∧
    s.submitted = [] ∧ s.consumed = []
  step s s' := ∃ action event, perform r s action = some (event, s')

/-- A ring as the kernel hands it over, with the counters at `counter`. -/
def State.fresh (counter : Nat) : State :=
  ⟨counter, counter, 0, id, fun _ => .zero, .idle, [], []⟩

theorem reachable_fresh (r : Ring) {counter : Nat} (word : counter < 2 ^ 32) :
    (system r).Reachable (.fresh counter) :=
  .init ⟨rfl, word, rfl, rfl, rfl, rfl⟩

/-- The state after a given schedule. -/
def follow (r : Ring) (s : State) (schedule : List Action) : Option State :=
  schedule.foldlM (fun s action => (perform r s action).map (·.2)) s

theorem reachable_of_follow {r : Ring} {s t : State} {schedule : List Action}
    (run : (system r).Reachable s) (followed : follow r s schedule = some t) :
    (system r).Reachable t := by
  refine run.foldlM (fun s action t performed => ?_) followed
  obtain ⟨⟨event, u⟩, ran, rfl⟩ := Option.map_eq_some_iff.mp performed
  exact ⟨action, event, ran⟩

/-- The turns of a whole submission. -/
def Submit.actions (call : Submit) : List Action := .call (.submit call) :: .replicate 6 .submit

/-! ### Runs of the application alone -/

/-- The submission in progress runs for at most `fuel` steps, until it returns. -/
def finishSubmit (r : Ring) : Nat → State → Event × State
  | 0, s => (.internal, s)
  | fuel + 1, s =>
    match submitStep r s with
    | none => (.internal, s)
    | some (.internal, s') => finishSubmit r fuel s'
    | some (event, s') => (event, s')

/-- A whole submission while the kernel does nothing. It has six steps. -/
def submitAlone (r : Ring) (s : State) (call : Submit) : Event × State :=
  finishSubmit r 6 { s with pc := .submitTail call }

/-- How many of some submissions succeed while the kernel does nothing. -/
def successes (r : Ring) : State → List Submit → Nat
  | _, [] => 0
  | s, call :: calls =>
    let (event, s') := submitAlone r s call
    (if event = .ok then 1 else 0) + successes r s' calls

end Lightc.Async
