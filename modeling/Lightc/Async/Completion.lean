import Lightc.Async.Ring

/-!
# The completion side of the asynchronous I/O ring

The kernel stores a completion into the entry at `cq_tail` and then moves the tail over
it, unless the ring is full. The application copies completions out from `cq_head` on
and releases them all at once, when it stores the new head. Both counters are 32-bit
words in shared memory. A call of the application is again a sequence of accesses, and
the kernel may act between any two. `lc_async_wait` first runs `lc_async_flush` and
`io_uring_enter` on the submission side, which goes on beside this one.

The ghost fields record what was posted, copied and returned, how many entries the
moves of `cq_head` have released, and how many completions there were to return when a
call loaded `cq_tail`.
-/

namespace Lightc.Async.Completion

open Machine Verification Function

/-- `io_uring_cqe`. -/
structure Cqe where
  userData : UInt64
  res : Int32
  flags : UInt32
  deriving DecidableEq, Repr

/-- `lc_async_result`. -/
structure Result where
  tag : UInt64
  result : Int32
  deriving DecidableEq, Repr

/-- What a completion tells the application. -/
def Cqe.toResult (cqe : Cqe) : Result := ⟨cqe.userData, cqe.res⟩

/-- The next step of `lc_async_wait`, `lc_async_peek` or `reap_completions`. -/
inductive Place
  | idle
  | waiting (maxResults : UInt32)
  | loadHead (maxResults : UInt32)
  | loadTail (maxResults : UInt32) (head : Nat)
  | scan (maxResults : UInt32) (head tail count : Nat)
  | copyResult (maxResults : UInt32) (head tail count : Nat)
  | leave (count : Nat)
  deriving DecidableEq, Repr

structure State where
  /-- The submission side. -/
  sq : Async.State
  cqHead : Nat
  cqTail : Nat
  cqes : Nat → Cqe
  /-- What the kernel has stored behind the tail and not yet moved the tail over. -/
  stored : Option Cqe
  /-- The array the application passes to its calls. -/
  results : Nat → Result
  place : Place
  posted : List Cqe
  copied : List Result
  returned : List Result
  released : Nat
  /-- `max_results` of the latest call. -/
  asked : UInt32
  /-- Posted and not returned when the latest call loaded `cq_tail`. -/
  available : Nat

/-- What a step lets the caller see. -/
inductive Event
  | internal
  | submission (event : Async.Event)
  | reaped (count : Nat)
  deriving DecidableEq, Repr

/-- The next step of `reap_completions`. -/
def reapStep (c : Ring) (s : State) : Option (Event × State) :=
  match s.place with
  | .loadHead maxResults => some (.internal, { s with place := .loadTail maxResults s.cqHead })
  | .loadTail maxResults head =>
    some (.internal, { s with
      place := .scan maxResults head s.cqTail 0
      available := s.posted.length - s.returned.length })
  | .scan maxResults head tail count =>
    if head ≠ tail ∧ count < maxResults.toNat then
      some (.internal, { s with
        results := update s.results count
          { s.results count with tag := (s.cqes (head &&& c.mask)).userData }
        place := .copyResult maxResults head tail count })
    else
      some (.internal, { s with
        cqHead := head
        released := s.released + sub32 head s.cqHead
        place := .leave count })
  | .copyResult maxResults head tail count =>
    let copy := { s.results count with result := (s.cqes (head &&& c.mask)).res }
    some (.internal, { s with
      results := update s.results count copy
      copied := s.copied ++ [copy]
      place := .scan maxResults (add32 head 1) tail (add32 count 1) })
  | .leave count =>
    some (.reaped count, { s with
      returned := s.returned ++ (List.range count).map s.results
      place := .idle })
  | _ => none

/-- The steps of the submission side that fit the call in progress. -/
def fits : Place → Async.Action → Bool
  | _, .kernel => true
  | .idle, .call .wait => false
  | .idle, _ => true
  | .waiting _, .flush _ => true
  | _, _ => false

/-- A wait goes on when `io_uring_enter` has returned. -/
def Place.after : Place → Async.Event → Place
  | .waiting maxResults, .waited => .loadHead maxResults
  | place, _ => place

/-- Whose turn it is. -/
inductive Action
  | submission (action : Async.Action)
  | peek (maxResults : UInt32)
  | wait (maxResults : UInt32)
  | reap
  | post (cqe : Cqe)
  | publish
  deriving DecidableEq, Repr

/-- The kernel stores a completion if there is a free entry. -/
def kernelPost (c : Ring) (s : State) (cqe : Cqe) : Option State :=
  if s.stored = none ∧ sub32 s.cqTail s.cqHead ≠ c.entries then
    some { s with
      cqes := update s.cqes (s.cqTail &&& c.mask) cqe
      stored := some cqe }
  else none

def kernelPublish (s : State) : Option State :=
  s.stored.map fun cqe => { s with
    cqTail := add32 s.cqTail 1
    stored := none
    posted := s.posted ++ [cqe] }

/-- One step of the application or of the kernel, with the submission ring `r` and the
completion ring `c`. -/
def perform (r c : Ring) (s : State) : Action → Option (Event × State)
  | .submission action =>
    if fits s.place action then
      (Async.perform r s.sq action).map fun (event, sq) =>
        (.submission event, { s with sq := sq, place := s.place.after event })
    else none
  | .peek maxResults =>
    if s.place = .idle ∧ s.sq.pc = .idle then
      some (.internal, { s with place := .loadHead maxResults, asked := maxResults })
    else none
  | .wait maxResults =>
    if s.place = .idle then
      (Async.perform r s.sq (.call .wait)).map fun (_, sq) =>
        (.internal, { s with sq := sq, place := .waiting maxResults, asked := maxResults })
    else none
  | .reap => reapStep c s
  | .post cqe => (kernelPost c s cqe).map (.internal, ·)
  | .publish => (kernelPublish s).map (.internal, ·)

/-- Runs start from an empty ring with both counters at some 32-bit value. -/
def system (r c : Ring) (start : Nat) : System State where
  init s := (Async.system r).init s.sq ∧ start < 2 ^ 32 ∧ s.cqHead = start ∧ s.cqTail = start ∧
    s.stored = none ∧ s.place = .idle ∧ s.posted = [] ∧ s.copied = [] ∧ s.returned = [] ∧
    s.released = 0
  step s t := ∃ action event, perform r c s action = some (event, t)

end Lightc.Async.Completion
