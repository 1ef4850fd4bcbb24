import Lightc.Lightio.Model
import Mathlib.Data.List.Perm.Basic

/-!
# What one step of the event loop can do

Requests under way (staged, published or consumed) and completions under way
(posted or in the batch being processed) are kept as unordered collections: the
queue, the kernel and the reaping of batches only move them around. `Move` lists
what a step may do to them, to the slots, and to descriptors and stacks. The
results about whole runs examine these moves and not the code again.
-/

namespace Lightc.Lightio

open Machine Verification Function
open Async (Submit Sqe)

namespace State

/-- The completions of the batch being processed. -/
def batch (s : State) : List Completion :=
  match s.pc with
  | .process batch => batch
  | _ => []

/-- Requests staged, published or consumed by the kernel. -/
def requests (s : State) : List Request := s.queue.staged ++ s.queue.published ++ s.inFlight

/-- Completions posted by the kernel and not yet processed. -/
def results (s : State) : List Completion := s.completions ++ s.batch

/-- A request with its slot's tag that is no accept. -/
def Names (i : SlotIndex) (request : Submit) : Prop :=
  request.request.opcode ≠ opAccept ∧ request.request.userData = slotTag i

/-- The slot of the executing coroutine is marked so, and what it is about to
submit carries the slot's tag. -/
def Executing (s : State) : Prop :=
  match s.pc with
  | .handler i _ => (s.slots i).state = .running
  | .submit i request _ => (s.slots i).state = .running ∧ Names i request
  | .flush i request _ => (s.slots i).state = .running ∧ Names i request
  | .retry i request _ => (s.slots i).state = .running ∧ Names i request
  | _ => True

end State

/-- Nothing is closed, opened, mapped or unmapped. -/
structure SameResources (s s' : State) : Prop where
  opened : s'.opened = s.opened
  closed : s'.closed = s.closed
  mapped : s'.mapped = s.mapped
  unmapped : s'.unmapped = s.unmapped

/-- No result is posted or returned. -/
structure SameBooks (s s' : State) : Prop where
  posted : s'.posted = s.posted
  returned : s'.returned = s.returned

/-- No accept was processed and no server started. -/
structure SameServer (s s' : State) : Prop where
  rearms : s'.rearms = s.rearms
  served : s'.served = s.served

/-- A request was added to those under way. -/
structure Submitted (s s' : State) (sqe : Sqe) : Prop where
  room : s.queue.waiting < ringSize
  requests : s'.requests.Perm (⟨s.nextId, sqe⟩ :: s.requests)
  nextId : s'.nextId = s.nextId + 1

/-- No request was added or completed. -/
structure SameRequests (s s' : State) : Prop where
  requests : s'.requests.Perm s.requests
  nextId : s'.nextId = s.nextId

def acceptSqe (fd : Int) : Sqe := (Submit.raw opAccept (.ofInt fd) 0 0 0 0 tagAccept).request

/-- An accept is submitted, if there is room for it. -/
def Arms (s s' : State) : Prop :=
  (∃ fd, Submitted s s' (acceptSqe fd)) ∨ (ringSize ≤ s.queue.waiting ∧ SameRequests s s')

/-- What becomes of an accepted connection: it gets a free slot and a stack, or
is closed for want of either. -/
inductive Admission (s s' : State) (fd : Int) : Prop
  | failed (negative : fd < 0) (slots : s'.slots = s.slots) (resources : SameResources s s')
  | admitted {i : SlotIndex} {base : Nat} (valid : 0 ≤ fd) (free : (s.slots i).state = .free)
      (unused : s.mapped base = s.unmapped base)
      (slots : s'.slots = update s.slots i { s.slots i with
        state := .ready
        fd := fd
        stackBase := some base
        pendingResult := 0
        streamSlot := i
        streamFd := fd
        suspended := none })
      (opened : s'.opened = s.opened) (closed : s'.closed = s.closed)
      (mapped : s'.mapped = update s.mapped base (s.mapped base + 1))
      (unmapped : s'.unmapped = s.unmapped)
  | rolledBack {i : SlotIndex} (valid : 0 ≤ fd) (free : (s.slots i).state = .free)
      (slots : s'.slots = update s.slots i { s.slots i with
        state := .free
        fd := -1
        stackBase := none
        pendingResult := 0
        streamSlot := i
        streamFd := fd })
      (opened : s'.opened = s.opened)
      (closed : s'.closed = update s.closed fd (s.closed fd + 1))
      (mapped : s'.mapped = s.mapped) (unmapped : s'.unmapped = s.unmapped)
  | refused (valid : 0 ≤ fd) (slots : s'.slots = s.slots) (opened : s'.opened = s.opened)
      (closed : s'.closed = update s.closed fd (s.closed fd + 1))
      (mapped : s'.mapped = s.mapped) (unmapped : s'.unmapped = s.unmapped)

/-- What one step does, short of destroying the loop. -/
inductive Move (mode : Mode) (s s' : State) : Prop
  | shuffle (slots : s'.slots = s.slots) (requests : SameRequests s s')
      (results : s'.results.Perm s.results) (books : SameBooks s s')
      (resources : SameResources s s') (server : SameServer s s')
  | suspend {i : SlotIndex} {sqe : Sqe} (call : Call) (running : (s.slots i).state = .running)
      (opcode : sqe.opcode ≠ opAccept) (tag : sqe.userData = State.slotTag i)
      (slots : s'.slots = update s.slots i { s.slots i with
        state := .waiting
        suspended := some call
        awaiting := some s.nextId })
      (submitted : Submitted s s' sqe) (results : s'.results = s.results) (books : SameBooks s s')
      (resources : SameResources s s') (server : SameServer s s')
  | resume {i : SlotIndex} (ready : (s.slots i).state = .ready)
      (slots : s'.slots = update s.slots i { s.slots i with
        state := .running
        suspended := none
        awaiting := none })
      (requests : SameRequests s s') (results : s'.results = s.results)
      (posted : s'.posted = s.posted)
      (returned : s'.returned = s.returned ++
        (if (s.slots i).suspended = none then []
          else (s.slots i).awaiting.toList.map (·, (s.slots i).pendingResult)))
      (resources : SameResources s s') (server : SameServer s s')
  | finish {i : SlotIndex} (running : (s.slots i).state = .running)
      (slots : s'.slots = update s.slots i { s.slots i with state := .finished })
      (requests : SameRequests s s') (results : s'.results = s.results) (books : SameBooks s s')
      (resources : SameResources s s') (server : SameServer s s')
  | close {i : SlotIndex} (running : (s.slots i).state = .running)
      (valid : 0 ≤ (s.slots i).streamFd)
      (slots : s'.slots = update s.slots i { s.slots i with streamFd := -1, fd := -1 })
      (requests : SameRequests s s') (results : s'.results = s.results) (books : SameBooks s s')
      (opened : s'.opened = s.opened)
      (closed : s'.closed = update s.closed (s.slots i).streamFd
        (s.closed (s.slots i).streamFd + 1))
      (mapped : s'.mapped = s.mapped) (unmapped : s'.unmapped = s.unmapped)
      (server : SameServer s s')
  | release {i : SlotIndex} (finished : (s.slots i).state = .finished)
      (slots : s'.slots = update s.slots i { s.slots i with
        state := .free
        fd := if 0 ≤ (s.slots i).fd then -1 else (s.slots i).fd
        stackBase := none })
      (requests : SameRequests s s') (results : s'.results = s.results) (books : SameBooks s s')
      (opened : s'.opened = s.opened)
      (closed : s'.closed = if 0 ≤ (s.slots i).fd then
        update s.closed (s.slots i).fd (s.closed (s.slots i).fd + 1) else s.closed)
      (mapped : s'.mapped = s.mapped)
      (unmapped : s'.unmapped = match (s.slots i).stackBase with
        | none => s.unmapped
        | some base => update s.unmapped base (s.unmapped base + 1))
      (server : SameServer s s')
  | complete {r : Request} {result : Int}
      (fresh : 0 ≤ result → r.sqe.opcode = opAccept → s.opened result = s.closed result)
      (slots : s'.slots = s.slots) (requests : s.requests.Perm (r :: s'.requests))
      (nextId : s'.nextId = s.nextId)
      (results : s'.results.Perm (⟨r.id, r.tag, result⟩ :: s.results))
      (posted : s'.posted =
        if r.sqe.opcode = opAccept then s.posted else s.posted ++ [(r.id, result)])
      (returned : s'.returned = s.returned)
      (opened : s'.opened = if r.sqe.opcode = opAccept ∧ 0 ≤ result then
        update s.opened result (s.opened result + 1) else s.opened)
      (closed : s'.closed = s.closed)
      (mapped : s'.mapped = s.mapped) (unmapped : s'.unmapped = s.unmapped)
      (server : SameServer s s')
  | deliver {c : Completion} {i : SlotIndex} (tag : c.tag ≠ tagAccept)
      (named : State.slotOfTag c.tag = some i) (waiting : (s.slots i).state = .waiting)
      (slots : s'.slots = update s.slots i { s.slots i with
        pendingResult := c.result
        state := .ready })
      (requests : SameRequests s s') (results : s.results.Perm (c :: s'.results))
      (books : SameBooks s s') (resources : SameResources s s') (server : SameServer s s')
  | drop {c : Completion} (tag : c.tag ≠ tagAccept)
      (stray : ∀ i, State.slotOfTag c.tag = some i → (s.slots i).state ≠ .waiting)
      (slots : s'.slots = s.slots) (requests : SameRequests s s')
      (results : s.results.Perm (c :: s'.results)) (books : SameBooks s s')
      (resources : SameResources s s') (server : SameServer s s')
  | accept {c : Completion} (tag : c.tag = tagAccept)
      (results : s.results.Perm (c :: s'.results)) (admission : Admission s s' c.result)
      (books : SameBooks s s') (served : s'.served = s.served)
      (rearms : s'.rearms = s.rearms ++ [⟨s.goesOn mode, s.queue.waiting⟩])
      (next : if s.goesOn mode = true then Arms s s' else SameRequests s s')
  | serve (slots : s'.slots = s.slots) (results : s'.results = s.results) (books : SameBooks s s')
      (resources : SameResources s s') (rearms : s'.rearms = s.rearms)
      (served : s'.served = s.served + 1) (next : Arms s s')

variable {mode : Mode} {s s' : State}

/-! ### Requests and completions -/

theorem State.Executing.of_same (h : s.Executing) (slots : s'.slots = s.slots)
    (pc : s'.pc = s.pc) : s'.Executing := by
  unfold State.Executing at h ⊢
  rw [slots, pc]
  exact h

theorem submitted_of_queue {sqe : Sqe} (room : s.queue.waiting < ringSize)
    (queue : s'.queue = s.queue.submit ⟨s.nextId, sqe⟩) (inFlight : s'.inFlight = s.inFlight)
    (nextId : s'.nextId = s.nextId + 1) : Submitted s s' sqe := by
  refine ⟨room, ?_, nextId⟩
  unfold State.requests
  rw [queue, inFlight]
  simp only [StagedQueue.submit, List.append_assoc, List.singleton_append]
  exact List.perm_middle

theorem sameRequests_of_queue (queue : s'.queue = s.queue) (inFlight : s'.inFlight = s.inFlight)
    (nextId : s'.nextId = s.nextId) : SameRequests s s' := by
  refine ⟨?_, nextId⟩
  unfold State.requests
  rw [queue, inFlight]

theorem sameRequests_of_publish (queue : s'.queue = s.queue.publish)
    (inFlight : s'.inFlight = s.inFlight) (nextId : s'.nextId = s.nextId) :
    SameRequests s s' := by
  refine ⟨?_, nextId⟩
  unfold State.requests
  rw [queue, inFlight]
  simp only [StagedQueue.publish, List.nil_append]
  exact List.perm_append_comm.append_right _

/-- The loop moves on, perhaps after a flush, and nothing else happens. -/
theorem Move.movesOn (slots : s'.slots = s.slots) (requests : SameRequests s s')
    (completions : s'.completions = s.completions) (batch : s'.batch = s.batch)
    (books : SameBooks s s') (resources : SameResources s s') (server : SameServer s s') :
    Move mode s s' := by
  refine .shuffle slots requests ?_ books resources server
  unfold State.results
  rw [completions, batch]

/-- Only the place in the code changes. -/
theorem Move.ofPc {pc : Pc} (batch : State.batch { s with pc := pc } = s.batch) :
    Move mode s { s with pc := pc } :=
  .movesOn rfl ⟨.refl _, rfl⟩ rfl batch ⟨rfl, rfl⟩ ⟨rfl, rfl, rfl, rfl⟩ ⟨rfl, rfl⟩

theorem State.trySubmit_eq_some {request : Submit} {t : State}
    (submitted : s.trySubmit request = some t) :
    s.queue.waiting < ringSize ∧
      t = { s with
        queue := s.queue.submit ⟨s.nextId, request.request⟩
        nextId := s.nextId + 1 } := by
  unfold State.trySubmit at submitted
  split at submitted
  · rename_i room
    exact ⟨room, (Option.some.inj submitted).symm⟩
  · cases submitted

/-- `submitAccept` changes the queue only, if at all. -/
theorem State.submitAccept_cases (s : State) :
    (s.queue.waiting < ringSize ∧ s.submitAccept =
      { s with
        queue := s.queue.submit ⟨s.nextId, acceptSqe s.serverFd⟩
        nextId := s.nextId + 1 }) ∨
      (ringSize ≤ s.queue.waiting ∧ s.submitAccept = s) := by
  unfold State.submitAccept State.trySubmit
  split
  · next room => exact .inl ⟨room, rfl⟩
  · next room => exact .inr ⟨Nat.le_of_not_lt room, rfl⟩

/-! ### Steps of the loop -/

variable {i : SlotIndex} {result : Int} {stack : Option Nat} {c : Completion}
variable {batch : List Completion}

theorem Move.ofSubmit {request : Submit} {call : Call} (running : (s.slots i).state = .running)
    (names : State.Names i request) (batch : s.batch = [])
    (submitted : s.submitAndSuspend i request call = some s') :
    Move mode s s' ∧ s'.Executing := by
  unfold State.submitAndSuspend at submitted
  obtain ⟨t, attempt, rfl⟩ := Option.map_eq_some_iff.mp submitted
  obtain ⟨room, rfl⟩ := State.trySubmit_eq_some attempt
  refine ⟨.suspend call running names.1 names.2 rfl (submitted_of_queue room rfl rfl rfl) ?_
    ⟨rfl, rfl⟩ ⟨rfl, rfl, rfl, rfl⟩ ⟨rfl, rfl⟩, trivial⟩
  unfold State.results
  rw [batch]
  rfl

theorem names_write (i : SlotIndex) (s : State) (buf : UInt64) (count written : Nat) :
    State.Names i (s.writeRequest i buf count written) :=
  ⟨(by decide : Async.ioringOpWrite ≠ opAccept), rfl⟩

/-- Wherever a resumed call goes on, its coroutine is executing. -/
theorem executing_of_continueCall {call : Call} (running : (s'.slots i).state = .running)
    (pc : s'.pc = s.continueCall i result call) :
    s'.Executing ∧ s'.batch = [] := by
  unfold State.continueCall at pc
  unfold State.Executing State.batch
  cases call with
  | read | sleep =>
    rw [pc]
    exact ⟨running, rfl⟩
  | write buf count written =>
    dsimp only at pc
    split at pc
    · rw [pc]
      exact ⟨running, rfl⟩
    · split at pc
      · rw [pc]
        exact ⟨⟨running, names_write ..⟩, rfl⟩
      · rw [pc]
        exact ⟨running, rfl⟩

/-- What `resume` does, whether or not the coroutine was started before. -/
theorem State.resume_eq (s : State) (i : SlotIndex) :
    ∃ pc, (pc = .handler i 0 ∨
        ∃ call, pc = s.continueCall i (s.slots i).pendingResult call) ∧
      s.resume i = { s.setSlot i { s.slots i with
          state := .running
          suspended := none
          awaiting := none } with
        currentSlot := i
        returned := s.returned ++
          (if (s.slots i).suspended = none then []
            else (s.slots i).awaiting.toList.map (·, (s.slots i).pendingResult))
        pc := pc } := by
  unfold State.resume
  dsimp only
  split
  · rename_i suspended
    refine ⟨_, .inl rfl, ?_⟩
    rw [if_pos suspended, List.append_nil]
    rfl
  · rename_i call suspended
    refine ⟨_, .inr ⟨call, rfl⟩, ?_⟩
    rw [if_neg (by rw [suspended]; exact Option.some_ne_none _)]
    rfl

theorem Move.ofResume (ready : (s.slots i).state = .ready) (batch : s.batch = []) :
    Move mode s (s.resume i) ∧ (s.resume i).Executing := by
  obtain ⟨pc, place, eq⟩ := s.resume_eq i
  have running : ((s.resume i).slots i).state = .running := by
    rw [eq]
    simp
  have next : (s.resume i).Executing ∧ (s.resume i).batch = [] := by
    have at_ : (s.resume i).pc = pc := by rw [eq]
    rcases place with rfl | ⟨call, rfl⟩
    · unfold State.Executing State.batch
      rw [at_]
      exact ⟨running, rfl⟩
    · exact executing_of_continueCall running at_
  refine ⟨?_, next.1⟩
  have results : (s.resume i).results = s.results := by
    unfold State.results
    rw [next.2, batch, eq]
    rfl
  rw [eq] at results ⊢
  exact .resume ready rfl ⟨.refl _, rfl⟩ results rfl rfl ⟨rfl, rfl, rfl, rfl⟩ ⟨rfl, rfl⟩

theorem Move.ofRelease (finished : (s.slots i).state = .finished) (batch : s.batch = []) :
    Move mode s (s.release i) := by
  have results : (s.release i).results = s.results := by
    unfold State.results State.release
    cases (s.slots i).stackBase <;> split <;> rw [batch] <;> rfl
  refine .release (i := i) finished ?_ ⟨?_, ?_⟩ results ⟨?_, ?_⟩ ?_ ?_ ?_ ?_ ⟨?_, ?_⟩
  all_goals
    unfold State.release
    split <;> split <;> simp_all [State.closeFile, State.unmapMemory, State.requests]

theorem State.admission {s' : State}
    (unused : ∀ base, stack = some base → s.mapped base = s.unmapped base)
    (slots : s'.slots = (s.takeIn result stack).slots)
    (opened : s'.opened = (s.takeIn result stack).opened)
    (closed : s'.closed = (s.takeIn result stack).closed)
    (mapped : s'.mapped = (s.takeIn result stack).mapped)
    (unmapped : s'.unmapped = (s.takeIn result stack).unmapped) : Admission s s' result := by
  unfold State.takeIn at slots opened closed mapped unmapped
  by_cases valid : 0 ≤ result
  · simp only [if_pos valid] at slots opened closed mapped unmapped
    cases found : s.findFree with
    | none =>
      simp only [found] at slots opened closed mapped unmapped
      exact .refused valid slots opened closed mapped unmapped
    | some i =>
      simp only [found] at slots opened closed mapped unmapped
      have free : (s.slots i).state = .free := by
        simpa using List.find?_some found
      cases stack with
      | some base =>
        refine .admitted valid free (unused base rfl) ?_ opened closed mapped unmapped
        rw [slots]
        simp [State.initCoroutineForSlot, State.allocSlot]
      | none =>
        simp only [State.initCoroutineForSlot, State.allocSlot, State.setSlot, State.closeFile,
          update_self, if_pos valid] at slots opened closed mapped unmapped
        refine .rolledBack valid free ?_ opened closed mapped unmapped
        rw [slots]
        simp
  · simp only [if_neg valid] at slots opened closed mapped unmapped
    exact .failed (Int.lt_of_not_ge valid) slots ⟨opened, closed, mapped, unmapped⟩

/-- Setting up a connection leaves requests and completions alone. -/
theorem State.admit_frame (s : State) (result : Int) (stack : Option Nat) :
    (s.takeIn result stack).queue = s.queue ∧ (s.takeIn result stack).inFlight = s.inFlight ∧
      (s.takeIn result stack).nextId = s.nextId ∧
      (s.takeIn result stack).completions = s.completions ∧
      (s.takeIn result stack).posted = s.posted ∧ (s.takeIn result stack).returned = s.returned ∧
      (s.takeIn result stack).served = s.served ∧ (s.takeIn result stack).rearms = s.rearms := by
  unfold State.takeIn
  split
  · split
    · cases stack with
      | some base => exact ⟨rfl, rfl, rfl, rfl, rfl, rfl, rfl, rfl⟩
      | none =>
        simp only [State.initCoroutineForSlot]
        split <;> exact ⟨rfl, rfl, rfl, rfl, rfl, rfl, rfl, rfl⟩
    · exact ⟨rfl, rfl, rfl, rfl, rfl, rfl, rfl, rfl⟩
  · exact ⟨rfl, rfl, rfl, rfl, rfl, rfl, rfl, rfl⟩

theorem results_process (at_ : s.pc = .process (c :: batch))
    (completions : s'.completions = s.completions) (pc : s'.pc = .process batch) :
    s.results.Perm (c :: s'.results) := by
  unfold State.results State.batch
  rw [at_, pc, completions]
  exact List.perm_middle

theorem Move.ofAccept (at_ : s.pc = .process (c :: batch)) (tag : c.tag = tagAccept)
    (unused : ∀ base, stack = some base → s.mapped base = s.unmapped base) :
    Move mode s { s.processAccept (s.goesOn mode) c.result stack with pc := .process batch } := by
  obtain ⟨queue, inFlight, nextId, completions, posted, returned, served, rearms⟩ :=
    s.admit_frame c.result stack
  unfold State.processAccept
  generalize ht : s.takeIn c.result stack = t at *
  dsimp only
  have conclude : ∀ queue' nextId', let u := { t with
        queue := queue'
        nextId := nextId'
        rearms := t.rearms ++ [⟨s.goesOn mode, t.queue.waiting⟩]
        pc := .process batch }
      (if s.goesOn mode = true then Arms s u else SameRequests s u) → Move mode s u := by
    intro queue' nextId' u next
    refine .accept tag (results_process at_ completions rfl)
      (State.admission unused ?_ ?_ ?_ ?_ ?_) ⟨posted, returned⟩ served ?_ next
    · rw [ht]
    · rw [ht]
    · rw [ht]
    · rw [ht]
    · rw [ht]
    · simp [u, rearms, queue]
  by_cases goes : s.goesOn mode = true
  · rw [if_pos goes]
    rcases State.submitAccept_cases { t with
        rearms := t.rearms ++ [⟨s.goesOn mode, t.queue.waiting⟩] } with ⟨room, same⟩ | ⟨full, same⟩
    · rw [same]
      refine conclude _ _ ?_
      rw [if_pos goes]
      refine .inl ⟨t.serverFd, submitted_of_queue (queue ▸ room) ?_ inFlight ?_⟩
      · rw [queue, nextId]
      · rw [nextId]
    · rw [same]
      refine conclude _ _ ?_
      rw [if_pos goes]
      exact .inr ⟨queue ▸ full, sameRequests_of_queue queue inFlight nextId⟩
  · rw [if_neg goes]
    refine conclude _ _ ?_
    rw [if_neg goes]
    exact sameRequests_of_queue queue inFlight nextId

theorem Move.ofResult (at_ : s.pc = .process (c :: batch)) (tag : c.tag ≠ tagAccept) :
    Move mode s { s.processResult c with pc := .process batch } := by
  unfold State.processResult
  cases named : State.slotOfTag c.tag with
  | none =>
    exact .drop tag (fun i some_ => absurd (named.symm.trans some_) nofun) rfl ⟨.refl _, rfl⟩
      (results_process at_ rfl rfl) ⟨rfl, rfl⟩ ⟨rfl, rfl, rfl, rfl⟩ ⟨rfl, rfl⟩
  | some i =>
    dsimp only
    split
    · rename_i waiting
      exact .deliver tag named waiting rfl ⟨.refl _, rfl⟩ (results_process at_ rfl rfl)
        ⟨rfl, rfl⟩ ⟨rfl, rfl, rfl, rfl⟩ ⟨rfl, rfl⟩
    · rename_i other
      refine .drop tag (fun j some_ => ?_) rfl ⟨.refl _, rfl⟩
        (results_process at_ rfl rfl) ⟨rfl, rfl⟩ ⟨rfl, rfl, rfl, rfl⟩ ⟨rfl, rfl⟩
      cases named.symm.trans some_
      exact other

/-- A coroutine tries to submit its request. It is suspended, or goes on elsewhere. -/
theorem Move.ofAttempt {request : Submit} {call : Call} {pc : Pc}
    (running : (s.slots i).state = .running) (names : State.Names i request) (batch : s.batch = [])
    (step : (match s.submitAndSuspend i request call with
      | none => some { s with pc := pc }
      | some t => some t) = some s') (elsewhere : State.Executing { s with pc := pc })
    (same : State.batch { s with pc := pc } = []) : Move mode s s' ∧ s'.Executing := by
  split at step <;> cases step
  · exact ⟨.ofPc (same.trans batch.symm), elsewhere⟩
  · next attempt => exact Move.ofSubmit running names batch attempt

theorem State.ready_of_nextReady {k : Nat} (found : s.nextReady k = some i) :
    (s.slots i).state = .ready := by
  have test := List.find?_some found
  simp only [Bool.decide_and, Bool.and_eq_true, decide_eq_true_eq] at test
  exact test.2

theorem State.advance_move (executing : s.Executing)
    (unused : ∀ base, stack = some base → s.mapped base = s.unmapped base)
    (step : s.advance mode stack = some s') : Move mode s s' ∧ s'.Executing := by
  have batch : ∀ {pc : Pc}, s.pc = pc → s.batch = State.batch { s with pc := pc } := by
    rintro _ rfl
    rfl
  unfold State.advance at step
  unfold State.Executing at executing
  cases at_ : s.pc <;> rw [at_] at step executing <;> dsimp only at step executing
  case idle | handler | destroyed => cases step
  case top =>
    cases step
    cases more : s.continues mode with
    | true => exact ⟨.ofPc (batch at_).symm, trivial⟩
    | false => cases mode <;> exact ⟨.ofPc (batch at_).symm, trivial⟩
  case scan =>
    split at step <;> cases step
    · exact ⟨.ofPc (batch at_).symm, trivial⟩
    · next found => exact Move.ofResume (ready_of_nextReady found) (batch at_)
  case submit => exact Move.ofAttempt executing.1 executing.2 (batch at_) step executing rfl
  case flush =>
    cases step
    exact ⟨.movesOn rfl (sameRequests_of_publish rfl rfl rfl) rfl (batch at_).symm ⟨rfl, rfl⟩
      ⟨rfl, rfl, rfl, rfl⟩ ⟨rfl, rfl⟩, executing⟩
  case retry => exact Move.ofAttempt executing.1 executing.2 (batch at_) step executing.1 rfl
  case back =>
    split at step <;> cases step
    · next finished => exact ⟨.ofRelease finished (batch at_), trivial⟩
    · exact ⟨.ofPc (batch at_).symm, trivial⟩
  case afterScan =>
    split at step <;> cases step
    · cases mode <;> exact ⟨.ofPc (batch at_).symm, trivial⟩
    · have flushed : ∀ pc, State.batch { s.flush with pc := pc } = [] →
          Move mode s { s.flush with pc := pc } := fun pc none_ =>
        .movesOn rfl (sameRequests_of_publish rfl rfl rfl) rfl (none_.trans (batch at_).symm)
          ⟨rfl, rfl⟩ ⟨rfl, rfl, rfl, rfl⟩ ⟨rfl, rfl⟩
      cases work : s.hasWork mode with
      | true => exact ⟨flushed _ rfl, trivial⟩
      | false => cases mode <;> exact ⟨flushed _ rfl, trivial⟩
  case wait =>
    cases step
    refine ⟨.shuffle rfl (sameRequests_of_publish rfl rfl rfl) ?_ ⟨rfl, rfl⟩
      ⟨rfl, rfl, rfl, rfl⟩ ⟨rfl, rfl⟩, trivial⟩
    simp only [State.results, State.batch, at_, List.append_nil]
    refine List.perm_append_comm.trans (.of_eq ?_)
    exact List.take_append_drop _ _
  case process queue =>
    cases queue with
    | nil =>
      cases step
      exact ⟨.ofPc (batch at_).symm, trivial⟩
    | cons c rest =>
      dsimp only at step
      split at step <;> cases step
      · next tag => exact ⟨.ofAccept at_ tag unused, trivial⟩
      · next tag => exact ⟨.ofResult at_ tag, trivial⟩

/-! ### Steps of a handler -/

theorem State.handle_move {call : HandlerCall} (executing : s.Executing)
    (step : s.handle call = some s') : Move mode s s' ∧ s'.Executing := by
  unfold State.handle at step
  cases at_ : s.pc with
  | idle | top | scan | submit | flush | retry | back | afterScan | wait | process | destroyed =>
    simp [at_] at step
  | handler i value =>
    have batch : s.batch = [] := by simp [State.batch, at_]
    simp only [State.Executing, at_] at executing step
    cases call with
    | read buf count =>
      cases step
      exact ⟨.ofPc batch.symm, executing, (by decide : Async.ioringOpRead ≠ opAccept), rfl⟩
    | write buf count =>
      dsimp only at step
      split at step
      · cases step
        exact ⟨.ofPc batch.symm, executing, names_write ..⟩
      · cases step
        exact ⟨.ofPc batch.symm, executing⟩
    | sleep milliseconds =>
      cases step
      refine ⟨.movesOn rfl ⟨.refl _, rfl⟩ rfl batch.symm ⟨rfl, rfl⟩ ⟨rfl, rfl, rfl, rfl⟩
        ⟨rfl, rfl⟩, executing, (by decide : opTimeout ≠ opAccept), rfl⟩
    | close =>
      cases step
      by_cases valid : 0 ≤ (s.slots i).streamFd
      · simp only [State.lioClose, if_pos valid]
        refine ⟨.close executing valid rfl ⟨.refl _, rfl⟩ ?_ ⟨rfl, rfl⟩ rfl rfl rfl rfl
          ⟨rfl, rfl⟩, ?_⟩
        · unfold State.results
          rw [batch]
          rfl
        · simp [State.Executing, executing]
      · simp only [State.lioClose, if_neg valid]
        exact ⟨.ofPc batch.symm, executing⟩
    | finish =>
      cases step
      refine ⟨.finish executing rfl ⟨.refl _, rfl⟩ ?_ ⟨rfl, rfl⟩ ⟨rfl, rfl, rfl, rfl⟩
        ⟨rfl, rfl⟩, trivial⟩
      unfold State.results
      rw [batch]
      rfl

/-! ### Steps of the kernel and of the owner -/

theorem State.kernelConsume_move (step : s.kernelConsume = some s') :
    Move mode s s' ∧ s'.slots = s.slots ∧ s'.pc = s.pc := by
  obtain ⟨⟨r, q⟩, front, rfl⟩ := Option.map_eq_some_iff.mp step
  obtain ⟨rest, published, rfl⟩ := StagedQueue.consume_eq_some_iff.mp front
  refine ⟨.movesOn rfl ⟨?_, rfl⟩ rfl rfl ⟨rfl, rfl⟩ ⟨rfl, rfl, rfl, rfl⟩ ⟨rfl, rfl⟩, rfl, rfl⟩
  simp only [State.requests, published, List.append_assoc]
  refine List.Perm.append_left _ ?_
  simp only [List.cons_append, ← List.append_assoc]
  exact List.perm_append_singleton _ _

theorem State.kernelComplete_move {k : Nat}
    (fresh : 0 ≤ result → (∃ r, s.inFlight[k]? = some r ∧ r.sqe.opcode = opAccept) → s.opened
      result = s.closed result) (step : s.kernelComplete k result = some s') :
    Move mode s s' ∧ s'.slots = s.slots ∧ s'.pc = s.pc := by
  unfold State.kernelComplete at step
  cases consumed : s.inFlight[k]? with
  | none => simp [consumed] at step
  | some r =>
    have fresh : 0 ≤ result → r.sqe.opcode = opAccept → s.opened result = s.closed result :=
      fun valid accept => fresh valid ⟨r, consumed, accept⟩
    simp only [consumed] at step
    have removed : s.requests.Perm
        (r :: (s.queue.staged ++ s.queue.published ++ s.inFlight.eraseIdx k)) := by
      obtain ⟨inside, rfl⟩ := List.getElem?_eq_some_iff.mp consumed
      refine List.Perm.trans ?_ List.perm_middle
      exact (List.getElem_cons_eraseIdx_perm inside).symm.append_left _
    have added : (s.completions ++ [(⟨r.id, r.tag, result⟩ : Completion)] ++ s.batch).Perm
        (⟨r.id, r.tag, result⟩ :: s.results) := by
      rw [State.results, List.append_assoc, List.singleton_append]
      exact List.perm_middle
    by_cases accept : r.sqe.opcode = opAccept
    · simp only [if_pos accept] at step
      by_cases valid : 0 ≤ result
      · simp only [if_pos valid] at step
        cases step
        refine ⟨.complete fresh rfl removed rfl added ?_ rfl ?_ rfl rfl rfl ⟨rfl, rfl⟩, rfl, rfl⟩
        · rw [if_pos accept]
        · rw [if_pos ⟨accept, valid⟩]
      · simp only [if_neg valid] at step
        cases step
        refine ⟨.complete fresh rfl removed rfl added ?_ rfl ?_ rfl rfl rfl ⟨rfl, rfl⟩, rfl, rfl⟩
        · rw [if_pos accept]
        · rw [if_neg fun both => valid both.2]
    · simp only [if_neg accept] at step
      cases step
      refine ⟨.complete fresh rfl removed rfl added ?_ rfl ?_ rfl rfl rfl ⟨rfl, rfl⟩, rfl, rfl⟩
      · rw [if_neg accept]
      · rw [if_neg fun both => accept both.1]

theorem Move.ofServe (fd : Int) : Move mode s (s.serve fd) := by
  rcases State.submitAccept_cases { s with serverFd := fd, served := s.served + 1 } with
    ⟨room, same⟩ | ⟨full, same⟩
  · rw [State.serve, same]
    exact .serve rfl rfl ⟨rfl, rfl⟩ ⟨rfl, rfl, rfl, rfl⟩ rfl rfl
      (.inl ⟨fd, submitted_of_queue room rfl rfl rfl⟩)
  · rw [State.serve, same]
    exact .serve rfl rfl ⟨rfl, rfl⟩ ⟨rfl, rfl, rfl, rfl⟩ rfl rfl (.inr ⟨full, .refl _, rfl⟩)

@[simp] theorem State.serve_pc (fd : Int) : (s.serve fd).pc = s.pc := by
  rcases State.submitAccept_cases { s with serverFd := fd, served := s.served + 1 } with
    ⟨-, same⟩ | ⟨-, same⟩ <;> rw [State.serve, same]

/-- Every step is one of the moves, or destroys the loop; and the executing
coroutine's slot is always marked so. -/
theorem perform_move {a : Action} (executing : s.Executing) (allowed : KernelAllows s a)
    (step : perform mode s a = some s') :
    (Move mode s s' ∨ mode = .loop ∧ s.pc = .idle ∧ s' = s.lioLoopDestroy) ∧ s'.Executing := by
  cases a <;> simp only [perform, Option.ite_none_right_eq_some, Option.ite_none_left_eq_some,
    Option.some.injEq] at step
  case serve fd =>
    obtain ⟨⟨idle, -⟩, rfl⟩ := step
    refine ⟨.inl (.ofServe fd), ?_⟩
    unfold State.Executing
    rw [State.serve_pc, idle]
    trivial
  case run =>
    obtain ⟨idle, rfl⟩ := step
    refine ⟨.inl (.movesOn rfl ⟨.refl _, rfl⟩ rfl ?_ ⟨rfl, rfl⟩ ⟨rfl, rfl, rfl, rfl⟩ ⟨rfl, rfl⟩),
      trivial⟩
    simp [State.batch, idle]
  case advance stack =>
    refine (State.advance_move executing (fun base some_ => ?_) step).imp_left .inl
    subst some_
    exact allowed
  case handle => exact (State.handle_move executing step).imp_left .inl
  case stop =>
    cases mode with
    | loop | worker =>
      cases step
      exact ⟨.inl (.movesOn rfl ⟨.refl _, rfl⟩ rfl rfl ⟨rfl, rfl⟩ ⟨rfl, rfl, rfl, rfl⟩
        ⟨rfl, rfl⟩), executing.of_same rfl rfl⟩
  case consume =>
    obtain ⟨move, slots, pc⟩ := State.kernelConsume_move step.2
    exact ⟨.inl move, executing.of_same slots pc⟩
  case complete =>
    obtain ⟨move, slots, pc⟩ := State.kernelComplete_move allowed step.2
    exact ⟨.inl move, executing.of_same slots pc⟩
  case destroy =>
    obtain ⟨⟨loop, idle⟩, rfl⟩ := step
    exact ⟨.inr ⟨loop, idle, rfl⟩, trivial⟩

/-- Nothing but the flags changes once the loop is destroyed. -/
theorem destroyed_of_perform {a : Action} (destroyed : s.pc = .destroyed)
    (step : perform mode s a = some s') : s'.pc = .destroyed := by
  cases a with
  | serve | run | consume | complete | destroy => simp [perform, destroyed] at step
  | advance stack => simp [perform, State.advance, destroyed] at step
  | handle call => simp [perform, State.handle, destroyed] at step
  | stop =>
    cases mode with
    | loop | worker =>
      cases step
      exact destroyed

theorem executing_of_reachable (reachable : (system mode).Reachable s) : s.Executing := by
  have marked : (system mode).Inductive State.Executing := by
    refine ⟨?_, ?_⟩
    · rintro s ⟨timeoutBase, rfl⟩
      trivial
    · rintro s s' executing ⟨a, allowed, step⟩
      exact (perform_move executing allowed step).2
  exact marked.reachable reachable

/-- What every move preserves holds until the loop is destroyed. -/
theorem invariant_until_destroyed {I : State → Prop}
    (start : ∀ timeoutBase, I (.create timeoutBase))
    (moves : ∀ {s s'}, I s → Move mode s s' → I s') :
    ∀ {s}, (system mode).Reachable s → (mode = .loop ∧ s.pc = .destroyed) ∨ I s := by
  intro s reachable
  refine System.Inductive.of_reachable (I := fun s => (mode = .loop ∧ s.pc = .destroyed) ∨ I s)
    ?_ ?_ s reachable
  · rintro s ⟨timeoutBase, rfl⟩
    exact .inr (start timeoutBase)
  · rintro s s' reachable (⟨loop, destroyed⟩ | holds) ⟨a, allowed, step⟩
    · exact .inl ⟨loop, destroyed_of_perform destroyed step⟩
    · rcases (perform_move (executing_of_reachable reachable) allowed step).1 with
        move | ⟨loop, -, rfl⟩
      · exact .inr (moves holds move)
      · exact .inl ⟨loop, rfl⟩

/-- What every move and the destruction preserve holds always. -/
theorem invariant_of_moves {I : State → Prop} (start : ∀ timeoutBase, I (.create timeoutBase))
    (moves : ∀ {s s'}, I s → Move mode s s' → I s')
    (destroys : ∀ {s}, s.pc = .idle → I s → I s.lioLoopDestroy) :
    ∀ {s}, (system mode).Reachable s → I s := by
  intro s reachable
  refine System.Inductive.of_reachable (I := I) ?_ ?_ s reachable
  · rintro s ⟨timeoutBase, rfl⟩
    exact start timeoutBase
  · rintro s s' reachable holds ⟨a, allowed, step⟩
    rcases (perform_move (executing_of_reachable reachable) allowed step).1 with
      move | ⟨-, idle, rfl⟩
    · exact moves holds move
    · exact destroys idle holds

end Lightc.Lightio
