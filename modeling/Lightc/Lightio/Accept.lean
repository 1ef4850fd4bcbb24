import Lightc.Lightio.Delivery

/-!
# The server's accept

One accept request circulates. It is submitted when the server starts, completed
by the kernel, and submitted again when its completion is processed. Its second
submission and all later ones ignore the answer of the ring. Reads, writes and
sleeps flush the ring and try once more if it is full, and report the failure; the
accept is then just gone, and nobody submits another.
-/

namespace Lightc.Lightio

open Machine Verification Function
open Async (Submit Sqe)

/-- The accepts under way. -/
def armedIn (requests : List Request) (results : List Completion) : Nat :=
  requests.countP (fun r => r.sqe.opcode = opAccept) + results.countP (fun c => c.tag = tagAccept)

/-- The accepts that are staged, published, consumed by the kernel or completed. -/
def State.armed (s : State) : Nat := armedIn s.requests s.results

/-- When the completion was processed, the loop was running and the ring had room. -/
def Rearm.Submits (a : Rearm) : Prop := a.running = true ∧ a.waiting < ringSize

instance (a : Rearm) : Decidable a.Submits := inferInstanceAs (Decidable (_ ∧ _))

/-- Before the server is started nothing happens. -/
structure Unused (s : State) : Prop where
  slots : ∀ i, (s.slots i).state = .free
  requests : s.requests = []
  results : s.results = []
  rearms : s.rearms = []

/-- The accept is under way, or was lost when a completion was processed. -/
structure State.Arming (s : State) : Prop where
  before : s.served = 0 → Unused s
  after : s.served = 1 → s.armed = if ∀ a ∈ s.rearms, a.Submits then 1 else 0

variable {mode : Mode} {s s' : State} {requests requests' : List Request}
variable {results results' : List Completion}

theorem armedIn_perm (requests_ : requests'.Perm requests) (results_ : results'.Perm results) :
    armedIn requests' results' = armedIn requests results := by
  unfold armedIn
  rw [requests_.countP_eq, results_.countP_eq]

@[simp] theorem armedIn_cons_request (r : Request) :
    armedIn (r :: requests) results =
      armedIn requests results + (decide (r.sqe.opcode = opAccept)).toNat := by
  unfold armedIn
  by_cases accept : r.sqe.opcode = opAccept
  · simp [accept, Nat.add_right_comm]
  · simp [accept]

@[simp] theorem armedIn_cons_result (c : Completion) :
    armedIn requests (c :: results) =
      armedIn requests results + (decide (c.tag = tagAccept)).toNat := by
  unfold armedIn
  by_cases accept : c.tag = tagAccept
  · simp [accept, Nat.add_assoc]
  · simp [accept]

/-- Nothing but the start of the server and the processing of an accept matters. -/
theorem State.Arming.same (h : s.Arming) (server : SameServer s s')
    (unused : Unused s → Unused s') (armed : s'.armed = s.armed) : s'.Arming := by
  refine ⟨fun served => ?_, fun served => ?_⟩
  · rw [server.served] at served
    exact unused (h.before served)
  · rw [server.served] at served
    rw [armed, server.rearms]
    exact h.after served

theorem State.armed_eq_of_same (requests : SameRequests s s')
    (results : s'.results.Perm s.results) :
    s'.armed = s.armed := armedIn_perm requests.requests results

variable {i : SlotIndex} {c : Completion} {n : Nat}

/-- A step of a slot in use. -/
theorem State.Arming.ofUsed (h : s.Arming) (server : SameServer s s')
    (used : (s.slots i).state ≠ .free) (armed : s'.armed = s.armed) : s'.Arming :=
  h.same server (fun unused => absurd (unused.slots i) used) armed

/-- The processing of an accept, of which there is one and which is lost unless
the ring takes it again. -/
theorem State.Arming.processed (h : s.Arming) (tag : c.tag = tagAccept)
    (results : s.results.Perm (c :: s'.results)) (served : s'.served = s.served)
    (rearms : s'.rearms = s.rearms ++ [⟨s.goesOn mode, s.queue.waiting⟩])
    (next : if s.goesOn mode = true then Arms s s' else SameRequests s s') : s'.Arming := by
  have gone : s.armed = armedIn s.requests s'.results + 1 := by
    rw [State.armed, armedIn_perm (.refl _) results, armedIn_cons_result]
    simp [tag]
  refine ⟨fun none_ => ?_, fun one => ?_⟩
  · have unused := h.before (served.symm.trans none_)
    rw [unused.results] at results
    exact absurd results.symm.eq_nil (List.cons_ne_nil _ _)
  · have before := h.after (served.symm.trans one)
    split at before
    · next all =>
      have none_ : armedIn s.requests s'.results = 0 := by omega
      have last : (∀ a ∈ s'.rearms, a.Submits) ↔
          s.goesOn mode = true ∧ s.queue.waiting < ringSize := by
        rw [rearms]
        constructor
        · intro every
          exact every _ (List.mem_append_right _ List.mem_cons_self)
        · intro good a member
          rcases List.mem_append.mp member with old | new
          · exact all a old
          · cases List.mem_singleton.mp new
            exact good
      simp only [last]
      split at next
      · rename_i goes
        rcases next with ⟨fd, submitted⟩ | ⟨full, same⟩
        · rw [if_pos ⟨goes, submitted.room⟩, State.armed,
            armedIn_perm submitted.requests (.refl _), armedIn_cons_request, none_]
          rfl
        · rw [if_neg fun good => absurd good.2 (Nat.not_lt.mpr full), State.armed,
            armedIn_perm same.requests (.refl _), none_]
      · rename_i stops
        rw [if_neg fun good => stops good.1, State.armed, armedIn_perm next.requests (.refl _),
          none_]
    · next all => omega

theorem State.Arming.move (h : s.Arming) (delivering : s.Delivering) (move : Move mode s s') :
    s'.Arming := by
  cases move with
  | shuffle slots requests results _ _ server =>
    refine h.same server (fun unused => ⟨?_, ?_, ?_, ?_⟩)
      (State.armed_eq_of_same requests results)
    · rw [slots]
      exact unused.slots
    · exact (unused.requests ▸ requests.requests).eq_nil
    · exact (unused.results ▸ results).eq_nil
    · rw [server.rearms]
      exact unused.rearms
  | suspend _ running opcode _ _ submitted results _ _ server =>
    refine h.ofUsed server (by rw [running]; decide) ?_
    rw [State.armed, results, armedIn_perm submitted.requests (.refl _), armedIn_cons_request]
    simp [opcode, State.armed]
  | resume before _ requests results _ _ _ server | finish before _ requests results _ _ server
  | close before _ _ requests results _ _ _ _ _ server
  | release before _ requests results _ _ _ _ _ server =>
    exact h.ofUsed server (by rw [before]; decide)
      (State.armed_eq_of_same requests (.of_eq results))
  | @complete r result _ _ requests _ results _ _ _ _ _ _ server =>
    refine h.same server (fun unused => ?_) ?_
    · rw [unused.requests] at requests
      exact absurd requests.symm.eq_nil (List.cons_ne_nil _ _)
    · have accept : r.sqe.opcode = opAccept ↔ r.tag = tagAccept :=
        delivering.accept_iff (requests.mem_iff.mpr List.mem_cons_self)
      rw [State.armed, State.armed, armedIn_perm (.refl _) results, armedIn_cons_result,
        armedIn_perm requests (.refl _), armedIn_cons_request]
      simp [accept]
  | deliver tag _ waiting _ requests results _ _ server =>
    refine h.ofUsed server (by rw [waiting]; decide) ?_
    rw [State.armed, State.armed, armedIn_perm (.refl _) results, armedIn_cons_result,
      armedIn_perm requests.requests (.refl _)]
    simp [tag]
  | drop tag _ _ requests results _ _ server =>
    refine h.same server (fun unused => ?_) ?_
    · rw [unused.results] at results
      exact absurd results.symm.eq_nil (List.cons_ne_nil _ _)
    · rw [State.armed, State.armed, armedIn_perm (.refl _) results, armedIn_cons_result,
        armedIn_perm requests.requests (.refl _)]
      simp [tag]
  | accept tag results _ _ served rearms next => exact h.processed tag results served rearms next
  | serve _ results _ _ rearms served next =>
    refine ⟨fun none_ => ?_, fun one => ?_⟩
    · rw [served] at none_
      cases none_
    · have unused := h.before (Nat.succ.inj (served.symm.trans one))
      have room : s.queue.waiting = 0 := by
        have empty := unused.requests
        unfold State.requests at empty
        simp only [List.append_eq_nil_iff] at empty
        simp [StagedQueue.waiting, empty]
      rcases next with ⟨fd, submitted⟩ | ⟨full, -⟩
      · rw [rearms, unused.rearms, State.armed, armedIn_perm submitted.requests (.refl _),
          armedIn_cons_request, unused.requests, results, unused.results,
          if_pos fun _ member => absurd member List.not_mem_nil]
        rfl
      · rw [room] at full
        exact absurd full (by decide)

theorem arming_of_reachable (reachable : (system mode).Reachable s) :
    (mode = .loop ∧ s.pc = .destroyed) ∨ s.Arming := by
  refine (invariant_until_destroyed (I := fun s => s.Delivering ∧ s.Arming)
    (fun timeoutBase => ⟨delivering_create timeoutBase, fun _ => ?_, fun served => ?_⟩)
    (fun h move => ⟨h.1.move move, h.2.move h.1 move⟩) reachable).imp_right And.right
  · exact ⟨fun _ => rfl, rfl, rfl, rfl⟩
  · cases served

/-- After a single start of the server, whenever the loop is about to block, still
running or not, one accept is under way if and only if all accepts processed so far
found the loop running and the ring with room for another. -/
theorem accept_armed_iff (reachable : (system .loop).Reachable s) (served : s.served = 1)
    (wait : s.pc = .wait) :
    s.armed = 1 ↔ ∀ a ∈ s.rearms, a.running = true ∧ a.waiting < ringSize := by
  have arming : s.Arming := by
    refine (arming_of_reachable reachable).resolve_left fun destroyed => ?_
    rw [wait] at destroyed
    cases destroyed.2
  rw [arming.after served]
  split
  · next all => exact iff_of_true rfl all
  · next all => exact iff_of_false Nat.zero_ne_one all

/-- The first connection was accepted, and its read and the next accept are published. -/
theorem accept_armed_iff_accepted :
    ∃ s, (system .loop).Reachable s ∧ s.served = 1 ∧ s.pc = .wait ∧ s.running = true ∧
      s.rearms = [⟨true, 0⟩] ∧ s.armed = 1 := by
  have facts : ∃ s, (system .loop).Reachable s ∧ s.served = 1 ∧ s.pc = .wait ∧
      s.running = true ∧ s.rearms = [⟨true, 0⟩] :=
    exists_of_follow .loop (readCompleted.take 17) (by decide +kernel)
  obtain ⟨s, reachable, served, wait, running, rearms⟩ := facts
  refine ⟨_, reachable, served, wait, running, rearms,
    (accept_armed_iff reachable served wait).mpr ?_⟩
  rw [rearms]
  decide

/-! ### A run that loses the accept

512 connections are set up, and their reads and an accept are consumed by the
kernel. From then on the kernel consumes nothing more, which is its answer to
`io_uring_enter` with an error. One after another the 512 reads complete, and each
handler reads again. The ring is full when the accept completes.
-/

/-- The loop is about to block. The coroutines on the first `k` slots wait in
`lio_read`, and only the reads of the first `j` are not consumed yet. -/
structure Blocked (k j : Nat) (s : State) : Prop where
  reachable : (system .loop).Reachable s
  pc : s.pc = .wait
  running : s.running = true
  serverFd : 0 ≤ s.serverFd
  served : s.served = 1
  rearms : ∀ a ∈ s.rearms, a.Submits
  completions : s.completions = []
  staged : s.queue.staged = []
  published : s.queue.published.length = j
  tags : ∀ r ∈ s.queue.published, ∃ i : SlotIndex, i.val < j ∧ r.tag = State.slotTag i
  used : ∀ i : SlotIndex, i.val < k →
    (s.slots i).state = .waiting ∧ (s.slots i).suspended = some .read
  free : ∀ i : SlotIndex, k ≤ i.val → (s.slots i).state = .free
  files : ∀ n : Nat, k ≤ n → s.opened n = s.closed n
  memory : ∀ base, k ≤ base → s.mapped base = s.unmapped base

theorem nextReady_eq_none (none_ : ∀ i, (s.slots i).state = .ready → i.val < n) :
    s.nextReady n = none := by
  unfold State.nextReady
  rw [List.find?_eq_none]
  intro i _ found
  simp only [decide_eq_true_eq] at found
  exact absurd (none_ i found.2) (Nat.not_lt.mpr found.1)

theorem nextReady_eq_some (start : n ≤ i) (ready : (s.slots i).state = .ready)
    (only : ∀ j, (s.slots j).state = .ready → j = i) :
    s.nextReady n = some i := by
  cases found : s.nextReady n with
  | none =>
    unfold State.nextReady at found
    rw [List.find?_eq_none] at found
    have missed := found i (List.mem_finRange i)
    simp only [decide_eq_true_eq] at missed
    exact absurd ⟨start, ready⟩ missed
  | some j =>
    have test := List.find?_some found
    simp only [decide_eq_true_eq] at test
    rw [only j test.2]

theorem findFree_eq_some (free : (s.slots i).state = .free)
    (used : ∀ j, j < i → (s.slots j).state ≠ .free) : s.findFree = some i := by
  unfold State.findFree
  rw [List.find?_eq_some_iff_getElem]
  refine ⟨by simpa using free, i.val, by simp, by simp, fun j before => ?_⟩
  simpa using used ⟨j, Nat.lt_trans before i.isLt⟩ before

section

variable (reachable : (system .loop).Reachable s)
include reachable

theorem reachable_advance {t : State} (step : s.advance .loop none = some t) :
    (system .loop).Reachable t :=
  reachable.step ⟨.advance none, trivial, step⟩

/-- All completions are processed and the loop goes on with its scan. -/
theorem rescans (at_ : s.pc = .process []) (running : s.running = true) :
    (system .loop).Reachable { s with pc := .scan 0 } := by
  have top : (system .loop).Reachable { s with pc := .top } :=
    reachable_advance reachable (by simp [State.advance, at_])
  exact reachable_advance top (by simp [State.advance, State.continues, running])

/-- The scan resumes the only ready slot. -/
theorem resumes (at_ : s.pc = .process []) (running : s.running = true)
    (ready : (s.slots i).state = .ready) (only : ∀ j, (s.slots j).state = .ready → j = i)
    (call : (s.slots i).suspended = none ∨ (s.slots i).suspended = some .read) :
    ∃ (value : Int) (returned : List (Nat × Int)), (system .loop).Reachable { s with
      slots := update s.slots i { s.slots i with
        state := .running
        suspended := none
        awaiting := none }
      currentSlot := i
      returned := returned
      pc := .handler i value } := by
  have scan := rescans reachable at_ running
  have found : State.nextReady { s with pc := .scan 0 } 0 = some i :=
    nextReady_eq_some (Nat.zero_le _) ready only
  have handler : (system .loop).Reachable (State.resume { s with pc := .scan 0 } i) :=
    reachable_advance scan (by simp [State.advance, found])
  rcases call with none_ | read
  · refine ⟨0, s.returned, ?_⟩
    simpa [State.resume, none_] using handler
  · refine ⟨(s.slots i).pendingResult, s.returned ++
      (s.slots i).awaiting.toList.map (·, (s.slots i).pendingResult), ?_⟩
    simpa [State.resume, read, State.continueCall] using handler

/-- An executing handler reads and is suspended. -/
theorem suspends {value : Int} (at_ : s.pc = .handler i value) (room : s.queue.waiting < ringSize) :
    ∃ sqe : Sqe, sqe.userData = State.slotTag i ∧ (system .loop).Reachable { s with
      slots := update s.slots i { s.slots i with
        state := .waiting
        suspended := some .read
        awaiting := some s.nextId }
      queue := s.queue.submit ⟨s.nextId, sqe⟩
      nextId := s.nextId + 1
      pc := .back i } := by
  have submit : (system .loop).Reachable { s with
      pc := .submit i (.read (.ofInt (s.slots i).streamFd) 0 (.ofNat 1) 0xFFFFFFFFFFFFFFFF
        (State.slotTag i)) .read } :=
    reachable.step ⟨.handle (.read 0 1), trivial, by simp [perform, State.handle, at_]⟩
  refine ⟨(Submit.read (.ofInt (s.slots i).streamFd) 0 (.ofNat 1) 0xFFFFFFFFFFFFFFFF
    (State.slotTag i)).request, rfl, reachable_advance submit ?_⟩
  simp only [State.advance, State.submitAndSuspend, State.trySubmit, if_pos room, Option.map_some]
  rfl

/-- When the scan finds no other ready slot, the loop flushes the ring and is about
to block. -/
theorem blocks (at_ : s.pc = .scan n) (running : s.running = true) (serverFd : 0 ≤ s.serverFd)
    (none_ : ∀ j, (s.slots j).state ≠ .ready) :
    (system .loop).Reachable { s.flush with pc := .wait } := by
  have nobody : s.nextReady n = none := nextReady_eq_none fun j ready => absurd ready (none_ j)
  have afterScan : (system .loop).Reachable { s with pc := .afterScan } :=
    reachable_advance reachable (by simp [State.advance, at_, nobody])
  exact reachable_advance afterScan (by
    simp [State.advance, State.breaks, running, State.hasWork, serverFd, State.flush])

/-- The coroutine of the only ready slot is resumed and reads, and the loop is about
to block again. -/
theorem reads_again (at_ : s.pc = .process []) (running : s.running = true)
    (serverFd : 0 ≤ s.serverFd) (ready : (s.slots i).state = .ready)
    (only : ∀ j, (s.slots j).state = .ready → j = i)
    (call : (s.slots i).suspended = none ∨ (s.slots i).suspended = some .read)
    (room : s.queue.waiting < ringSize) :
    ∃ (sqe : Sqe) (returned : List (Nat × Int)), sqe.userData = State.slotTag i ∧
      (system .loop).Reachable { s with
        slots := update s.slots i { s.slots i with
          state := .waiting
          suspended := some .read
          awaiting := some s.nextId }
        currentSlot := i
        returned := returned
        queue := (s.queue.submit ⟨s.nextId, sqe⟩).publish
        nextId := s.nextId + 1
        pc := .wait } := by
  obtain ⟨value, returned, handler⟩ := resumes reachable at_ running ready only call
  obtain ⟨sqe, tag, back⟩ := suspends handler rfl room
  refine ⟨sqe, returned, tag, ?_⟩
  simp only [update_self, update_idem] at back
  have scan := reachable_advance (t := { s with
      slots := update s.slots i { s.slots i with
        state := .waiting
        suspended := some .read
        awaiting := some s.nextId }
      currentSlot := i
      returned := returned
      queue := s.queue.submit ⟨s.nextId, sqe⟩
      nextId := s.nextId + 1
      pc := .scan (i + 1) }) back (by simp [State.advance])
  refine blocks scan rfl running serverFd fun j isReady => ?_
  by_cases own : j = i
  · simp [own] at isReady
  · dsimp only at isReady
    rw [update_of_ne own] at isReady
    exact own (only j isReady)

end

/-- The kernel completes a request it has consumed, and the loop reaps the
completion. -/
theorem reaps {m : Nat} {r : Request} (result : Int) (reachable : (system .loop).Reachable s)
    (wait : s.pc = .wait) (completions : s.completions = []) (staged : s.queue.staged = [])
    (consumed : s.inFlight[m]? = some r)
    (fresh : 0 ≤ result → r.sqe.opcode = opAccept → s.opened result = s.closed result) :
    ∃ posted, (system .loop).Reachable { s with
      inFlight := s.inFlight.eraseIdx m
      completions := []
      opened := if r.sqe.opcode = opAccept ∧ 0 ≤ result then
        update s.opened result (s.opened result + 1) else s.opened
      posted := posted
      pc := .process [⟨r.id, r.tag, result⟩] } := by
  obtain ⟨posted, completed⟩ : ∃ posted, (system .loop).Reachable { s with
      inFlight := s.inFlight.eraseIdx m
      completions := [⟨r.id, r.tag, result⟩]
      opened := if r.sqe.opcode = opAccept ∧ 0 ≤ result then
        update s.opened result (s.opened result + 1) else s.opened
      posted := posted } := by
    have allowed : KernelAllows s (.complete m result) := by
      rintro valid ⟨r', same, accept⟩
      cases consumed.symm.trans same
      exact fresh valid accept
    by_cases accept : r.sqe.opcode = opAccept
    · refine ⟨s.posted, reachable.step ⟨.complete m result, allowed, ?_⟩⟩
      by_cases valid : 0 ≤ result <;>
        simp [perform, wait, State.kernelComplete, consumed, accept, valid, completions]
    · refine ⟨s.posted ++ [(r.id, result)], reachable.step ⟨.complete m result, allowed, ?_⟩⟩
      simp [perform, wait, State.kernelComplete, consumed, accept, completions]
  refine ⟨posted, reachable_advance completed ?_⟩
  simp [State.advance, wait, State.flush, StagedQueue.publish_eq_self staged, batchSize]

section

variable (reachable : (system .loop).Reachable s) (at_ : s.pc = .process [c])
include reachable at_

/-- A completed accept is processed, and the next one submitted. -/
theorem admits {base : Nat} (tag : c.tag = tagAccept) (valid : 0 ≤ c.result)
    (running : s.running = true) (found : s.findFree = some i) (room : s.queue.waiting < ringSize)
    (unused : s.mapped base = s.unmapped base) :
    (system .loop).Reachable { s with
      slots := update s.slots i { s.slots i with
        state := .ready
        fd := c.result
        stackBase := some base
        pendingResult := 0
        streamSlot := i
        streamFd := c.result
        suspended := none }
      activeCount := add32 s.activeCount 1
      queue := s.queue.submit ⟨s.nextId, acceptSqe s.serverFd⟩
      nextId := s.nextId + 1
      mapped := update s.mapped base (s.mapped base + 1)
      rearms := s.rearms ++ [⟨true, s.queue.waiting⟩]
      pc := .process [] } := by
  refine reachable.step ⟨.advance (some base), unused, ?_⟩
  simp [perform, State.advance, at_, tag, State.processAccept, State.goesOn, running, State.takeIn,
    valid, found, State.allocSlot, State.initCoroutineForSlot, State.submitAccept,
    State.trySubmit, room, acceptSqe]

/-- A failed accept is processed while the ring is full. -/
theorem declines (tag : c.tag = tagAccept) (invalid : c.result < 0) (running : s.running = true)
    (full : ¬ s.queue.waiting < ringSize) :
    (system .loop).Reachable { s with
      rearms := s.rearms ++ [⟨true, s.queue.waiting⟩]
      pc := .process [] } := by
  refine reachable_advance reachable ?_
  simp [State.advance, at_, tag, State.processAccept, State.goesOn, running, State.takeIn,
    Int.not_le.mpr invalid, State.submitAccept, State.trySubmit, full]

/-- The result of a waiting slot's request is processed. -/
theorem delivers (tag : c.tag = State.slotTag i) (waiting : (s.slots i).state = .waiting) :
    (system .loop).Reachable { s with
      slots := update s.slots i
        { s.slots i with pendingResult := c.result, state := .ready }
      pc := .process [] } := by
  refine reachable_advance reachable ?_
  simp [State.advance, at_, tag, slotTag_ne_tagAccept, State.processResult, waiting]

end

/-- The kernel consumes the oldest published request. -/
theorem consumes {r : Request} {rest : List Request} (reachable : (system .loop).Reachable s)
    (wait : s.pc = .wait) (published : s.queue.published = r :: rest) :
    (system .loop).Reachable { s with
      queue := ⟨s.queue.consumed ++ [r], rest, s.queue.staged⟩
      inFlight := s.inFlight ++ [r] } := by
  refine reachable.step ⟨.consume, trivial, ?_⟩
  simp [perform, wait, State.kernelConsume, StagedQueue.consume, published]

namespace Blocked

variable {k j : Nat}

variable (h : Blocked k j s)
include h

theorem results_eq_nil : s.results = [] := by
  simp [State.results, State.batch, h.pc, h.completions]

theorem delivering : s.Delivering := delivering_of_reachable h.reachable

/-- A request that is not among those of the first `j` slots has been consumed. -/
theorem consumed {r : Request} (member : r ∈ s.requests)
    (other : ∀ i : SlotIndex, i.val < j → r.tag ≠ State.slotTag i) :
    ∃ m : Nat, s.inFlight[m]? = some r := by
  unfold State.requests at member
  rw [h.staged, List.nil_append] at member
  rcases List.mem_append.mp member with published | consumed
  · obtain ⟨i, before, tag⟩ := h.tags r published
    exact absurd tag (other i before)
  · exact List.mem_iff_getElem?.mp consumed

theorem accept_consumed :
    ∃ (m : Nat) (r : Request), s.inFlight[m]? = some r ∧ r.sqe.opcode = opAccept ∧
      r.tag = tagAccept := by
  have arming : s.Arming := by
    refine (arming_of_reachable h.reachable).resolve_left fun destroyed => ?_
    rw [h.pc] at destroyed
    cases destroyed.2
  have one : s.armed = 1 := (arming.after h.served).trans (if_pos h.rearms)
  unfold State.armed armedIn at one
  rw [h.results_eq_nil, List.countP_nil, Nat.add_zero] at one
  obtain ⟨r, member, accept⟩ := List.countP_pos_iff.mp (one ▸ Nat.one_pos)
  have opcode : r.sqe.opcode = opAccept := by simpa using accept
  have tag := (h.delivering.accept_iff member).mp opcode
  obtain ⟨m, at_⟩ := h.consumed member fun i _ own => slotTag_ne_tagAccept i (own.symm.trans tag)
  exact ⟨m, r, at_, opcode, tag⟩

theorem read_consumed {i : SlotIndex} (used : i.val < k) (rest : j ≤ i.val) :
    ∃ (m : Nat) (r : Request), s.inFlight[m]? = some r ∧ r.sqe.opcode ≠ opAccept ∧
      r.tag = State.slotTag i := by
  have waiting := (h.used i used).1
  have ok := h.delivering.slot i
  unfold SlotOk at ok
  rw [waiting] at ok
  obtain ⟨call, id, -, awaiting⟩ := ok
  have one : outstanding s.requests s.results i = [id] := by
    rw [h.delivering.underWay i]
    simp [Slot.waitsFor, waiting, awaiting]
  rw [h.results_eq_nil] at one
  have member : id ∈ outstanding s.requests [] i := one ▸ List.mem_cons_self
  obtain ⟨token, found, -⟩ := List.mem_map.mp member
  obtain ⟨inside, own⟩ := List.mem_filter.mp found
  rw [List.map_nil, List.append_nil] at inside
  obtain ⟨r, isRequest, rfl⟩ := List.mem_map.mp inside
  have tag : r.tag = State.slotTag i := of_decide_eq_true own
  have opcode : r.sqe.opcode ≠ opAccept := fun accept =>
    slotTag_ne_tagAccept i (tag.symm.trans ((h.delivering.accept_iff isRequest).mp accept))
  obtain ⟨m, at_⟩ := h.consumed isRequest fun i' before own' => by
    have same := slotTag_injective (tag.symm.trans own')
    subst same
    omega
  exact ⟨m, r, at_, opcode, tag⟩

theorem no_ready (i : SlotIndex) : (s.slots i).state ≠ .ready := by
  intro ready
  by_cases before : i.val < k
  · rw [(h.used i before).1] at ready
    cases ready
  · rw [h.free i (Nat.le_of_not_lt before)] at ready
    cases ready

omit h in
/-- Another connection is accepted and reads. -/
theorem connect (h : Blocked k 0 s) (few : k < ringSize) : ∃ t, Blocked (k + 1) 0 t := by
  have small : k < 512 := few
  obtain ⟨i, hi⟩ : ∃ i : SlotIndex, i.val = k := ⟨⟨k, by unfold maxSlots; omega⟩, rfl⟩
  have nothing : s.queue.published = [] := List.length_eq_zero_iff.mp h.published
  have empty : s.queue.waiting = 0 := by simp [StagedQueue.waiting, nothing, h.staged]
  have found : s.findFree = some i := by
    refine findFree_eq_some (h.free i (Nat.le_of_eq hi.symm)) fun j' before => ?_
    rw [(h.used j' (hi ▸ before)).1]
    decide
  obtain ⟨m, r, consumed, opcode, tag⟩ := h.accept_consumed
  obtain ⟨posted, reaped⟩ := reaps k h.reachable h.pc h.completions h.staged consumed
    fun _ _ => h.files k (Nat.le_refl _)
  rw [if_pos ⟨opcode, Int.natCast_nonneg k⟩] at reaped
  have admitted := admits reaped rfl tag (Int.natCast_nonneg k) h.running found
    (by rw [empty]; decide) (h.memory k (Nat.le_refl _))
  obtain ⟨sqe, returned, -, blocked⟩ := reads_again (i := i) admitted rfl h.running h.serverFd
    (by simp) (fun j' ready => by
      by_contra ne
      dsimp only at ready
      rw [update_of_ne ne] at ready
      exact h.no_ready j' ready) (by simp)
    (by rw [StagedQueue.waiting_submit, empty]; decide)
  -- The kernel consumes the next accept and the read.
  have first := consumes blocked rfl
    (show _ = ⟨s.nextId, acceptSqe s.serverFd⟩ :: [⟨s.nextId + 1, sqe⟩] by
      simp [StagedQueue.publish, StagedQueue.submit, nothing, h.staged])
  have second := consumes first rfl rfl
  refine ⟨_, second, rfl, h.running, h.serverFd, h.served, fun a member => ?_, rfl, rfl, rfl,
    fun _ member => absurd member List.not_mem_nil, fun i' before => ?_, fun i' after => ?_,
    fun n after => ?_, fun base after => ?_⟩
  · rcases List.mem_append.mp member with old | new
    · exact h.rearms a old
    · cases List.mem_singleton.mp new
      exact ⟨rfl, by rw [empty]; decide⟩
  · by_cases own : i' = i
    · subst own
      simp
    · have before' : i'.val < k := by
        have ne : i'.val ≠ i.val := fun same => own (Fin.ext same)
        omega
      simpa [own] using h.used i' before'
  · have own : i' ≠ i := by
      rintro rfl
      omega
    simpa [own] using h.free i' (by omega)
  · have ne : (n : Int) ≠ k := by omega
    simpa [ne] using h.files n (by omega)
  · have ne : base ≠ k := by omega
    simpa [ne] using h.memory base (by omega)

/-- One more of the waiting coroutines gets its result and reads again. -/
theorem reread (more : j < k) (few : k ≤ ringSize) : ∃ t, Blocked k (j + 1) t := by
  have small : k ≤ 512 := few
  obtain ⟨i, hi⟩ : ∃ i : SlotIndex, i.val = j := ⟨⟨j, by unfold maxSlots; omega⟩, rfl⟩
  have used : i.val < k := hi ▸ more
  have waiting : s.queue.waiting = j := by
    simp [StagedQueue.waiting, h.staged, h.published]
  obtain ⟨m, r, consumed, opcode, tag⟩ := h.read_consumed used (Nat.le_of_eq hi.symm)
  obtain ⟨posted, reaped⟩ := reaps 1 h.reachable h.pc h.completions h.staged consumed
    fun _ accept => absurd accept opcode
  rw [if_neg fun both => opcode both.1] at reaped
  have delivered := delivers reaped rfl tag (h.used i used).1
  obtain ⟨sqe, returned, own, blocked⟩ := reads_again (i := i) delivered rfl h.running h.serverFd
    (by simp) (fun j' ready => by
      by_contra ne
      dsimp only at ready
      rw [update_of_ne ne] at ready
      exact h.no_ready j' ready) (.inr (by simp [(h.used i used).2]))
    (by rw [waiting]; omega)
  refine ⟨_, blocked, rfl, h.running, h.serverFd, h.served, h.rearms, rfl, rfl, ?_,
    fun r' member => ?_, fun i' before => ?_, fun i' after => ?_, h.files, h.memory⟩
  · simp [StagedQueue.publish, StagedQueue.submit, h.staged, h.published]
  · simp only [StagedQueue.publish, StagedQueue.submit, h.staged, List.nil_append] at member
    rcases List.mem_append.mp member with old | new
    · obtain ⟨i', before, tag'⟩ := h.tags r' old
      exact ⟨i', by omega, tag'⟩
    · cases List.mem_singleton.mp new
      exact ⟨i, by omega, own⟩
  · by_cases same : i' = i
    · subst same
      simp
    · simpa [same] using h.used i' before
  · have same : i' ≠ i := by
      rintro rfl
      omega
    simpa [same] using h.free i' after

end Blocked

/-- The server is started and the loop about to block for the first time. -/
theorem blocked_zero : ∃ s, Blocked 0 0 s := by
  have served : (system .loop).Reachable (State.serve (.create 0) 3) :=
    System.Reachable.step (.init ⟨0, rfl⟩) ⟨.serve 3, trivial, rfl⟩
  have top : (system .loop).Reachable
      { State.serve (.create 0) 3 with running := true, pc := .top } :=
    served.step ⟨.run, trivial, rfl⟩
  have scan : (system .loop).Reachable
      { State.serve (.create 0) 3 with running := true, pc := .scan 0 } :=
    reachable_advance top rfl
  have nobody : State.nextReady
      { State.serve (.create 0) 3 with running := true, pc := .scan 0 } 0 = none :=
    nextReady_eq_none fun _ ready => by cases ready
  have afterScan : (system .loop).Reachable
      { State.serve (.create 0) 3 with running := true, pc := .afterScan } :=
    reachable_advance scan (by simp only [State.advance, nobody])
  have wait : (system .loop).Reachable
      { State.flush { State.serve (.create 0) 3 with running := true, pc := .afterScan } with
        pc := .wait } := reachable_advance afterScan rfl
  refine ⟨_, consumes wait rfl rfl, rfl, rfl, by decide, rfl, ?_, rfl, rfl, rfl, ?_, ?_,
    fun _ _ => rfl, fun _ _ => rfl, fun _ _ => rfl⟩
  · exact fun _ member => absurd member List.not_mem_nil
  · exact fun _ member => absurd member List.not_mem_nil
  · exact fun _ low => absurd low (Nat.not_lt_zero _)

theorem blocked_connected : ∀ k, k ≤ ringSize → ∃ s, Blocked k 0 s
  | 0, _ => blocked_zero
  | k + 1, few => by
    obtain ⟨s, blocked⟩ := blocked_connected k (Nat.le_of_succ_le few)
    exact blocked.connect few

theorem blocked_full : ∀ j, j ≤ ringSize → ∃ s, Blocked ringSize j s
  | 0, _ => blocked_connected ringSize (Nat.le_refl _)
  | j + 1, few => by
    obtain ⟨s, blocked⟩ := blocked_full j (Nat.le_of_succ_le few)
    exact blocked.reread few (Nat.le_refl _)

/-- The ring is full of reads when the accept completes, here with `ECONNABORTED`.
The loop, still running, is about to block without an accept. -/
theorem accept_lost :
    ∃ s, (system .loop).Reachable s ∧ s.served = 1 ∧ s.pc = .wait ∧ s.running = true ∧
      s.armed = 0 := by
  obtain ⟨s, h⟩ := blocked_full ringSize (Nat.le_refl _)
  obtain ⟨m, r, consumed, opcode, tag⟩ := h.accept_consumed
  obtain ⟨posted, reaped⟩ := reaps (-103) h.reachable h.pc h.completions h.staged consumed
    fun nonneg => absurd nonneg (by decide)
  have full : ¬ s.queue.waiting < ringSize := by
    simp [StagedQueue.waiting, h.staged, h.published]
  have declined := declines reaped rfl tag (by decide : (-103 : Int) < 0) h.running full
  have wait := blocks (rescans declined rfl h.running) rfl h.running h.serverFd h.no_ready
  have arming := (arming_of_reachable wait).resolve_left fun destroyed => by cases destroyed.2
  refine ⟨_, wait, h.served, rfl, h.running, (arming.after h.served).trans (if_neg fun all => ?_)⟩
  exact full (all _ (List.mem_append_right _ List.mem_cons_self)).2

end Lightc.Lightio
