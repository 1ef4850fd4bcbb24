import Lightc.Async.Ring
import Lightc.Verification.StagedQueue

/-!
# The submission ring delivers every request once and in order

The ring refines a bounded staged queue: `sq_head`, `sq_tail` and `sq_pending`
count the three parts of the queue's history, and the entries between the head
and the last staged one hold its waiting requests. All the application knows
about the kernel is that the head only moves forward, so a check for room that
has succeeded stays true until the entry is counted.
-/

namespace Lightc.Async

open Machine Verification Function

namespace Ring

variable (r : Ring)

theorem entries_lt : r.entries < 2 ^ 32 := by
  rw [r.entries_eq]
  exact Nat.pow_lt_pow_right (by decide) r.exponent_lt

/-- Where the request accepted as number `i` stands. -/
def slot (start i : Nat) : Nat := (start + i) % r.entries

theorem and_mask (start i : Nat) : (start + i) % 2 ^ 32 &&& r.mask = r.slot start i := by
  rw [r.mask_eq, slot, r.entries_eq]
  exact and_mask_counter (Nat.le_of_lt r.exponent_lt) _

/-- Requests less than a turn apart stand in different entries. -/
theorem slot_ne {start i j : Nat} (order : i < j) (near : j - i < r.entries) :
    r.slot start i ≠ r.slot start j :=
  residue_ne order near

end Ring

variable {r : Ring} {start : Nat} {q q' : StagedQueue Sqe} {s s' : State} {event : Event}

/-! ### The queue a ring represents -/

/-- The counters count the history, and the entries of the waiting requests hold
them. -/
structure Window (r : Ring) (start : Nat) (q : StagedQueue Sqe) (s : State) : Prop where
  head : s.sqHead = (start + q.consumed.length) % 2 ^ 32
  tail : s.sqTail = (start + (q.consumed.length + q.published.length)) % 2 ^ 32
  room : q.waiting ≤ r.entries
  taken : s.consumed = q.consumed
  given : s.submitted = q.accepted
  contents : ∀ i x, q.consumed.length ≤ i → q.accepted[i]? = some x →
    s.sqArray (r.slot start i) = r.slot start i ∧ s.sqes (r.slot start i) = x

/-- The next request has room, and the tail the call has loaded is current. -/
def HasRoom (r : Ring) (start : Nat) (q : StagedQueue Sqe) (s : State) (tail index : Nat) : Prop :=
  tail = s.sqTail ∧ q.waiting < r.entries ∧ index = r.slot start q.accepted.length

/-- What the application knows at its next step. Between the store of the tail
and the reset of `sq_pending` the count is out of date. -/
def Place (r : Ring) (start : Nat) (q : StagedQueue Sqe) (s : State) : Prop :=
  match s.pc with
  | .submitHead _ tail => s.sqPending = q.staged.length ∧ tail = s.sqTail
  | .submitZero _ tail index => s.sqPending = q.staged.length ∧ HasRoom r start q s tail index
  | .submitFill _ tail index =>
    s.sqPending = q.staged.length ∧ HasRoom r start q s tail index ∧ s.sqes index = .zero
  | .submitArray call tail index =>
    s.sqPending = q.staged.length ∧ HasRoom r start q s tail index ∧
      s.sqes index = call.request
  | .submitCount call =>
    s.sqPending = q.staged.length ∧ q.waiting < r.entries ∧
      s.sqArray (r.slot start q.accepted.length) = r.slot start q.accepted.length ∧
      s.sqes (r.slot start q.accepted.length) = call.request
  | .flushTail toSubmit _ => s.sqPending = q.staged.length ∧ toSubmit = q.staged.length
  | .flushClear _ _ => q.staged = []
  | .freeHead tail => s.sqPending = q.staged.length ∧ tail = s.sqTail
  | _ => s.sqPending = q.staged.length

/-- A ring whose counters started at `start` represents the queue `q`. -/
structure Represents (r : Ring) (start : Nat) (q : StagedQueue Sqe) (s : State) : Prop where
  window : Window r start q s
  place : Place r start q s

namespace Window

section

variable (h : Window r start q s)
include h

/-- Steps that touch neither the shared memory nor the ghost lists. -/
theorem local_step (pending : Nat) (pc : Pc) :
    Window r start q { s with sqPending := pending, pc := pc } :=
  { h with }

/-- The wrapped count of the fullness test is the number of waiting requests. -/
theorem used_eq (pending : s.sqPending = q.staged.length) :
    sub32 (add32 s.sqTail s.sqPending) s.sqHead = q.waiting := by
  have room := h.room
  have := r.entries_lt
  unfold StagedQueue.waiting at room ⊢
  rw [h.tail, h.head, pending, add32_counter, sub32_counter (by omega) (by omega)]
  omega

/-- The wrapped distance of the counters is the number of published requests. -/
theorem published_eq : sub32 s.sqTail s.sqHead = q.published.length := by
  have room := h.room
  have := r.entries_lt
  unfold StagedQueue.waiting at room
  rw [h.tail, h.head, sub32_counter (by omega) (by omega)]
  omega

/-- The kernel finds the ring empty exactly when nothing is published. -/
theorem head_eq_tail_iff : s.sqHead = s.sqTail ↔ q.published = [] := by
  constructor
  · intro same
    have count := h.published_eq
    have word : s.sqTail < 2 ^ 32 := by
      rw [h.tail]
      exact Nat.mod_lt _ (by decide)
    rw [same, sub32_of_le word (Nat.le_refl _), Nat.sub_self] at count
    exact List.eq_nil_of_length_eq_zero count.symm
  · intro none
    rw [h.head, h.tail, none, List.length_nil, Nat.add_zero]

/-- The entry the application is about to fill. -/
theorem index_eq (pending : s.sqPending = q.staged.length) :
    add32 s.sqTail s.sqPending &&& r.mask = r.slot start q.accepted.length := by
  rw [h.tail, pending, add32_counter, r.and_mask, StagedQueue.length_accepted]
  congr 1
  unfold StagedQueue.waiting
  omega

/-- The entry the kernel finds `k` places after the head. -/
theorem entry_eq {k : Nat} (inside : q.consumed.length + k < q.accepted.length) :
    r.entry s k = r.slot start (q.consumed.length + k) := by
  rw [Ring.entry, h.head, add32_counter, r.and_mask]
  exact (h.contents _ _ (Nat.le_add_right _ _) (List.getElem?_eq_getElem inside)).1

end

/-- The entry behind the last staged request holds none of the waiting ones. -/
theorem slot_free (free : q.waiting < r.entries) {i : Nat}
    (old : q.consumed.length ≤ i) (inside : i < q.accepted.length) :
    r.slot start i ≠ r.slot start q.accepted.length := by
  apply r.slot_ne inside
  rw [StagedQueue.length_accepted] at inside ⊢
  omega

variable (h : Window r start q s)
include h

/-- Writing the free entry disturbs no waiting request. -/
theorem write_entry (free : q.waiting < r.entries) (sqe : Sqe) (pc : Pc) :
    Window r start q { s with
      sqes := update s.sqes (r.slot start q.accepted.length) sqe
      pc := pc } := by
  refine ⟨h.head, h.tail, h.room, h.taken, h.given, ?_⟩
  intro i x old found
  have inside := (List.getElem?_eq_some_iff.mp found).1
  refine ⟨(h.contents i x old found).1, ?_⟩
  exact (update_of_ne (slot_free free old inside) _ _).trans (h.contents i x old found).2

/-- The same for the array that names the entries. -/
theorem write_array (free : q.waiting < r.entries) (index : Nat) (pc : Pc) :
    Window r start q { s with
      sqArray := update s.sqArray (r.slot start q.accepted.length) index
      pc := pc } := by
  refine ⟨h.head, h.tail, h.room, h.taken, h.given, ?_⟩
  intro i x old found
  have inside := (List.getElem?_eq_some_iff.mp found).1
  refine ⟨?_, (h.contents i x old found).2⟩
  exact (update_of_ne (slot_free free old inside) _ _).trans (h.contents i x old found).1

/-- Counting the filled entry accepts its request. -/
theorem submit (free : q.waiting < r.entries) {call : Submit}
    (named : s.sqArray (r.slot start q.accepted.length) = r.slot start q.accepted.length)
    (filled : s.sqes (r.slot start q.accepted.length) = call.request) (pending : Nat) (pc : Pc) :
    Window r start (q.submit call.request) { s with
      sqPending := pending
      submitted := s.submitted ++ [call.request]
      pc := pc } := by
  refine ⟨h.head, h.tail, ?_, h.taken, ?_, ?_⟩
  · rw [StagedQueue.waiting_submit]
    exact free
  · rw [StagedQueue.accepted_submit]
    exact congrArg (· ++ [call.request]) h.given
  · intro i x old found
    rw [StagedQueue.accepted_submit] at found
    by_cases earlier : i < q.accepted.length
    · rw [List.getElem?_append_left earlier] at found
      exact h.contents i x old found
    · have last : i = q.accepted.length := by
        have := (List.getElem?_eq_some_iff.mp found).1
        simp only [List.length_append, List.length_singleton] at this
        omega
      subst last
      have same : call.request = x := by simpa using found
      exact ⟨named, filled.trans same⟩

/-- Advancing the tail over the staged requests publishes them. -/
theorem publish (pc : Pc) :
    Window r start q.publish { s with sqTail := add32 s.sqTail q.staged.length, pc := pc } := by
  refine ⟨h.head, ?_, ?_, h.taken, ?_, ?_⟩
  · show add32 s.sqTail q.staged.length = _
    rw [h.tail, add32_counter]
    simp [StagedQueue.publish, Nat.add_assoc]
  · rw [StagedQueue.waiting_publish]
    exact h.room
  · rw [StagedQueue.accepted_publish]
    exact h.given
  · rw [StagedQueue.accepted_publish]
    exact h.contents

/-- The kernel takes the oldest published request. -/
theorem consume {x : Sqe} (front : q.consume = some (x, q')) :
    Window r start q' { s with
      sqHead := add32 s.sqHead 1
      consumed := s.consumed ++ [s.sqes (r.entry s 0)] } := by
  have next := StagedQueue.accepted_getElem?_consumed front
  have inside := (List.getElem?_eq_some_iff.mp next).1
  have read : s.sqes (r.entry s 0) = x := by
    rw [h.entry_eq inside]
    exact (h.contents _ _ (Nat.le_refl _) next).2
  have same := StagedQueue.accepted_consume front
  obtain ⟨rest, found, rfl⟩ := StagedQueue.consume_eq_some_iff.mp front
  have room := h.room
  simp only [StagedQueue.waiting, found, List.length_cons] at room
  refine ⟨?_, ?_, ?_, ?_, ?_, ?_⟩
  · show add32 s.sqHead 1 = _
    rw [h.head, add32_counter, List.length_append, List.length_singleton]
  · show s.sqTail = _
    rw [h.tail, found]
    simp only [List.length_append, List.length_cons, List.length_nil]
    congr 1
    omega
  · show rest.length + q.staged.length ≤ r.entries
    omega
  · show s.consumed ++ [s.sqes (r.entry s 0)] = q.consumed ++ [x]
    rw [h.taken, read]
  · rw [same]
    exact h.given
  · rw [same]
    intro i y old
    simp only [List.length_append, List.length_singleton] at old
    exact h.contents i y (by omega)

end Window

/-! ### One step -/

/-- A step of the ring is a step of its queue, or invisible there. -/
def Matched (r : Ring) (start : Nat) (q : StagedQueue Sqe) (s' : State) : Prop :=
  ∃ q', (q' = q ∨ StagedQueue.Step r.entries q q') ∧ Represents r start q' s'

theorem Matched.unchanged (h : Represents r start q s') : Matched r start q s' :=
  ⟨q, .inl rfl, h⟩

namespace Represents

section

variable (h : Represents r start q s)
include h

/-- Outside a call the application has nothing to remember but its count. -/
theorem pending_of_idle (idle : s.pc = .idle) : s.sqPending = q.staged.length := by
  have place := h.place
  simpa only [Place, idle] using place

theorem call (idle : s.pc = .idle) (call : Call) :
    Represents r start q { s with pc := call.entry } := by
  have pending := h.pending_of_idle idle
  refine ⟨h.window.local_step s.sqPending _, ?_⟩
  cases call <;> exact pending

theorem submitStep (run : submitStep r s = some (event, s')) : Matched r start q s' := by
  have place := h.place
  unfold Async.submitStep at run
  unfold Place at place
  cases at_ : s.pc <;> simp only [at_, reduceCtorEq, Option.some.injEq, Prod.mk.injEq] at run place
  case submitHead call tail =>
    obtain ⟨pending, rfl⟩ := place
    rw [h.window.used_eq pending] at run
    split at run <;> cases run
    · exact .unchanged ⟨h.window.local_step _ _, pending⟩
    · next room =>
      exact .unchanged ⟨h.window.local_step _ _, pending, rfl, Nat.lt_of_not_le room,
        h.window.index_eq pending⟩
  all_goals obtain ⟨-, rfl⟩ := run
  case submitTail => exact .unchanged ⟨h.window.local_step _ _, place, rfl⟩
  case submitZero =>
    obtain ⟨pending, rfl, free, rfl⟩ := place
    exact .unchanged ⟨h.window.write_entry free _ _, pending, ⟨rfl, free, rfl⟩,
      update_self ..⟩
  case submitFill =>
    obtain ⟨pending, ⟨rfl, free, rfl⟩, zeroed⟩ := place
    refine .unchanged ⟨h.window.write_entry free _ _, pending, ⟨rfl, free, rfl⟩, ?_⟩
    rw [zeroed]
    exact update_self ..
  case submitArray =>
    obtain ⟨pending, ⟨rfl, free, rfl⟩, filled⟩ := place
    rw [h.window.index_eq pending]
    exact .unchanged ⟨h.window.write_array free _ _, pending, free, update_self ..,
      filled⟩
  case submitCount call =>
    obtain ⟨pending, free, named, filled⟩ := place
    refine ⟨q.submit call.request, .inr (.submit _ free),
      h.window.submit free named filled _ _, ?_⟩
    have room := r.entries_lt
    unfold StagedQueue.waiting at free
    show add32 s.sqPending 1 = (q.staged ++ [call.request]).length
    rw [pending, add32_of_lt (by omega), List.length_append, List.length_singleton]

/-- A flush that returns leaves the queue alone. -/
theorem flushReturn (pending : s.sqPending = q.staged.length) (submitted : Nat) (wait : Bool) :
    Represents r start q (flushReturn submitted wait s).2 := by
  cases wait <;> exact ⟨h.window.local_step s.sqPending _, pending⟩

theorem flushStep {ret : Int} (run : flushStep ret s = some (event, s')) :
    Matched r start q s' := by
  have place := h.place
  have returned : ∀ submitted wait, s.sqPending = q.staged.length →
      Async.flushReturn submitted wait s = (event, s') → Matched r start q s' := by
    intro submitted wait pending returns
    have after := h.flushReturn pending submitted wait
    rw [returns] at after
    exact .unchanged after
  unfold Async.flushStep at run
  unfold Place at place
  cases at_ : s.pc <;> simp only [at_, reduceCtorEq, Option.some.injEq, Prod.mk.injEq] at run place
  case flushStart wait =>
    split at run
    · exact returned 0 wait place (Option.some.inj run)
    · cases run
      exact .unchanged ⟨h.window.local_step _ _, place, place⟩
  case flushTail =>
    obtain ⟨-, rfl⟩ := run
    obtain ⟨-, rfl⟩ := place
    exact ⟨q.publish, .inr .publish, h.window.publish _, rfl⟩
  case flushClear =>
    obtain ⟨-, rfl⟩ := run
    refine .unchanged ⟨h.window.local_step _ _, ?_⟩
    show 0 = q.staged.length
    rw [place, List.length_nil]
  case flushEnter toSubmit submitted wait =>
    split at run
    · split at run
      · cases run
        exact .unchanged h
      · split at run
        · exact returned submitted wait place (Option.some.inj run)
        · cases run
          exact .unchanged ⟨h.window.local_step _ _, place⟩
    · exact returned submitted wait place (Option.some.inj run)
  case waitEnter =>
    split at run <;> cases run
    · exact .unchanged h
    · exact .unchanged ⟨h.window.local_step _ _, place⟩

/-- `lc_async_get_free_slots` computes the room left when it reads the head. -/
theorem freeHead {tail : Nat} (at_ : s.pc = .freeHead tail) :
    freeStep r s = some (.free (r.entries - q.waiting), { s with pc := .idle }) := by
  have place := h.place
  simp only [Place, at_] at place
  obtain ⟨pending, rfl⟩ := place
  have room := h.window.room
  have word := r.entries_lt
  have used : add32 (sub32 s.sqTail s.sqHead) s.sqPending = q.waiting := by
    rw [h.window.published_eq, pending, StagedQueue.waiting]
    unfold StagedQueue.waiting at room
    exact add32_of_lt (by omega)
  simp only [freeStep, at_, used]
  by_cases full : r.entries ≤ q.waiting
  · rw [if_pos full, Nat.sub_eq_zero_of_le full]
  · rw [if_neg full, sub32_of_le word (by omega)]

theorem freeStep (run : freeStep r s = some (event, s')) : Represents r start q s' := by
  have place := h.place
  unfold Place at place
  cases at_ : s.pc <;> simp only [Async.freeStep, at_, reduceCtorEq] at run place
  case freeTail =>
    cases run
    exact ⟨h.window.local_step _ _, place, rfl⟩
  case freeHead tail =>
    have returned := h.freeHead at_
    simp only [Async.freeStep, at_] at returned
    cases returned.symm.trans run
    exact ⟨h.window.local_step _ _, place.1⟩

end

/-- The application's knowledge survives the kernel: its own part of the history
is untouched, and there is only more room. -/
theorem place_consume {x : Sqe} (place : Place r start q s) (front : q.consume = some (x, q'))
    (consumed : List Sqe) (head : Nat) :
    Place r start q' { s with sqHead := head, consumed := consumed } := by
  have same := StagedQueue.accepted_consume front
  obtain ⟨rest, found, rfl⟩ := StagedQueue.consume_eq_some_iff.mp front
  have less : rest.length + q.staged.length < q.waiting := by
    simp [StagedQueue.waiting, found]
  unfold Place HasRoom at place ⊢
  rw [same]
  cases at_ : s.pc <;> simp only [at_] at place ⊢
  case submitZero =>
    obtain ⟨pending, current, free, at_slot⟩ := place
    exact ⟨pending, current, Nat.lt_trans less free, at_slot⟩
  case submitFill | submitArray =>
    obtain ⟨pending, ⟨current, free, at_slot⟩, filled⟩ := place
    exact ⟨pending, ⟨current, Nat.lt_trans less free, at_slot⟩, filled⟩
  case submitCount =>
    obtain ⟨pending, free, named, filled⟩ := place
    exact ⟨pending, Nat.lt_trans less free, named, filled⟩
  all_goals exact place

/-- What the kernel consumes is the front of the queue. -/
theorem kernelConsume (h : Represents r start q s) (run : kernelConsume r s = some s') :
    ∃ x q', q.consume = some (x, q') ∧ Represents r start q' s' := by
  unfold Async.kernelConsume at run
  by_cases empty : s.sqHead = s.sqTail
  · simp [empty] at run
  · simp only [empty, if_false, Option.some.injEq] at run
    subst run
    cases found : q.published with
    | nil => exact absurd (h.window.head_eq_tail_iff.mpr found) empty
    | cons x rest =>
      have front : q.consume = some (x, ⟨q.consumed ++ [x], rest, q.staged⟩) :=
        StagedQueue.consume_eq_some_iff.mpr ⟨rest, found, rfl⟩
      exact ⟨x, _, front, h.window.consume front, place_consume h.place front _ _⟩

theorem step {action : Action} (h : Represents r start q s)
    (run : perform r s action = some (event, s')) : Matched r start q s' := by
  cases action with
  | call call =>
    by_cases idle : s.pc = .idle
    · simp only [perform, idle, if_true, Option.some.injEq, Prod.mk.injEq] at run
      obtain ⟨-, rfl⟩ := run
      exact .unchanged (h.call idle call)
    · simp [perform, idle] at run
  | submit => exact h.submitStep run
  | flush ret => exact h.flushStep run
  | free => exact .unchanged (h.freeStep run)
  | kernel =>
    obtain ⟨t, consumed, same⟩ := Option.map_eq_some_iff.mp run
    cases same
    obtain ⟨x, q', front, represents⟩ := h.kernelConsume consumed
    exact ⟨q', .inr (.consume front), represents⟩

end Represents

/-- Every interleaving of the application with the kernel is a run of the queue. -/
theorem refines_stagedQueue (r : Ring) :
    (system r).Refines (StagedQueue.system Sqe r.entries)
      fun s q => ∃ start, Represents r start q s where
  init s initial := by
    obtain ⟨same, word, pending, idle, submitted, consumed⟩ := initial
    refine ⟨.empty, rfl, s.sqHead, ⟨?_, ?_, Nat.zero_le _, consumed, submitted, ?_⟩, ?_⟩
    · exact (Nat.mod_eq_of_lt word).symm
    · rw [← same]
      exact (Nat.mod_eq_of_lt word).symm
    · intro i x _ found
      simp [StagedQueue.empty, StagedQueue.accepted] at found
    · simp only [Place, idle]
      exact pending
  step s t q _ related next := by
    obtain ⟨start, represents⟩ := related
    obtain ⟨action, event, performed⟩ := next
    obtain ⟨q', moved, represents'⟩ := represents.step performed
    exact ⟨q', moved, start, represents'⟩

theorem represents_of_reachable (run : (system r).Reachable s) :
    ∃ start q, Represents r start q s := by
  obtain ⟨q, -, start, represents⟩ := (refines_stagedQueue r).reachable run
  exact ⟨start, q, represents⟩

/-! ### Submissions while the kernel does nothing -/

namespace Represents

variable (h : Represents r start q s) (idle : s.pc = .idle)
include h idle

theorem submitAlone_full (full : q.waiting = r.entries) (call : Submit) :
    submitAlone r s call = (.again, { s with pc := .idle }) := by
  have used := h.window.used_eq (h.pending_of_idle idle)
  simp [submitAlone, finishSubmit, Async.submitStep, used, full]

theorem submitAlone_room (free : q.waiting < r.entries) (call : Submit) :
    ∃ t, submitAlone r s call = (.ok, t) ∧ t.pc = .idle ∧
      Represents r start (q.submit call.request) t := by
  have pending := h.pending_of_idle idle
  have used := h.window.used_eq pending
  have index := h.window.index_eq pending
  have zeroed := h.window.write_entry free .zero .idle
  have filled := zeroed.write_entry free call.request .idle
  have named := filled.write_array free (r.slot start q.accepted.length) .idle
  have counted := named.submit free (update_self ..) (update_self ..)
    (add32 s.sqPending 1) .idle
  refine ⟨_, ?_, rfl, counted, ?_⟩
  · simp [submitAlone, finishSubmit, Async.submitStep, used, index, Nat.not_le.mpr free,
      Submit.request]
  · have room := r.entries_lt
    unfold StagedQueue.waiting at free
    show add32 s.sqPending 1 = (q.staged ++ [call.request]).length
    rw [pending, add32_of_lt (by omega), List.length_append, List.length_singleton]

/-- Of any further submissions, as many succeed as there is room. -/
theorem successes_eq (calls : List Submit) :
    successes r s calls = min (r.entries - q.waiting) calls.length := by
  induction calls generalizing q s with
  | nil => simp [successes]
  | cons call calls ih =>
    have room := h.window.room
    by_cases full : q.waiting = r.entries
    · have same : Represents r start q { s with pc := .idle } := by rwa [← idle]
      simp [successes, h.submitAlone_full idle full, ih same rfl, full]
    · obtain ⟨t, ran, idle', h'⟩ :=
        h.submitAlone_room idle (Nat.lt_of_le_of_ne room full) call
      simp only [successes, ran, if_true, ih h' idle', StagedQueue.waiting_submit,
        List.length_cons]
      omega

end Represents

/-! ### Delivery -/

/-- The entry the application's next step writes. -/
def Pc.writes : Pc → Option Nat
  | .submitZero _ _ index => some index
  | .submitFill _ _ index => some index
  | _ => none

/-- The application writes no entry that holds a waiting request. -/
theorem Represents.writes_free (h : Represents r start q s) {index k : Nat}
    (writes : s.pc.writes = some index) (inside : q.consumed.length + k < q.accepted.length) :
    r.entry s k ≠ index := by
  have place := h.place
  have target : q.waiting < r.entries ∧ index = r.slot start q.accepted.length := by
    unfold Place HasRoom at place
    unfold Pc.writes at writes
    cases at_ : s.pc <;> simp only [at_, reduceCtorEq, Option.some.injEq] at place writes
    case submitZero => exact writes ▸ ⟨place.2.2.1, place.2.2.2⟩
    case submitFill => exact writes ▸ ⟨place.2.1.2.1, place.2.1.2.2⟩
  rw [h.window.entry_eq inside, target.2]
  exact Window.slot_free target.1 (Nat.le_add_right _ _) inside

/-- A submission gives up only at its fullness test, and only if the ring is full. -/
theorem Represents.again_iff (h : Represents r start q s)
    (run : Async.submitStep r s = some (event, s')) :
    event = .again ↔ (∃ call tail, s.pc = .submitHead call tail) ∧ q.waiting = r.entries := by
  have place := h.place
  have room := h.window.room
  unfold Async.submitStep at run
  cases at_ : s.pc <;> simp only [at_, reduceCtorEq, Option.some.injEq, Prod.mk.injEq] at run
  case submitHead call tail =>
    simp only [Place, at_] at place
    obtain ⟨pending, rfl⟩ := place
    rw [h.window.used_eq pending] at run
    split at run <;> cases run
    · next full => simp [Nat.le_antisymm room full]
    · next free =>
      have : q.waiting ≠ r.entries := by omega
      simp [this]
  all_goals simp [← run.1]

/-- In every interleaving of submissions, flushes, waits and queries with a
kernel that consumes published entries at any time: the kernel has read a prefix
of the submitted requests; the waiting ones stand unchanged in entries that are
not being written; the tail is not past the staged entries; a submission is
refused exactly if the ring is full when it reads the head; and the number of
free slots is how many further submissions would succeed. -/
theorem submission_ring_delivers_in_order (r : Ring) {s : State} (run : (system r).Reachable s) :
    s.consumed <+: s.submitted ∧
      (∀ k x, s.submitted[s.consumed.length + k]? = some x →
        s.sqes (r.entry s k) = x ∧ s.pc.writes ≠ some (r.entry s k)) ∧
      s.consumed.length + sub32 s.sqTail s.sqHead ≤ s.submitted.length ∧
      (∀ event t, submitStep r s = some (event, t) →
        (event = .again ↔ (∃ call tail, s.pc = .submitHead call tail) ∧
          s.submitted.length - s.consumed.length = r.entries)) ∧
      ∀ tail, s.pc = .freeHead tail → ∃ slots t, freeStep r s = some (.free slots, t) ∧
        ∀ calls, successes r t calls = min slots calls.length := by
  obtain ⟨start, q, h⟩ := represents_of_reachable run
  have total := q.length_accepted
  rw [h.window.taken, h.window.given, h.window.published_eq]
  refine ⟨q.consumed_prefix_accepted, ?_, ?_, ?_, ?_⟩
  · intro k x found
    have inside := (List.getElem?_eq_some_iff.mp found).1
    refine ⟨?_, fun writes => h.writes_free writes inside rfl⟩
    rw [h.window.entry_eq inside]
    exact (h.window.contents _ _ (Nat.le_add_right _ _) found).2
  · unfold StagedQueue.waiting at total
    omega
  · intro event t step
    rw [h.again_iff step, total, Nat.add_sub_cancel_left]
  · intro tail at_
    have step := h.freeHead at_
    exact ⟨_, _, step, (h.freeStep step).successes_eq rfl⟩

/-- A ring of two entries. -/
def two : Ring := ⟨2, 1, 1, by decide, by decide, by decide⟩

def reading (n : Nat) : Submit := .read 3 4096 16 0 (.ofNat n)

/-- Two requests are staged and published, one is consumed, and a third one is staged. -/
def deliverPartly : List Action := (reading 0).actions ++ (reading 1).actions ++
  .call .flush :: .replicate 4 (.flush 0) ++ .kernel :: (reading 2).actions

/-- The counters wrap, and the second of the three requests is the next one. -/
theorem submission_ring_delivers_in_order_wrapped : ∃ s,
    follow two (.fresh (2 ^ 32 - 1)) deliverPartly = some s ∧ s.sqHead = 0 ∧
      s.consumed = [(reading 0).request] ∧ s.submitted.length = 3 ∧
      s.consumed <+: s.submitted ∧ s.sqes (two.entry s 0) = (reading 1).request := by
  have executed := (Option.some_get (x := follow two (.fresh (2 ^ 32 - 1)) deliverPartly)
    (by decide +kernel)).symm
  obtain ⟨order, waiting, -⟩ := submission_ring_delivers_in_order two
    (reachable_of_follow (reachable_fresh _ (by decide)) executed)
  exact ⟨_, executed, by decide +kernel, by decide +kernel, by decide +kernel, order,
    (waiting 0 _ (by decide +kernel)).1⟩

end Lightc.Async
