import Lightc.Async.Delivery

/-!
# What a flush asks the kernel for

`lc_async_flush` publishes the staged entries and asks the kernel to consume as
many entries as it has just published. It does not look at the gap between
`sq_head` and `sq_tail`, so entries that an earlier `io_uring_enter` left behind
are in nobody's count: with nothing staged the flush returns at once, and
otherwise the kernel consumes the oldest entries and the same number stays
behind. A flush therefore empties the ring exactly if it found nothing published.
-/

namespace Lightc.Async

open Machine Verification

/-- The kernel consumes `n` entries, if so many are published. -/
def consumeMany (r : Ring) : Nat → State → Option State
  | 0, s => some s
  | n + 1, s =>
    match kernelConsume r s with
    | none => none
    | some t => consumeMany r n t

/-- A step of a flush whose every `io_uring_enter` consumes all it is asked to
consume, and nothing else is consumed. The flush has returned when there is none. -/
def cooperativeStep (r : Ring) (s : State) : Option State :=
  match s.pc with
  | .waitEnter => none
  | .flushEnter toSubmit submitted _ =>
    if submitted < toSubmit then
      let asked := sub32 toSubmit submitted
      match consumeMany r asked s with
      | none => none
      | some t => (flushStep asked t).map (·.2)
    else (flushStep 0 s).map (·.2)
  | _ => (flushStep 0 s).map (·.2)

/-- At most `fuel` steps of a flush with a cooperative kernel. -/
def finishFlush (r : Ring) : Nat → State → State
  | 0, s => s
  | fuel + 1, s =>
    match cooperativeStep r s with
    | none => s
    | some t => finishFlush r fuel t

/-- A flush with a cooperative kernel, called alone or by `lc_async_wait`. -/
def flushCooperatively (r : Ring) (s : State) (wait : Bool) : State :=
  finishFlush r 5 { s with pc := .flushStart wait }

/-- Where the caller goes on after a flush. -/
def flushed (wait : Bool) : Pc := if wait then .waitEnter else .idle

variable {r : Ring} {start : Nat} {q : StagedQueue Sqe} {s t : State}

theorem flushReturn_state (submitted : Nat) (wait : Bool) (s : State) :
    (flushReturn submitted wait s).2 = { s with pc := flushed wait } := by
  cases wait <;> rfl

theorem finishFlush_step (step : cooperativeStep r s = some t) (fuel : Nat) :
    finishFlush r (fuel + 1) s = finishFlush r fuel t := by
  simp only [finishFlush, step]

/-- A flush that has returned takes no further step. -/
theorem finishFlush_flushed {wait : Bool} (returned : s.pc = flushed wait) (fuel : Nat) :
    finishFlush r fuel s = s := by
  have stopped : cooperativeStep r s = none := by
    cases wait <;> simp [cooperativeStep, flushStep, returned, flushed]
  cases fuel with
  | zero => rfl
  | succ fuel => simp only [finishFlush, stopped]

section

variable (run : (system r).Reachable s)
include run

theorem reachable_consumeMany {n : Nat} (consumed : consumeMany r n s = some t) :
    (system r).Reachable t := by
  induction n generalizing s with
  | zero =>
    cases consumed
    exact run
  | succ n ih =>
    cases first : kernelConsume r s with
    | none => simp [consumeMany, first] at consumed
    | some u =>
      simp only [consumeMany, first] at consumed
      refine ih (run.step ⟨.kernel, .internal, ?_⟩) consumed
      simp only [perform, first, Option.map_some]

theorem reachable_flushStep {ret : Int} (step : (flushStep ret s).map (·.2) = some t) :
    (system r).Reachable t := by
  obtain ⟨⟨event, u⟩, ran, rfl⟩ := Option.map_eq_some_iff.mp step
  exact run.step ⟨.flush ret, event, ran⟩

/-- A cooperative kernel is one of those the ring has to reckon with. -/
theorem reachable_cooperativeStep (step : cooperativeStep r s = some t) :
    (system r).Reachable t := by
  unfold cooperativeStep at step
  cases at_ : s.pc with
  | waitEnter => simp [at_] at step
  | flushEnter toSubmit submitted wait =>
    simp only [at_] at step
    split at step
    · cases consumed : consumeMany r (sub32 toSubmit submitted) s with
      | none => simp [consumed] at step
      | some u =>
        simp only [consumed] at step
        exact reachable_flushStep (reachable_consumeMany run consumed) step
    · exact reachable_flushStep run step
  | _ =>
    simp only [at_] at step
    exact reachable_flushStep run step

theorem reachable_finishFlush (fuel : Nat) : (system r).Reachable (finishFlush r fuel s) := by
  induction fuel generalizing s with
  | zero => exact run
  | succ fuel ih =>
    cases step : cooperativeStep r s with
    | none => simpa only [finishFlush, step] using run
    | some t =>
      rw [finishFlush_step step]
      exact ih (reachable_cooperativeStep run step)

theorem reachable_flushCooperatively (idle : s.pc = .idle) (wait : Bool) :
    (system r).Reachable (flushCooperatively r s wait) := by
  refine reachable_finishFlush (run.step ⟨.call (if wait then .wait else .flush), .internal, ?_⟩) 5
  cases wait <;> simp [perform, idle, Call.entry]

end

/-- The first `io_uring_enter` consumes all that was asked for, and is the last. -/
theorem cooperativeStep_enter {n : Nat} {wait : Bool} (at_ : s.pc = .flushEnter n 0 wait)
    (positive : 0 < n) (word : n < 2 ^ 32) (consumed : consumeMany r n s = some t)
    (place : t.pc = s.pc) :
    cooperativeStep r s = some { t with pc := .flushEnter n n wait } := by
  have asked : sub32 n 0 = n := sub32_of_le word (Nat.zero_le n)
  have some_ : ¬ (n : Int) ≤ 0 := by omega
  have not_intr : ¬ (n : Int) = -errIntr := by
    unfold errIntr
    omega
  have counted : add32 0 ((n : Int).toNat % 2 ^ 32) = n := by
    rw [Int.toNat_natCast, Nat.mod_eq_of_lt word, add32_of_lt (by omega), Nat.zero_add]
  rw [at_] at place
  simp only [cooperativeStep, at_, positive, if_true, asked, consumed]
  simp only [flushStep, place, positive, if_true, not_intr, some_, if_false, counted,
    Option.map_some]

namespace Represents

variable (h : Represents r start q s)
include h

/-- A kernel that finds something published can consume it. -/
theorem exists_kernelConsume {x : Sqe} {rest : List Sqe} (found : q.published = x :: rest) :
    ∃ t, Async.kernelConsume r s = some t ∧ t.pc = s.pc ∧
      Represents r start ⟨q.consumed ++ [x], rest, q.staged⟩ t := by
  have nonempty : s.sqHead ≠ s.sqTail := by
    rw [Ne, h.window.head_eq_tail_iff, found]
    exact List.cons_ne_nil _ _
  have run : Async.kernelConsume r s = some { s with
      sqHead := add32 s.sqHead 1
      consumed := s.consumed ++ [s.sqes (r.entry s 0)] } := if_neg nonempty
  refine ⟨_, run, rfl, ?_⟩
  obtain ⟨y, q', front, h'⟩ := h.kernelConsume run
  obtain ⟨rest', same, rfl⟩ := StagedQueue.consume_eq_some_iff.mp front
  rw [found] at same
  cases same
  exact h'

/-- Consuming many entries shortens the published part by as many. -/
theorem exists_consumeMany {n : Nat} (enough : n ≤ q.published.length) :
    ∃ t q', consumeMany r n s = some t ∧ t.pc = s.pc ∧ q'.published = q.published.drop n ∧
      Represents r start q' t := by
  induction n generalizing q s with
  | zero => exact ⟨s, q, rfl, rfl, rfl, h⟩
  | succ n ih =>
    cases found : q.published with
    | nil => simp [found] at enough
    | cons x rest =>
      rw [found, List.length_cons] at enough
      obtain ⟨t, consumed, place, h'⟩ := h.exists_kernelConsume found
      obtain ⟨u, q', many, place', left, h''⟩ := ih h' (Nat.le_of_succ_le_succ enough)
      refine ⟨u, q', ?_, place'.trans place, left, h''⟩
      simp only [consumeMany, consumed, many]

/-- With nothing staged, the flush returns at once. -/
theorem flushCooperatively_none (idle : s.pc = .idle) (none_ : q.staged = []) (wait : Bool) :
    flushCooperatively r s wait = { s with pc := flushed wait } := by
  have pending : s.sqPending = 0 := by rw [h.pending_of_idle idle, none_, List.length_nil]
  have first : cooperativeStep r { s with pc := .flushStart wait } =
      some { s with pc := flushed wait } := by
    simp [cooperativeStep, Async.flushStep, pending, flushReturn_state]
  rw [flushCooperatively, finishFlush_step first]
  exact finishFlush_flushed rfl _

/-- Otherwise it publishes what is staged, and the kernel consumes as many
entries from the front. -/
theorem flushCooperatively_some (idle : s.pc = .idle) (some_ : q.staged ≠ []) (wait : Bool) :
    ∃ q', q'.published = (q.published ++ q.staged).drop q.staged.length ∧
      (flushCooperatively r s wait).pc = flushed wait ∧
      Window r start q' (flushCooperatively r s wait) := by
  have pending := h.pending_of_idle idle
  have room := h.window.room
  have word := r.entries_lt
  have positive : 0 < q.staged.length := List.length_pos_iff.mpr some_
  unfold StagedQueue.waiting at room
  -- The ring when `io_uring_enter` is called for the first time.
  let entering : State := { s with
    sqTail := add32 s.sqTail q.staged.length
    sqPending := 0
    pc := .flushEnter q.staged.length 0 wait }
  have published : Represents r start q.publish entering :=
    ⟨(h.window.publish .idle).local_step 0 _, rfl⟩
  obtain ⟨t, q', consumed, place, left, h'⟩ :=
    published.exists_consumeMany (n := q.staged.length) (by simp [StagedQueue.publish])
  have entered := cooperativeStep_enter (s := entering) rfl positive (by omega) consumed place
  have returned : flushCooperatively r s wait = { t with pc := flushed wait } := by
    have nonzero : ¬ s.sqPending = 0 := by omega
    have started : cooperativeStep r { s with pc := .flushStart wait } =
        some { s with pc := .flushTail q.staged.length wait } := by
      rw [← pending]
      simp only [cooperativeStep, Async.flushStep, nonzero, if_false, Option.map_some]
    have left_ : cooperativeStep r { t with
        pc := .flushEnter q.staged.length q.staged.length wait } =
        some { t with pc := flushed wait } := by
      simp only [cooperativeStep, Async.flushStep, Nat.lt_irrefl, if_false, flushReturn_state,
        Option.map_some]
    rw [flushCooperatively, finishFlush_step started, finishFlush_step rfl, finishFlush_step rfl,
      finishFlush_step entered, finishFlush_step left_]
    rfl
  refine ⟨q', left, ?_, ?_⟩
  · rw [returned]
  · rw [returned]
    exact h'.window.local_step _ _

end Represents

/-- Whatever submissions, flushes and failed or partial calls of
`io_uring_enter` came before: a flush during which the kernel consumes all it is
asked to consume returns, and no published entry is left exactly if none was
there when the flush began. Such a flush is one of the runs above. -/
theorem cooperative_flush_empties_iff (r : Ring) {s : State} (run : (system r).Reachable s)
    (idle : s.pc = .idle) (wait : Bool) :
    (system r).Reachable (flushCooperatively r s wait) ∧
      (flushCooperatively r s wait).pc = flushed wait ∧
      ((flushCooperatively r s wait).sqHead = (flushCooperatively r s wait).sqTail ↔
        s.sqHead = s.sqTail) := by
  refine ⟨reachable_flushCooperatively run idle wait, ?_⟩
  obtain ⟨start, q, h⟩ := represents_of_reachable run
  by_cases none_ : q.staged = []
  · rw [h.flushCooperatively_none idle none_]
    exact ⟨rfl, Iff.rfl⟩
  · obtain ⟨q', left, place, window⟩ := h.flushCooperatively_some idle none_ wait
    refine ⟨place, ?_⟩
    rw [window.head_eq_tail_iff, h.window.head_eq_tail_iff, left,
      ← List.length_eq_zero_iff, ← List.length_eq_zero_iff]
    simp

/-- A request is staged, and the flush that publishes it is refused by the
kernel with `EAGAIN`. -/
def refusedOnce (call : Submit) : List Action :=
  call.actions ++ [.call .flush, .flush 0, .flush 0, .flush 0, .flush (-11)]

/-- After that, a flush with a cooperative kernel, and one made by a wait, both
return with the request still in the ring: nothing is staged any more, so
neither of them asks the kernel for anything. -/
theorem cooperative_flush_leaves_entry :
    ∃ s, (system ⟨8, 7, 3, by decide, rfl, rfl⟩).Reachable s ∧
      follow ⟨8, 7, 3, by decide, rfl, rfl⟩ (.fresh 0) (refusedOnce (.read 3 4096 16 0 7)) =
        some s ∧
      s.pc = .idle ∧ ∀ wait,
        (flushCooperatively ⟨8, 7, 3, by decide, rfl, rfl⟩ s wait).pc = flushed wait ∧
          (flushCooperatively ⟨8, 7, 3, by decide, rfl, rfl⟩ s wait).sqHead ≠
            (flushCooperatively ⟨8, 7, 3, by decide, rfl, rfl⟩ s wait).sqTail := by
  have followed := (Option.some_get (x := follow ⟨8, 7, 3, by decide, rfl, rfl⟩ (.fresh 0)
    (refusedOnce (.read 3 4096 16 0 7))) (by decide +kernel)).symm
  exact ⟨_, reachable_of_follow (reachable_fresh _ (by decide)) followed, followed,
    by decide +kernel, by decide +kernel⟩

/-- A flush of a ring in which nothing is left over empties it. -/
theorem cooperative_flush_empties_iff_staged :
    ∃ s, follow ⟨8, 7, 3, by decide, rfl, rfl⟩ (.fresh 5)
        (Submit.actions (.read 3 4096 16 0 7)) = some s ∧
      (flushCooperatively ⟨8, 7, 3, by decide, rfl, rfl⟩ s false).sqHead =
        (flushCooperatively ⟨8, 7, 3, by decide, rfl, rfl⟩ s false).sqTail := by
  refine ⟨_, (Option.some_get (by decide +kernel)).symm, ?_⟩
  exact (cooperative_flush_empties_iff _
    (reachable_of_follow (reachable_fresh _ (by decide)) (Option.some_get _).symm)
    (by decide +kernel) false).2.2.mpr (by decide +kernel)

end Lightc.Async
