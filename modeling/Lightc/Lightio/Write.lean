import Lightc.Lightio.Model
import Lightc.Verification.Total

/-!
# What `lio_write` reports

`lio_write` submits the rest of the buffer until all of it is written. In every
turn of its loop the ring may be full, before and after it was flushed, and a
request that was queued completes with a result of the kernel's choice. A positive
result says how many bytes the kernel took, from the place where the request began.

A turn that finds no room reports the bytes written before it. A turn whose
request fails reports the failure alone, and what earlier turns wrote is not
reported. The number of bytes is unsigned and is returned as a signed one.
-/

namespace Lightc.Lightio

open Machine Verification
open Machine.Signed (toInt32 toInt32_eq fits32_iff)

/-- What `lio_write` meets from turn to turn. -/
structure Answers where
  /-- Whether the ring has room, at first and after the flush. -/
  queued : Nat → Bool → Bool
  /-- The result of the request, if it was queued. -/
  result : Nat → Int

/-- The turns made so far, and the places of the buffer whose bytes the kernel
took, in the order in which it took them. -/
structure Writing where
  turn : Nat := 0
  accepted : List Nat := []
  deriving DecidableEq

/-! ### The loop -/

/-- `lio_try_submit_write`: the error, unless the request was queued. -/
def lioTrySubmitWrite (room : Bool → Bool) : Option Int :=
  if room false then none
  else if room true then none
  else some (-errAgain)

/-- What `lio_write` returns if nothing was queued. -/
def afterRefusal (written : Nat) (err : Int) : Int :=
  if 0 < written then toInt32 written else err

/-- What `lio_write` does with a result. -/
def afterCompletion (written : Nat) (result : Int) : Step Nat Int :=
  if result ≤ 0 then .leave result else .next (add32 written result.toNat)

/-- The coroutine waits for its request, which began at `written`. -/
def awaitCompletion (a : Answers) (written : Nat) : Program Empty Writing Int := fun s =>
  .done (a.result s.turn)
    ⟨s.turn + 1, s.accepted ++ List.range' written (a.result s.turn).toNat⟩

/-- One turn of the `while` loop, or its end. -/
def writeTurn (a : Answers) (count written : Nat) : Program Empty Writing (Step Nat Int) :=
  if written < count then do
    let s ← Program.get
    match lioTrySubmitWrite (a.queued s.turn) with
    | some err => pure (.leave (afterRefusal written err))
    | none => do
      let result ← awaitCompletion a written
      pure (afterCompletion written result)
  else pure (.leave (toInt32 written))

def lioWrite (a : Answers) (count fuel : Nat) : Program Empty Writing Int :=
  Program.loop (writeTurn a count) fuel 0

/-! ### The loop in the event loop -/

namespace State

/-- Where a coroutine goes on in `lio_write` after a turn. -/
def goOn (s : State) (i : SlotIndex) (buf : UInt64) (count : Nat) : Step Nat Int → Pc
  | .leave value => .handler i value
  | .next written =>
    if written < count then
      .submit i (s.writeRequest i buf count written) (.write buf count written)
    else .handler i (toInt32 written)

/-- A handler that calls `lio_write` enters the loop with nothing written. -/
theorem handle_write {s : State} {i : SlotIndex} {value : Int} (at_ : s.pc = .handler i value)
    (buf : UInt64) (count : Nat) :
    s.handle (.write buf count) = some { s with pc := s.goOn i buf count (.next 0) } := by
  unfold handle goOn
  rw [at_]
  by_cases more : 0 < count
  · simp only [if_pos more]
  · simp only [if_neg more]
    rfl

/-- A resumed coroutine makes of its result what a turn of the loop makes of it. -/
theorem continueCall_write (s : State) (i : SlotIndex) (result : Int) (buf : UInt64)
    (count written : Nat) :
    s.continueCall i result (.write buf count written) =
      s.goOn i buf count (afterCompletion written result) := by
  unfold continueCall afterCompletion
  by_cases failed : result ≤ 0
  · simp only [if_pos failed, goOn]
  · simp only [if_neg failed, goOn]

end State

/-- A coroutine whose request was refused twice leaves the loop as a turn does. -/
theorem Call.failure_write {room : Bool → Bool} {err : Int}
    (refused : lioTrySubmitWrite room = some err) (buf : UInt64) (count written : Nat) :
    (Call.write buf count written).failure = afterRefusal written err := by
  unfold lioTrySubmitWrite at refused
  split at refused
  · cases refused
  · split at refused
    · cases refused
    · obtain rfl := Option.some.inj refused
      rfl

/-! ### The answers and how far they carry -/

namespace Answers

variable {a : Answers} {count n k : Nat}

/-- Neither attempt finds room. -/
def Refuses (a : Answers) (n : Nat) : Prop := a.queued n false = false ∧ a.queued n true = false

instance : Decidable (a.Refuses n) := inferInstanceAs (Decidable (_ ∧ _))

/-- The bytes the kernel takes before turn `n`. -/
def sent (a : Answers) : Nat → Nat
  | 0 => 0
  | n + 1 => a.sent n + (a.result n).toNat

/-- In turn `n` there is something left to write and room for the request. -/
def Submits (a : Answers) (count n : Nat) : Prop := a.sent n < count ∧ ¬ a.Refuses n

/-- The loop gets to turn `n`: every turn before it wrote something. -/
def Reaches (a : Answers) (count n : Nat) : Prop :=
  ∀ k < n, a.Submits count k ∧ 0 < a.result k

/-- The kernel never takes more than it was given. -/
def Bounded (a : Answers) (count : Nat) : Prop :=
  ∀ n, a.Reaches count n → a.Submits count n → a.sent n + a.result n ≤ count

/-- Only the first request fails, if any. -/
def FailsAtFirst (a : Answers) (count : Nat) : Prop :=
  ∀ n, a.Reaches count n → a.Submits count n → a.result n ≤ 0 → n = 0

/-- The bytes taken can be counted in a signed number. -/
def Countable (a : Answers) (count : Nat) : Prop := ∀ n, a.Reaches count n → a.sent n < 2 ^ 31

theorem lioTrySubmitWrite_eq_none (h : ¬ a.Refuses n) : lioTrySubmitWrite (a.queued n) = none := by
  unfold lioTrySubmitWrite
  split
  · rfl
  · next full =>
    rw [if_pos]
    by_contra again
    exact h ⟨Bool.eq_false_of_not_eq_true full, Bool.eq_false_of_not_eq_true again⟩

theorem lioTrySubmitWrite_eq_some (h : a.Refuses n) :
    lioTrySubmitWrite (a.queued n) = some (-errAgain) := by
  rw [lioTrySubmitWrite, h.1, h.2]
  rfl

theorem Reaches.succ (h : a.Reaches count n) (submits : a.Submits count n)
    (positive : 0 < a.result n) : a.Reaches count (n + 1) := by
  intro k before
  obtain earlier | rfl := Nat.lt_succ_iff_lt_or_eq.mp before
  · exact h k earlier
  · exact ⟨submits, positive⟩

/-- Every turn before the one that is reached has added to the bytes taken. -/
theorem Reaches.le_sent (h : a.Reaches count n) : n ≤ a.sent n := by
  induction n with
  | zero => exact Nat.zero_le _
  | succ n ih =>
    have before : n ≤ a.sent n := ih fun k less => h k (Nat.lt_succ_of_lt less)
    have positive := (h n (Nat.lt_succ_self n)).2
    rw [sent]
    omega

theorem sent_mono : Monotone a.sent :=
  monotone_nat_of_le_succ fun _ => Nat.le_add_right _ _

/-- Nothing is reached beyond a turn that writes nothing. -/
theorem Reaches.le_of_last (h : a.Reaches count k)
    (last : a.Submits count n → a.result n ≤ 0) : k ≤ n := by
  by_contra beyond
  obtain ⟨submits, positive⟩ := h n (Nat.lt_of_not_le beyond)
  exact absurd positive (Int.not_lt.mpr (last submits))

/-- At the last turn, the condition on the answers is one about this turn. -/
theorem failsAtFirst_and_countable_iff (h : a.Reaches count n)
    (last : a.Submits count n → a.result n ≤ 0) :
    a.FailsAtFirst count ∧ a.Countable count ↔
      (a.Submits count n → n = 0) ∧ a.sent n < 2 ^ 31 := by
  constructor
  · rintro ⟨first, few⟩
    exact ⟨fun submits => first n h submits (last submits), few n h⟩
  · rintro ⟨first, few⟩
    constructor
    · intro k reached submits fails
      have within : k ≤ n := reached.le_of_last last
      obtain earlier | rfl := Nat.lt_or_eq_of_le within
      · exact absurd (h k earlier).2 (Int.not_lt.mpr fails)
      · exact first submits
    · intro k reached
      exact Nat.lt_of_le_of_lt (sent_mono (reached.le_of_last last)) few

end Answers

/-! ### What is reported -/

/-- What a caller may read off the value: with a number, that many bytes were
taken, each once and in order; with an error, none. -/
def Reports (value : Int) (accepted : List Nat) : Prop :=
  (0 ≤ value → accepted = List.range value.toNat) ∧ (value < 0 → accepted = [])

instance (value : Int) (accepted : List Nat) : Decidable (Reports value accepted) :=
  inferInstanceAs (Decidable (_ ∧ _))

/-- A number of bytes is reported if it can be counted in a signed number. -/
theorem reports_count_iff {written : Nat} (fits : written < 2 ^ 32) :
    Reports (toInt32 written) (List.range written) ↔ written < 2 ^ 31 := by
  constructor
  · intro reports
    by_contra large
    have negative : toInt32 written < 0 := by
      unfold toInt32
      rw [Int.bmod_def]
      omega
    have none_ : written = 0 := List.range_eq_nil.mp (reports.2 negative)
    omega
  · intro small
    have same : toInt32 written = written := toInt32_eq (fits32_iff.mpr (by omega))
    rw [same]
    exact ⟨fun _ => by rw [Int.toNat_natCast], fun negative => by omega⟩

/-- A failure is reported if no bytes were taken. -/
theorem reports_failure_iff {written : Nat} {value : Int} (fails : value ≤ 0) :
    Reports value (List.range written) ↔ written = 0 := by
  constructor
  · rintro ⟨number, error⟩
    obtain negative | rfl := Int.lt_or_eq_of_le fails
    · exact List.range_eq_nil.mp (error negative)
    · exact List.range_eq_nil.mp (number (Int.le_refl 0))
  · rintro rfl
    have none_ : value.toNat = 0 := Int.toNat_of_nonpos fails
    exact ⟨fun _ => by rw [none_], fun _ => rfl⟩

/-! ### The run -/

section

variable {a : Answers} {count written : Nat} {s : Writing}

/-- At the head of the loop: what was taken is what was counted. -/
structure AtHead (a : Answers) (count written : Nat) (s : Writing) : Prop where
  reached : a.Reaches count s.turn
  sent : a.sent s.turn = written
  within : written ≤ count
  accepted : s.accepted = List.range written

theorem AtHead.start : AtHead a count 0 {} where
  reached := fun _ before => absurd before (Nat.not_lt_zero _)
  sent := rfl
  within := Nat.zero_le _
  accepted := rfl

/-- The end of the run, as the caller sees it. -/
def Told (a : Answers) (count : Nat) (value : Int) (s : Writing) : Prop :=
  Reports value s.accepted ↔ a.FailsAtFirst count ∧ a.Countable count

section

variable (h : AtHead a count written s)
include h

/-- The loop is left with all the bytes written, or without room for the next. -/
theorem AtHead.told_count (fits : count < 2 ^ 32) (stops : ¬ a.Submits count s.turn) :
    Told a count (toInt32 written) s := by
  have small : written < 2 ^ 32 := Nat.lt_of_le_of_lt h.within fits
  unfold Told
  rw [h.accepted, reports_count_iff small,
    Answers.failsAtFirst_and_countable_iff h.reached fun submits => absurd submits stops, h.sent]
  exact ⟨fun few => ⟨fun submits => absurd submits stops, few⟩, fun told => told.2⟩

/-- The loop is left because there is no room, before anything was written. -/
theorem AtHead.told_refused (nothing : ¬ 0 < written) (refuses : a.Refuses s.turn) :
    Told a count (-errAgain) s := by
  have none_ : written = 0 := Nat.eq_zero_of_not_pos nothing
  have stops : ¬ a.Submits count s.turn := fun submits => submits.2 refuses
  unfold Told
  rw [h.accepted, reports_failure_iff (by decide : -errAgain ≤ 0),
    Answers.failsAtFirst_and_countable_iff h.reached fun submits => absurd submits stops, h.sent]
  exact ⟨fun _ => ⟨fun submits => absurd submits stops, by omega⟩, fun _ => none_⟩

/-- The loop is left because the request failed. -/
theorem AtHead.told_failed (submits : a.Submits count s.turn) (fails : a.result s.turn ≤ 0)
    {t : Writing} (same : t.accepted = s.accepted) : Told a count (a.result s.turn) t := by
  unfold Told
  rw [same, h.accepted, reports_failure_iff fails,
    Answers.failsAtFirst_and_countable_iff h.reached fun _ => fails, ← h.sent]
  constructor
  · intro nothing
    have first : s.turn = 0 := Nat.eq_zero_of_le_zero (nothing ▸ h.reached.le_sent)
    exact ⟨fun _ => first, by omega⟩
  · rintro ⟨first, -⟩
    rw [first submits]
    rfl

/-- A request that succeeds brings the loop back to its head with less to do. -/
theorem AtHead.next (fits : count < 2 ^ 32) (bounded : a.Bounded count)
    (submits : a.Submits count s.turn) (positive : 0 < a.result s.turn) :
    AtHead a count (add32 written (a.result s.turn).toNat)
        ⟨s.turn + 1, s.accepted ++ List.range' written (a.result s.turn).toNat⟩ ∧
      count - add32 written (a.result s.turn).toNat < count - written := by
  have room := bounded s.turn h.reached submits
  have less := submits.1
  have sent := h.sent
  have wraps : add32 written (a.result s.turn).toNat = written + (a.result s.turn).toNat := by
    unfold add32
    omega
  rw [wraps]
  refine ⟨⟨h.reached.succ submits positive, ?_, by omega, ?_⟩, by omega⟩
  · rw [Answers.sent, sent]
  · show s.accepted ++ List.range' written (a.result s.turn).toNat = _
    have joined := @List.range'_append_1 0 written (a.result s.turn).toNat
    rw [Nat.zero_add] at joined
    rw [h.accepted, List.range_eq_range', List.range_eq_range', joined]

end

/-- One turn: the loop ends and the caller is told, or it goes on. -/
theorem writeTurn_total (fits : count < 2 ^ 32) (bounded : a.Bounded count)
    (h : AtHead a count written s) :
    Total (fun t => t = s) (writeTurn a count written)
      fun r t => r.Falls (AtHead a count · t) (fun w => count - w) (Told a count · t)
        (count - written) := by
  apply Total.ite
  · intro more
    apply Total.get_bind
    rintro s rfl
    by_cases refuses : a.Refuses s.turn
    · rw [Answers.lioTrySubmitWrite_eq_some refuses]
      refine Total.ret fun t at_ => ?_
      subst at_
      show Told a count (afterRefusal written (-errAgain)) t
      unfold afterRefusal
      split
      · exact h.told_count fits fun submits => submits.2 refuses
      · next nothing => exact h.told_refused nothing refuses
    · rw [Answers.lioTrySubmitWrite_eq_none refuses]
      have submits : a.Submits count s.turn := ⟨h.sent.symm ▸ more, refuses⟩
      rintro t rfl
      refine ⟨_, _, rfl, ?_⟩
      unfold afterCompletion
      split
      · next fails =>
        refine h.told_failed submits fails ?_
        rw [Int.toNat_of_nonpos fails]
        exact List.append_nil _
      · next positive => exact h.next fits bounded submits (Int.not_le.mp positive)
  · intro finished
    refine Total.ret fun t at_ => ?_
    subst at_
    exact h.told_count fits fun submits => finished (h.sent ▸ submits.1)

end

/-- `lio_write` comes back, for every sequence of answers. What it returns reports
what was written exactly if no request after the first fails and fewer than `2^31`
bytes are taken. -/
theorem lio_write_reports_iff (a : Answers) (count fuel : Nat) (fits : count < 2 ^ 32)
    (bounded : a.Bounded count) (enough : count < fuel) :
    ∃ value s, lioWrite a count fuel {} = .done value s ∧
      (Reports value s.accepted ↔ a.FailsAtFirst count ∧ a.Countable count) := by
  have run := Total.loop (AtHead a count) (fun written _ => count - written)
    (fun written s h => writeTurn_total fits bounded h) fuel 0
  exact run {} ⟨AtHead.start, enough⟩

/-- Ten bytes in two requests. The ring is full at first and has room after the flush. -/
def twoTurns : Answers where
  queued _ flushed := flushed
  result n := if n = 0 then 4 else 6

theorem lio_write_reports_iff_two_turns :
    twoTurns.Bounded 10 ∧
      ∃ value s, lioWrite twoTurns 10 11 {} = .done value s ∧ Reports value s.accepted := by
  have last : twoTurns.Submits 10 2 → twoTurns.result 2 ≤ 0 :=
    fun submits => absurd submits.1 (by decide)
  have few : ∀ n, twoTurns.Reaches 10 n → n ≤ 2 := fun n reached => reached.le_of_last last
  have bounded : twoTurns.Bounded 10 := by
    intro n reached submits
    have less := submits.1
    match n, few n reached with
    | 0, _ => decide
    | 1, _ => decide
    | 2, _ => exact absurd less (by decide)
  obtain ⟨value, s, run, told⟩ :=
    lio_write_reports_iff twoTurns 10 11 (by decide) bounded (by decide)
  refine ⟨bounded, value, s, run, told.mpr ⟨?_, ?_⟩⟩
  · intro n reached _ fails
    match n, few n reached with
    | 0, _ => rfl
    | 1, _ => exact absurd fails (by decide)
    | 2, _ => exact absurd fails (by decide)
  · intro n reached
    exact Nat.lt_of_le_of_lt (Answers.sent_mono (few n reached)) (by decide)

/-- The kernel takes four of ten bytes; then the peer is gone. -/
def brokenPipe : Answers where
  queued _ _ := true
  result n := if n = 0 then 4 else -32

/-- The caller is told of the error and not of the four bytes. -/
theorem broken_pipe_after_four_bytes :
    brokenPipe.Bounded 10 ∧
      lioWrite brokenPipe 10 11 {} = .done (-32) ⟨2, [0, 1, 2, 3]⟩ ∧
      ¬ Reports (-32) [0, 1, 2, 3] := by
  refine ⟨fun n reached _ => ?_, rfl, by decide⟩
  match n, reached with
  | 0, _ => decide
  | 1, _ => decide
  | n + 2, reached => exact absurd (reached 1 (by omega)).2 (by decide)

end Lightc.Lightio
