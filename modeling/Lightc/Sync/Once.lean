import Mathlib.Data.Fintype.Card
import Lightc.Machine.Atomic
import Lightc.Verification.Transition

/-!
# One-time initialisation

The word of an `lc_once` goes from 0 through 1, while the winner of the
compare-exchange executes `func`, to 2. Losers sleep while it is 1. The winner's
store of 2 and its wake-up are two steps, and a loser may be anywhere between its
load and its `futex_wait` at either of them.

A party is one call in progress, so a thread may call again and again, and a call
that `func` itself makes is one more party. `func` takes any time, and the futex
may wake a sleeper spuriously.
-/

namespace Lightc.Sync.Once

open Machine Verification Function

/-- The next shared access of a party. -/
inductive Pc
  | outside
  /-- Before the load of the fast path. -/
  | load
  /-- Before the compare-exchange. -/
  | cas
  /-- It won; `func` is executing. -/
  | run
  /-- `func` has returned; before the store of 2. -/
  | store
  /-- Before `futex_wake`. -/
  | wake
  /-- It lost; before the load in the loop guard. -/
  | check
  /-- Before `futex_wait`. -/
  | wait
  /-- Sleeping in `futex_wait`. -/
  | asleep
  deriving DecidableEq, Repr

/-- Between the compare-exchange that won and the return of that call. -/
@[simp] def Pc.Wins : Pc → Prop
  | .run | .store | .wake => True
  | _ => False

/-- Not past the compare-exchange. -/
def Pc.Early : Pc → Prop
  | .outside | .load | .cas => True
  | _ => False

structure State (T : Type) where
  /-- The word of the `lc_once`. -/
  state : UInt32
  pc : T → Pc
  /-- The executions of `func` begun and completed. -/
  begun : Nat
  completed : Nat
  /-- The calls that have returned. -/
  returned : T → Nat
  /-- The winner's wake-up is over. -/
  woken : Bool

variable {T : Type} [DecidableEq T]

namespace State

@[simp] def goto (s : State T) (t : T) (pc : Pc) : State T :=
  { s with pc := update s.pc t pc }

/-- The call comes back. -/
def leave (s : State T) (t : T) : State T :=
  { s.goto t .outside with returned := update s.returned t (s.returned t + 1) }

/-- The compare-exchange succeeds and `func` begins. -/
def win (s : State T) (t : T) (word : UInt32) : State T :=
  { s.goto t .run with state := word, begun := s.begun + 1 }

/-- The winner's `futex_wake` returns, and its call with it. -/
def wakeAll (s : State T) (t : T) (released : Finset T) : State T :=
  { s.leave t with
    pc := fun u => if u ∈ released then .check else (s.leave t).pc u
    woken := true }

theorem goto_self (s : State T) (t : T) (pc : Pc) : (s.goto t pc).pc t = pc :=
  update_self ..

theorem goto_other (s : State T) {t u : T} (pc : Pc) (other : u ≠ t) :
    (s.goto t pc).pc u = s.pc u :=
  update_of_ne other ..

end State

/-- One step of `lc_call_once` up to the wake-up. -/
def lcCallOnce (s : State T) (t : T) : Option (State T) :=
  match s.pc t with
  | .load => some (if s.state = 2 then s.leave t else s.goto t .cas)
  | .cas =>
    let (won, word) := atomicCompareExchange s.state 0 1
    some (if won then s.win t word else { s.goto t .check with state := word })
  | .run => some { s.goto t .store with completed := s.completed + 1 }
  | .store => some { s.goto t .wake with state := 2 }
  | .check => some (if s.state ≠ 2 then s.goto t .wait else s.leave t)
  | .wait => some (s.goto t (if futexWait s.state 1 then .asleep else .check))
  | _ => none

/-- The atomic steps of all parties. -/
inductive Step : State T → State T → Prop
  | call {s : State T} {t : T} (at_ : s.pc t = .outside) : Step s (s.goto t .load)
  | advance {s s' : State T} {t : T} (run : lcCallOnce s t = some s') : Step s s'
  | wake {s : State T} {t : T} {released : Finset T} (at_ : s.pc t = .wake)
      (wake : WakeUpTo 2147483647 (fun u => s.pc u = .asleep) released) :
      Step s (s.wakeAll t released)
  | spurious {s : State T} {t : T} (at_ : s.pc t = .asleep) : Step s (s.goto t .check)

/-- `LC_ONCE_INIT` before the first call. -/
def start (T : Type) : State T where
  state := 0
  pc _ := .outside
  begun := 0
  completed := 0
  returned _ := 0
  woken := false

def system (T : Type) [DecidableEq T] : System (State T) where
  init s := s = start T
  step := Step

/-! ### What a step does -/

/-- A step of a party that neither wins nor has won: it moves on, and returns only if
the word is 2. -/
inductive Loses (s : State T) (t : T) : State T → Prop
  | goto {pc : Pc} (loser : ¬ (s.pc t).Wins) (stays : ¬ pc.Wins)
      (early : s.state = 0 → (s.pc t).Early → pc.Early)
      (asleep : pc = .asleep → s.state = 1) : Loses s t (s.goto t pc)
  | leave (loser : ¬ (s.pc t).Wins) (two : s.state = 2) : Loses s t (s.leave t)

/-- What a step does to the initialisation. -/
inductive Moves (s : State T) : State T → Prop
  | lose {s' : State T} (t : T) (moved : Loses s t s') : Moves s s'
  | win (t : T) (at_ : s.pc t = .cas) (zero : s.state = 0) : Moves s (s.win t 1)
  | complete (t : T) (at_ : s.pc t = .run) :
      Moves s { s.goto t .store with completed := s.completed + 1 }
  | store (t : T) (at_ : s.pc t = .store) : Moves s { s.goto t .wake with state := 2 }
  | wake (t : T) (at_ : s.pc t = .wake) (released : Finset T)
      (wake : WakeUpTo 2147483647 (fun u => s.pc u = .asleep) released) :
      Moves s (s.wakeAll t released)

variable {s s' : State T} {t : T}

theorem moves_of_lcCallOnce (run : lcCallOnce s t = some s') : Moves s s' := by
  unfold lcCallOnce at run
  cases at_ : s.pc t <;> simp only [at_, reduceCtorEq, Option.some.injEq] at run
  case load =>
    subst s'
    have loser : ¬ (s.pc t).Wins := by simp [at_]
    split
    · next two => exact .lose t (.leave loser two)
    · exact .lose t (.goto loser id (fun _ _ => trivial) (by rintro ⟨⟩))
  case cas =>
    subst s'
    by_cases zero : s.state = 0
    · simpa [zero] using Moves.win t at_ zero
    · have lost : Loses s t (s.goto t .check) :=
        .goto (by simp [at_]) id (fun word => absurd word zero) (by rintro ⟨⟩)
      simpa [zero] using Moves.lose t lost
  case run => exact run ▸ .complete t at_
  case store => exact run ▸ .store t at_
  case check =>
    subst s'
    have loser : ¬ (s.pc t).Wins := by simp [at_]
    split
    · refine .lose t (.goto loser id (fun _ early => ?_) (by rintro ⟨⟩))
      rw [at_] at early
      exact early
    · next two => exact .lose t (.leave loser (not_not.mp two))
  case wait =>
    subst s'
    refine .lose t (.goto (by simp [at_]) ?_ (fun _ early => ?_) ?_)
    · split <;> exact id
    · rw [at_] at early
      exact early.elim
    · intro sleeps
      by_contra other
      simp [other] at sleeps

theorem moves_of_step (step : Step s s') : Moves s s' := by
  cases step with
  | @call t at_ =>
    exact .lose t (.goto (by simp [at_]) id (fun _ _ => trivial) (by rintro ⟨⟩))
  | advance run => exact moves_of_lcCallOnce run
  | @wake t released at_ wake => exact .wake t at_ released wake
  | @spurious t at_ =>
    refine .lose t (.goto (by simp [at_]) id (fun _ early => ?_) (by rintro ⟨⟩))
    rw [at_] at early
    exact early

/-! ### The stages of an initialisation -/

/-- Nobody but `w` has won. -/
def OnlyWinner (s : State T) (w : T) : Prop := ∀ u, (s.pc u).Wins → u = w

/-- How far the initialisation has come. -/
inductive Stage (s : State T) : Prop
  | untouched (word : s.state = 0) (early : ∀ t, (s.pc t).Early) (begun : s.begun = 0)
      (completed : s.completed = 0) (woken : s.woken = false)
  | executing (w : T) (word : s.state = 1) (at_ : s.pc w = .run) (only : OnlyWinner s w)
      (begun : s.begun = 1) (completed : s.completed = 0) (woken : s.woken = false)
  | executed (w : T) (word : s.state = 1) (at_ : s.pc w = .store) (only : OnlyWinner s w)
      (begun : s.begun = 1) (completed : s.completed = 1) (woken : s.woken = false)
  | stored (w : T) (word : s.state = 2) (at_ : s.pc w = .wake) (only : OnlyWinner s w)
      (begun : s.begun = 1) (completed : s.completed = 1) (woken : s.woken = false)
  | settled (word : s.state = 2) (nobody : ∀ t, ¬ (s.pc t).Wins) (begun : s.begun = 1)
      (completed : s.completed = 1)

variable {pc : Pc}

theorem Pc.Early.not_wins (early : pc.Early) : ¬ pc.Wins := by
  cases pc <;> first | exact id | exact early.elim

theorem OnlyWinner.goto {w : T} (only : OnlyWinner s w) (stays : ¬ pc.Wins) :
    OnlyWinner (s.goto t pc) w :=
  (forall_update_iff s.pc fun u pc => pc.Wins → u = w).mpr
    ⟨fun wins => absurd wins stays, fun u _ => only u⟩

/-- The winner goes on. -/
theorem OnlyWinner.advance {w : T} (only : OnlyWinner s w) (pc : Pc) :
    OnlyWinner (s.goto w pc) w := by
  intro u wins
  by_contra other
  rw [s.goto_other pc other] at wins
  exact other (only u wins)

/-- A losing party changes nothing of the stage. -/
theorem Stage.loses (h : Stage s) (moved : Loses s t s') : Stage s' := by
  cases moved with
  | @goto pc loser stays early _ =>
    have winner : ∀ w, (s.pc w).Wins → (s.goto t pc).pc w = s.pc w := by
      refine fun w wins => s.goto_other pc ?_
      rintro rfl
      exact loser wins
    cases h with
    | untouched word all begun completed woken =>
      refine .untouched word ?_ begun completed woken
      exact (forall_update_iff s.pc fun _ pc => pc.Early).mpr
        ⟨early word (all t), fun u _ => all u⟩
    | executing w word at_ only begun completed woken =>
      have kept := (winner w (by rw [at_]; trivial)).trans at_
      exact .executing w word kept (only.goto stays) begun completed woken
    | executed w word at_ only begun completed woken =>
      have kept := (winner w (by rw [at_]; trivial)).trans at_
      exact .executed w word kept (only.goto stays) begun completed woken
    | stored w word at_ only begun completed woken =>
      have kept := (winner w (by rw [at_]; trivial)).trans at_
      exact .stored w word kept (only.goto stays) begun completed woken
    | settled word nobody begun completed =>
      refine .settled word ?_ begun completed
      exact (forall_update_iff s.pc fun _ pc => ¬ pc.Wins).mpr
        ⟨stays, fun u _ => nobody u⟩
  | leave loser two =>
    cases h with
    | untouched word => exact absurd (word.symm.trans two) (by decide)
    | executing w word | executed w word => exact absurd (word.symm.trans two) (by decide)
    | stored w word at_ only begun completed woken =>
      refine .stored w word ?_ (only.goto id) begun completed woken
      refine (s.goto_other .outside ?_).trans at_
      rintro rfl
      rw [at_] at loser
      exact loser trivial
    | settled word nobody begun completed =>
      refine .settled word ?_ begun completed
      exact (forall_update_iff s.pc fun _ pc => ¬ pc.Wins).mpr ⟨id, fun u _ => nobody u⟩

omit [DecidableEq T] in
theorem Stage.of_zero (h : Stage s) (zero : s.state = 0) :
    (∀ t, (s.pc t).Early) ∧ s.begun = 0 ∧ s.completed = 0 ∧ s.woken = false := by
  cases h with
  | untouched _ early begun completed woken => exact ⟨early, begun, completed, woken⟩
  | executing w word | executed w word | stored w word =>
    exact absurd (word.symm.trans zero) (by decide)
  | settled word => exact absurd (word.symm.trans zero) (by decide)

omit [DecidableEq T] in
theorem Stage.of_one (h : Stage s) (one : s.state = 1) : s.woken = false ∧ ∃ w, (s.pc w).Wins := by
  cases h with
  | untouched word | settled word => exact absurd (word.symm.trans one) (by decide)
  | executing w _ at_ _ _ _ woken | executed w _ at_ _ _ _ woken =>
    exact ⟨woken, w, by rw [at_]; trivial⟩
  | stored w word => exact absurd (word.symm.trans one) (by decide)

omit [DecidableEq T] in
theorem Stage.of_two (h : Stage s) (two : s.state = 2) : s.completed = 1 := by
  cases h with
  | untouched word => exact absurd (word.symm.trans two) (by decide)
  | executing w word | executed w word => exact absurd (word.symm.trans two) (by decide)
  | stored _ _ _ _ _ completed => exact completed
  | settled _ _ _ completed => exact completed

omit [DecidableEq T] in
/-- The winner's position tells the stage. -/
theorem Stage.of_wins (h : Stage s) (at_ : s.pc t = pc) (wins : pc.Wins) :
    OnlyWinner s t ∧ s.begun = 1 ∧ s.woken = false ∧
      ((pc = .run ∧ s.state = 1 ∧ s.completed = 0) ∨
        (pc = .store ∧ s.state = 1 ∧ s.completed = 1) ∨
        (pc = .wake ∧ s.state = 2 ∧ s.completed = 1)) := by
  subst at_
  cases h with
  | untouched word early => exact absurd wins (early t).not_wins
  | executing w word at_ only begun completed woken =>
    cases only t wins
    exact ⟨only, begun, woken, .inl ⟨at_, word, completed⟩⟩
  | executed w word at_ only begun completed woken =>
    cases only t wins
    exact ⟨only, begun, woken, .inr (.inl ⟨at_, word, completed⟩)⟩
  | stored w word at_ only begun completed woken =>
    cases only t wins
    exact ⟨only, begun, woken, .inr (.inr ⟨at_, word, completed⟩)⟩
  | settled word nobody => exact absurd wins (nobody t)

theorem Stage.moves (h : Stage s) (moved : Moves s s') : Stage s' := by
  cases moved with
  | lose t moved => exact h.loses moved
  | win t at_ zero =>
    obtain ⟨early, begun, completed, woken⟩ := h.of_zero zero
    refine .executing t rfl (s.goto_self t .run) (fun u wins => ?_) (congrArg (· + 1) begun)
      completed woken
    by_contra other
    exact (early u).not_wins (s.goto_other .run other ▸ wins)
  | complete t at_ =>
    obtain ⟨only, begun, woken, ⟨-, word, completed⟩ | ⟨no, -⟩ | ⟨no, -⟩⟩ :=
      h.of_wins at_ trivial
    · exact .executed t word (s.goto_self t .store) (only.advance .store) begun
        (congrArg (· + 1) completed) woken
    · cases no
    · cases no
  | store t at_ =>
    obtain ⟨only, begun, woken, ⟨no, -⟩ | ⟨-, -, completed⟩ | ⟨no, -⟩⟩ :=
      h.of_wins at_ trivial
    · cases no
    · exact .stored t rfl (s.goto_self t .wake) (only.advance .wake) begun completed woken
    · cases no
  | wake t at_ released wake =>
    obtain ⟨only, begun, -, ⟨no, -⟩ | ⟨no, -⟩ | ⟨-, word, completed⟩⟩ := h.of_wins at_ trivial
    · cases no
    · cases no
    · refine .settled word (fun u wins => ?_) begun completed
      simp only [State.wakeAll] at wins
      split at wins
      · exact wins
      · refine (forall_update_iff s.pc fun _ pc => ¬ pc.Wins).mpr ⟨id, ?_⟩ u wins
        exact fun u same wins => same (only u wins)

theorem stage_inductive : (system T).Inductive Stage where
  init s start := by
    subst start
    exact .untouched rfl (fun _ => trivial) rfl rfl rfl
  step _ _ h step := h.moves (moves_of_step step)

/-! ### Nobody sleeps after the wake-up -/

/-- A sleeper has a winner to wake it. -/
def Rested (s : State T) : Prop :=
  ∀ t, s.pc t = .asleep → s.woken = false ∧ ∃ w, (s.pc w).Wins

/-- Whoever does not fall asleep now has slept before. -/
theorem asleep_of_goto {u : T} (pc : Pc) (awake : pc ≠ .asleep)
    (asleep : (s.goto t pc).pc u = .asleep) : s.pc u = .asleep :=
  (forall_update_iff s.pc fun u pc => pc = .asleep → s.pc u = .asleep).mpr
    ⟨fun same => absurd same awake, fun _ _ => id⟩ u asleep

theorem Rested.loses (h : Rested s) (stage : Stage s) (moved : Loses s t s') : Rested s' := by
  have kept : ∀ {w : T} {pc : Pc}, ¬ (s.pc t).Wins → (s.pc w).Wins →
      ((s.goto t pc).pc w).Wins := by
    intro w pc loser wins
    rwa [s.goto_other pc (by rintro rfl; exact loser wins)]
  cases moved with
  | @goto pc loser stays early falls =>
    intro u asleep
    by_cases sleeps : pc = .asleep
    · -- The word is 1, so the winner has not yet stored 2.
      obtain ⟨woken, w, wins⟩ := stage.of_one (falls sleeps)
      exact ⟨woken, w, kept loser wins⟩
    · obtain ⟨woken, w, wins⟩ := h u (asleep_of_goto pc sleeps asleep)
      exact ⟨woken, w, kept loser wins⟩
  | leave loser =>
    intro u asleep
    obtain ⟨woken, w, wins⟩ := h u (asleep_of_goto .outside (by decide) asleep)
    exact ⟨woken, w, kept loser wins⟩

theorem Rested.moves (h : Rested s) (fit : ThreadsFit T) (stage : Stage s) (moved : Moves s s') :
    Rested s' := by
  cases moved with
  | lose t moved => exact h.loses stage moved
  | win t at_ zero =>
    intro u asleep
    have early := (stage.of_zero zero).1 u
    rw [asleep_of_goto (s := s) .run (by decide) asleep] at early
    exact early.elim
  | complete t at_ =>
    intro u asleep
    have before := asleep_of_goto (s := s) .store (by decide) asleep
    exact ⟨(h u before).1, t, (congrArg Pc.Wins (s.goto_self t .store)).mpr trivial⟩
  | store t at_ =>
    intro u asleep
    have before := asleep_of_goto (s := s) .wake (by decide) asleep
    exact ⟨(h u before).1, t, (congrArg Pc.Wins (s.goto_self t .wake)).mpr trivial⟩
  | wake t at_ released wake =>
    intro u asleep
    simp only [State.wakeAll] at asleep
    split at asleep
    · cases asleep
    · next missed =>
      have before := asleep_of_goto (s := s) .outside (by decide) asleep
      exact absurd (wake.all fit u before) missed

theorem rested_of_reachable (fit : ThreadsFit T) (run : (system T).Reachable s) : Rested s := by
  refine System.Inductive.of_reachable (S := system T) ?_ ?_ s run
  · rintro s rfl t ⟨⟩
  · intro s s' run h step
    exact h.moves fit (stage_inductive.reachable run) (moves_of_step step)

/-- A call that comes back finds `func` completed. -/
theorem completed_of_returns (stage : Stage s) (moved : Moves s s')
    (returns : s'.returned t ≠ s.returned t) : s.completed = 1 := by
  cases moved with
  | lose u moved =>
    cases moved with
    | goto => exact absurd rfl returns
    | leave _ two => exact stage.of_two two
  | win | complete | store => exact absurd rfl returns
  | wake u at_ =>
    obtain ⟨-, -, -, ⟨no, -⟩ | ⟨no, -⟩ | ⟨-, -, completed⟩⟩ := stage.of_wins at_ trivial
    · cases no
    · cases no
    · exact completed

/-- For any number of parties and every interleaving: `func` is executed at most once; a
call returns only when that execution has completed; and, as the kernel's wake-up of
`INT_MAX` reaches every thread there can be, nobody is asleep once the winner's wake-up is
over, and a sleeper always has a winner that has yet to wake it. -/
theorem call_once_runs_once {s : State T} (run : (system T).Reachable s) :
    s.begun ≤ 1 ∧ s.completed ≤ s.begun ∧
      (∀ s' t, Step s s' → s'.returned t ≠ s.returned t → s.completed = 1) ∧
      (ThreadsFit T → ∀ t, s.pc t = .asleep → s.woken = false ∧ ∃ w, (s.pc w).Wins) := by
  have stage : Stage s := stage_inductive.reachable run
  refine ⟨?_, ?_, fun s' t step => completed_of_returns stage (moves_of_step step),
    fun fit => rested_of_reachable fit run⟩
  all_goals cases stage <;> omega

/-- A schedule of steps up to the wake-up. -/
def follow (s : State T) (schedule : List T) : Option (State T) :=
  schedule.foldlM
    (fun s t => if s.pc t = .outside then some (s.goto t .load) else lcCallOnce s t) s

theorem reachable_of_follow {schedule : List T} (run : (system T).Reachable s)
    (followed : follow s schedule = some s') : (system T).Reachable s' := by
  refine run.foldlM (fun s t s' step => ?_) followed
  split at step
  · next at_ =>
    cases step
    exact Step.call at_
  · exact Step.advance step

/-- One party wins; the other comes too late and falls asleep while `func` executes. The
winner stores 2 and is about to wake it. -/
def lateLoser : List Bool :=
  List.replicate 3 false ++ List.replicate 5 true ++ List.replicate 2 false

theorem call_once_runs_once_late :
    ∃ s : State Bool, follow (start Bool) lateLoser = some s ∧ s.pc true = .asleep ∧
      s.state = 2 ∧ s.begun ≤ 1 ∧ s.woken = false ∧ ∃ w, (s.pc w).Wins := by
  have executed := (Option.some_get (x := follow (start Bool) lateLoser)
    (by decide +kernel)).symm
  have asleep : ((follow (start Bool) lateLoser).get (by decide +kernel)).pc true = .asleep := by
    decide +kernel
  have main := call_once_runs_once (reachable_of_follow (.init rfl) executed)
  obtain ⟨waking, winner⟩ :=
    main.2.2.2 (fun threads => (Finset.card_le_univ threads).trans (by decide)) true asleep
  exact ⟨_, executed, asleep, by decide +kernel, main.1, waking, winner⟩

end Lightc.Sync.Once
