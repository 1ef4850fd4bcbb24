import Lightc.Coroutines.Safety
import Lightc.Verification.RoundRobin

/-!
# The order of turns

`lc_coroutine_yield` looks for the next coroutine from the current one upwards and around,
over as many places as there are coroutines at that moment. Finished ones are left out, and
new ones are added at the end while turns go round. None that can run is passed over, so
between two resumptions of one coroutine every other has exactly one.
-/

namespace Lightc.Coroutines

open Machine Verification Verification.RoundRobin

variable {S : Type}

/-! ### The search -/

namespace Scheduler

variable {d : Scheduler S}

/-- Where the search meets a coroutine. -/
theorem getElem_candidates (k : Nat) (inside : k < d.candidates.length) :
    d.candidates[k] = add32 d.current (1 + k) % d.count := by
  simp [candidates]

@[simp] theorem length_candidates : d.candidates.length = d.count := by simp [candidates]

/-- The search passes over finished coroutines only. -/
theorem not_passed_of_findNext {next : Nat} (found : d.findNext = some next)
    (inside : d.current < d.count) (sized : d.count ≤ maxStacks) {j : Nat} (exists_ : j < d.count)
    (unfinished : (d.coroutines j).state ≠ .finished) : ¬ Passed d.current next j := by
  have word : d.count ≤ 2 ^ 30 := sized
  obtain ⟨-, k, bound, here, earlier⟩ := List.find?_eq_some_iff_getElem.mp found
  rw [getElem_candidates] at here
  have short : k < d.count := length_candidates (d := d) ▸ bound
  rw [add32_of_lt (by omega)] at here
  intro passed
  -- The search meets `j` after `m` other places, before it comes to `next`.
  obtain ⟨m, before, place⟩ : ∃ m < k, (d.current + (1 + m)) % d.count = j := by
    unfold Passed at passed
    by_cases around : d.current + (1 + k) < d.count
    · rw [Nat.mod_eq_of_lt around] at here
      rw [if_pos (by omega)] at passed
      exact ⟨j - d.current - 1, by omega, by rw [Nat.mod_eq_of_lt] <;> omega⟩
    · rw [Nat.mod_eq_sub_mod (by omega), Nat.mod_eq_of_lt (by omega)] at here
      rw [if_neg (by omega)] at passed
      rcases passed with above | below
      · exact ⟨j - d.current - 1, by omega, by rw [Nat.mod_eq_of_lt] <;> omega⟩
      · refine ⟨j + d.count - d.current - 1, by omega, ?_⟩
        rw [Nat.mod_eq_sub_mod (by omega), Nat.mod_eq_of_lt] <;> omega
  have skipped := earlier m before
  rw [getElem_candidates, add32_of_lt (by omega), place] at skipped
  simp [unfinished] at skipped

end Scheduler

/-! ### One turn -/

variable [DecidableEq S] {t u : Thread S} {s : S} {c i j : Nat}

omit [DecidableEq S] in
/-- A coroutine marked as running is the executing one. -/
theorem Safe.control_of_running (h : Safe t) (exists_ : j < t.count s)
    (running : t.state s j = .running) : t.control = .flow (.coroutine s j) := by
  have unparked : ¬ Parked t s j := by
    unfold Parked
    rw [running]
    rintro (finished | ⟨ready, -⟩)
    · cases finished
    · cases ready
  cases h.placed with
  | outside _ parked => exact absurd (parked s j exists_) unparked
  | @inside s' i control _ turn =>
    have own : (s, j) = (s', i) := by
      by_contra ne
      exact unparked (turn.others s j exists_ ne)
    cases own
    exact control

/-- The coroutine exists and has not returned. -/
def Unfinished (s : S) (j : Nat) (t : Thread S) : Prop :=
  j < t.count s ∧ t.state s j ≠ .finished

/-- What a call by coroutine `c` of `s` does to the turn: it keeps it, the run is over, or it
goes on to a coroutine before which there was none that could run. -/
inductive Turn (s : S) (c : Nat) (t t' : Thread S) : Label S → Prop
  | kept (control : t'.control = .flow (.coroutine s c)) (grown : t.count s ≤ t'.count s) :
      Turn s c t t' .stayed
  | finished : Turn s c t t' (.switched (.main s))
  | given (n : Nat) (control : t'.control = .flow (.coroutine s n))
      (grown : t.count s ≤ t'.count s) (fair : ∀ j, Unfinished s j t → ¬ Passed c n j) :
      Turn s c t t' (.switched (.coroutine s n))

/-- The search and the switch, once the coroutine is marked as ready or finished. -/
theorem turn_switchToNext (booked : Booked u) (turn : InTurn u s c)
    (left : u.state s c ≠ .running) :
    Turn s c u (u.switchToNext (.coroutine s c) s).1 (u.switchToNext (.coroutine s c) s).2 := by
  have safe := (lawful_switchToNext booked turn left).1.safe
  have inside : (u.schedulers s).current < (u.schedulers s).count := by
    rw [turn.current]
    exact turn.inside
  unfold Thread.switchToNext at safe ⊢
  cases found : (u.schedulers s).findNext with
  | none => exact .finished
  | some next =>
    simp only [found] at safe ⊢
    have count : ((u.giveTurn s next).switch (.coroutine s c)
        (.coroutine s (u.schedulers s).current) (.coroutine s next)).count s = u.count s :=
      (Thread.switch_count _ _ _ s).trans ((retuned_giveTurn next).count s)
    refine .given next (safe.control_of_running ?_ ?_) count.ge fun j unfinished => ?_
    · rw [count]
      exact (Scheduler.of_findNext_eq_some found).1
    · rw [Thread.switch_state, Thread.giveTurn_state, if_pos rfl]
    · rw [← turn.current]
      exact Scheduler.not_passed_of_findNext found inside (booked.sized s) unfinished.1
        unfinished.2

omit [DecidableEq S] in
/-- Marking the coroutine whose turn it is does not change who waits. -/
theorem Turn.marked {t' : Thread S} {label : Label S} (h : Turn s c u t' label)
    (count : u.count s = t.count s) (state : ∀ j, j ≠ c → u.state s j = t.state s j) :
    Turn s c t t' label := by
  cases h with
  | kept control grown => exact .kept control (count ▸ grown)
  | finished => exact .finished
  | given n control grown fair =>
    refine .given n control (count ▸ grown) fun j unfinished => ?_
    by_cases own : j = c
    · subst own
      exact not_passed_self
    · refine fair j ⟨count ▸ unfinished.1, ?_⟩
      rw [state j own]
      exact unfinished.2

theorem turn_yield (booked : Booked t) (turn : InTurn t s c) (running : t.state s c = .running) :
    Turn s c t (t.lcCoroutineYield (.coroutine s c)).1 (t.lcCoroutineYield (.coroutine s c)).2 := by
  rw [turn.yield_eq, if_pos running]
  obtain ⟨same, turn', states⟩ := turn.setState .ready (t.schedulers s).activeCount
  refine (turn_switchToNext (booked.retuned same) turn' ?_).marked (same.count s) fun j ne => ?_
  · rw [states, if_pos rfl]
    decide
  · rw [states, if_neg fun own => ne (congrArg Prod.snd own)]

theorem turn_finish (booked : Booked t) (turn : InTurn t s c) :
    Turn s c t (t.trampolineEnd s c).1 (t.trampolineEnd s c).2 := by
  obtain ⟨u, t', target, same, turn', states, next, ended⟩ := turn.trampolineEnd_eq booked
  have given := turn_switchToNext (booked.retuned same) turn' (by rw [states, if_pos rfl]; decide)
  rw [next] at given
  have marked := given.marked (same.count s) fun j ne => by
    rw [states, if_neg fun own => ne (congrArg Prod.snd own)]
  rw [ended]
  cases marked with
  | finished => exact .finished
  | given n control grown fair => exact .given n control grown fair

theorem turn_perform {a : Action S} {t' : Thread S} {label : Label S} (safe : Safe t)
    (control : t.control = .flow (.coroutine s c)) (permitted : Permitted t a)
    (performed : perform t a = some (t', label)) : Turn s c t t' label := by
  obtain ⟨running, turn⟩ : t.state s c = .running ∧ InTurn t s c := by
    cases safe.placed with
    | outside outside => cases control.symm.trans outside
    | inside inside running turn =>
      cases control.symm.trans inside
      exact ⟨running, turn⟩
  unfold perform at performed
  rw [control] at performed
  cases a with
  | create s' func arg pageSize stack guarded =>
    simp only [Option.some.injEq, Prod.mk.injEq] at performed
    obtain ⟨rfl, rfl⟩ := performed
    refine .kept control ?_
    by_cases own : s = s'
    · subst own
      rw [Thread.count, Thread.count, Thread.setScheduler_self]
      rcases Scheduler.lcCoroutineCreate_cases (d := t.schedulers s) func arg pageSize stack
        guarded with failed | ⟨-, -, co, -, -, created⟩
      · rw [failed]
      · rw [created]
        exact Nat.le_succ _
    · rw [Thread.count, Thread.count, Thread.setScheduler_of_ne own]
  | run | destroy => cases control.symm.trans permitted.2
  | yield =>
    have yielded := turn_yield safe.booked turn running
    rwa [Option.some.inj performed] at yielded
  | finish =>
    have ended := turn_finish safe.booked turn
    rwa [Option.some.inj performed] at ended

/-! ### Intervals -/

/-- A stretch of a thread's execution from `t`, with what its calls switched to, in all
states of which `P` holds. -/
inductive Interval (P : Thread S → Prop) (t : Thread S) : List (Label S) → Thread S → Prop
  | nil (holds : P t) : Interval P t [] t
  | snoc {labels : List (Label S)} {u v : Thread S} {a : Action S} {label : Label S}
      (before : Interval P t labels u) (permitted : Permitted u a)
      (performed : perform u a = some (v, label)) (holds : P v) :
      Interval P t (labels ++ [label]) v

/-- Whose turn it becomes in scheduler `s`. -/
def turnOf (s : S) : Label S → Option Nat
  | .switched (.coroutine s' i) => if s' = s then some i else none
  | _ => none

@[simp] theorem count_turnOf (labels : List (Label S)) (s : S) (j : Nat) :
    (labels.filterMap (turnOf s)).count j = labels.count (.switched (.coroutine s j)) := by
  induction labels with
  | nil => rfl
  | cons label labels ih =>
    rw [List.count_cons, ← ih]
    cases label with
    | stayed => simp [List.filterMap_cons, turnOf]
    | switched target =>
      cases target with
      | main => simp [List.filterMap_cons, turnOf]
      | coroutine s' k =>
        by_cases own : s' = s
        · subst own
          simp [turnOf, List.count_cons]
        · simp [turnOf, own]

variable {labels : List (Label S)}

/-- As long as there is somebody left to run, the run goes on. -/
theorem Interval.inside (safe : Safe t) (control : t.control = .flow (.coroutine s i))
    (h : Interval (Unfinished s j) t labels u) :
    Safe u ∧ t.count s ≤ u.count s ∧ ∃ c, u.control = .flow (.coroutine s c) := by
  induction h with
  | nil => exact ⟨safe, le_rfl, i, control⟩
  | snoc _ permitted performed holds ih =>
    obtain ⟨safe, more, c, control⟩ := ih
    have lawful := (lawful_perform safe permitted performed).1
    refine ⟨lawful.safe, ?_⟩
    cases turn_perform safe control permitted performed with
    | kept control grown => exact ⟨more.trans grown, c, control⟩
    | finished => exact absurd (lawful.returned s rfl j holds.1) holds.2
    | given n control grown => exact ⟨more.trans grown, n, control⟩

/-- If `i` is unfinished at the end of an interval that began with its turn, the turns in
between passed over neither `i` nor `j`. -/
theorem Interval.turns (safe : Safe t) (control : t.control = .flow (.coroutine s i))
    (present : i < t.count s) (h : Interval (Unfinished s j) t labels u)
    (unfinished : u.state s i ≠ .finished) :
    ∃ c, u.control = .flow (.coroutine s c) ∧
      Turns (fun k => k = i ∨ k = j) i (labels.filterMap (turnOf s)) c := by
  induction h with
  | nil => exact ⟨i, control, .nil⟩
  | @snoc labels u v a label before permitted performed holds ih =>
    obtain ⟨safe', more, -⟩ := before.inside safe control
    have lawful := (lawful_perform safe' permitted performed).1
    have exists_ : i < u.count s := Nat.lt_of_lt_of_le present more
    have later : i < v.count s :=
      Nat.lt_of_lt_of_le present (Interval.inside safe control
        (before.snoc permitted performed holds)).2.1
    have was : u.state s i ≠ .finished := fun finished =>
      unfinished (lawful.finished s i exists_ finished later)
    obtain ⟨c, control', turns⟩ := ih was
    rw [List.filterMap_append]
    cases turn_perform safe' control' permitted performed with
    | kept control =>
      refine ⟨c, control, ?_⟩
      simpa [List.filterMap_cons, turnOf] using turns
    | finished => exact absurd (lawful.returned s rfl j holds.1) holds.2
    | given n control grown fair =>
      refine ⟨n, control, ?_⟩
      have fair' : ∀ k, k = i ∨ k = j → ¬ Passed c n k := by
        rintro k (rfl | rfl)
        · exact fair k ⟨exists_, was⟩
        · refine fair k ?_
          cases before with
          | nil holds => exact holds
          | snoc _ _ _ holds => exact holds
      simpa [List.filterMap_cons, turnOf] using turns.snoc fair'

/-! ### Resumptions -/

/-- A run begins with the first coroutine that can run. -/
theorem control_of_run (safe : Safe t) (control : t.control = .flow .main)
    (started : (t.lcSchedulerRun .main s).2 = .switched (.coroutine s i)) :
    (t.lcSchedulerRun .main s).1.control = .flow (.coroutine s i) := by
  have safe' := (lawful_run safe control s).1.safe
  unfold Thread.lcSchedulerRun at safe' started ⊢
  simp only at safe' started ⊢
  by_cases empty : (t.schedulers s).count = 0
  · simp [empty] at started
  · rw [if_neg empty] at safe' started ⊢
    by_cases none_ : (t.schedulers s).countRunnable.1 = 0
    · simp [none_] at started
    · simp only [none_, if_false, Label.switched.injEq, Slot.coroutine.injEq, true_and] at started
      obtain ⟨inside, -⟩ := Scheduler.of_countRunnable none_
      simp only [none_, if_false] at safe' ⊢
      subst started
      refine safe'.control_of_running ?_ ?_
      · rw [Thread.switch_count, (retuned_giveTurn _).count, Thread.count,
          Thread.setScheduler_self]
        exact inside
      · rw [Thread.switch_state, Thread.giveTurn_state, if_pos rfl]

/-- Whoever is switched to executes. -/
theorem control_of_switched {a : Action S} {t' : Thread S} (safe : Safe t)
    (permitted : Permitted t a)
    (performed : perform t a = some (t', .switched (.coroutine s i))) :
    t'.control = .flow (.coroutine s i) := by
  cases safe.placed with
  | @inside s' c control =>
    cases turn_perform safe control permitted performed with
    | given _ control => exact control
  | outside control =>
    unfold perform at performed
    rw [control] at performed
    cases a with
    | create | destroy | finish => simp at performed
    | yield => exact absurd control permitted.2
    | run s' =>
      have result := Option.some.inj performed
      have own : s' = s := by
        have label := congrArg Prod.snd result
        unfold Thread.lcSchedulerRun at label
        simp only at label
        split at label
        · cases label
        · split at label
          · cases label
          · cases label
            rfl
      subst own
      have started := control_of_run safe control (congrArg Prod.snd result)
      rwa [result] at started

/-- Let a coroutine be resumed by one call and next by another. Every other coroutine that
is there and unfinished all the time between the two calls is resumed exactly once in
between, whatever is created, finished or yielded. -/
theorem resumed_once_between {t t₁ t₂ t₃ : Thread S} {s : S} {i j : Nat}
    {labels : List (Label S)} {a b : Action S} (run : (scheduling S).Reachable t)
    (first : Permitted t a ∧ perform t a = some (t₁, .switched (.coroutine s i)))
    (between : Interval (Unfinished s j) t₁ labels t₂)
    (next : Permitted t₂ b ∧ perform t₂ b = some (t₃, .switched (.coroutine s i)))
    (consecutive : .switched (.coroutine s i) ∉ labels) (other : j ≠ i) :
    labels.count (.switched (.coroutine s j)) = 1 := by
  have safe := safe_of_reachable run
  have safe₁ := (lawful_perform safe first.1 first.2).1.safe
  have control₁ := control_of_switched safe first.1 first.2
  have present : i < t₁.count s := by
    cases safe₁.placed with
    | outside outside => cases control₁.symm.trans outside
    | inside inside _ turn =>
      cases control₁.symm.trans inside
      exact turn.inside
  obtain ⟨safe₂, more, -⟩ := between.inside safe₁ control₁
  have unfinished := (lawful_perform safe₂ next.1 next.2).1.target s i rfl
  obtain ⟨c, control₂, turns⟩ := between.turns safe₁ control₁ present unfinished
  have absent : i ∉ labels.filterMap (turnOf s) := by
    rw [← List.count_eq_zero, count_turnOf, List.count_eq_zero]
    exact consecutive
  rw [← count_turnOf]
  refine turns.count_eq_one absent (.inl rfl) (.inr rfl) other fun k waits => ?_
  cases turn_perform safe₂ control₂ next.1 next.2 with
  | given _ _ _ fair =>
    rcases waits with rfl | rfl
    · exact fair k ⟨Nat.lt_of_lt_of_le present more, unfinished⟩
    · refine fair k ?_
      cases between with
      | nil holds => exact holds
      | snoc _ _ _ holds => exact holds

/-- The stretch from `t` that some actions make, if they may be made and `P` holds all along. -/
def stretch (P : Thread S → Prop) [DecidablePred P] (t : Thread S) (actions : List (Action S)) :
    Option (List (Label S) × Thread S) :=
  actions.foldlM (fun (labels, u) a =>
    if Permitted u a then
      (perform u a).bind fun (v, label) => if P v then some (labels ++ [label], v) else none
    else none) ([], t)

theorem interval_of_stretch {P : Thread S → Prop} [DecidablePred P] (holds : P t)
    {actions : List (Action S)} {made : List (Label S) × Thread S}
    (stretched : stretch P t actions = some made) : Interval P t made.1 made.2 := by
  unfold stretch at stretched
  obtain ⟨before, same, start⟩ : ∃ before : List (Label S) × Thread S,
      before = ([], t) ∧ Interval P t before.1 before.2 := ⟨_, rfl, .nil holds⟩
  rw [← same] at stretched
  clear same
  induction actions generalizing before with
  | nil =>
    cases stretched
    exact start
  | cons a actions ih =>
    rw [List.foldlM_cons] at stretched
    obtain ⟨after, step, rest⟩ := Option.bind_eq_some_iff.mp stretched
    obtain ⟨permitted, step⟩ := Option.ite_none_right_eq_some.mp step
    obtain ⟨⟨v, label⟩, performed, step⟩ := Option.bind_eq_some_iff.mp step
    obtain ⟨holds, same⟩ := Option.ite_none_right_eq_some.mp step
    cases same
    exact ih _ rest (start.snoc permitted performed holds)

instance decidableUnfinished (s : S) (j : Nat) : DecidablePred (Unfinished s j) := fun t =>
  inferInstanceAs (Decidable (j < t.count s ∧ t.state s j ≠ .finished))

/-- Three coroutines are created. -/
def threeCreated : List (Action Unit) :=
  [.create () 1 0 4096 (some 65536) true, .create () 2 0 4096 (some 262144) true,
    .create () 3 0 4096 (some 524288) true]

/-- The first one yields, the second creates a fourth and returns, and the third yields. -/
def roundOfTurns : List (Action Unit) :=
  [.yield, .create () 4 0 4096 (some 1048576) true, .finish, .yield]

def createdThree : Thread Unit := (afterwards Permitted 4 threeCreated).get (by decide +kernel)

def startedRound : Thread Unit × Label Unit :=
  (perform createdThree (.run ())).get (by decide +kernel)

def playedRound : List (Label Unit) × Thread Unit :=
  (stretch (Unfinished () 2) startedRound.1 roundOfTurns).get (by decide +kernel)

def endedRound : Thread Unit × Label Unit := (perform playedRound.2 .yield).get (by decide +kernel)

theorem resumed_once_between_round :
    startedRound.2 = .switched (.coroutine () 0) ∧ endedRound.2 = .switched (.coroutine () 0) ∧
      playedRound.1.count (.switched (.coroutine () 2)) = 1 := by
  have began : startedRound.2 = .switched (.coroutine () 0) := by decide +kernel
  have ended : endedRound.2 = .switched (.coroutine () 0) := by decide +kernel
  have created : afterwards Permitted 4 threeCreated = some createdThree :=
    (Option.some_get (by decide +kernel)).symm
  have first : perform createdThree (.run ()) =
      some (startedRound.1, .switched (.coroutine () 0)) := by
    have made : perform createdThree (.run ()) = some startedRound :=
      (Option.some_get (by decide +kernel)).symm
    rw [made, ← began]
  have played : stretch (Unfinished () 2) startedRound.1 roundOfTurns = some playedRound :=
    (Option.some_get (by decide +kernel)).symm
  have next : perform playedRound.2 .yield =
      some (endedRound.1, .switched (.coroutine () 0)) := by
    have made : perform playedRound.2 .yield = some endedRound :=
      (Option.some_get (by decide +kernel)).symm
    rw [made, ← ended]
  exact ⟨began, ended, resumed_once_between (reachable_afterwards (by decide) created)
    ⟨by decide +kernel, first⟩ (interval_of_stretch (by decide +kernel) played)
    ⟨by decide +kernel, next⟩ (by decide +kernel) (by decide)⟩

end Lightc.Coroutines
