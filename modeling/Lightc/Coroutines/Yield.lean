import Lightc.Coroutines.Safety

/-!
# Yields outside a run, and after a nested run

`lc_coroutine_yield` takes the scheduler from a thread-local pointer.
`lc_scheduler_run` sets the pointer and nothing ever sets it back: after the run
it still names that scheduler, and after a run made from inside a coroutine of
another scheduler it names the inner one. So a yield acts on the scheduler that
was run last, whoever calls it.
-/

namespace Lightc.Coroutines

open Machine Verification Function

variable {S : Type}

/-- The thread creates, runs and destroys, and yields only inside coroutines;
coroutines may make any call. -/
def Calls (t : Thread S) (a : Action S) : Prop :=
  KernelAllows t a ∧ (a = .yield → t.control ≠ .flow .main)

def Slot.scheduler : Slot S → S
  | .coroutine s _ => s
  | .main s => s

variable [DecidableEq S] {t : Thread S} {f : Flow S} {s : S}

instance decidableCalls (t : Thread S) (a : Action S) : Decidable (Calls t a) :=
  inferInstanceAs (Decidable (_ ∧ _))

/-- The thread-local pointer names the scheduler that was run last, and a
coroutine that executes or sleeps belongs to a scheduler that has it. -/
structure Pointed (t : Thread S) : Prop where
  pointer : t.currentScheduler = t.ran.head?
  executing : ∀ s i, t.control = .flow (.coroutine s i) → i < t.count s
  sleeping : ∀ s i, t.asleep (.coroutine s i) ≠ none → i < t.count s

/-! ### Switches -/

namespace Pointed

omit [DecidableEq S] in
/-- Steps that neither wake nor start a flow and take no coroutine away. -/
theorem congr {u : Thread S} (h : Pointed t) (pointer : u.currentScheduler = t.currentScheduler)
    (ran : u.ran = t.ran) (control : u.control = t.control ∨ u.control = .lost)
    (asleep : ∀ f, u.asleep f = t.asleep f ∨ u.asleep f = none)
    (count : ∀ s, t.count s ≤ u.count s) : Pointed u := by
  refine ⟨?_, fun s i executing => ?_, fun s i sleeping => ?_⟩
  · rw [pointer, ran]
    exact h.pointer
  · rcases control with same | lost
    · exact Nat.lt_of_lt_of_le (h.executing s i (same ▸ executing)) (count s)
    · rw [lost] at executing
      cases executing
  · rcases asleep (.coroutine s i) with same | awake
    · exact Nat.lt_of_lt_of_le (h.sleeping s i (same ▸ sleeping)) (count s)
    · exact absurd awake sleeping

theorem suspend (h : Pointed t) (control : t.control = .flow f) (slot : Slot S) :
    Pointed (t.suspend f slot) := by
  have counts := fun s => (Thread.suspend_scheduler (t := t) (f := f) slot s).1
  refine ⟨?_, fun s i executing => ?_, fun s i sleeping => ?_⟩
  · cases slot <;> exact h.pointer
  · rw [counts]
    refine h.executing s i ?_
    cases slot <;> exact executing
  · rw [counts]
    by_cases own : .coroutine s i = f
    · exact h.executing s i (own ▸ control)
    · rw [Thread.suspend_asleep_of_ne own] at sleeping
      exact h.sleeping s i sleeping

omit [DecidableEq S] in
theorem lost (h : Pointed t) : Pointed { t with control := .lost } :=
  h.congr rfl rfl (.inr rfl) (fun _ => .inl rfl) fun _ => Nat.le_refl _

variable (h : Pointed t)
include h

theorem resume {slot : Slot S} (exists_ : ∀ s i, slot = .coroutine s i → i < t.count s) :
    Pointed (t.resume slot) := by
  unfold Thread.resume
  cases t.context slot with
  | zero => exact h.lost
  | entry =>
    simp only [Thread.trampoline]
    split
    · exact h.lost
    · split
      · next own =>
        refine ⟨h.pointer, fun s' i executing => ?_, h.sleeping⟩
        cases executing
        exact exists_ _ _ own.1
      · exact h.lost
  | saved f moment =>
    simp only
    split
    · next sleeps =>
      refine ⟨h.pointer, fun s i executing => ?_, fun s i sleeping => ?_⟩
      · cases executing
        exact h.sleeping s i (by rw [sleeps]; exact Option.some_ne_none _)
      · by_cases own : .coroutine s i = f
        · subst own
          exact absurd (update_self ..) sleeping
        · exact h.sleeping s i ((update_of_ne own ..).symm.trans_ne sleeping)
    · exact h.lost

theorem switch (control : t.control = .flow f) (save : Slot S) {restore : Slot S}
    (exists_ : ∀ s i, restore = .coroutine s i → i < t.count s) :
    Pointed (t.switch f save restore) := by
  refine (h.suspend control save).resume fun s i same => ?_
  rw [(Thread.suspend_scheduler save s).1]
  exact exists_ s i same

/-- Replacing a scheduler by one with at least as many coroutines. -/
theorem setScheduler {d : Scheduler S} (count : t.count s ≤ d.count) :
    Pointed (t.setScheduler s d) := by
  refine h.congr rfl rfl (.inl rfl) (fun _ => .inl rfl) ?_
  exact (forall_update_iff t.schedulers fun s d => t.count s ≤ d.count).mpr
    ⟨count, fun _ _ => Nat.le_refl _⟩

theorem setState (s : S) (i : Nat) (status : Status) :
    Pointed (t.setScheduler s ((t.schedulers s).setState i status)) := by
  exact h.setScheduler (Nat.le_refl (t.count s))

theorem giveTurn (s : S) (next : Nat) : Pointed (t.giveTurn s next) := by
  unfold Thread.giveTurn
  exact h.setScheduler (Nat.le_refl (t.count s))

/-! ### Calls -/

theorem switchToNext (control : t.control = .flow f) : Pointed (t.switchToNext f s).1 := by
  unfold Thread.switchToNext
  cases found : (t.schedulers s).findNext with
  | none => exact h.switch control _ fun _ _ same => nomatch same
  | some next =>
    have inside := (Scheduler.of_findNext_eq_some found).1
    refine (h.giveTurn s next).switch control _ fun s' i same => ?_
    cases same
    rw [(retuned_giveTurn next).count]
    exact inside

theorem lcCoroutineYield (control : t.control = .flow f) : Pointed (t.lcCoroutineYield f).1 := by
  unfold Thread.lcCoroutineYield
  cases t.currentScheduler with
  | none => exact h
  | some s =>
    simp only
    split
    · exact h
    · split
      · exact (h.setState s _ .ready).switchToNext control
      · exact h.switchToNext control

theorem lcSchedulerRun (control : t.control = .flow f) (s : S) :
    Pointed (t.lcSchedulerRun f s).1 := by
  unfold Thread.lcSchedulerRun
  simp only
  split
  · exact h
  · have pointed : Pointed { t with currentScheduler := some s, ran := s :: t.ran } :=
      ⟨rfl, h.executing, h.sleeping⟩
    split
    · exact pointed
    · next some_ =>
      have inside := (Scheduler.of_countRunnable some_).1
      have counted := pointed.setScheduler (s := s)
        (d := { t.schedulers s with activeCount := (t.schedulers s).countRunnable.1 })
        (Nat.le_refl (t.count s))
      refine (counted.giveTurn s _).switch control _ fun s' i same => ?_
      cases same
      rw [(retuned_giveTurn _).count]
      simpa [Thread.count] using inside

theorem trampolineEnd {i : Nat} (control : t.control = .flow (.coroutine s i)) :
    Pointed (t.trampolineEnd s i).1 := by
  have marked : Pointed (t.setScheduler s ({ t.schedulers s with
      activeCount := sub32 (t.schedulers s).activeCount 1 }.setState i .finished)) :=
    h.setScheduler (d := Scheduler.setState { t.schedulers s with
      activeCount := sub32 (t.schedulers s).activeCount 1 } i .finished) (Nat.le_refl (t.count s))
  have yielded := marked.lcCoroutineYield (f := .coroutine s i) control
  unfold Thread.trampolineEnd
  simp only
  generalize Thread.lcCoroutineYield _ (.coroutine s i) = result at yielded
  obtain ⟨t', label⟩ := result
  cases label with
  | stayed => exact yielded.lost
  | switched target =>
    refine yielded.congr rfl rfl (.inl rfl) (fun g => ?_) fun _ => Nat.le_refl _
    by_cases own : g = .coroutine s i
    · subst own
      exact .inr (update_self ..)
    · exact .inl (update_of_ne own ..)

theorem lcSchedulerDestroy (control : t.control = .flow f) (s : S) :
    Pointed (t.lcSchedulerDestroy f s) := by
  have others : ∀ s', s' ≠ s → (t.lcSchedulerDestroy f s).count s' = t.count s' := by
    intro s' ne
    show ((t.setScheduler s _).schedulers s').count = _
    rw [Thread.setScheduler_of_ne ne]
    rfl
  refine ⟨h.pointer, fun s' i executing => ?_, fun s' i sleeping => ?_⟩
  · have stays : s' ≠ s ∧ t.control = .flow (.coroutine s' i) := by
      cases f with
      | main =>
        have same : t.control = .flow (.coroutine s' i) := executing
        rw [control] at same
        cases same
      | coroutine s'' j =>
        simp only [Thread.lcSchedulerDestroy] at executing
        split at executing
        · cases executing
        · next ne =>
          rw [control] at executing
          cases executing
          exact ⟨ne, control⟩
    rw [others s' stays.1]
    exact h.executing s' i stays.2
  · simp only [Thread.lcSchedulerDestroy] at sleeping
    split at sleeping
    · exact absurd rfl sleeping
    · next ne =>
      rw [others s' ne]
      exact h.sleeping s' i sleeping

theorem perform {a : Action S} {t' : Thread S} {label : Label S}
    (run : perform t a = some (t', label)) : Pointed t' := by
  unfold Coroutines.perform at run
  cases control : t.control with
  | lost => simp [control] at run
  | flow f =>
    simp only [control] at run
    cases a with
    | create s func arg pageSize stack guarded =>
      simp only [Option.some.injEq, Prod.mk.injEq] at run
      obtain ⟨rfl, -⟩ := run
      refine h.setScheduler ?_
      rcases Scheduler.lcCoroutineCreate_cases (d := t.schedulers s) func arg pageSize stack
        guarded with failed | ⟨-, -, co, -, -, created⟩
      · rw [failed]
        exact Nat.le_refl _
      · rw [created]
        exact Nat.le_succ _
    | run s =>
      have ran := h.lcSchedulerRun control s
      rw [Option.some.inj run] at ran
      exact ran
    | destroy s =>
      simp only [Option.some.injEq, Prod.mk.injEq] at run
      obtain ⟨rfl, -⟩ := run
      exact h.lcSchedulerDestroy control s
    | yield =>
      have yielded := h.lcCoroutineYield control
      rw [Option.some.inj run] at yielded
      exact yielded
    | finish =>
      cases f with
      | main => cases run
      | coroutine s i =>
        have ended := h.trampolineEnd control
        rw [Option.some.inj run] at ended
        exact ended

end Pointed

theorem pointed_of_reachable (run : (usedBy Calls).Reachable t) : Pointed t := by
  refine System.Inductive.reachable (I := Pointed) ⟨fun t fresh => ?_, fun t t' h step => ?_⟩ run
  · obtain ⟨-, pointer, control, asleep, -, ran⟩ := fresh
    refine ⟨?_, fun s i executing => ?_, fun s i sleeping => absurd (asleep _) sleeping⟩
    · rw [pointer, ran]
      rfl
    · rw [control] at executing
      cases executing
  · obtain ⟨a, label, -, performed⟩ := step
    exact h.perform performed

/-! ### What a yield does -/

/-- A yield returns at once exactly if the pointer names no scheduler that has
coroutines. -/
theorem lcCoroutineYield_stayed_iff :
    t.lcCoroutineYield f = (t, .stayed) ↔ ∀ s, t.currentScheduler = some s → t.count s = 0 := by
  unfold Thread.lcCoroutineYield
  cases t.currentScheduler with
  | none => simp
  | some s =>
    simp only [Option.some.injEq, forall_eq']
    by_cases empty : (t.schedulers s).count = 0
    · simp [empty, Thread.count]
    · have never : ∀ u : Thread S, u.switchToNext f s ≠ (t, .stayed) := by
        intro u same
        unfold Thread.switchToNext at same
        cases found : (u.schedulers s).findNext <;> simp [found] at same
      simp only [empty, if_false, Thread.count]
      split <;> simp [never]

/-- Otherwise it switches within that scheduler. -/
theorem lcCoroutineYield_switched {s : S} (pointer : t.currentScheduler = some s)
    (some_ : t.count s ≠ 0) :
    ∃ target, (t.lcCoroutineYield f).2 = .switched target ∧ target.scheduler = s := by
  have switched : ∀ u : Thread S,
      ∃ target, (u.switchToNext f s).2 = .switched target ∧ target.scheduler = s := by
    intro u
    unfold Thread.switchToNext
    cases (u.schedulers s).findNext with
    | none => exact ⟨_, rfl, rfl⟩
    | some next => exact ⟨_, rfl, rfl⟩
  have nonempty : (t.schedulers s).count ≠ 0 := some_
  simp only [Thread.lcCoroutineYield, pointer, nonempty, if_false]
  split
  · exact switched _
  · exact switched _

/-- After every history of creations, runs and destructions: a yield by the
thread's own code does nothing exactly if no scheduler with coroutines was run
before or the one run last has none left; and a yield by a coroutine switches
within its own scheduler exactly if that is the one run last. -/
theorem yield_acts_on_last_run {t : Thread S} (run : (usedBy Calls).Reachable t) :
    (t.control = .flow .main →
      (t.lcCoroutineYield .main = (t, .stayed) ↔
        ∀ s, t.ran.head? = some s → t.count s = 0)) ∧
      ∀ s i, t.control = .flow (.coroutine s i) →
        ((∃ target, (t.lcCoroutineYield (.coroutine s i)).2 = .switched target ∧
          target.scheduler = s) ↔ t.ran.head? = some s) := by
  have pointed := pointed_of_reachable run
  refine ⟨fun _ => ?_, fun s i control => ⟨fun switched => ?_, fun last => ?_⟩⟩
  · rw [lcCoroutineYield_stayed_iff, pointed.pointer]
  · obtain ⟨target, switched, own⟩ := switched
    rw [← pointed.pointer]
    cases pointer : t.currentScheduler with
    | none => simp [Thread.lcCoroutineYield, pointer] at switched
    | some s' =>
      by_cases empty : t.count s' = 0
      · have stayed := (lcCoroutineYield_stayed_iff (f := .coroutine s i)).mpr
          fun s'' same => (Option.some.inj (pointer.symm.trans same)) ▸ empty
        rw [stayed] at switched
        cases switched
      · obtain ⟨target', switched', own'⟩ :=
          lcCoroutineYield_switched (f := .coroutine s i) pointer empty
        rw [switched] at switched'
        cases switched'
        rw [← own, ← own']
  · refine lcCoroutineYield_switched (pointed.pointer.trans last) ?_
    exact Nat.ne_of_gt (Nat.zero_lt_of_lt (pointed.executing s i control))

/-- A scheduler's only coroutine returns at once, so its run returns; then a
second coroutine is created. -/
def betweenRuns : List (Action Bool) :=
  [.create false 1 0 4096 (some 65536) true, .run false, .finish,
    .create false 2 0 4096 (some 262144) true]

/-- A coroutine of the scheduler `false` runs the scheduler `true`, whose only
coroutine returns at once. -/
def nestedRun : List (Action Bool) :=
  [.create false 1 0 4096 (some 65536) true, .create true 2 0 4096 (some 262144) true,
    .run false, .run true, .finish]

/-- Between two runs, a yield of the thread's own code starts the waiting
coroutine; right after a run, it restores the context of the call of
`lc_scheduler_run` that has returned; and after a nested run, the outer coroutine
yields into the inner scheduler, with the same effect. -/
theorem yield_switches_outside_run :
    (∃ t, afterwards Calls 4 (betweenRuns.take 3) = some t ∧ t.control = .flow .main ∧
        (t.lcCoroutineYield .main).2 = .switched (.main false) ∧
        (t.lcCoroutineYield .main).1.control = .lost) ∧
      (∃ t, afterwards Calls 4 betweenRuns = some t ∧ t.control = .flow .main ∧
        (t.lcCoroutineYield .main).2 = .switched (.coroutine false 1) ∧
        (t.lcCoroutineYield .main).1.state false 1 = .running) ∧
      ∃ t, afterwards Calls 4 nestedRun = some t ∧ t.control = .flow (.coroutine false 0) ∧
        (t.lcCoroutineYield (.coroutine false 0)).2 = .switched (.main true) ∧
        (t.lcCoroutineYield (.coroutine false 0)).1.control = .lost := by
  refine ⟨⟨_, (Option.some_get (by decide +kernel)).symm, ?_⟩,
    ⟨_, (Option.some_get (by decide +kernel)).symm, ?_⟩,
    ⟨_, (Option.some_get (by decide +kernel)).symm, ?_⟩⟩
  all_goals decide +kernel

/-- Before any run, a yield does nothing even with coroutines waiting, and in a
coroutine that made no nested run it stays within its scheduler. -/
theorem yield_acts_on_last_run_first :
    (∃ t, afterwards Calls 4 (nestedRun.take 2) = some t ∧
        t.lcCoroutineYield .main = (t, .stayed)) ∧
      ∃ t, afterwards Calls 4 (nestedRun.take 3) = some t ∧
        ∃ target, (t.lcCoroutineYield (.coroutine false 0)).2 = .switched target ∧
          target.scheduler = false := by
  refine ⟨⟨_, (Option.some_get (by decide +kernel)).symm, ?_⟩,
    ⟨_, (Option.some_get (by decide +kernel)).symm, ?_⟩⟩
  · exact ((yield_acts_on_last_run (reachable_afterwards (by decide) (Option.some_get _).symm)).1
      (by decide +kernel)).mpr (by decide +kernel)
  · exact ((yield_acts_on_last_run (reachable_afterwards (by decide) (Option.some_get _).symm)).2
      false 0 (by decide +kernel)).mpr (by decide +kernel)

end Lightc.Coroutines
