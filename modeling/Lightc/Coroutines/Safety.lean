import Lightc.Coroutines.Model

/-!
# Safety of the scheduler over whole runs

The coroutines of a thread may create further ones, yield and return, but leave
`lc_scheduler_run` and `lc_scheduler_destroy` to the thread. Then at most one
coroutine is executing, and every other one is finished or can be resumed: it
was never entered, or it sleeps exactly where its context says. A switch can
therefore not go wrong, and the search for the next coroutine skips the finished
ones and comes back empty-handed only when there are no others.
-/

namespace Lightc.Coroutines

open Machine Verification Function

variable {S : Type}

/-! ### The two searches -/

namespace Scheduler

variable {d : Scheduler S}

@[simp] theorem setState_state (i : Nat) (state : Status) (j : Nat) :
    ((d.setState i state).coroutines j).state =
      if j = i then state else (d.coroutines j).state := by
  by_cases same : j = i
  · subst same
    simp [setState, setCoroutine]
  · simp [setState, setCoroutine, same]

@[simp] theorem setState_context (i : Nat) (state : Status) (j : Nat) :
    ((d.setState i state).coroutines j).context = (d.coroutines j).context :=
  (forall_update_iff d.coroutines fun j co => co.context = (d.coroutines j).context).mpr
    ⟨by rfl, fun _ _ => rfl⟩ j

/-- A coroutine that the round-robin search finds exists and is not finished. -/
theorem of_findNext_eq_some {next : Nat} (found : d.findNext = some next) :
    next < d.count ∧ (d.coroutines next).state ≠ .finished := by
  have member := List.mem_of_find?_eq_some found
  have unfinished := List.find?_some found
  obtain ⟨i, range, rfl⟩ := List.mem_map.mp member
  have positive : 0 < d.count := by
    have := List.mem_range'_1.mp range
    omega
  exact ⟨Nat.mod_lt _ positive, by simpa using unfinished⟩

/-- The search visits every coroutine, as long as its counter cannot wrap. -/
theorem mem_candidates (inside : d.current < d.count) (sized : d.count ≤ maxStacks) {j : Nat}
    (exists_ : j < d.count) : j ∈ d.candidates := by
  have word : d.count ≤ 2 ^ 30 := sized
  refine List.mem_map.mpr ?_
  by_cases ahead : d.current < j
  · refine ⟨j - d.current, List.mem_range'_1.mpr ⟨by omega, by omega⟩, ?_⟩
    rw [add32_of_lt (by omega), Nat.add_sub_cancel' (Nat.le_of_lt ahead), Nat.mod_eq_of_lt exists_]
  · refine ⟨j + d.count - d.current, List.mem_range'_1.mpr ⟨by omega, by omega⟩, ?_⟩
    rw [add32_of_lt (by omega), Nat.add_sub_cancel' (by omega), Nat.add_mod_right,
      Nat.mod_eq_of_lt exists_]

theorem finished_of_findNext_eq_none (inside : d.current < d.count) (sized : d.count ≤ maxStacks)
    (none_ : d.findNext = none) {j : Nat} (exists_ : j < d.count) :
    (d.coroutines j).state = .finished := by
  have all := List.find?_eq_none.mp none_ j (mem_candidates inside sized exists_)
  simpa using all

/-- What the loop of `lc_scheduler_run` knows after its first `n` turns. -/
theorem countOne_prefix (n : Nat) (inside : n ≤ d.count) :
    let acc := (List.range n).foldl d.countOne (0, d.count)
    (acc = (0, d.count) ∧ ∀ j < n, (d.coroutines j).state = .finished) ∨
      (acc.1 ≠ 0 ∧ acc.2 < d.count ∧ (d.coroutines acc.2).state ≠ .finished) := by
  induction n with
  | zero => exact .inl ⟨rfl, fun j below => absurd below (Nat.not_lt_zero j)⟩
  | succ n ih =>
    rw [List.range_succ, List.foldl_append]
    simp only [List.foldl_cons, List.foldl_nil]
    have known := ih (Nat.le_of_succ_le inside)
    generalize (List.range n).foldl d.countOne (0, d.count) = acc at known
    by_cases finished : (d.coroutines n).state = .finished
    · have same : d.countOne acc n = acc := by simp [countOne, finished]
      rw [same]
      refine known.imp (fun none_ => ⟨none_.1, fun j below => ?_⟩) id
      by_cases last : j = n
      · exact last ▸ finished
      · exact none_.2 j (by omega)
    · right
      rcases known with ⟨rfl, -⟩ | ⟨-, first, unfinished⟩
      · simpa [countOne, finished] using Nat.lt_of_succ_le inside
      · have kept : acc.2 ≠ d.count := Nat.ne_of_lt first
        simpa [countOne, finished, kept] using ⟨first, unfinished⟩

theorem finished_of_countRunnable (none_ : d.countRunnable.1 = 0) {j : Nat}
    (exists_ : j < d.count) : (d.coroutines j).state = .finished := by
  rcases countOne_prefix d.count (Nat.le_refl _) with ⟨-, all⟩ | ⟨some_, -⟩
  · exact all j exists_
  · exact absurd none_ some_

theorem of_countRunnable (some_ : d.countRunnable.1 ≠ 0) :
    d.countRunnable.2 < d.count ∧ (d.coroutines d.countRunnable.2).state ≠ .finished := by
  rcases countOne_prefix d.count (Nat.le_refl _) with ⟨none_, -⟩ | ⟨-, found⟩
  · exact absurd (congrArg Prod.fst none_) some_
  · exact found

/-- A call of `lc_coroutine_create` fails, or fills the next place. -/
theorem lcCoroutineCreate_cases (func arg pageSize : Nat) (stack : Option Nat) (guarded : Bool) :
    d.lcCoroutineCreate func arg pageSize stack guarded = d ∨
      (d.count < d.capacity ∧ stack ≠ none ∧ ∃ co, co.context = .entry ∧ co.state = .ready ∧
        d.lcCoroutineCreate func arg pageSize stack guarded =
          { d with
            count := d.count + 1
            coroutines := update d.coroutines d.count co }) := by
  unfold lcCoroutineCreate
  by_cases full : d.capacity ≤ d.count
  · exact .inl (if_pos full)
  · rw [if_neg full]
    cases stack with
    | none => exact .inl rfl
    | some base =>
      cases guarded with
      | false => exact .inl rfl
      | true =>
        exact .inr ⟨Nat.lt_of_not_le full, Option.some_ne_none _, _, rfl, rfl, rfl⟩

end Scheduler

/-! ### Switches -/

namespace Thread

/-- The state of a coroutine. -/
def state (t : Thread S) (s : S) (i : Nat) : Status := ((t.schedulers s).coroutines i).state

def count (t : Thread S) (s : S) : Nat := (t.schedulers s).count

variable [DecidableEq S] {t : Thread S} {f : Flow S}

@[simp] theorem setScheduler_self (s : S) (d : Scheduler S) :
    (t.setScheduler s d).schedulers s = d :=
  update_self ..

theorem setScheduler_of_ne {s s' : S} (ne : s' ≠ s) (d : Scheduler S) :
    (t.setScheduler s d).schedulers s' = t.schedulers s' :=
  update_of_ne ne ..

/-- Saving a context changes nothing else of a scheduler. -/
theorem suspend_scheduler (slot : Slot S) (s : S) :
    (t.suspend f slot).count s = t.count s ∧
      ((t.suspend f slot).schedulers s).capacity = (t.schedulers s).capacity ∧
      ((t.suspend f slot).schedulers s).current = (t.schedulers s).current := by
  cases slot <;>
    exact (forall_update_iff t.schedulers fun s d => d.count = t.count s ∧
      d.capacity = (t.schedulers s).capacity ∧ d.current = (t.schedulers s).current).mpr
        ⟨by exact ⟨rfl, rfl, rfl⟩, fun _ _ => ⟨rfl, rfl, rfl⟩⟩ s

@[simp] theorem suspend_state (slot : Slot S) (s : S) (j : Nat) :
    (t.suspend f slot).state s j = t.state s j := by
  cases slot <;>
    refine (forall_update_iff t.schedulers fun s d => (d.coroutines j).state = t.state s j).mpr
      ⟨?_, fun _ _ => rfl⟩ s
  case coroutine s' i =>
    exact (forall_update_iff (t.schedulers s').coroutines fun j co => co.state = t.state s' j).mpr
      ⟨by rfl, fun _ _ => rfl⟩ j
  case main => rfl

@[simp] theorem suspend_context_self (slot : Slot S) :
    (t.suspend f slot).context slot = .saved f t.clock := by
  cases slot <;> simp [suspend, setContext, setScheduler, Scheduler.setCoroutine, context]

theorem suspend_context_of_ne {slot slot' : Slot S} (ne : slot' ≠ slot) :
    (t.suspend f slot).context slot' = t.context slot' := by
  cases slot <;> cases slot' <;> simp only [suspend, setContext, setScheduler, context]
  case coroutine.coroutine s i s' i' =>
    by_cases same : s' = s
    · have index : i' ≠ i := fun index => ne (index ▸ same ▸ rfl)
      simp [Scheduler.setCoroutine, same, index]
    · rw [update_of_ne same]
  case coroutine.main s i s' => by_cases same : s' = s <;> simp [Scheduler.setCoroutine, same]
  case main.coroutine s s' i' => by_cases same : s' = s <;> simp [same]
  case main.main s s' => rw [update_of_ne fun same : s' = s => ne (same ▸ rfl)]

@[simp] theorem suspend_asleep_self (slot : Slot S) :
    (t.suspend f slot).asleep f = some t.clock :=
  update_self ..

theorem suspend_asleep_of_ne {g : Flow S} (ne : g ≠ f) (slot : Slot S) :
    (t.suspend f slot).asleep g = t.asleep g :=
  update_of_ne ne ..

@[simp] theorem suspend_entered (slot : Slot S) : (t.suspend f slot).entered = t.entered := by
  cases slot <;> rfl

@[simp] theorem suspend_currentScheduler (slot : Slot S) :
    (t.suspend f slot).currentScheduler = t.currentScheduler := by
  cases slot <;> rfl

end Thread

/-! ### The invariant -/

/-- Restoring the coroutine's context enters it for the first time, or continues
it where it sleeps. -/
def Resumable (t : Thread S) (s : S) (j : Nat) : Prop :=
  (t.context (.coroutine s j) = .entry ∧ (s, j) ∉ t.entered) ∨
    ∃ moment, t.context (.coroutine s j) = .saved (.coroutine s j) moment ∧
      t.asleep (.coroutine s j) = some moment

/-- A coroutine that is not executing is finished or can be resumed. -/
def Parked (t : Thread S) (s : S) (j : Nat) : Prop :=
  t.state s j = .finished ∨ (t.state s j = .ready ∧ Resumable t s j)

/-- The bounds on a thread's schedulers and the record of entered functions. -/
structure Booked (t : Thread S) : Prop where
  sized : ∀ s, t.count s ≤ maxStacks
  once : t.entered.Nodup
  unused : ∀ s j, t.count s ≤ j → j < (t.schedulers s).capacity → (s, j) ∉ t.entered

/-- The scheduler `s` is being run, with coroutine `i` in its turn. -/
structure InTurn (t : Thread S) (s : S) (i : Nat) : Prop where
  pointer : t.currentScheduler = some s
  current : (t.schedulers s).current = i
  inside : i < t.count s
  caller : ∃ moment, t.context (.main s) = .saved .main moment ∧ t.asleep .main = some moment
  others : ∀ s' j, j < t.count s' → (s', j) ≠ (s, i) → Parked t s' j

/-- The thread's own code is executing, or exactly one coroutine is. -/
inductive Placed (t : Thread S) : Prop
  | outside (control : t.control = .flow .main)
      (parked : ∀ s j, j < t.count s → Parked t s j)
  | inside {s : S} {i : Nat} (control : t.control = .flow (.coroutine s i))
      (running : t.state s i = .running) (turn : InTurn t s i)

structure Safe (t : Thread S) : Prop where
  booked : Booked t
  placed : Placed t

variable {t u : Thread S} {s : S} {i j : Nat}

/-- What a parked coroutine depends on. -/
theorem Parked.congr (h : Parked t s j) (state : u.state s j = t.state s j)
    (context : u.context (.coroutine s j) = t.context (.coroutine s j))
    (asleep : u.asleep (.coroutine s j) = t.asleep (.coroutine s j))
    (entered : (s, j) ∈ u.entered → (s, j) ∈ t.entered) : Parked u s j := by
  unfold Parked Resumable at h ⊢
  rw [state, context, asleep]
  refine h.imp_right fun ready => ⟨ready.1, ready.2.imp_left fun fresh => ⟨fresh.1, ?_⟩⟩
  exact fun again => fresh.2 (entered again)

/-- The two threads differ at most in states, turns and counters of coroutines. -/
structure Retuned (t u : Thread S) : Prop where
  count : ∀ s, u.count s = t.count s
  capacity : ∀ s, (u.schedulers s).capacity = (t.schedulers s).capacity
  context : ∀ slot, u.context slot = t.context slot
  asleep : u.asleep = t.asleep
  entered : u.entered = t.entered

theorem Booked.congr (h : Booked t) (count : ∀ s, u.count s = t.count s)
    (capacity : ∀ s, (u.schedulers s).capacity = (t.schedulers s).capacity)
    (entered : u.entered = t.entered) : Booked u := by
  refine ⟨fun s => ?_, ?_, fun s j => ?_⟩
  · rw [count]
    exact h.sized s
  · rw [entered]
    exact h.once
  · rw [count, capacity, entered]
    exact h.unused s j

theorem Booked.retuned (h : Booked t) (same : Retuned t u) : Booked u :=
  h.congr same.count same.capacity same.entered

theorem Parked.retuned (h : Parked t s j) (same : Retuned t u)
    (state : u.state s j = t.state s j) : Parked u s j := by
  refine h.congr state (same.context _) (congrFun same.asleep _) fun member => ?_
  rwa [same.entered] at member

theorem Retuned.trans {v : Thread S} (h : Retuned t u) (h' : Retuned u v) : Retuned t v :=
  ⟨fun s => (h'.count s).trans (h.count s), fun s => (h'.capacity s).trans (h.capacity s),
    fun slot => (h'.context slot).trans (h.context slot), h'.asleep.trans h.asleep,
    h'.entered.trans h.entered⟩

variable [DecidableEq S]

theorem Booked.suspend (h : Booked t) (f : Flow S) (slot : Slot S) : Booked (t.suspend f slot) :=
  h.congr (fun s => (Thread.suspend_scheduler slot s).1)
    (fun s => (Thread.suspend_scheduler slot s).2.1) (Thread.suspend_entered slot)

theorem Booked.wake (h : Booked t) (f : Flow S) : Booked (t.wake f) :=
  h.congr (fun _ => rfl) (fun _ => rfl) rfl

/-- Waking one flow leaves the other coroutines parked. -/
theorem Parked.wake (h : Parked t s j) {f : Flow S} (ne : .coroutine s j ≠ f) :
    Parked (t.wake f) s j :=
  h.congr rfl rfl (update_of_ne ne ..) id

/-- So does putting one to sleep. -/
theorem Parked.suspend (h : Parked t s j) {f : Flow S} {slot : Slot S}
    (flow : .coroutine s j ≠ f) (ne : .coroutine s j ≠ slot) : Parked (t.suspend f slot) s j := by
  refine h.congr (Thread.suspend_state slot s j) (Thread.suspend_context_of_ne ne)
    (Thread.suspend_asleep_of_ne flow slot) fun member => ?_
  rwa [Thread.suspend_entered] at member

/-- Replacing a scheduler by one with other states and another turn. -/
theorem Retuned.setScheduler {d : Scheduler S} (count : d.count = t.count s)
    (capacity : d.capacity = (t.schedulers s).capacity)
    (main : d.mainContext = (t.schedulers s).mainContext)
    (contexts : ∀ j, (d.coroutines j).context = ((t.schedulers s).coroutines j).context) :
    Retuned t (t.setScheduler s d) := by
  refine ⟨?_, ?_, fun slot => ?_, rfl, rfl⟩
  · exact (forall_update_iff t.schedulers fun s d => d.count = t.count s).mpr
      ⟨count, fun _ _ => rfl⟩
  · exact (forall_update_iff t.schedulers fun s d => d.capacity = (t.schedulers s).capacity).mpr
      ⟨capacity, fun _ _ => rfl⟩
  · cases slot with
    | coroutine s' j =>
      exact (forall_update_iff t.schedulers fun s d => (d.coroutines j).context =
        ((t.schedulers s).coroutines j).context).mpr ⟨contexts j, fun _ _ => rfl⟩ s'
    | main s' =>
      exact (forall_update_iff t.schedulers fun s d => d.mainContext =
        (t.schedulers s).mainContext).mpr ⟨main, fun _ _ => rfl⟩ s'

/-- Marking one coroutine. -/
theorem Thread.setScheduler_state (active current : Nat) (status : Status) (s' : S) (j : Nat) :
    (t.setScheduler s ({ t.schedulers s with
      activeCount := active, current := current }.setState i status)).state s' j =
        if (s', j) = (s, i) then status else t.state s' j := by
  by_cases own : s' = s
  · subst own
    simp [state]
  · simp [state, Thread.setScheduler_of_ne own, own]

@[simp] theorem Thread.giveTurn_state (next : Nat) (s' : S) (j : Nat) :
    (t.giveTurn s next).state s' j =
      if (s', j) = (s, next) then .running else t.state s' j :=
  Thread.setScheduler_state _ next .running s' j

theorem retuned_giveTurn (next : Nat) : Retuned t (t.giveTurn s next) :=
  .setScheduler rfl rfl rfl (Scheduler.setState_context next .running)

/-! ### Switching to a coroutine -/

/-- Restoring the context of a coroutine that can be resumed in its turn. -/
theorem resume_coroutine (turn : InTurn t s j) (ready : Resumable t s j) :
    ∃ asleep entered, t.resume (.coroutine s j) =
        { t with control := .flow (.coroutine s j), asleep := asleep, entered := entered } ∧
      (∀ f, f ≠ .coroutine s j → asleep f = t.asleep f) ∧
      (entered = t.entered ∨ (s, j) ∉ t.entered ∧ entered = t.entered ++ [(s, j)]) := by
  rcases ready with ⟨context, fresh⟩ | ⟨moment, context, sleeps⟩
  · refine ⟨t.asleep, t.entered ++ [(s, j)], ?_, fun _ _ => rfl, .inr ⟨fresh, rfl⟩⟩
    simp [Thread.resume, context, Thread.trampoline, turn.pointer, turn.current, fresh]
  · refine ⟨update t.asleep (.coroutine s j) none, t.entered, ?_, fun f ne => ?_, .inl rfl⟩
    · simp [Thread.resume, context, sleeps, Thread.wake]
    · exact update_of_ne ne ..

/-- A switch to a coroutine in its turn succeeds. -/
theorem Safe.of_resume (booked : Booked t) (turn : InTurn t s j)
    (running : t.state s j = .running) (ready : Resumable t s j) :
    Safe (t.resume (.coroutine s j)) := by
  obtain ⟨asleep, entered, same, others, record⟩ := resume_coroutine turn ready
  rw [same]
  have known : ∀ s' j', (s', j') ∈ entered → (s', j') ∈ t.entered ∨ (s', j') = (s, j) := by
    intro s' j' member
    rcases record with rfl | ⟨-, rfl⟩
    · exact .inl member
    · simpa using member
  refine ⟨⟨booked.sized, ?_, ?_⟩,
    .inside rfl running ⟨turn.pointer, turn.current, turn.inside, ?_, ?_⟩⟩
  · show entered.Nodup
    rcases record with rfl | ⟨fresh, rfl⟩
    · exact booked.once
    · exact List.nodup_append.mpr ⟨booked.once, by simp, by
        rintro pair member _ (_ | ⟨_, ⟨⟩⟩) rfl
        exact fresh member⟩
  · intro s' j' beyond room member
    rcases known s' j' member with old | new
    · exact booked.unused s' j' beyond room old
    · cases new
      exact absurd turn.inside (Nat.not_lt.mpr beyond)
  · obtain ⟨moment, context, sleeps⟩ := turn.caller
    exact ⟨moment, context, (others .main (by simp)).trans sleeps⟩
  · intro s' j' exists_ ne
    refine (turn.others s' j' exists_ ne).congr rfl rfl (others _ ?_) fun member => ?_
    · intro same
      cases same
      exact ne rfl
    · exact (known s' j' member).resolve_right ne

/-! ### Giving up the turn -/

/-- The coroutine in turn has its state set back or finished, and the next one is
found: the switch leaves the thread safe. -/
theorem Safe.of_next (booked : Booked t) (turn : InTurn t s i) (left : t.state s i ≠ .running)
    {next : Nat} (found : (t.schedulers s).findNext = some next) :
    Safe ((t.giveTurn s next).switch (.coroutine s i) (.coroutine s i)
      (.coroutine s next)) := by
  obtain ⟨inside, unfinished⟩ := Scheduler.of_findNext_eq_some found
  have same := retuned_giveTurn (t := t) (s := s) next
  unfold Thread.switch
  generalize hu : t.giveTurn s next = u at same
  have states : ∀ s' j, u.state s' j = if (s', j) = (s, next) then .running else t.state s' j :=
    fun s' j => hu ▸ Thread.giveTurn_state next s' j
  -- Of the flows, only the one that gives up the turn has its place changed.
  have undisturbed : ∀ s' j, Parked t s' j → (s', j) ≠ (s, next) → (s', j) ≠ (s, i) →
      Parked (u.suspend (.coroutine s i) (.coroutine s i)) s' j := by
    intro s' j parked ne_next ne
    have in_u : Parked u s' j := parked.retuned same (by rw [states, if_neg ne_next])
    exact in_u.suspend (fun same => ne (by cases same; rfl)) fun same => ne (by cases same; rfl)
  have saved : Resumable (u.suspend (.coroutine s i) (.coroutine s i)) s i :=
    .inr ⟨u.clock, Thread.suspend_context_self _, Thread.suspend_asleep_self _⟩
  refine .of_resume ((booked.retuned same).suspend _ _) ⟨?_, ?_, ?_, ?_, ?_⟩ ?_ ?_
  · rw [Thread.suspend_currentScheduler, ← hu]
    exact turn.pointer
  · rw [(Thread.suspend_scheduler _ s).2.2, ← hu]
    simp [Thread.giveTurn, Scheduler.setState, Scheduler.setCoroutine]
  · rw [(Thread.suspend_scheduler _ s).1, same.count]
    exact inside
  · obtain ⟨moment, context, sleeps⟩ := turn.caller
    refine ⟨moment, ?_, ?_⟩
    · rw [Thread.suspend_context_of_ne (by simp), same.context]
      exact context
    · rw [Thread.suspend_asleep_of_ne (by simp), same.asleep]
      exact sleeps
  · intro s' j exists_ ne_next
    rw [(Thread.suspend_scheduler _ s').1, same.count] at exists_
    by_cases own : (s', j) = (s, i)
    · cases own
      have kept : (u.suspend (.coroutine s i) (.coroutine s i)).state s i = t.state s i := by
        rw [Thread.suspend_state, states, if_neg ne_next]
      unfold Parked
      rw [kept]
      cases state : t.state s i with
      | ready => exact .inr ⟨rfl, saved⟩
      | running => exact absurd state left
      | finished => exact .inl rfl
    · exact undisturbed s' j (turn.others s' j exists_ own) ne_next own
  · rw [Thread.suspend_state, states, if_pos rfl]
  · by_cases own : next = i
    · exact own ▸ saved
    · have ne : (s, next) ≠ (s, i) := fun same => own (by cases same; rfl)
      have slot : Slot.coroutine s next ≠ .coroutine s i := fun same => own (by cases same; rfl)
      have flow : Flow.coroutine s next ≠ .coroutine s i := fun same => own (by cases same; rfl)
      have ready : Resumable t s next :=
        ((turn.others s next inside ne).resolve_left unfinished).2
      unfold Resumable at ready ⊢
      rwa [Thread.suspend_context_of_ne slot, same.context, Thread.suspend_asleep_of_ne flow,
        same.asleep, Thread.suspend_entered, same.entered]

/-- Nothing is left to run: the switch continues the caller of `lc_scheduler_run`,
and all coroutines of the scheduler are finished. -/
theorem Safe.of_none (booked : Booked t) (turn : InTurn t s i)
    (none_ : (t.schedulers s).findNext = none) :
    Safe (t.switch (.coroutine s i) (.coroutine s i) (.main s)) ∧
      (t.switch (.coroutine s i) (.coroutine s i) (.main s)).control = .flow .main ∧
      ∀ j < (t.switch (.coroutine s i) (.coroutine s i) (.main s)).count s,
        (t.switch (.coroutine s i) (.coroutine s i) (.main s)).state s j = .finished := by
  have inside : (t.schedulers s).current < (t.schedulers s).count := by
    rw [turn.current]
    exact turn.inside
  have all : ∀ j < t.count s, t.state s j = .finished := fun j exists_ =>
    Scheduler.finished_of_findNext_eq_none inside (booked.sized s) none_ exists_
  obtain ⟨moment, context, sleeps⟩ := turn.caller
  have back : t.switch (.coroutine s i) (.coroutine s i) (.main s) =
      (t.suspend (.coroutine s i) (.coroutine s i)).wake .main := by
    unfold Thread.switch Thread.resume
    rw [Thread.suspend_context_of_ne (by simp), context]
    simp only
    rw [Thread.suspend_asleep_of_ne (by simp), if_pos sleeps]
  have counts := fun s' => (Thread.suspend_scheduler (t := t) (f := .coroutine s i)
    (.coroutine s i) s').1
  have finished : ∀ j < (t.suspend (.coroutine s i) (.coroutine s i)).count s,
      (t.suspend (.coroutine s i) (.coroutine s i)).state s j = .finished := by
    intro j exists_
    rw [Thread.suspend_state]
    exact all j (counts s ▸ exists_)
  rw [back]
  refine ⟨⟨(booked.suspend _ _).wake _, .outside rfl ?_⟩, rfl, finished⟩
  intro s' j exists_
  by_cases own : s' = s
  · subst own
    exact .inl (finished j exists_)
  · have ne : (s', j) ≠ (s, i) := fun same => own (congrArg Prod.fst same)
    refine Parked.wake (Parked.suspend (turn.others s' j (counts s' ▸ exists_) ne) ?_ ?_) ?_
    · exact fun same => own (by cases same; rfl)
    · exact fun same => own (by cases same; rfl)
    · exact fun same => nomatch same

/-! ### One call -/

namespace Thread

@[simp] theorem resume_schedulers (slot : Slot S) : (t.resume slot).schedulers = t.schedulers := by
  unfold resume trampoline
  cases t.context slot with
  | zero => rfl
  | entry =>
    cases t.currentScheduler with
    | none => rfl
    | some s =>
      simp only
      split <;> rfl
  | saved f moment =>
    simp only
    split <;> rfl

@[simp] theorem switch_state (f : Flow S) (save restore : Slot S) (s : S) (j : Nat) :
    (t.switch f save restore).state s j = t.state s j := by
  unfold switch
  rw [state, resume_schedulers]
  exact suspend_state save s j

@[simp] theorem switch_count (f : Flow S) (save restore : Slot S) (s : S) :
    (t.switch f save restore).count s = t.count s := by
  unfold switch
  rw [count, resume_schedulers]
  exact (suspend_scheduler save s).1

end Thread

/-- What a call by the executing flow may do: it leaves the thread safe, switches
to no finished coroutine, one that finishes in this call included, revives none, and
returns from `lc_scheduler_run` only when all coroutines of the scheduler are finished. -/
structure Lawful (t : Thread S) (a : Action S) (t' : Thread S) (label : Label S) : Prop where
  safe : Safe t'
  target : ∀ s i, label = .switched (.coroutine s i) → t.state s i ≠ .finished
  ended : a = .finish → ∀ s i, t.control = .flow (.coroutine s i) →
    t'.state s i = .finished ∧ label ≠ .switched (.coroutine s i)
  finished : ∀ s j, j < t.count s → t.state s j = .finished → j < t'.count s →
    t'.state s j = .finished
  returned : ∀ s, label = .switched (.main s) → ∀ j < t'.count s, t'.state s j = .finished

omit [DecidableEq S] in
/-- Preparations that revive no coroutine do not matter. The one that finishes is among
those that the switch finds finished. -/
theorem Lawful.prepend {a : Action S} {t' : Thread S} {label : Label S}
    (h : Lawful u .yield t' label) (count : ∀ s, u.count s = t.count s)
    (kept : ∀ s j, t.state s j = .finished → u.state s j = .finished)
    (ended : a = .finish → ∀ s i, t.control = .flow (.coroutine s i) →
      u.state s i = .finished ∧ t'.state s i = .finished) : Lawful t a t' label where
  safe := h.safe
  target s i switched again := h.target s i switched (kept s i again)
  ended last s i control :=
    have ⟨before, after⟩ := ended last s i control
    ⟨after, fun switched => h.target s i switched before⟩
  finished s j exists_ state := h.finished s j (count s ▸ exists_) (kept s j state)
  returned := h.returned

omit [DecidableEq S] in
/-- A call that does not switch only has to keep the thread safe. -/
theorem Lawful.of_stayed {a : Action S} {t' : Thread S} (safe : Safe t') (goes : a ≠ .finish)
    (finished : ∀ s j, j < t.count s → t.state s j = .finished → j < t'.count s →
      t'.state s j = .finished) : Lawful t a t' .stayed :=
  ⟨safe, fun _ _ switched => (nomatch switched), fun last => absurd last goes, finished,
    fun _ switched => (nomatch switched)⟩

omit [DecidableEq S] in
/-- While the thread's own code executes, every coroutine is parked. -/
theorem Safe.parked (h : Safe t) (control : t.control = .flow .main) :
    ∀ s j, j < t.count s → Parked t s j := by
  cases h.placed with
  | outside _ parked => exact parked
  | inside inside => simp [control] at inside

theorem lawful_switchToNext (booked : Booked t) (turn : InTurn t s i)
    (left : t.state s i ≠ .running) :
    Lawful t .yield (t.switchToNext (.coroutine s i) s).1
        (t.switchToNext (.coroutine s i) s).2 ∧
      (t.switchToNext (.coroutine s i) s).2 ≠ .stayed ∧
      ∀ s', (t.switchToNext (.coroutine s i) s).1.count s' = t.count s' := by
  unfold Thread.switchToNext
  rw [turn.current]
  cases found : (t.schedulers s).findNext with
  | none =>
    obtain ⟨safe, -, all⟩ := Safe.of_none booked turn found
    refine ⟨⟨safe, ?_, nofun, ?_, ?_⟩, by simp, Thread.switch_count _ _ _⟩
    · intro s' i' switched
      cases switched
    · intro s' j _ state _
      rw [Thread.switch_state]
      exact state
    · intro s' switched
      cases switched
      exact all
  | some next =>
    refine ⟨⟨Safe.of_next booked turn left found, ?_, nofun, ?_, ?_⟩, by simp, fun s' => ?_⟩
    · intro s' i' switched
      cases switched
      exact (Scheduler.of_findNext_eq_some found).2
    · intro s' j _ state _
      have ne : (s', j) ≠ (s, next) := by
        intro same
        cases same
        exact (Scheduler.of_findNext_eq_some found).2 state
      rw [Thread.switch_state, Thread.giveTurn_state, if_neg ne]
      exact state
    · intro s' switched
      cases switched
    · exact (Thread.switch_count _ _ _ s').trans ((retuned_giveTurn next).count s')

/-- The executing coroutine is marked as ready or finished. -/
theorem InTurn.setState (turn : InTurn t s i) (status : Status) (active : Nat) :
    let d := { t.schedulers s with activeCount := active }
    Retuned t (t.setScheduler s (d.setState i status)) ∧
      InTurn (t.setScheduler s (d.setState i status)) s i ∧
      ∀ s' j, (t.setScheduler s (d.setState i status)).state s' j =
        if (s', j) = (s, i) then status else t.state s' j := by
  intro d
  have same : Retuned t (t.setScheduler s (d.setState i status)) :=
    .setScheduler rfl rfl rfl (Scheduler.setState_context i status)
  have states : ∀ s' j, (t.setScheduler s (d.setState i status)).state s' j =
      if (s', j) = (s, i) then status else t.state s' j :=
    Thread.setScheduler_state active _ status
  refine ⟨same, ⟨turn.pointer, ?_, ?_, ?_, ?_⟩, states⟩
  · rw [Thread.setScheduler_self]
    exact turn.current
  · rw [same.count]
    exact turn.inside
  · rw [same.context, same.asleep]
    exact turn.caller
  · intro s' j exists_ ne
    rw [same.count] at exists_
    exact (turn.others s' j exists_ ne).retuned same (by rw [states, if_neg ne])

theorem InTurn.yield_eq (turn : InTurn t s i) :
    t.lcCoroutineYield (.coroutine s i) =
      if t.state s i = .running then
        (t.setScheduler s ((t.schedulers s).setState i .ready)).switchToNext (.coroutine s i) s
      else t.switchToNext (.coroutine s i) s := by
  have some_ : (t.schedulers s).count ≠ 0 := Nat.ne_of_gt (Nat.zero_lt_of_lt turn.inside)
  unfold Thread.lcCoroutineYield
  simp only [turn.pointer, some_, if_false, turn.current]
  rfl

theorem lawful_yield (booked : Booked t) (turn : InTurn t s i) (running : t.state s i = .running) :
    Lawful t .yield (t.lcCoroutineYield (.coroutine s i)).1
      (t.lcCoroutineYield (.coroutine s i)).2 := by
  rw [turn.yield_eq, if_pos running]
  obtain ⟨same, turn', states⟩ := turn.setState .ready (t.schedulers s).activeCount
  have left : (t.setScheduler s ((t.schedulers s).setState i .ready)).state s i ≠ .running := by
    rw [states, if_pos rfl]
    decide
  refine (lawful_switchToNext (booked.retuned same) turn' left).1.prepend same.count ?_ nofun
  intro s' j finished
  have ne : (s', j) ≠ (s, i) := by
    intro own
    cases own
    rw [running] at finished
    cases finished
  rw [states, if_neg ne]
  exact finished

/-- A finished coroutine sleeps for good. -/
theorem Safe.forget (h : Safe t) (finished : t.state s i = .finished) :
    Safe { t with asleep := update t.asleep (.coroutine s i) none } := by
  have parked : ∀ s' j, Parked t s' j →
      Parked { t with asleep := update t.asleep (.coroutine s i) none } s' j := by
    intro s' j parked
    by_cases own : (s', j) = (s, i)
    · cases own
      exact .inl finished
    · refine parked.congr rfl rfl (update_of_ne ?_ ..) id
      exact fun same => own (by cases same; rfl)
  refine ⟨h.booked.congr (fun _ => rfl) (fun _ => rfl) rfl, ?_⟩
  cases h.placed with
  | outside control all => exact .outside control fun s' j exists_ => parked s' j (all s' j exists_)
  | inside control running turn =>
    obtain ⟨moment, context, sleeps⟩ := turn.caller
    refine .inside control running ⟨turn.pointer, turn.current, turn.inside, ?_, ?_⟩
    · have ne : Flow.main ≠ .coroutine s i := fun same => nomatch same
      exact ⟨moment, context, (update_of_ne ne none t.asleep).trans sleeps⟩
    · exact fun s' j exists_ ne => parked s' j (turn.others s' j exists_ ne)

/-- A coroutine that ends in its turn is marked as finished and switches away. -/
theorem InTurn.trampolineEnd_eq (turn : InTurn t s i) (booked : Booked t) :
    ∃ u t' target, Retuned t u ∧ InTurn u s i ∧
      (∀ s' j, u.state s' j = if (s', j) = (s, i) then .finished else t.state s' j) ∧
      u.switchToNext (.coroutine s i) s = (t', .switched target) ∧
      t.trampolineEnd s i = ({ t' with asleep := update t'.asleep (.coroutine s i) none },
        .switched target) := by
  obtain ⟨same, turn', states⟩ :=
    turn.setState .finished (sub32 (t.schedulers s).activeCount 1)
  unfold Thread.trampolineEnd
  simp only
  generalize t.setScheduler s ({ t.schedulers s with
    activeCount := sub32 (t.schedulers s).activeCount 1 }.setState i .finished) = u at *
  have left : u.state s i ≠ .running := by
    rw [states, if_pos rfl]
    decide
  have switched := (lawful_switchToNext (booked.retuned same) turn' left).2.1
  rw [turn'.yield_eq, if_neg left]
  cases next : u.switchToNext (.coroutine s i) s with
  | mk t' label =>
    rw [next] at switched
    cases label with
    | stayed => exact absurd rfl switched
    | switched target => exact ⟨u, t', target, same, turn', states, next, rfl⟩

theorem lawful_finish (booked : Booked t) (control : t.control = .flow (.coroutine s i))
    (turn : InTurn t s i) :
    Lawful t .finish (t.trampolineEnd s i).1 (t.trampolineEnd s i).2 := by
  obtain ⟨u, t', target, same, turn', states, next, ended⟩ := turn.trampolineEnd_eq booked
  have done : u.state s i = .finished := by rw [states, if_pos rfl]
  obtain ⟨lawful, -, counts⟩ :=
    lawful_switchToNext (booked.retuned same) turn' (by rw [done]; decide)
  rw [next] at lawful counts
  rw [ended]
  have inside : i < t'.count s := (counts s).symm ▸ turn'.inside
  have after := lawful.finished s i turn'.inside done inside
  refine Lawful.prepend (u := u) ⟨lawful.safe.forget after, lawful.target, nofun,
    lawful.finished, lawful.returned⟩ same.count ?_ ?_
  · intro s' j finished
    rw [states]
    split
    · rfl
    · exact finished
  · rintro - s' j own
    cases control.symm.trans own
    exact ⟨done, after⟩

/-- A run that finds nothing to do has all coroutines finished; otherwise the
first unfinished one is entered or continued. -/
theorem lawful_run (h : Safe t) (control : t.control = .flow .main) (s : S) :
    Lawful t (.run s) (t.lcSchedulerRun .main s).1 (t.lcSchedulerRun .main s).2 ∧
      ((t.lcSchedulerRun .main s).2 = .stayed → ∀ j < (t.lcSchedulerRun .main s).1.count s,
        (t.lcSchedulerRun .main s).1.state s j = .finished) := by
  have parked := h.parked control
  -- Setting the thread-local pointer is all that a fruitless run does.
  have pointed : ∀ pointer ran,
      Safe { t with currentScheduler := pointer, ran := ran } := fun pointer ran =>
    ⟨h.booked.congr (fun _ => rfl) (fun _ => rfl) rfl, .outside control fun s j exists_ =>
      (parked s j exists_).congr rfl rfl rfl id⟩
  unfold Thread.lcSchedulerRun
  simp only
  by_cases empty : (t.schedulers s).count = 0
  · simp only [empty, if_true]
    refine ⟨.of_stayed h nofun fun _ _ _ finished _ => finished, fun _ j exists_ => ?_⟩
    rw [Thread.count, empty] at exists_
    exact absurd exists_ (Nat.not_lt_zero j)
  · rw [if_neg empty]
    by_cases none_ : (t.schedulers s).countRunnable.1 = 0
    · simp only [none_, if_true]
      exact ⟨.of_stayed (pointed _ _) nofun fun _ _ _ finished _ => finished,
        fun _ j exists_ => Scheduler.finished_of_countRunnable none_ exists_⟩
    · simp only [none_, if_false]
      obtain ⟨inside, unfinished⟩ := Scheduler.of_countRunnable none_
      generalize (t.schedulers s).countRunnable.1 = runnable at *
      generalize (t.schedulers s).countRunnable.2 = first at *
      generalize hu : Thread.setScheduler
        { t with currentScheduler := some s, ran := s :: t.ran } s
        { t.schedulers s with activeCount := runnable } = u
      have pointer : u.currentScheduler = some s := by rw [← hu]; rfl
      have prepared : Retuned t u := by
        rw [← hu]
        exact .trans (u := { t with currentScheduler := some s, ran := s :: t.ran })
          ⟨fun _ => rfl, fun _ => rfl, fun _ => rfl, rfl, rfl⟩
          (.setScheduler rfl rfl rfl fun _ => rfl)
      have unmarked : ∀ s' j, u.state s' j = t.state s' j := by
        intro s' j
        rw [← hu]
        exact (forall_update_iff t.schedulers fun s d => (d.coroutines j).state = t.state s j).mpr
          ⟨by rfl, fun _ _ => rfl⟩ s'
      have same := prepared.trans (retuned_giveTurn (t := u) (s := s) first)
      have states : ∀ s' j, (u.giveTurn s first).state s' j =
          if (s', j) = (s, first) then .running else t.state s' j := fun s' j => by
        rw [Thread.giveTurn_state, unmarked]
      have ready : Resumable t s first := ((parked s first inside).resolve_left unfinished).2
      refine ⟨⟨?_, ?_, nofun, ?_, fun _ switched => nomatch switched⟩, fun stayed => nomatch stayed⟩
      · refine Safe.of_resume ((h.booked.retuned same).suspend _ _) ⟨?_, ?_, ?_, ?_, ?_⟩ ?_ ?_
        · rw [Thread.suspend_currentScheduler]
          exact pointer
        · rw [(Thread.suspend_scheduler _ s).2.2]
          simp [Thread.giveTurn, Scheduler.setState, Scheduler.setCoroutine]
        · rw [(Thread.suspend_scheduler _ s).1, same.count]
          exact inside
        · exact ⟨_, Thread.suspend_context_self _, Thread.suspend_asleep_self _⟩
        · intro s' j exists_ ne
          rw [(Thread.suspend_scheduler _ s').1, same.count] at exists_
          have in_u : Parked (u.giveTurn s first) s' j :=
            (parked s' j exists_).retuned same (by rw [states, if_neg ne])
          exact in_u.suspend (by simp) (by simp)
        · rw [Thread.suspend_state, states, if_pos rfl]
        · unfold Resumable at ready ⊢
          rwa [Thread.suspend_context_of_ne (by simp), same.context,
            Thread.suspend_asleep_of_ne (by simp), same.asleep, Thread.suspend_entered,
            same.entered]
      · intro s' i' switched
        cases switched
        exact unfinished
      · intro s' j _ finished _
        have ne : (s', j) ≠ (s, first) := by
          intro own
          cases own
          exact unfinished finished
        rw [Thread.switch_state, states, if_neg ne]
        exact finished

/-- `u` is `t` with one more coroutine in `s`. -/
structure Extended (t u : Thread S) (s : S) : Prop where
  count : ∀ s', u.count s' = if s' = s then t.count s + 1 else t.count s'
  capacity : ∀ s', (u.schedulers s').capacity = (t.schedulers s').capacity
  current : ∀ s', (u.schedulers s').current = (t.schedulers s').current
  state : ∀ s' j, j < t.count s' → u.state s' j = t.state s' j
  context : ∀ s' j, j < t.count s' → u.context (.coroutine s' j) = t.context (.coroutine s' j)
  main : ∀ s', u.context (.main s') = t.context (.main s')
  pointer : u.currentScheduler = t.currentScheduler
  control : u.control = t.control
  asleep : u.asleep = t.asleep
  entered : u.entered = t.entered
  new : Parked u s (t.count s)

/-- A created coroutine has never been entered, and no other is touched. -/
theorem extended_create (h : Booked t) {co : Coroutine S}
    (below : t.count s < (t.schedulers s).capacity) (entry : co.context = .entry)
    (ready : co.state = .ready) :
    Extended t (t.setScheduler s { t.schedulers s with
      count := (t.schedulers s).count + 1
      coroutines := update (t.schedulers s).coroutines (t.schedulers s).count co }) s := by
  generalize hd : ({ t.schedulers s with
    count := (t.schedulers s).count + 1
    coroutines := update (t.schedulers s).coroutines (t.schedulers s).count co } :
      Scheduler S) = d
  have old : ∀ s' j, j < t.count s' →
      ((t.setScheduler s d).schedulers s').coroutines j = (t.schedulers s').coroutines j := by
    intro s' j exists_
    by_cases own : s' = s
    · subst own
      rw [Thread.setScheduler_self, ← hd]
      exact update_of_ne (Nat.ne_of_lt exists_) ..
    · rw [Thread.setScheduler_of_ne own]
  have last : ((t.setScheduler s d).schedulers s).coroutines (t.count s) = co := by
    rw [Thread.setScheduler_self, ← hd]
    exact update_self ..
  refine ⟨fun s' => ?_, fun s' => ?_, fun s' => ?_,
    fun s' j exists_ => congrArg Coroutine.state (old s' j exists_),
    fun s' j exists_ => congrArg Coroutine.context (old s' j exists_), fun s' => ?_,
    rfl, rfl, rfl, rfl,
    .inr ⟨(congrArg Coroutine.state last).trans ready,
      .inl ⟨(congrArg Coroutine.context last).trans entry, h.unused s _ (Nat.le_refl _) below⟩⟩⟩
  all_goals
    by_cases own : s' = s
    · subst own
      simp [Thread.count, Thread.context, ← hd]
    · simp [Thread.count, Thread.context, Thread.setScheduler_of_ne own, own]

theorem Extended.grown (more : Extended t u s) (s' : S) : t.count s' ≤ u.count s' := by
  rw [more.count]
  split
  · next own => exact own ▸ Nat.le_succ _
  · exact Nat.le_refl _

theorem Extended.parked (more : Extended t u s) {s' : S} (exists_ : j < u.count s')
    (known : j < t.count s' → Parked t s' j) : Parked u s' j := by
  by_cases before : j < t.count s'
  · refine (known before).congr (more.state s' j before) (more.context s' j before) ?_ ?_
    · rw [more.asleep]
    · rw [more.entered]
      exact id
  · rw [more.count] at exists_
    by_cases own : s' = s
    · subst own
      rw [if_pos rfl] at exists_
      have last : j = t.count s' := by omega
      exact last ▸ more.new
    · rw [if_neg own] at exists_
      exact absurd exists_ before

theorem Safe.extended (h : Safe t) (more : Extended t u s) (room : t.count s < maxStacks) :
    Safe u := by
  refine ⟨⟨fun s' => ?_, ?_, fun s' j beyond => ?_⟩, ?_⟩
  · rw [more.count]
    split
    · exact room
    · exact h.booked.sized s'
  · rw [more.entered]
    exact h.booked.once
  · rw [more.capacity, more.entered]
    exact h.booked.unused s' j (Nat.le_trans (more.grown s') beyond)
  · cases h.placed with
    | outside control known =>
      exact .outside (more.control.trans control) fun s' j exists_ =>
        more.parked exists_ (known s' j)
    | @inside s' i control running turn =>
      refine .inside (s := s') (i := i) (more.control.trans control)
        ((more.state s' i turn.inside).trans running)
        ⟨more.pointer.trans turn.pointer, (more.current s').trans turn.current,
          Nat.lt_of_lt_of_le turn.inside (more.grown s'), ?_, fun s'' j exists_ ne => ?_⟩
      · rw [more.main, more.asleep]
        exact turn.caller
      · exact more.parked exists_ fun before => turn.others s'' j before ne

theorem lawful_create (h : Safe t) (s : S) (func arg pageSize : Nat) (stack : Option Nat)
    (guarded : Bool) (room : stack ≠ none → t.count s < maxStacks) :
    Lawful t (.create s func arg pageSize stack guarded) (t.setScheduler s
      ((t.schedulers s).lcCoroutineCreate func arg pageSize stack guarded)) .stayed := by
  rcases Scheduler.lcCoroutineCreate_cases (d := t.schedulers s) func arg pageSize stack
      guarded with
    failed | ⟨below, mapped, co, entry, ready, created⟩
  · have same : t.setScheduler s (t.schedulers s) = t := by simp [Thread.setScheduler]
    rw [failed, same]
    exact .of_stayed h nofun fun _ _ _ finished _ => finished
  · rw [created]
    have more := extended_create h.booked below entry ready
    exact .of_stayed (h.extended more (room mapped)) nofun fun s' j exists_ finished _ =>
      (more.state s' j exists_).trans finished

/-- Destroying a scheduler takes its coroutines out of the account. -/
theorem lawful_destroy (h : Safe t) (control : t.control = .flow .main) (s : S) :
    Lawful t (.destroy s) (t.lcSchedulerDestroy .main s) .stayed := by
  have parked := h.parked control
  have empty : (t.lcSchedulerDestroy .main s).count s = 0 := by
    simp [Thread.lcSchedulerDestroy, Thread.count, Thread.setScheduler,
      Scheduler.lcSchedulerDestroy]
  have others : ∀ s', s' ≠ s →
      (t.lcSchedulerDestroy .main s).schedulers s' = t.schedulers s' := fun s' ne =>
    Thread.setScheduler_of_ne ne _
  have unaffected : ∀ s' j, j < (t.lcSchedulerDestroy .main s).count s' →
      s' ≠ s ∧ j < t.count s' := by
    intro s' j exists_
    by_cases own : s' = s
    · rw [own, empty] at exists_
      exact absurd exists_ (Nat.not_lt_zero j)
    · rw [Thread.count, others s' own] at exists_
      exact ⟨own, exists_⟩
  refine .of_stayed ⟨⟨fun s' => ?_, h.booked.once, fun s' j beyond room => ?_⟩,
    .outside control fun s' j exists_ => ?_⟩ nofun fun s' j _ finished exists_ => ?_
  · by_cases own : s' = s
    · rw [own, empty]
      exact Nat.zero_le _
    · rw [Thread.count, others s' own]
      exact h.booked.sized s'
  · by_cases own : s' = s
    · subst own
      simp [Thread.lcSchedulerDestroy, Thread.setScheduler, Scheduler.lcSchedulerDestroy] at room
    · rw [Thread.count, others s' own] at beyond
      rw [others s' own] at room
      exact h.booked.unused s' j beyond room
  · obtain ⟨ne, before⟩ := unaffected s' j exists_
    refine (parked s' j before).congr ?_ ?_ (if_neg ne) id
    · rw [Thread.state, others s' ne, Thread.state]
    · rw [Thread.context, others s' ne, Thread.context]
  · obtain ⟨ne, -⟩ := unaffected s' j exists_
    rw [Thread.state, others s' ne]
    exact finished

/-! ### Whole runs -/

/-- The thread creates, runs and destroys; coroutines create, yield and return. -/
def Permitted (t : Thread S) (a : Action S) : Prop :=
  KernelAllows t a ∧
    match a with
    | .run _ => t.control = .flow .main
    | .destroy _ => t.control = .flow .main
    | .yield => t.control ≠ .flow .main
    | _ => True

instance decidablePermitted (t : Thread S) (a : Action S) : Decidable (Permitted t a) :=
  @instDecidableAnd _ _ _ <|
    match a with
    | .create .. => .isTrue trivial
    | .run _ => inferInstanceAs (Decidable (t.control = .flow .main))
    | .destroy _ => inferInstanceAs (Decidable (t.control = .flow .main))
    | .yield => inferInstanceAs (Decidable (t.control ≠ .flow .main))
    | .finish => .isTrue trivial

/-- A thread that uses its schedulers in this way. -/
def scheduling (S : Type) [DecidableEq S] : System (Thread S) := usedBy Permitted

theorem lawful_perform {a : Action S} {t' : Thread S} {label : Label S} (h : Safe t)
    (permitted : Permitted t a) (run : perform t a = some (t', label)) :
    Lawful t a t' label ∧
      (label = .stayed → ∀ s, a = .run s → ∀ j < t'.count s, t'.state s j = .finished) := by
  obtain ⟨allowed, who⟩ := permitted
  unfold perform at run
  cases a with
  | create s func arg pageSize stack guarded =>
    cases control : t.control with
    | lost => simp [control] at run
    | flow f =>
      simp only [control, Option.some.injEq, Prod.mk.injEq] at run
      obtain ⟨rfl, rfl⟩ := run
      exact ⟨lawful_create h s func arg pageSize stack guarded allowed, by simp⟩
  | run s =>
    simp only at who
    simp only [who, Option.some.injEq] at run
    obtain ⟨lawful, idle⟩ := lawful_run h who s
    rw [run] at lawful idle
    refine ⟨lawful, fun stayed s' same => ?_⟩
    cases same
    exact idle stayed
  | destroy s =>
    simp only at who
    simp only [who, Option.some.injEq, Prod.mk.injEq] at run
    obtain ⟨rfl, rfl⟩ := run
    exact ⟨lawful_destroy h who s, by simp⟩
  | yield =>
    cases h.placed with
    | outside control => exact absurd control who
    | inside control running turn =>
      simp only [control, Option.some.injEq] at run
      have lawful := lawful_yield h.booked turn running
      rw [run] at lawful
      exact ⟨lawful, by simp⟩
  | finish =>
    cases h.placed with
    | outside control => simp [control] at run
    | inside control running turn =>
      simp only [control, Option.some.injEq] at run
      have lawful := lawful_finish h.booked control turn
      rw [run] at lawful
      exact ⟨lawful, by simp⟩

theorem safe_of_reachable (run : (scheduling S).Reachable t) : Safe t := by
  refine System.Inductive.reachable (I := Safe) ⟨fun t fresh => ?_, fun t t' h step => ?_⟩ run
  · obtain ⟨created, -, control, -, entered, -⟩ := fresh
    have empty : ∀ s, t.count s = 0 := by
      intro s
      obtain ⟨capacity, -, same⟩ := created s
      rw [Thread.count, same]
      rfl
    refine ⟨⟨fun s => ?_, ?_, fun s j _ _ => ?_⟩, .outside control fun s j exists_ => ?_⟩
    · rw [empty]
      exact Nat.zero_le _
    · rw [entered]
      exact List.nodup_nil
    · rw [entered]
      exact List.not_mem_nil
    · rw [empty] at exists_
      exact absurd exists_ (Nat.not_lt_zero j)
  · obtain ⟨a, label, permitted, performed⟩ := step
    exact (lawful_perform h permitted performed).1.safe

/-- Over every sequence of creations, runs and destructions by a thread, and
whatever the coroutines do between their yields: the program never goes astray;
an executing coroutine is the current one of its scheduler and the only running
one; no coroutine's function is entered twice; and every call switches to no
finished coroutine, the one that it finishes included, revives none, and lets
`lc_scheduler_run` return only when all coroutines of the scheduler are finished. -/
theorem scheduler_is_safe {t : Thread S} (run : (scheduling S).Reachable t) :
    t.control ≠ .lost ∧ t.entered.Nodup ∧
      (∀ s i, t.control = .flow (.coroutine s i) →
        (t.schedulers s).current = i ∧ i < t.count s ∧
          ∀ s' j, j < t.count s' → (t.state s' j = .running ↔ s' = s ∧ j = i)) ∧
      ∀ a t' label, Permitted t a → perform t a = some (t', label) →
        (∀ s i, label = .switched (.coroutine s i) → t.state s i ≠ .finished) ∧
        (a = .finish → ∀ s i, t.control = .flow (.coroutine s i) →
          t'.state s i = .finished ∧ label ≠ .switched (.coroutine s i)) ∧
        (∀ s j, j < t.count s → t.state s j = .finished → j < t'.count s →
          t'.state s j = .finished) ∧
        ∀ s, label = .switched (.main s) ∨ (a = .run s ∧ label = .stayed) →
          ∀ j < t'.count s, t'.state s j = .finished := by
  have safe := safe_of_reachable run
  refine ⟨?_, safe.booked.once, ?_, ?_⟩
  · cases safe.placed with
    | outside control | inside control => simp [control]
  · intro s i control
    cases safe.placed with
    | outside outside => simp [control] at outside
    | inside inside running turn =>
      rw [control] at inside
      cases inside
      refine ⟨turn.current, turn.inside, fun s' j exists_ => ⟨fun state => ?_, ?_⟩⟩
      · by_contra ne
        have parked := turn.others s' j exists_ fun same => ne (by cases same; exact ⟨rfl, rfl⟩)
        unfold Parked at parked
        rw [state] at parked
        simp at parked
      · rintro ⟨rfl, rfl⟩
        exact running
  · intro a t' label permitted performed
    obtain ⟨lawful, idle⟩ := lawful_perform safe permitted performed
    refine ⟨lawful.target, lawful.ended, lawful.finished, fun s returns => ?_⟩
    rcases returns with returned | ⟨same, stayed⟩
    · exact lawful.returned s returned
    · exact idle stayed s same

/-- Two coroutines of one scheduler: the first yields, and the second has
returned when the first is executing again. -/
def takingTurns : List (Action Unit) :=
  [.create () 1 0 4096 (some 65536) true, .create () 2 0 4096 (some 262144) true, .run (),
    .yield, .finish]

theorem scheduler_is_safe_taking_turns :
    ∃ t, afterwards Permitted 4 takingTurns = some t ∧
      t.control = .flow (.coroutine () 0) ∧ t.state () 1 = .finished ∧
      (t.schedulers ()).current = 0 ∧ t.entered.Nodup := by
  have executed := (Option.some_get (x := afterwards Permitted 4 takingTurns)
    (by decide +kernel)).symm
  obtain ⟨-, once, turn, -⟩ := scheduler_is_safe (reachable_afterwards (by decide) executed)
  exact ⟨_, executed, by decide +kernel, by decide +kernel, (turn () 0 (by decide +kernel)).1, once⟩

end Lightc.Coroutines
