import Lightc.Machine.Atomic
import Lightc.Verification.Transition

/-!
# The three-state futex mutex

The word is 0 when unlocked, 1 when locked and 2 when locked with possible
waiters. `lc_mutex_unlock` is not one atomic action: with waiters it subtracts
(2 to 1), stores 0 and wakes one sleeper in three separate steps, and lockers
may move the word back to 2 in between and have it overwritten.

A thread's program counter names the next shared access it will make. Locking,
trying and unlocking are repeated without bound by any number of threads, and
the futex may wake a sleeper spuriously.
-/

namespace Lightc.Sync.Mutex

open Machine Verification Function

/-- The next shared access of a thread. -/
inductive Pc
  /-- Not in the mutex code and not holding the mutex. -/
  | outside
  /-- `lc_mutex_lock`, before the fast-path compare-exchange. -/
  | lockCas
  /-- `lc_mutex_lock`, before the exchange in the loop guard. -/
  | lockExchange
  /-- `lc_mutex_lock`, before `futex_wait`. -/
  | lockWait
  /-- Sleeping in `futex_wait`. -/
  | asleep
  /-- `lc_mutex_try_lock`, before its compare-exchange. -/
  | tryCas
  /-- Locking returned; the critical section. -/
  | holding
  /-- `lc_mutex_unlock`, before the fetch-sub. -/
  | unlockSub
  /-- `lc_mutex_unlock` saw 2, before the store of 0. -/
  | unlockStore
  /-- `lc_mutex_unlock`, before `futex_wake`. -/
  | unlockWake
  deriving DecidableEq, Repr

/-- The caller has the mutex: locking returned and unlocking has not yet
subtracted. -/
def Pc.Holds (pc : Pc) : Prop := pc = .holding ∨ pc = .unlockSub

/-- Inside `lc_mutex_lock` or `lc_mutex_unlock`, asleep or not. -/
def Pc.InLockOrUnlock : Pc → Prop
  | .lockCas | .lockExchange | .lockWait | .asleep => True
  | .unlockSub | .unlockStore | .unlockWake => True
  | .outside | .tryCas | .holding => False

/-- One step of `lc_mutex_lock`; falling asleep is a step of its own. -/
def lcMutexLock : Pc → UInt32 → Option (Pc × UInt32)
  | .lockCas, word =>
    let (acquired, word') := atomicCompareExchange word 0 1
    some (if acquired then .holding else .lockExchange, word')
  | .lockExchange, word =>
    let (old, word') := atomicExchange word 2
    some (if old ≠ 0 then .lockWait else .holding, word')
  | .lockWait, word => some (if futexWait word 2 then .asleep else .lockExchange, word)
  | _, _ => none

/-- One step of `lc_mutex_try_lock`. -/
def lcMutexTryLock : Pc → UInt32 → Option (Pc × UInt32)
  | .tryCas, word =>
    let (acquired, word') := atomicCompareExchange word 0 1
    some (if acquired then .holding else .outside, word')
  | _, _ => none

/-- One step of `lc_mutex_unlock` up to the wake-up, which involves a second
thread and is part of `Step`. -/
def lcMutexUnlock : Pc → UInt32 → Option (Pc × UInt32)
  | .unlockSub, word =>
    let (prev, word') := atomicFetchSub word 1
    some (if prev = 2 then .unlockStore else .outside, word')
  | .unlockStore, _ => some (.unlockWake, 0)
  | _, _ => none

structure State (T : Type) where
  state : UInt32
  pc : T → Pc

variable {T : Type} [DecidableEq T]

namespace State

@[simp] def setPc (s : State T) (t : T) (pc : Pc) : State T :=
  { s with pc := update s.pc t pc }

/-- A step of one thread that also leaves a new word behind. -/
def advance (s : State T) (t : T) (result : Pc × UInt32) : State T :=
  { state := result.2, pc := update s.pc t result.1 }

/-- Sleepers released by a wake-up go back to the loop guard. -/
@[simp] def release (s : State T) : Option T → State T
  | some u => s.setPc u .lockExchange
  | none => s

theorem setPc_other (s : State T) {t u : T} (pc : Pc) (h : u ≠ t) :
    (s.setPc t pc).pc u = s.pc u := by
  simp [h]

@[simp] theorem advance_self (s : State T) (t : T) (r : Pc × UInt32) :
    (s.advance t r).pc t = r.1 := by
  simp [advance]

theorem advance_other (s : State T) {t u : T} (r : Pc × UInt32) (h : u ≠ t) :
    (s.advance t r).pc u = s.pc u := by
  simp [advance, h]

end State

/-- The atomic steps of all threads. Unlocking is called only by a holder. -/
inductive Step : State T → State T → Prop
  | callLock {s : State T} {t : T} (at_ : s.pc t = .outside) : Step s (s.setPc t .lockCas)
  | callTryLock {s : State T} {t : T} (at_ : s.pc t = .outside) : Step s (s.setPc t .tryCas)
  | callUnlock {s : State T} {t : T} (at_ : s.pc t = .holding) : Step s (s.setPc t .unlockSub)
  | lock {s : State T} {t : T} {r : Pc × UInt32}
      (run : lcMutexLock (s.pc t) s.state = some r) : Step s (s.advance t r)
  | tryLock {s : State T} {t : T} {r : Pc × UInt32}
      (run : lcMutexTryLock (s.pc t) s.state = some r) : Step s (s.advance t r)
  | unlock {s : State T} {t : T} {r : Pc × UInt32}
      (run : lcMutexUnlock (s.pc t) s.state = some r) : Step s (s.advance t r)
  | wake {s : State T} {t : T} {woken : Option T} (at_ : s.pc t = .unlockWake)
      (released : WakeOne (fun u => s.pc u = .asleep) woken) :
      Step s ((s.setPc t .outside).release woken)
  | spurious {s : State T} {t : T} (at_ : s.pc t = .asleep) : Step s (s.setPc t .lockExchange)

/-- `LC_MUTEX_INIT` with every thread outside. -/
def system (T : Type) [DecidableEq T] : System (State T) where
  init s := s.state = 0 ∧ ∀ t, s.pc t = .outside
  step := Step

/-- Where a thread's next step can take it. -/
@[simp] def Pc.next : Pc → List Pc
  | .outside => [.lockCas, .tryCas]
  | .lockCas => [.holding, .lockExchange]
  | .lockExchange => [.lockWait, .holding]
  | .lockWait => [.asleep, .lockExchange]
  | .asleep => [.lockExchange]
  | .tryCas => [.holding, .outside]
  | .holding => [.unlockSub]
  | .unlockSub => [.unlockStore, .outside]
  | .unlockStore => [.unlockWake]
  | .unlockWake => [.outside]

variable {pc : Pc} {word : UInt32} {r : Pc × UInt32}

theorem lcMutexLock_next (run : lcMutexLock pc word = some r) : r.1 ∈ pc.next := by
  cases pc <;> simp only [lcMutexLock, reduceCtorEq, Option.some.injEq] at run <;> subst r
  all_goals
    dsimp only
    split <;> simp

theorem lcMutexTryLock_next (run : lcMutexTryLock pc word = some r) : r.1 ∈ pc.next := by
  cases pc <;> simp only [lcMutexTryLock, reduceCtorEq, Option.some.injEq] at run
  subst r
  dsimp only
  split <;> simp

theorem lcMutexUnlock_next (run : lcMutexUnlock pc word = some r) : r.1 ∈ pc.next := by
  cases pc <;> simp only [lcMutexUnlock, reduceCtorEq, Option.some.injEq] at run <;> subst r
  case unlockSub =>
    dsimp only
    split <;> simp
  case unlockStore => simp

variable {s s' : State T}

/-- A step moves a thread on by one place or not at all. -/
theorem Step.pc_next (step : Step s s') (u : T) : s'.pc u = s.pc u ∨ s'.pc u ∈ (s.pc u).next := by
  have move : ∀ (t : T) (pc : Pc), pc ∈ (s.pc t).next →
      update s.pc t pc u = s.pc u ∨ update s.pc t pc u ∈ (s.pc u).next := by
    intro t pc member
    exact (forall_update_iff s.pc fun u pc => pc = s.pc u ∨ pc ∈ (s.pc u).next).mpr
      ⟨.inr member, fun _ _ => .inl rfl⟩ u
  cases step with
  | callLock at_ | callTryLock at_ | callUnlock at_ | spurious at_ =>
    exact move _ _ (by simp [at_])
  | lock run => exact move _ _ (lcMutexLock_next run)
  | tryLock run => exact move _ _ (lcMutexTryLock_next run)
  | unlock run => exact move _ _ (lcMutexUnlock_next run)
  | @wake t woken at_ released =>
    have left := move t .outside (by simp [at_])
    cases released with
    | nobody => exact left
    | @one v sleeper =>
      by_cases same : u = v
      · subst u
        exact .inr (by simp [sleeper])
      · rw [State.release, State.setPc_other _ _ same]
        exact left

/-! ### Exclusion -/

/-- The thread still has to give the word up. Between its subtraction and its
store of 0 an unlocker no longer holds the mutex, but nobody else can take it. -/
@[simp] def Pc.Owns (pc : Pc) : Prop := pc = .holding ∨ pc = .unlockSub ∨ pc = .unlockStore

/-- What one thread's step does to the ownership of the word. -/
inductive Change (pc : Pc) (word : UInt32) (pc' : Pc) (word' : UInt32) : Prop
  | acquire (free : word = 0) (taken : word' = 1 ∨ word' = 2)
  | give (owned : pc.Owns) (freed : word' = 0) (gone : ¬ pc'.Owns)
  | keep (owns : pc'.Owns → pc.Owns) (free : word' = 0 → word = 0)
      (range : word' = 0 ∨ word' = 1 ∨ word' = 2)

structure Exclusive (s : State T) : Prop where
  word : s.state = 0 ∨ s.state = 1 ∨ s.state = 2
  free : s.state = 0 → ∀ t, ¬ (s.pc t).Owns
  unique : ∀ t u, (s.pc t).Owns → (s.pc u).Owns → t = u

variable {t : T}

/-- A change of one thread, all others staying where they are. -/
theorem Exclusive.change (h : Exclusive s) (change : Change (s.pc t) s.state r.1 r.2) :
    Exclusive (s.advance t r) := by
  cases change with
  | acquire free taken =>
    have others : ∀ u, ((s.advance t r).pc u).Owns → u = t := by
      intro u owns
      by_contra hne
      rw [State.advance_other s r hne] at owns
      exact h.free free u owns
    refine ⟨.inr taken, ?_, fun u v hu hv => (others u hu).trans (others v hv).symm⟩
    intro zero
    change r.2 = 0 at zero
    rw [zero] at taken
    exact absurd taken (by decide)
  | give owned freed gone =>
    have nobody : ∀ u, ¬ ((s.advance t r).pc u).Owns :=
      (forall_update_iff s.pc fun _ pc => ¬ pc.Owns).mpr
        ⟨gone, fun u other owns => other (h.unique u t owns owned)⟩
    exact ⟨.inl freed, fun _ => nobody, fun u _ hu => absurd hu (nobody u)⟩
  | keep owns free range =>
    have before : ∀ u, ((s.advance t r).pc u).Owns → (s.pc u).Owns :=
      (forall_update_iff s.pc fun u pc => pc.Owns → (s.pc u).Owns).mpr ⟨owns, fun _ _ => id⟩
    exact ⟨range, fun zero u hu => h.free (free zero) u (before u hu),
      fun u v hu hv => h.unique u v (before u hu) (before v hv)⟩

/-- The same for a step that leaves the word alone. -/
theorem Exclusive.setPc (h : Exclusive s) (owns : pc.Owns → (s.pc t).Owns) :
    Exclusive (s.setPc t pc) :=
  h.change (r := (pc, s.state)) (.keep owns id h.word)

section

variable (range : word = 0 ∨ word = 1 ∨ word = 2)
include range

theorem lcMutexLock_change (run : lcMutexLock pc word = some r) : Change pc word r.1 r.2 := by
  cases pc <;> simp only [lcMutexLock, reduceCtorEq, Option.some.injEq] at run <;> subst r
  case lockCas =>
    by_cases zero : word = 0
    · exact .acquire zero (by simp [zero])
    · exact .keep (by simp [zero])
        (by simp [zero]) (by simpa [zero] using range)
  case lockExchange =>
    by_cases zero : word = 0
    · exact .acquire zero (.inr rfl)
    · exact .keep (by simp [zero]) (by simp)
        (.inr (.inr rfl))
  case lockWait =>
    exact .keep (by by_cases two : word = 2 <;> simp [two]) id range

theorem lcMutexTryLock_change (run : lcMutexTryLock pc word = some r) : Change pc word r.1 r.2 := by
  cases pc <;> simp only [lcMutexTryLock, reduceCtorEq, Option.some.injEq] at run
  case tryCas =>
    subst r
    by_cases zero : word = 0
    · exact .acquire zero (by simp [zero])
    · exact .keep (by simp [zero])
        (by simp [zero]) (by simpa [zero] using range)

/-- Only an owner subtracts, so the word is 1 or 2 there and does not wrap. -/
theorem lcMutexUnlock_change (free : word = 0 → ¬ pc.Owns) (run : lcMutexUnlock pc word = some r) :
    Change pc word r.1 r.2 := by
  cases pc <;> simp only [lcMutexUnlock, reduceCtorEq, Option.some.injEq] at run <;> subst r
  case unlockSub =>
    rcases range with rfl | rfl | rfl
    · exact absurd (.inr (.inl rfl)) (free rfl)
    · exact .give (.inr (.inl rfl)) rfl (by simp)
    · exact .keep (fun _ => .inr (.inl rfl)) (by decide) (by decide)
  case unlockStore => exact .give (.inr (.inr rfl)) rfl (by simp)

end

theorem Exclusive.release (h : Exclusive s) (woken : Option T) : Exclusive (s.release woken) := by
  cases woken with
  | none => exact h
  | some u => exact h.setPc (by simp)

theorem Exclusive.step (h : Exclusive s) (next : Step s s') : Exclusive s' := by
  cases next with
  | callLock | callTryLock | spurious => exact h.setPc (by simp)
  | callUnlock at_ => exact h.setPc (fun _ => by simp [at_])
  | lock run => exact h.change (lcMutexLock_change h.word run)
  | tryLock run => exact h.change (lcMutexTryLock_change h.word run)
  | unlock run => exact h.change (lcMutexUnlock_change h.word (fun zero => h.free zero _) run)
  | wake => exact (h.setPc (by simp)).release _

theorem exclusive_inductive : (system T).Inductive Exclusive where
  init s start := ⟨.inl start.1, fun _ t => by simp [start.2 t],
    fun t u ht => by simp [start.2 t] at ht⟩
  step _ _ h next := h.step next

/-! ### Wake-ups -/

/-- The thread will, before it sleeps or leaves, write 2 or wake a sleeper. -/
@[simp] def Pc.WillWake (pc : Pc) : Prop :=
  pc = .lockExchange ∨ pc = .unlockStore ∨ pc = .unlockWake

/-- A sleeper is never forgotten: either the word announces it to the next
unlocker, or some awake thread is on its way to exchange, store or wake. -/
def Remembered (s : State T) : Prop :=
  ∀ t, s.pc t = .asleep → s.state = 2 ∨ ∃ u, (s.pc u).WillWake

/-- What one thread's step does to the memory of sleepers. -/
inductive Notice (pc : Pc) (word : UInt32) (pc' : Pc) (word' : UInt32) : Prop
  | alert (h : word' = 2 ∨ pc'.WillWake)
  | neutral (calm : ¬ pc.WillWake) (awake : pc' ≠ .asleep) (word : word = 2 → word' = 2)

theorem Remembered.notice (h : Remembered s) (notice : Notice (s.pc t) s.state r.1 r.2) :
    Remembered (s.advance t r) := by
  intro u sleeping
  cases notice with
  | alert alert =>
    exact alert.imp id (fun wakes => ⟨t, by simpa using wakes⟩)
  | neutral calm awake word =>
    -- The actor does not fall asleep here, so the sleeper was asleep before.
    have hut : u ≠ t := by
      rintro rfl
      exact awake (by simpa using sleeping)
    rw [State.advance_other s r hut] at sleeping
    refine (h u sleeping).imp word ?_
    rintro ⟨v, wakes⟩
    have hvt : v ≠ t := by
      rintro rfl
      exact calm wakes
    exact ⟨v, by rwa [State.advance_other s r hvt]⟩

theorem Remembered.setPc (h : Remembered s) (notice : Notice (s.pc t) s.state pc s.state) :
    Remembered (s.setPc t pc) :=
  h.notice (r := (pc, s.state)) notice

theorem lcMutexLock_notice (run : lcMutexLock pc word = some r) : Notice pc word r.1 r.2 := by
  cases pc <;> simp only [lcMutexLock, reduceCtorEq, Option.some.injEq] at run <;> subst r
  case lockCas =>
    by_cases zero : word = 0
    · subst word
      exact .neutral (by simp) (by decide) (by decide)
    · exact .alert (.inr (by simp [zero]))
  case lockExchange => exact .alert (.inl rfl)
  case lockWait =>
    by_cases two : word = 2
    · exact .alert (.inl two)
    · exact .alert (.inr (by simp [two]))

theorem lcMutexTryLock_notice (run : lcMutexTryLock pc word = some r) : Notice pc word r.1 r.2 := by
  cases pc <;> simp only [lcMutexTryLock, reduceCtorEq, Option.some.injEq] at run
  case tryCas =>
    subst r
    by_cases zero : word = 0
    · subst word
      exact .neutral (by simp) (by decide) (by decide)
    · exact .neutral (by simp) (by simp [zero])
        (by simp [zero])

theorem lcMutexUnlock_notice (run : lcMutexUnlock pc word = some r) : Notice pc word r.1 r.2 := by
  cases pc <;> simp only [lcMutexUnlock, reduceCtorEq, Option.some.injEq] at run <;> subst r
  case unlockSub =>
    by_cases two : word = 2
    · exact .alert (.inr (by simp [two]))
    · exact .neutral (by simp) (by simp [two])
        (fun h => absurd h two)
  case unlockStore => exact .alert (.inr (by simp))

/-- The wake-up either puts a sleeper back into the loop, which then answers for
the others, or there was no sleeper to be forgotten. -/
theorem Remembered.wake {woken : Option T} (at_ : s.pc t = .unlockWake)
    (released : WakeOne (fun u => s.pc u = .asleep) woken) :
    Remembered ((s.setPc t .outside).release woken) := by
  intro v sleeping
  cases released with
  | @one u sleeper =>
    exact .inr ⟨u, by simp⟩
  | nobody empty =>
    have hvt : v ≠ t := by
      rintro rfl
      simp at sleeping
    rw [State.release, State.setPc_other s _ hvt] at sleeping
    exact absurd sleeping (empty v)

theorem Remembered.step (h : Remembered s) (next : Step s s') : Remembered s' := by
  cases next with
  | callLock at_ | callTryLock at_ | callUnlock at_ =>
    exact h.setPc (.neutral (by simp [at_]) (by decide) id)
  | lock run => exact h.notice (lcMutexLock_notice run)
  | tryLock run => exact h.notice (lcMutexTryLock_notice run)
  | unlock run => exact h.notice (lcMutexUnlock_notice run)
  | wake at_ released => exact Remembered.wake at_ released
  | spurious => exact h.setPc (.alert (.inr (by simp)))

theorem remembered_inductive : (system T).Inductive Remembered where
  init s start t sleeping := by simp [start.2 t] at sleeping
  step _ _ h next := h.step next

/-- In every reachable state at most one thread holds the mutex, and a thread
asleep on a free mutex always has another thread, itself awake, inside lock or
unlock. -/
theorem mutex_excludes_and_wakes {s : State T} (run : (system T).Reachable s) :
    (∀ t u, (s.pc t).Holds → (s.pc u).Holds → t = u) ∧
      ∀ t, s.pc t = .asleep → s.state = 0 →
        ∃ u, u ≠ t ∧ (s.pc u).InLockOrUnlock ∧ s.pc u ≠ .asleep := by
  have exclusive : Exclusive s := exclusive_inductive.reachable run
  have remembered : Remembered s := remembered_inductive.reachable run
  have owns : ∀ {pc : Pc}, pc.Holds → pc.Owns := fun h => h.imp id .inl
  refine ⟨fun t u ht hu => exclusive.unique t u (owns ht) (owns hu), ?_⟩
  intro t sleeping free
  rcases remembered t sleeping with two | ⟨u, wakes⟩
  · rw [free] at two
    exact absurd two (by decide)
  · have awake : s.pc u ≠ .asleep := by
      intro h
      simp [h] at wakes
    refine ⟨u, fun h => awake (h ▸ sleeping), ?_, awake⟩
    rcases wakes with h | h | h <;> rw [h] <;> trivial

/-- Two threads contend; the holder has stored 0 and not yet woken the sleeper. -/
theorem mutex_excludes_and_wakes_contended :
    ∃ s : State Bool, (system Bool).Reachable s ∧ s.state = 0 ∧ s.pc true = .asleep ∧
      ∃ u, u ≠ true ∧ (s.pc u).InLockOrUnlock ∧ s.pc u ≠ .asleep := by
  have start : (system Bool).Reachable ⟨0, fun _ => .outside⟩ := .init ⟨rfl, fun _ => rfl⟩
  have first := (start.step (.callLock (t := false) rfl)).step (.lock (t := false) rfl)
  have second := (((first.step (.callLock (t := true) rfl)).step (.lock (t := true) rfl)).step
    (.lock (t := true) rfl)).step (.lock (t := true) rfl)
  have freed := ((second.step (.callUnlock (t := false) rfl)).step (.unlock (t := false) rfl)).step
    (.unlock (t := false) rfl)
  exact ⟨_, freed, rfl, rfl, (mutex_excludes_and_wakes freed).2 true rfl rfl⟩

end Lightc.Sync.Mutex
