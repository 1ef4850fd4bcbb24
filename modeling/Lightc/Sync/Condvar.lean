import Lightc.Sync.Mutex
import Mathlib.Algebra.Group.Nat.Defs
import Mathlib.Data.Fintype.Card

/-!
# The sequence-counter condition variable

`lc_condvar_wait` loads the sequence number, unlocks the mutex, sleeps while the
number is still the one it loaded, and locks the mutex again. `lc_condvar_signal`
and `lc_condvar_broadcast` increment the number and wake one sleeper or all of
them. The mutex is the one of `Lightc.Sync.Mutex`: the steps inside
`lc_mutex_unlock` and `lc_mutex_lock` are its steps, and every run is a run of the
mutex (`refines_mutex`), so its exclusion is available here.

The sequence number wraps. `sent` counts the increments without wrapping, and a
wait remembers the count at its load; that, the snapshot a notifier takes at its
increment and the lists of completed notifications are history and decide nothing.
Which sleeper a wake-up of one releases is up to the kernel.
-/

namespace Lightc.Sync.Condvar

open Machine Verification Function

/-- Where a thread is in the code of the condition variable. -/
inductive Pc
  /-- Not in it; the thread may call the mutex. -/
  | outside
  /-- `lc_condvar_wait`, before the load of `seq`. -/
  | waitLoad
  /-- In `lc_mutex_unlock` or, once that has returned, before `futex_wait`. -/
  | waitUnlock (seq : UInt32) (start : Nat)
  /-- Sleeping in `futex_wait`. -/
  | asleep (start : Nat)
  /-- `futex_wait` has returned. -/
  | woken
  /-- In `lc_mutex_lock`. -/
  | waitLock
  /-- `lc_condvar_wait` has returned. -/
  | returned
  /-- `lc_condvar_signal`, before the fetch-add. -/
  | signalAdd
  /-- Before `futex_wake` of one, after increment number `k`. -/
  | signalWake (k : Nat)
  /-- `lc_condvar_broadcast`, before the fetch-add. -/
  | broadcastAdd
  /-- Before `futex_wake` of all, after increment number `k`. -/
  | broadcastWake (k : Nat)
  deriving DecidableEq, Repr

/-- The number of increments that a wait in progress had seen at its load. -/
def Pc.started : Pc → Option Nat
  | .waitUnlock _ start | .asleep start => some start
  | _ => none

/-- The same for a wait that has not come to its `futex_wait` yet. -/
def Pc.loaded : Pc → Option Nat
  | .waitUnlock _ start => some start
  | _ => none

/-- A completed `lc_condvar_signal`. -/
structure Signal (T : Type) where
  /-- Its increment's number. -/
  index : Nat
  /-- The waits in progress when it made the increment. -/
  before : T → Option Nat
  /-- When the wait it ended had been started, if it ended one. -/
  taken : Option Nat
  /-- The caller held the mutex. -/
  held : Bool

structure State (T : Type) where
  mutex : Mutex.State T
  seq : UInt32
  pc : T → Pc
  sent : Nat
  /-- The waits in progress when a thread made its last increment. -/
  snapshot : T → T → Option Nat
  signals : List (Signal T)
  /-- The increments of the completed broadcasts. -/
  broadcasts : List Nat

variable {T : Type} [DecidableEq T]

namespace State

@[simp] def setPc (s : State T) (t : T) (pc : Pc) : State T :=
  { s with pc := update s.pc t pc }

/-- A call of the mutex from inside `lc_condvar_wait`. -/
@[simp] def callMutex (s : State T) (t : T) (pc : Pc) (call : Mutex.Pc) : State T :=
  { s.setPc t pc with mutex := s.mutex.setPc t call }

/-- Everybody a wake-up releases returns from `futex_wait`. -/
@[simp] def release (s : State T) (released : T → Bool) : State T :=
  { s with pc := fun t => if released t then .woken else s.pc t }

/-- `atomic_fetch_add(&cv->seq, 1)`. -/
@[simp] def increment (s : State T) (t : T) (pc : Pc) : State T :=
  { s.setPc t pc with
    seq := s.seq + 1
    sent := s.sent + 1
    snapshot := update s.snapshot t fun u => (s.pc u).started }

end State

/-- One step of `lc_condvar_wait` apart from those inside the mutex calls. -/
def lcCondvarWait (s : State T) (t : T) : Option (State T) :=
  match s.pc t with
  | .waitLoad => some (s.callMutex t (.waitUnlock s.seq s.sent) .unlockSub)
  | .waitUnlock seq start =>
    if s.mutex.pc t = .outside then
      some (s.setPc t (if futexWait s.seq seq then .asleep start else .woken))
    else none
  | .woken => some (s.callMutex t .waitLock .lockCas)
  | .waitLock => if s.mutex.pc t = .holding then some (s.setPc t .returned) else none
  | _ => none

/-- The increment of `lc_condvar_signal`. -/
def lcCondvarSignal (s : State T) (t : T) : Option (State T) :=
  match s.pc t with
  | .signalAdd => some (s.increment t (.signalWake (s.sent + 1)))
  | _ => none

/-- The increment of `lc_condvar_broadcast`. -/
def lcCondvarBroadcast (s : State T) (t : T) : Option (State T) :=
  match s.pc t with
  | .broadcastAdd => some (s.increment t (.broadcastWake (s.sent + 1)))
  | _ => none

/-- The four ways `lc_condvar_wait` goes on. -/
inductive WaitStep (s : State T) (t : T) : State T → Prop
  | load (at_ : s.pc t = .waitLoad) :
      WaitStep s t (s.callMutex t (.waitUnlock s.seq s.sent) .unlockSub)
  | sleep {seq : UInt32} {start : Nat} (at_ : s.pc t = .waitUnlock seq start)
      (free : s.mutex.pc t = .outside) :
      WaitStep s t (s.setPc t (if futexWait s.seq seq then .asleep start else .woken))
  | lock (at_ : s.pc t = .woken) : WaitStep s t (s.callMutex t .waitLock .lockCas)
  | return_ (at_ : s.pc t = .waitLock) (held : s.mutex.pc t = .holding) :
      WaitStep s t (s.setPc t .returned)

variable {s s' : State T} {t : T}

theorem lcCondvarWait_eq_some (run : lcCondvarWait s t = some s') : WaitStep s t s' := by
  unfold lcCondvarWait at run
  cases at_ : s.pc t <;> simp only [at_, reduceCtorEq, Option.some.injEq,
    Option.ite_none_right_eq_some] at run
  case waitLoad => exact run ▸ .load at_
  case waitUnlock => exact run.2 ▸ .sleep at_ run.1
  case woken => exact run ▸ .lock at_
  case waitLock => exact run.2 ▸ .return_ at_ run.1

theorem lcCondvarSignal_eq_some (run : lcCondvarSignal s t = some s') :
    s.pc t = .signalAdd ∧ s' = s.increment t (.signalWake (s.sent + 1)) := by
  unfold lcCondvarSignal at run
  cases at_ : s.pc t <;> simp only [at_, reduceCtorEq, Option.some.injEq] at run
  exact ⟨rfl, run.symm⟩

theorem lcCondvarBroadcast_eq_some (run : lcCondvarBroadcast s t = some s') :
    s.pc t = .broadcastAdd ∧ s' = s.increment t (.broadcastWake (s.sent + 1)) := by
  unfold lcCondvarBroadcast at run
  cases at_ : s.pc t <;> simp only [at_, reduceCtorEq, Option.some.injEq] at run
  exact ⟨rfl, run.symm⟩

/-- Fewer than `2 ^ 32` increments fall between the load of a wait and its
`futex_wait`. -/
def Few (s : State T) : Prop :=
  ∀ u, ∀ start ∈ (s.pc u).loaded, s.sent + 1 < start + 2 ^ 32

/-- What the signal of increment `k` leaves behind when it returns. -/
def State.signalled (s : State T) (t : T) (k : Nat) (woken : Option T) : State T :=
  let s' := (s.setPc t .outside).release fun u => woken = some u
  { s' with
    signals :=
      { index := k, before := s.snapshot t, taken := woken.bind fun u => (s.pc u).started,
        held := s.mutex.pc t = .holding } :: s.signals }

/-- What the broadcast of increment `k` leaves behind when it returns. -/
def State.broadcasted (s : State T) (t : T) (k : Nat) (woken : Finset T) : State T :=
  let s' := (s.setPc t .outside).release fun u => u ∈ woken
  { s' with broadcasts := k :: s.broadcasts }

/-- The thread sleeps in `lc_condvar_wait`. -/
def State.Sleeps (s : State T) (t : T) : Prop := ∃ start, s.pc t = .asleep start

/-- The atomic steps of all threads. A thread calls the mutex on its own account only
outside the code of the condition variable, and waits only while it holds it. -/
inductive Step : State T → State T → Prop
  | mutex {s : State T} {m : Mutex.State T} (step : Mutex.Step s.mutex m)
      (calls : ∀ t, m.pc t ≠ s.mutex.pc t → s.mutex.pc t = .outside ∨ s.mutex.pc t = .holding →
        s.pc t = .outside) : Step s { s with mutex := m }
  | callWait {s : State T} {t : T} (at_ : s.pc t = .outside) (held : s.mutex.pc t = .holding) :
      Step s (s.setPc t .waitLoad)
  | wait {s s' : State T} {t : T} (run : lcCondvarWait s t = some s') : Step s s'
  | spurious {s : State T} {t : T} (asleep : s.Sleeps t) : Step s (s.setPc t .woken)
  | resume {s : State T} {t : T} (at_ : s.pc t = .returned) : Step s (s.setPc t .outside)
  | callSignal {s : State T} {t : T} (at_ : s.pc t = .outside)
      (free : s.mutex.pc t = .outside ∨ s.mutex.pc t = .holding) : Step s (s.setPc t .signalAdd)
  | signal {s s' : State T} {t : T} (few : Few s) (run : lcCondvarSignal s t = some s') : Step s s'
  | signalWake {s : State T} {t : T} {k : Nat} {woken : Option T}
      (at_ : s.pc t = .signalWake k) (released : WakeOne s.Sleeps woken) :
      Step s (s.signalled t k woken)
  | callBroadcast {s : State T} {t : T} (at_ : s.pc t = .outside)
      (free : s.mutex.pc t = .outside ∨ s.mutex.pc t = .holding) : Step s (s.setPc t .broadcastAdd)
  | broadcast {s s' : State T} {t : T} (few : Few s) (run : lcCondvarBroadcast s t = some s') :
      Step s s'
  | broadcastWake {s : State T} {t : T} {k : Nat} {woken : Finset T}
      (at_ : s.pc t = .broadcastWake k) (released : WakeUpTo 2147483647 s.Sleeps woken) :
      Step s (s.broadcasted t k woken)

/-- `LC_MUTEX_INIT` and `LC_CONDVAR_INIT` with every thread outside. -/
def start (T : Type) : State T where
  mutex := ⟨0, fun _ => .outside⟩
  seq := 0
  pc _ := .outside
  sent := 0
  snapshot _ _ := none
  signals := []
  broadcasts := []

def system (T : Type) [DecidableEq T] : System (State T) where
  init s := s = start T
  step := Step

/-! ### The mutex inside a wait -/

/-- Where a thread is in the mutex's code while it is in the condition variable's. -/
def Pc.Phase (pc : Pc) (m : Mutex.Pc) : Prop :=
  match pc with
  | .outside => True
  | .waitLoad | .returned => m = .holding
  | .waitUnlock _ _ => m ∈ [.unlockSub, .unlockStore, .unlockWake, .outside]
  | .asleep _ | .woken => m = .outside
  | .waitLock => m ∈ [.lockCas, .lockExchange, .lockWait, .asleep, .holding]
  | .signalAdd | .signalWake _ | .broadcastAdd | .broadcastWake _ => m = .outside ∨ m = .holding

def Phases (s : State T) : Prop := ∀ t, (s.pc t).Phase (s.mutex.pc t)

variable {pc : Pc}

/-- The mutex's steps stay inside the call a thread has made. -/
theorem Pc.Phase.next {m m' : Mutex.Pc} (h : pc.Phase m) (step : m' = m ∨ m' ∈ m.next)
    (calls : m' ≠ m → m = .outside ∨ m = .holding → pc = .outside) : pc.Phase m' := by
  rcases step with rfl | step
  · exact h
  · have moved : m' ≠ m := by
      rintro rfl
      revert step
      cases m' <;> decide
    have away : pc = .outside ∨ (m ≠ .outside ∧ m ≠ .holding) := by
      by_cases free : m = .outside ∨ m = .holding
      · exact .inl (calls moved free)
      · exact .inr (not_or.mp free)
    rcases away with rfl | ⟨busy, unheld⟩
    · trivial
    · -- Of the places in a call only the last is one a thread may stay at.
      have stuck : m = .outside ∨ m = .holding → False := fun free => free.elim busy unheld
      cases pc <;> simp only [Pc.Phase] at h ⊢
      case waitUnlock =>
        cases m <;> simp at h step busy <;> grind
      case waitLock =>
        cases m <;> simp at h step unheld <;> grind
      case waitLoad => exact absurd h unheld
      case returned => exact absurd h unheld
      case asleep => exact absurd h busy
      case woken => exact absurd h busy
      all_goals exact absurd h stuck

theorem Phases.setPc (h : Phases s) (here : pc.Phase (s.mutex.pc t)) : Phases (s.setPc t pc) :=
  (forall_update_iff s.pc fun u pc => pc.Phase (s.mutex.pc u)).mpr ⟨here, fun u _ => h u⟩

theorem Phases.callMutex (h : Phases s) {call : Mutex.Pc} (here : pc.Phase call) :
    Phases (s.callMutex t pc call) := by
  intro u
  by_cases same : u = t
  · subst u
    simpa using here
  · simpa [same] using h u

/-- A notifier returns and sleepers are released. -/
theorem Phases.release (h : Phases s) {released : T → Bool}
    (sleeps : ∀ u, released u → s.Sleeps u) : Phases ((s.setPc t .outside).release released) := by
  intro u
  by_cases free : released u = true
  · obtain ⟨start, asleep⟩ := sleeps u free
    have outside := h u
    rw [asleep] at outside
    simp only [State.release, free, if_true]
    exact outside
  · have others : Phases (s.setPc t .outside) := h.setPc trivial
    simpa [free] using others u

theorem Phases.increment (h : Phases s) (at_ : s.pc t = .signalAdd ∨ s.pc t = .broadcastAdd)
    (here : s.mutex.pc t = .outside ∨ s.mutex.pc t = .holding → pc.Phase (s.mutex.pc t)) :
    Phases (s.increment t pc) := by
  have free := h t
  have between : s.mutex.pc t = .outside ∨ s.mutex.pc t = .holding := by
    rcases at_ with at_ | at_ <;> rw [at_] at free <;> exact free
  exact h.setPc (here between)

theorem Phases.wait (h : Phases s) (run : lcCondvarWait s t = some s') : Phases s' := by
  cases lcCondvarWait_eq_some run with
  | load | lock => exact h.callMutex (by simp [Pc.Phase])
  | sleep _ free =>
    refine h.setPc ?_
    rw [free]
    split <;> rfl
  | return_ _ held => exact h.setPc held

theorem Phases.step (h : Phases s) (step : Step s s') : Phases s' := by
  cases step with
  | @mutex m step calls => exact fun t => (h t).next (step.pc_next t) (calls t)
  | callWait _ held => exact h.setPc held
  | wait run => exact h.wait run
  | @spurious t asleep =>
    obtain ⟨start, at_⟩ := asleep
    have outside := h t
    rw [at_] at outside
    exact h.setPc outside
  | resume => exact h.setPc trivial
  | callSignal _ free | callBroadcast _ free => exact h.setPc free
  | @signal _ t _ run =>
    obtain ⟨at_, rfl⟩ := lcCondvarSignal_eq_some run
    exact h.increment (.inl at_) id
  | signalWake _ released =>
    refine h.release fun u free => ?_
    cases released with
    | one sleeper => simp_all
    | nobody => simp at free
  | @broadcast _ t _ run =>
    obtain ⟨at_, rfl⟩ := lcCondvarBroadcast_eq_some run
    exact h.increment (.inr at_) id
  | broadcastWake _ released =>
    exact h.release fun u free => released.sleepers u (by simpa using free)

theorem phases_inductive : (system T).Inductive Phases where
  init s start := by
    cases start
    exact fun _ => trivial
  step _ _ h step := h.step step

/-- What a step does to the mutex is a step of the mutex. -/
theorem refines_mutex :
    (system T).Refines (Mutex.system T) fun s m => s.mutex = m where
  init s start := by
    cases start
    exact ⟨_, ⟨rfl, fun _ => rfl⟩, rfl⟩
  step s s' m run related step := by
    subst m
    have phases : Phases s := phases_inductive.reachable run
    cases step with
    | mutex step => exact ⟨_, .inr step, rfl⟩
    | @wait _ t run =>
      have phase := phases t
      cases lcCondvarWait_eq_some run with
      | load at_ =>
        rw [at_] at phase
        exact ⟨_, .inr (.callUnlock phase), rfl⟩
      | sleep => exact ⟨_, .inl rfl, rfl⟩
      | lock at_ =>
        rw [at_] at phase
        exact ⟨_, .inr (.callLock phase), rfl⟩
      | return_ => exact ⟨_, .inl rfl, rfl⟩
    | signal _ run =>
      obtain ⟨-, rfl⟩ := lcCondvarSignal_eq_some run
      exact ⟨_, .inl rfl, rfl⟩
    | broadcast _ run =>
      obtain ⟨-, rfl⟩ := lcCondvarBroadcast_eq_some run
      exact ⟨_, .inl rfl, rfl⟩
    | callWait | spurious | resume | callSignal | signalWake | callBroadcast | broadcastWake =>
      exact ⟨_, .inl rfl, rfl⟩

theorem holder_unique (run : (system T).Reachable s) {u : T} (ht : s.mutex.pc t = .holding)
    (hu : s.mutex.pc u = .holding) : t = u := by
  obtain ⟨m, reached, rfl⟩ := refines_mutex.reachable run
  exact (Mutex.exclusive_inductive.reachable reached).unique t u (.inl ht) (.inl hu)

/-! ### Waits in the order of their loads -/

/-- What any step does to the waits: some end, some begin with a load of the present
number, and a thread falls asleep only with the present count. -/
structure Later (s s' : State T) : Prop where
  sent : s.sent ≤ s'.sent
  started : ∀ u start, (s'.pc u).started = some start →
    (s.pc u).started = some start ∨ (start = s'.sent ∧ s.pc u = .waitLoad)
  asleep : ∀ u start, s'.pc u = .asleep start → s.pc u = .asleep start ∨ start = s'.sent

/-- The sequence number is the count modulo its width, and no wait is older than one
turn of it. -/
structure Clock (s : State T) : Prop where
  seq : s.seq = UInt32.ofNat s.sent
  loaded : ∀ u seq start, s.pc u = .waitUnlock seq start →
    seq = UInt32.ofNat start ∧ start ≤ s.sent ∧ s.sent < start + 2 ^ 32
  started : ∀ u start, (s.pc u).started = some start → start ≤ s.sent

/-- Two counts less than one turn apart that show the same number are equal. -/
theorem eq_of_ofNat_eq {a b : Nat} (same : UInt32.ofNat a = UInt32.ofNat b) (le : a ≤ b)
    (near : b < a + 2 ^ 32) : a = b := by
  have values := congrArg UInt32.toNat same
  simp only [UInt32.toNat_ofNat'] at values
  omega

namespace Later

variable {s : State T} {t : T} {pc : Pc}

/-- One thread moves on: it leaves its wait or goes on with it, and falls asleep only
at the present count. -/
theorem setPc (quiet : ∀ start, pc.started = some start →
      (s.pc t).started = some start ∨ (start = s.sent ∧ s.pc t = .waitLoad))
    (asleep : ∀ start, pc = .asleep start → start = s.sent) : Later s (s.setPc t pc) where
  sent := le_rfl
  started u start now := by
    by_cases same : u = t
    · subst u
      exact quiet start (by simpa using now)
    · exact .inl (by simpa [same] using now)
  asleep u start now := by
    by_cases same : u = t
    · subst u
      exact .inr (asleep start (by simpa using now))
    · exact .inl (by simpa [same] using now)

variable (idle : pc.started = none)
include idle

/-- One thread moves on and is in no wait. -/
theorem leave : Later s (s.setPc t pc) := by
  refine setPc (fun start now => ?_) (fun start now => ?_)
  · rw [idle] at now
    cases now
  · subst now
    cases idle

theorem release (released : T → Bool) : Later s ((s.setPc t pc).release released) := by
  have left : Later s (s.setPc t pc) := leave idle
  constructor
  · exact le_rfl
  · intro u start now
    by_cases free : released u = true
    · simp [free, Pc.started] at now
    · exact left.started u start (by simpa [free] using now)
  · intro u start now
    by_cases free : released u = true
    · simp [free] at now
    · exact left.asleep u start (by simpa [free] using now)

theorem started_setPc : ∀ u start,
    ((s.setPc t pc).pc u).started = some start → (s.pc u).started = some start :=
  (forall_update_iff s.pc fun u pc => ∀ start, pc.started = some start →
    (s.pc u).started = some start).mpr ⟨by simp [idle], fun _ _ _ => id⟩

theorem increment : Later s (s.increment t pc) where
  sent := Nat.le_succ _
  started u start now := .inl (started_setPc idle u start now)
  asleep u start now := by
    refine .inl ((forall_update_iff s.pc fun u pc => pc = .asleep start →
      s.pc u = .asleep start).mpr ⟨?_, fun _ _ => id⟩ u now)
    rintro rfl
    cases idle

end Later

namespace Clock

variable {s s' : State T} {t : T} {pc : Pc}

omit [DecidableEq T] in
/-- Without an increment: every wait before its `futex_wait` is an old one or has just
loaded the number. -/
theorem keep (h : Clock s) (seq : s'.seq = s.seq) (sent : s'.sent = s.sent) (later : Later s s')
    (loaded : ∀ u seq start, s'.pc u = .waitUnlock seq start →
      s.pc u = .waitUnlock seq start ∨ (seq = s.seq ∧ start = s.sent)) : Clock s' where
  seq := by rw [seq, sent, h.seq]
  loaded u number start now := by
    rw [sent]
    rcases loaded u number start now with old | ⟨rfl, rfl⟩
    · exact h.loaded u number start old
    · exact ⟨h.seq, le_rfl, by omega⟩
  started u start now := by
    rcases later.started u start now with old | ⟨rfl, -⟩
    · rw [sent]
      exact h.started u start old
    · exact le_rfl

theorem setPc (h : Clock s) (later : Later s (s.setPc t pc))
    (loaded : ∀ seq start, pc = .waitUnlock seq start → seq = s.seq ∧ start = s.sent) :
    Clock (s.setPc t pc) := by
  refine h.keep rfl rfl later fun u number start now => ?_
  by_cases same : u = t
  · subst u
    exact .inr (loaded number start (by simpa using now))
  · exact .inl (by simpa [same] using now)

theorem release (h : Clock s) (released : T → Bool) :
    Clock ((s.setPc t .outside).release released) := by
  refine h.keep rfl rfl (Later.release rfl released) fun u number start now => ?_
  by_cases free : released u = true
  · simp [free] at now
  · by_cases same : u = t
    · subst u
      simp [free] at now
    · exact .inl (by simpa [free, same] using now)

theorem increment (h : Clock s) (few : Few s) (idle : pc.started = none) :
    Clock (s.increment t pc) where
  seq := by
    change s.seq + 1 = UInt32.ofNat (s.sent + 1)
    rw [h.seq, UInt32.ofNat_add]
    rfl
  loaded u number start now := by
    have other : u ≠ t := by
      rintro rfl
      simp only [State.increment, State.setPc, update_self] at now
      simp [now, Pc.started] at idle
    have old : s.pc u = .waitUnlock number start := by
      simpa [other] using now
    obtain ⟨shown, le, -⟩ := h.loaded u number start old
    exact ⟨shown, Nat.le_succ_of_le le, few u start (by rw [old]; rfl)⟩
  started u start now := by
    rcases (Later.increment idle).started u start now with old | ⟨rfl, -⟩
    · exact Nat.le_succ_of_le (h.started u start old)
    · exact le_rfl

/-- The one place where a thread falls asleep: the number it loaded is the present
one, so no increment has come in between. -/
theorem wait (h : Clock s) (run : lcCondvarWait s t = some s') : Clock s' ∧ Later s s' := by
  cases lcCondvarWait_eq_some run with
  | load at_ =>
    have later : Later s (s.setPc t (.waitUnlock s.seq s.sent)) :=
      Later.setPc (fun start now => .inr ⟨(Option.some.inj now).symm, at_⟩) (by rintro _ ⟨⟩)
    have clock := h.setPc later (by rintro _ _ ⟨⟩; exact ⟨rfl, rfl⟩)
    exact ⟨{ clock with }, { later with }⟩
  | @sleep number start at_ =>
    obtain ⟨shown, le, near⟩ := h.loaded t number start at_
    by_cases same : s.seq = number
    · rw [show futexWait s.seq number = true from decide_eq_true same, if_pos rfl]
      have present : start = s.sent := by
        refine eq_of_ofNat_eq ?_ le near
        rw [← shown, ← same, h.seq]
      have later : Later s (s.setPc t (.asleep start)) :=
        Later.setPc (fun _ now => .inl (by rw [at_]; exact now))
          (by rintro _ ⟨⟩; exact present)
      exact ⟨h.setPc later (by rintro _ _ ⟨⟩), later⟩
    · rw [show futexWait s.seq number = false from decide_eq_false same,
        if_neg Bool.false_ne_true]
      exact ⟨h.setPc (Later.leave rfl) (by rintro _ _ ⟨⟩), Later.leave rfl⟩
  | lock =>
    have later : Later s (s.setPc t .waitLock) := Later.leave rfl
    have clock := h.setPc later (by rintro _ _ ⟨⟩)
    exact ⟨{ clock with }, { later with }⟩
  | return_ => exact ⟨h.setPc (Later.leave rfl) (by rintro _ _ ⟨⟩), Later.leave rfl⟩

theorem step (h : Clock s) (step : Step s s') : Clock s' ∧ Later s s' := by
  have move : ∀ {t : T} {pc : Pc}, pc.started = none →
      Clock (s.setPc t pc) ∧ Later s (s.setPc t pc) := by
    intro t pc idle
    refine ⟨h.setPc (Later.leave idle) ?_, Later.leave idle⟩
    rintro _ _ rfl
    cases idle
  cases step with
  | mutex => exact ⟨{ h with }, ⟨le_rfl, fun _ _ => .inl, fun _ _ => .inl⟩⟩
  | callWait | spurious | resume | callSignal | callBroadcast => exact move rfl
  | wait run => exact h.wait run
  | signal few run =>
    obtain ⟨-, rfl⟩ := lcCondvarSignal_eq_some run
    exact ⟨h.increment few rfl, Later.increment rfl⟩
  | @signalWake t k woken =>
    have clock := h.release (t := t) fun u => woken = some u
    have later : Later s ((s.setPc t .outside).release fun u => woken = some u) :=
      Later.release rfl _
    exact ⟨{ clock with }, { later with }⟩
  | broadcast few run =>
    obtain ⟨-, rfl⟩ := lcCondvarBroadcast_eq_some run
    exact ⟨h.increment few rfl, Later.increment rfl⟩
  | @broadcastWake t k woken =>
    have clock := h.release (t := t) fun u => u ∈ woken
    have later : Later s ((s.setPc t .outside).release fun u => u ∈ woken) :=
      Later.release rfl _
    exact ⟨{ clock with }, { later with }⟩

end Clock

/-! ### Notifications -/

/-- Some wait that was in progress at the signal's increment is no longer asleep, if
there was one. -/
def Signal.Ended (r : Signal T) (s : State T) : Prop :=
  (∃ u start, r.before u = some start) →
    ∃ u start, r.before u = some start ∧ s.pc u ≠ .asleep start

/-- A notifier between its increment and its wake-up. While it holds the mutex no wait
can start. -/
structure Pending (s : State T) (t : T) : Prop where
  index : ∀ k, s.pc t = .signalWake k ∨ s.pc t = .broadcastWake k → k ≤ s.sent
  earlier : ∀ k, s.pc t = .signalWake k → ∀ u start, s.snapshot t u = some start → start < k
  snapshot : ∀ k, s.pc t = .signalWake k → ∀ u start, (s.pc u).started = some start →
    start < k → s.snapshot t u = some start
  held : ∀ k, s.pc t = .signalWake k → s.mutex.pc t = .holding → ∀ u start,
    (s.pc u).started = some start → start < k

/-- Notifiers that have returned. -/
structure Completed (s : State T) : Prop where
  broadcasts : ∀ k ∈ s.broadcasts, k ≤ s.sent ∧ ∀ u start, s.pc u = .asleep start → k ≤ start
  index : ∀ r ∈ s.signals, r.index ≤ s.sent
  earlier : ∀ r ∈ s.signals, ∀ u start, r.before u = some start → start < r.index
  signals : ∀ r ∈ s.signals, r.Ended s ∨
    (r.held = false ∧ ∃ start, r.taken = some start ∧ r.index ≤ start)

namespace Completed

variable {s s' : State T} {t : T} {k : Nat}

omit [DecidableEq T] in
/-- A wait that has been ended stays ended: nobody falls asleep with an old count. -/
theorem later (h : Completed s) (later : Later s s') (broadcasts : s'.broadcasts = s.broadcasts)
    (signals : s'.signals = s.signals) : Completed s' where
  broadcasts k member := by
    rw [broadcasts] at member
    obtain ⟨le, awake⟩ := h.broadcasts k member
    refine ⟨le.trans later.sent, fun u start now => ?_⟩
    rcases later.asleep u start now with old | rfl
    · exact awake u start old
    · exact le.trans later.sent
  index r member := by
    rw [signals] at member
    exact (h.index r member).trans later.sent
  earlier r member := by
    rw [signals] at member
    exact h.earlier r member
  signals r member := by
    rw [signals] at member
    refine (h.signals r member).imp (fun ended some => ?_) id
    obtain ⟨u, start, before, awake⟩ := ended some
    refine ⟨u, start, before, fun now => ?_⟩
    rcases later.asleep u start now with old | rfl
    · exact awake old
    · have old := h.earlier r member u _ before
      have recent := (h.index r member).trans later.sent
      omega

theorem signalWake (h : Completed s) (pending : Pending s t) (at_ : s.pc t = .signalWake k)
    {woken : Option T} (released : WakeOne s.Sleeps woken) :
    Completed (s.signalled t k woken) := by
  have moved : Later s ((s.setPc t .outside).release fun u => woken = some u) :=
    Later.release rfl _
  have old : Completed ((s.setPc t .outside).release fun u => woken = some u) :=
    h.later moved rfl rfl
  have le : k ≤ s.sent := pending.index k (.inl at_)
  refine ⟨old.broadcasts, ?_, ?_, ?_⟩
  · rintro r member
    rcases List.mem_cons.mp member with rfl | member
    · exact le
    · exact old.index r member
  · rintro r member
    rcases List.mem_cons.mp member with rfl | member
    · exact pending.earlier k at_
    · exact old.earlier r member
  · rintro r member
    rcases List.mem_cons.mp member with rfl | member
    · cases released with
      | nobody empty =>
        -- Nobody sleeps, and nobody falls asleep in this step.
        refine .inl fun ⟨u, start, before⟩ => ⟨u, start, before, fun now => ?_⟩
        rcases moved.asleep u start now with sleeps | rfl
        · exact empty u ⟨start, sleeps⟩
        · have := pending.earlier k at_ u _ before
          exact absurd (moved.sent.trans le_rfl) (by omega)
      | @one v sleeper =>
        obtain ⟨start, asleep⟩ := sleeper
        by_cases old : start < k
        · have before : s.snapshot t v = some start :=
            pending.snapshot k at_ v start (by rw [asleep]; rfl) old
          exact .inl fun _ => ⟨v, start, before, by simp [State.signalled]⟩
        · refine .inr ⟨?_, start, by simp [asleep, Pc.started], not_lt.mp old⟩
          have free : s.mutex.pc t ≠ .holding := fun held =>
            old (pending.held k at_ held v start (by rw [asleep]; rfl))
          simpa using free
    · exact old.signals r member

theorem broadcastWake (h : Completed s) (pending : Pending s t) (fit : ThreadsFit T)
    (at_ : s.pc t = .broadcastWake k) {woken : Finset T}
    (released : WakeUpTo 2147483647 s.Sleeps woken) : Completed (s.broadcasted t k woken) := by
  have moved : Later s ((s.setPc t .outside).release fun u => u ∈ woken) := Later.release rfl _
  have old : Completed ((s.setPc t .outside).release fun u => u ∈ woken) := h.later moved rfl rfl
  refine ⟨?_, old.index, old.earlier, old.signals⟩
  intro j member
  rcases List.mem_cons.mp member with rfl | member
  · have le : j ≤ s.sent := pending.index j (.inr at_)
    refine ⟨le, fun u start now => ?_⟩
    rcases moved.asleep u start now with sleeps | rfl
    · have awake := released.all fit u ⟨start, sleeps⟩
      simp [State.broadcasted, awake] at now
    · exact le
  · exact old.broadcasts j member

end Completed

namespace Pending

variable {s s' : State T} {t u : T} {pc : Pc}

omit [DecidableEq T] in
/-- A thread that is no notifier, or not yet. -/
theorem idle (signal : ∀ k, s.pc t ≠ .signalWake k) (broadcast : ∀ k, s.pc t ≠ .broadcastWake k) :
    Pending s t where
  index k at_ := absurd at_ (not_or.mpr ⟨signal k, broadcast k⟩)
  earlier k at_ := absurd at_ (signal k)
  snapshot k at_ := absurd at_ (signal k)
  held k at_ := absurd at_ (signal k)

omit [DecidableEq T] in
/-- A step of somebody else. -/
theorem later (h : Pending s t) (later : Later s s') (snapshot : s'.snapshot t = s.snapshot t)
    (pc : s'.pc t = s.pc t) (mutex : s'.mutex.pc t = .holding → s.mutex.pc t = .holding)
    (alone : ∀ u, s.mutex.pc t = .holding → s.pc u = .waitLoad → u = t) : Pending s' t where
  index k at_ := by
    rw [pc] at at_
    exact (h.index k at_).trans later.sent
  earlier k at_ := by
    rw [pc] at at_
    rw [snapshot]
    exact h.earlier k at_
  snapshot k at_ u start now old := by
    rw [pc] at at_
    rw [snapshot]
    rcases later.started u start now with before | ⟨rfl, -⟩
    · exact h.snapshot k at_ u start before old
    · have := (h.index k (.inl at_)).trans later.sent
      omega
  held k at_ held u start now := by
    rw [pc] at at_
    rcases later.started u start now with before | ⟨-, loading⟩
    · exact h.held k at_ (mutex held) u start before
    · have same := alone u (mutex held) loading
      subst u
      rw [at_] at loading
      cases loading

/-- A step of one thread that makes nobody a notifier. -/
theorem move (h : Pending s u) (later : Later s s') (snapshot : s'.snapshot = s.snapshot)
    (others : ∀ v, v ≠ t → s'.pc v = s.pc v ∧ s'.mutex.pc v = s.mutex.pc v)
    (alone : ∀ v, s.mutex.pc u = .holding → s.pc v = .waitLoad → v = u)
    (signal : ∀ k, s'.pc t ≠ .signalWake k) (broadcast : ∀ k, s'.pc t ≠ .broadcastWake k) :
    Pending s' u := by
  by_cases same : u = t
  · subst u
    exact idle signal broadcast
  · obtain ⟨pc, mutex⟩ := others u same
    refine h.later later (by rw [snapshot]) pc (fun held => ?_) alone
    rwa [mutex] at held

theorem release (h : Pending s u) (released : T → Bool)
    (alone : ∀ v, s.mutex.pc u = .holding → s.pc v = .waitLoad → v = u) :
    Pending ((s.setPc t .outside).release released) u := by
  by_cases free : released u = true
  · apply idle <;> simp [free]
  · by_cases same : u = t
    · subst u
      apply idle <;> simp [free]
    · exact h.later (Later.release rfl released) rfl
        (by simp [free, same]) id alone

/-- At the increment every wait in progress has loaded an earlier number. -/
theorem increment (h : Pending s u) (clock : Clock s)
    (alone : ∀ v, s.mutex.pc u = .holding → s.pc v = .waitLoad → v = u)
    (notifier : pc = .signalWake (s.sent + 1) ∨ pc = .broadcastWake (s.sent + 1)) :
    Pending (s.increment t pc) u := by
  have idle : pc.started = none := by rcases notifier with rfl | rfl <;> rfl
  have moved : Later s (s.increment t pc) := Later.increment idle
  by_cases same : u = t
  · subst u
    have here : (s.increment t pc).pc t = pc := by simp
    have taken : (s.increment t pc).snapshot t = fun v => (s.pc v).started :=
      update_self ..
    have number : ∀ k, pc = .signalWake k ∨ pc = .broadcastWake k → k = s.sent + 1 := by
      intro k at_
      rcases notifier with rfl | rfl <;> rcases at_ with at_ | at_ <;> cases at_ <;> rfl
    have before : ∀ v start, ((s.increment t pc).pc v).started = some start →
        (s.pc v).started = some start := Later.started_setPc idle
    constructor
    · intro k at_
      rw [here] at at_
      exact (number k at_).le
    · intro k at_ v start seen
      rw [here] at at_
      rw [taken] at seen
      have := clock.started v start seen
      have := number k (.inl at_)
      omega
    · intro k _ v start now _
      rw [taken]
      exact before v start now
    · intro k at_ _ v start now
      rw [here] at at_
      have := clock.started v start (before v start now)
      have := number k (.inl at_)
      omega
  · refine h.later moved (update_of_ne same ..) ?_ id alone
    simp [same]

end Pending

/-- Everything known of a reachable state. -/
structure Inv (s : State T) : Prop where
  phases : Phases s
  clock : Clock s
  pending : ∀ t, Pending s t
  completed : Completed s

/-- The steps of `lc_condvar_wait` leave the notifiers alone. -/
theorem lcCondvarWait_frame (run : lcCondvarWait s t = some s') :
    (∀ u, u ≠ t → s'.pc u = s.pc u ∧ s'.mutex.pc u = s.mutex.pc u) ∧
      s'.snapshot = s.snapshot ∧ s'.broadcasts = s.broadcasts ∧ s'.signals = s.signals ∧
      (∀ k, s'.pc t ≠ .signalWake k) ∧ ∀ k, s'.pc t ≠ .broadcastWake k := by
  have moved : ∀ pc : Pc, ∀ u, u ≠ t → (s.setPc t pc).pc u = s.pc u :=
    fun pc u other => update_of_ne other ..
  have called : ∀ pc : Mutex.Pc, ∀ u, u ≠ t → (s.mutex.setPc t pc).pc u = s.mutex.pc u :=
    fun pc u other => s.mutex.setPc_other pc other
  cases lcCondvarWait_eq_some run with
  | load | lock =>
    refine ⟨fun u other => ⟨moved _ u other, called _ u other⟩, rfl, rfl, rfl, ?_⟩
    simp
  | sleep =>
    refine ⟨fun u other => ⟨moved _ u other, rfl⟩, rfl, rfl, rfl, ?_⟩
    simp only [State.setPc, update_self]
    split <;> simp
  | return_ =>
    refine ⟨fun u other => ⟨moved _ u other, rfl⟩, rfl, rfl, rfl, ?_⟩
    simp

theorem Inv.step (h : Inv s) (fit : ThreadsFit T) (step : Step s s')
    (alone : ∀ t u, s.mutex.pc t = .holding → s.pc u = .waitLoad → u = t) : Inv s' := by
  obtain ⟨clock, later⟩ := h.clock.step step
  have phases := h.phases.step step
  suffices rest : (∀ u, Pending s' u) ∧ Completed s' from ⟨phases, clock, rest.1, rest.2⟩
  have move : ∀ {t : T} {pc : Pc}, s' = s.setPc t pc → (∀ k, pc ≠ .signalWake k) →
      (∀ k, pc ≠ .broadcastWake k) → (∀ u, Pending s' u) ∧ Completed s' := by
    rintro t pc rfl signal broadcast
    refine ⟨fun u => ?_, h.completed.later later rfl rfl⟩
    refine (h.pending u).move (t := t) later rfl ?_ (alone u) ?_ ?_
    · exact fun v other => ⟨update_of_ne other .., rfl⟩
    · simpa using signal
    · simpa using broadcast
  cases step with
  | @mutex m step calls =>
    refine ⟨fun u => ?_, h.completed.later later rfl rfl⟩
    by_cases notifier : ∃ k, s.pc u = .signalWake k
    · obtain ⟨k, at_⟩ := notifier
      refine (h.pending u).later later rfl rfl (fun held => ?_) (alone u)
      -- A notifier makes no call, so it held the mutex before.
      have free := h.phases u
      rw [at_] at free
      refine free.resolve_left fun outside => ?_
      have called := calls u (by rw [outside, held]; decide) (.inl outside)
      rw [at_] at called
      cases called
    · have other : ∀ k, s.pc u ≠ .signalWake k := fun k at_ => notifier ⟨k, at_⟩
      exact ⟨(h.pending u).index, fun k at_ => absurd at_ (other k),
        fun k at_ => absurd at_ (other k), fun k at_ => absurd at_ (other k)⟩
  | callWait | spurious | resume | callSignal | callBroadcast => exact move rfl nofun nofun
  | wait run =>
    obtain ⟨others, snapshot, broadcasts, signals, signal, broadcast⟩ := lcCondvarWait_frame run
    exact ⟨fun u => (h.pending u).move later snapshot others (alone u) signal broadcast,
      h.completed.later later broadcasts signals⟩
  | signal few run =>
    obtain ⟨-, rfl⟩ := lcCondvarSignal_eq_some run
    exact ⟨fun u => (h.pending u).increment h.clock (alone u) (.inl rfl),
      h.completed.later later rfl rfl⟩
  | @signalWake t k woken at_ released =>
    refine ⟨fun u => ?_, h.completed.signalWake (h.pending t) at_ released⟩
    have := (h.pending u).release (t := t) (fun v => woken = some v) (alone u)
    exact { this with }
  | broadcast few run =>
    obtain ⟨-, rfl⟩ := lcCondvarBroadcast_eq_some run
    exact ⟨fun u => (h.pending u).increment h.clock (alone u) (.inr rfl),
      h.completed.later later rfl rfl⟩
  | @broadcastWake t k woken at_ released =>
    refine ⟨fun u => ?_, h.completed.broadcastWake (h.pending t) fit at_ released⟩
    have := (h.pending u).release (t := t) (fun v => v ∈ woken) (alone u)
    exact { this with }

theorem inv_reachable (fit : ThreadsFit T) (run : (system T).Reachable s) : Inv s := by
  refine System.Inductive.of_reachable (S := system T) ?_ ?_ s run
  · rintro s rfl
    exact ⟨fun _ => trivial, ⟨rfl, nofun, nofun⟩, fun _ => Pending.idle nofun nofun,
      ⟨nofun, nofun, nofun, nofun⟩⟩
  · intro s s' run h step
    refine h.step fit step fun t u held loading => ?_
    have also := h.phases u
    rw [loading] at also
    exact holder_unique run also held

/-- In every reachable state: a wait that has returned has the mutex, alone; nobody who
loaded the number before the increment of a completed broadcast sleeps in that wait;
and for every completed signal, if waits were in progress at its increment, one of
them is no longer asleep, unless the wake-up was taken by a wait that began between
the increment and the wake-up, and the caller did not hold the mutex. -/
theorem condvar_loses_no_wakeup (fit : ThreadsFit T) {s : State T}
    (run : (system T).Reachable s) :
    (∀ t, s.pc t = .returned → s.mutex.pc t = .holding ∧ ∀ u, (s.mutex.pc u).Holds → u = t) ∧
    (∀ k ∈ s.broadcasts, ∀ u start, start < k → s.pc u ≠ .asleep start) ∧
    ∀ r ∈ s.signals, (∃ u start, r.before u = some start) →
      (∃ u start, r.before u = some start ∧ s.pc u ≠ .asleep start) ∨
        (r.held = false ∧ ∃ start, r.taken = some start ∧ r.index ≤ start) := by
  have h := inv_reachable fit run
  refine ⟨fun t at_ => ?_, fun k member u start old now => ?_, fun r member waiting => ?_⟩
  · have held := h.phases t
    rw [at_] at held
    refine ⟨held, fun u holds => ?_⟩
    obtain ⟨m, reached, rfl⟩ := refines_mutex.reachable run
    exact (Mutex.exclusive_inductive.reachable reached).unique u t (holds.imp id .inl) (.inl held)
  · exact absurd ((h.completed.broadcasts k member).2 u start now) (not_le.mpr old)
  · exact (h.completed.signals r member).imp (fun ended => ended waiting) id

/-! ### Runs -/

/-- Steps that schedules below are made of. -/
inductive Action (T : Type)
  | callLock (t : T)
  | inMutex (t : T)
  | callWait (t : T)
  | wait (t : T)
  | callSignal (t : T)
  | signal (t : T)
  | wake (t sleeper : T)

instance [Fintype T] (s : State T) : Decidable (Few s) :=
  inferInstanceAs (Decidable (∀ u, ∀ start ∈ (s.pc u).loaded, s.sent + 1 < start + 2 ^ 32))

def perform [Fintype T] (s : State T) : Action T → Option (State T)
  | .callLock t =>
    if s.pc t = .outside ∧ s.mutex.pc t = .outside then
      some { s with mutex := s.mutex.setPc t .lockCas }
    else none
  | .inMutex t =>
    ((Mutex.lcMutexLock (s.mutex.pc t) s.mutex.state).or
      (Mutex.lcMutexUnlock (s.mutex.pc t) s.mutex.state)).map
        fun r => { s with mutex := s.mutex.advance t r }
  | .callWait t =>
    if s.pc t = .outside ∧ s.mutex.pc t = .holding then some (s.setPc t .waitLoad) else none
  | .wait t => lcCondvarWait s t
  | .callSignal t =>
    if s.pc t = .outside ∧ s.mutex.pc t = .outside then some (s.setPc t .signalAdd) else none
  | .signal t => if Few s then lcCondvarSignal s t else none
  | .wake t sleeper =>
    match s.pc t, s.pc sleeper with
    | .signalWake k, .asleep _ => some (s.signalled t k (some sleeper))
    | _, _ => none

theorem step_of_perform [Fintype T] {a : Action T} (performed : perform s a = some s') :
    Step s s' := by
  have others : ∀ (t : T) (m : Mutex.State T), (∀ u, u ≠ t → m.pc u = s.mutex.pc u) →
      s.pc t = .outside ∨ ¬ (s.mutex.pc t = .outside ∨ s.mutex.pc t = .holding) →
      ∀ u, m.pc u ≠ s.mutex.pc u → s.mutex.pc u = .outside ∨ s.mutex.pc u = .holding →
        s.pc u = .outside := by
    intro t m same here u moved between
    by_cases self : u = t
    · subst u
      exact here.resolve_right fun busy => busy between
    · exact absurd (same u self) moved
  cases a with
  | callLock t =>
    obtain ⟨⟨outside, free⟩, done⟩ := Option.ite_none_right_eq_some.mp performed
    cases done
    exact .mutex (.callLock free)
      (others t _ (fun u other => s.mutex.setPc_other _ other) (.inl outside))
  | inMutex t =>
    obtain ⟨r, run, rfl⟩ := Option.map_eq_some_iff.mp performed
    have frame := others t (s.mutex.advance t r) fun u other => s.mutex.advance_other r other
    rcases Option.or_eq_some_iff.mp run with lock | ⟨-, unlock⟩
    · refine .mutex (.lock lock) (frame (.inr ?_))
      rintro (at_ | at_) <;> rw [at_] at lock <;> cases lock
    · refine .mutex (.unlock unlock) (frame (.inr ?_))
      rintro (at_ | at_) <;> rw [at_] at unlock <;> cases unlock
  | callWait t =>
    obtain ⟨⟨outside, held⟩, done⟩ := Option.ite_none_right_eq_some.mp performed
    cases done
    exact .callWait outside held
  | wait t => exact .wait performed
  | callSignal t =>
    obtain ⟨⟨outside, free⟩, done⟩ := Option.ite_none_right_eq_some.mp performed
    cases done
    exact .callSignal outside (.inl free)
  | signal t =>
    obtain ⟨few, run⟩ := Option.ite_none_right_eq_some.mp performed
    exact .signal few run
  | wake t sleeper =>
    simp only [perform] at performed
    split at performed
    case h_1 k start at_ asleep =>
      cases performed
      exact .signalWake at_ (.one ⟨start, asleep⟩)
    case h_2 => cases performed

/-- Thread 0 sleeps, thread 2 makes the increment of a signal, thread 1 then starts a
wait and falls asleep as well, and the wake-up goes to `sleeper`. -/
def wakeOneOfTwo (sleeper : Fin 3) : List (Action (Fin 3)) :=
  [.callLock 0, .inMutex 0, .callWait 0, .wait 0, .inMutex 0, .wait 0, .callSignal 2, .signal 2,
    .callLock 1, .inMutex 1, .callWait 1, .wait 1, .inMutex 1, .wait 1, .wake 2 sleeper]

theorem wakeOneOfTwo_isSome : ∀ sleeper : Fin 3, sleeper ≠ 2 →
    ((wakeOneOfTwo sleeper).foldlM perform (start (Fin 3))).isSome := by
  decide +kernel

/-- The state this leads to. -/
def wokenOneOfTwo (sleeper : Fin 3) (other : sleeper ≠ 2) : State (Fin 3) :=
  ((wakeOneOfTwo sleeper).foldlM perform (start (Fin 3))).get (wakeOneOfTwo_isSome sleeper other)

theorem reachable_wokenOneOfTwo (sleeper : Fin 3) (other : sleeper ≠ 2) :
    (system (Fin 3)).Reachable (wokenOneOfTwo sleeper other) :=
  System.Reachable.foldlM (fun _ _ _ => step_of_perform) (.init rfl) (Option.some_get _).symm

theorem threadsFit_fin : ThreadsFit (Fin 3) := fun threads =>
  (Finset.card_le_univ threads).trans (by decide)

/-- The wake-up goes to the thread that slept when the signal was sent. -/
theorem condvar_loses_no_wakeup_earlier :
    ∃ s : State (Fin 3), (system (Fin 3)).Reachable s ∧ ∃ r ∈ s.signals,
      (∃ u start, r.before u = some start) ∧
        ∃ u start, r.before u = some start ∧ s.pc u ≠ .asleep start := by
  have run := reachable_wokenOneOfTwo 0 (by decide)
  have facts : ∃ r ∈ (wokenOneOfTwo 0 (by decide)).signals,
      r.before 0 = some 0 ∧ r.taken = some 0 ∧ r.index = 1 := by
    decide +kernel
  obtain ⟨r, member, before, taken, index⟩ := facts
  have waiting : ∃ u start, r.before u = some start := ⟨0, 0, before⟩
  refine ⟨_, run, r, member, waiting, ?_⟩
  refine ((condvar_loses_no_wakeup threadsFit_fin run).2.2 r member waiting).resolve_right ?_
  rintro ⟨-, start, same, le⟩
  rw [taken] at same
  cases same
  omega

/-- The wake-up goes to the later thread, and the one wait that was in progress when
the signal was sent stays asleep. -/
theorem signal_wakes_later_wait :
    ∃ s : State (Fin 3), (system (Fin 3)).Reachable s ∧ ∃ r ∈ s.signals,
      (∃ u start, r.before u = some start) ∧
        ∀ u start, r.before u = some start → s.pc u = .asleep start := by
  have run := reachable_wokenOneOfTwo 1 (by decide)
  have facts : ∃ r ∈ (wokenOneOfTwo 1 (by decide)).signals, r.before 0 = some 0 ∧
      ∀ u, ∀ start ∈ r.before u, (wokenOneOfTwo 1 (by decide)).pc u = .asleep start := by
    decide +kernel
  obtain ⟨r, member, before, asleep⟩ := facts
  exact ⟨_, run, r, member, ⟨0, 0, before⟩, asleep⟩

end Lightc.Sync.Condvar
