import Lightc.Machine.Atomic
import Lightc.Verification.Counting
import Lightc.Verification.Transition

/-!
# The phase-counting barrier

A thread loads the phase and increments the count. The last of a round resets the
count, advances the phase and wakes everybody; the others wait for the phase to
change. Fast threads come back for the next round while slow ones are still waking
up, and all rounds share the two words.

The phase wraps. `round` counts its advances without wrapping, and every thread has
counts of its own increments and returns. The proof rests on one fact about them: a
thread is never more than one round ahead of another, since the phase cannot advance
without its increment. So a phase that was loaded is the present one or the one
before, and the two never look alike.
-/

namespace Lightc.Sync.Barrier

open Machine Verification Function

/-- `lc_barrier`. -/
structure LcBarrier where
  count : UInt32
  phase : UInt32
  threshold : UInt32

/-- `lc_barrier_init`. -/
def lcBarrierInit (threadCount : UInt32) : LcBarrier :=
  { count := 0, phase := 0, threshold := threadCount }

/-- The next shared access of a thread in `lc_barrier_wait`. -/
inductive Pc
  | outside
  /-- Before the load of the phase. -/
  | load
  /-- Before the fetch-add of the count. -/
  | add (phase : UInt32)
  /-- The last thread, before the store of 0. -/
  | store
  /-- Before the fetch-add of the phase. -/
  | bump
  /-- Before `futex_wake`. -/
  | wake
  /-- Another thread, before the load in the loop guard. -/
  | check (phase : UInt32)
  /-- Before `futex_wait`. -/
  | wait (phase : UInt32)
  | asleep (phase : UInt32)
  deriving DecidableEq, Repr

/-- Between the increment that filled the barrier and the advance of the phase. -/
@[simp] def Pc.last : Pc → Bool
  | .store | .bump => true
  | _ => false

structure Thread where
  pc : Pc
  /-- The increments it has made. -/
  arrived : Nat
  /-- The calls it has returned from. -/
  returned : Nat

structure State (T : Type) where
  barrier : LcBarrier
  thread : T → Thread
  /-- How often the phase has been advanced. -/
  round : Nat
  /-- How many of these advances were followed by a completed wake-up. -/
  woken : Nat

variable {T : Type} [DecidableEq T]

namespace State

@[simp] def setThread (s : State T) (t : T) (th : Thread) : State T :=
  { s with thread := update s.thread t th }

@[simp] def goto (s : State T) (t : T) (pc : Pc) : State T :=
  s.setThread t { s.thread t with pc := pc }

/-- The increment of the count. -/
def arrive (s : State T) (t : T) (pc : Pc) : State T :=
  { s.setThread t { s.thread t with pc := pc, arrived := (s.thread t).arrived + 1 } with
    barrier := { s.barrier with count := s.barrier.count + 1 } }

/-- The store that resets it. -/
def reset (s : State T) (t : T) : State T :=
  { s.goto t .bump with barrier := { s.barrier with count := 0 } }

/-- The advance of the phase. -/
def turn (s : State T) (t : T) : State T :=
  { s.goto t .wake with
    barrier := { s.barrier with phase := s.barrier.phase + 1 }
    round := s.round + 1 }

/-- The call comes back. -/
def leave (s : State T) (t : T) : State T :=
  s.setThread t { s.thread t with pc := .outside, returned := (s.thread t).returned + 1 }

end State

/-- One step of `lc_barrier_wait` up to the wake-up. -/
def lcBarrierWait (s : State T) (t : T) : Option (State T) :=
  let b := s.barrier
  match (s.thread t).pc with
  | .load => some (s.goto t (.add b.phase))
  | .add phase =>
    let old := b.count
    some (s.arrive t (if old + 1 = b.threshold then .store else .check phase))
  | .store => some (s.reset t)
  | .bump => some (s.turn t)
  | .check phase => some (if b.phase = phase then s.goto t (.wait phase) else s.leave t)
  | .wait phase =>
    some (s.goto t (if futexWait b.phase phase then .asleep phase else .check phase))
  | _ => none

/-- A sleeper that is woken looks at the phase again. -/
@[simp] def Pc.wakened : Pc → Pc
  | .asleep phase => .check phase
  | pc => pc

/-- The last thread's `futex_wake` returns, and the call with it. -/
def State.wakeAll (s : State T) (t : T) (released : Finset T) : State T :=
  { s.leave t with
    thread := fun u =>
      let th := (s.leave t).thread u
      if u ∈ released then { th with pc := th.pc.wakened } else th
    woken := s.woken + 1 }

def State.Sleeps (s : State T) (t : T) : Prop := ∃ phase, (s.thread t).pc = .asleep phase

/-- The atomic steps of all threads; the futex may wake a sleeper spuriously. -/
inductive Step : State T → State T → Prop
  | call {s : State T} {t : T} (at_ : (s.thread t).pc = .outside) : Step s (s.goto t .load)
  | advance {s s' : State T} {t : T} (run : lcBarrierWait s t = some s') : Step s s'
  | wake {s : State T} {t : T} {released : Finset T} (at_ : (s.thread t).pc = .wake)
      (wake : WakeUpTo 2147483647 s.Sleeps released) : Step s (s.wakeAll t released)
  | spurious {s : State T} {t : T} (asleep : s.Sleeps t) :
      Step s (s.goto t (s.thread t).pc.wakened)

/-- A barrier for `n` threads before the first call. -/
def start (T : Type) (n : UInt32) : State T where
  barrier := lcBarrierInit n
  thread _ := { pc := .outside, arrived := 0, returned := 0 }
  round := 0
  woken := 0

/-- A barrier for exactly the threads there are. -/
def system (T : Type) [DecidableEq T] [Fintype T] : System (State T) where
  init s := s = start T (UInt32.ofNat (Fintype.card T))
  step := Step

/-! ### One round ahead at most -/

/-- In the loop: the round of the call is the present one or the one before. -/
def Waits (round : Nat) (th : Thread) (phase : UInt32) : Prop :=
  (th.arrived = round + 1 ∧ th.returned = round ∧ phase = UInt32.ofNat round) ∨
    (th.arrived = round ∧ th.returned + 1 = round ∧ phase = UInt32.ofNat th.returned)

/-- Where a thread can be and what it can have loaded in a given round. -/
def Place (round : Nat) (th : Thread) : Prop :=
  match th.pc with
  | .outside | .load => th.arrived = round ∧ th.returned = round
  | .add phase => th.arrived = round ∧ th.returned = round ∧ phase = UInt32.ofNat round
  | .store | .bump => th.arrived = round + 1 ∧ th.returned = round
  | .wake => th.arrived = round ∧ th.returned + 1 = round
  | .check phase | .wait phase | .asleep phase => Waits round th phase

/-- The phases of neighbouring rounds differ. -/
theorem ofNat_succ_ne (n : Nat) : UInt32.ofNat (n + 1) ≠ UInt32.ofNat n := by
  intro same
  have values := congrArg UInt32.toNat same
  simp only [UInt32.toNat_ofNat'] at values
  omega

variable {round : Nat} {th : Thread}

theorem Place.returned_le (h : Place round th) :
    th.returned ≤ round := by
  unfold Place Waits at h
  cases pc : th.pc <;> simp only [pc] at h <;> omega

theorem Place.le_arrived (h : Place round th) :
    round ≤ th.arrived := by
  unfold Place Waits at h
  cases pc : th.pc <;> simp only [pc] at h <;> omega

/-- When everybody has arrived the phase may advance. -/
theorem Place.advance (h : Place round th) (arrived : th.arrived = round + 1)
    (waits : th.pc.last = false) : Place (round + 1) th := by
  unfold Place at h ⊢
  cases pc : th.pc <;> simp only [pc] at h ⊢
  case store => simp [pc] at waits
  case bump => simp [pc] at waits
  case check | wait | asleep =>
    -- The phase it loaded is now the one before.
    rcases h with ⟨-, returned, loaded⟩ | ⟨earlier, -, -⟩
    · exact .inr ⟨arrived, by rw [returned], by rw [loaded, returned]⟩
    · omega
  all_goals omega

section Rounds

variable [Fintype T] {s s' : State T} {t : T}

/-- The threads that have arrived in the present round. -/
def State.arrivals (s : State T) : Nat :=
  countOf (fun th => th.arrived == s.round + 1) s.thread

/-- The count of a round: it grows with the arrivals until the last one, which resets it
before the phase advances. -/
inductive Gather (s : State T) : Prop
  | opened (nobody : ∀ t, (s.thread t).pc.last = false)
      (count : s.barrier.count.toNat = s.arrivals) (room : s.arrivals < Fintype.card T)
  | full (t : T) (at_ : (s.thread t).pc = .store)
      (only : ∀ u, (s.thread u).pc.last = true → u = t)
      (all : ∀ u, (s.thread u).arrived = s.round + 1)
  | reset (t : T) (at_ : (s.thread t).pc = .bump)
      (only : ∀ u, (s.thread u).pc.last = true → u = t)
      (count : s.barrier.count = 0) (all : ∀ u, (s.thread u).arrived = s.round + 1)

/-- The wake-up of a round is over, or its last thread is about to make it. -/
inductive Waking (s : State T) : Prop
  | finished (nobody : ∀ t, (s.thread t).pc ≠ .wake) (woken : s.woken = s.round)
  | due (t : T) (at_ : (s.thread t).pc = .wake) (only : ∀ u, (s.thread u).pc = .wake → u = t)
      (woken : s.woken + 1 = s.round)

structure Inv (s : State T) : Prop where
  threshold : s.barrier.threshold = UInt32.ofNat (Fintype.card T)
  phase : s.barrier.phase = UInt32.ofNat s.round
  place : ∀ t, Place s.round (s.thread t)
  gather : Gather s
  waking : Waking s

omit [DecidableEq T] in
/-- Arrivals and the last thread stay as they are. -/
theorem Gather.quiet (h : Gather s) (barrier : s'.barrier = s.barrier) (round : s'.round = s.round)
    (arrived : ∀ u, (s'.thread u).arrived = (s.thread u).arrived)
    (last : ∀ u, (s'.thread u).pc = (s.thread u).pc ∨
      ((s'.thread u).pc.last = false ∧ (s.thread u).pc.last = false)) : Gather s' := by
  have same : ∀ u, (s'.thread u).pc.last = (s.thread u).pc.last := by
    intro u
    rcases last u with pc | ⟨now, before⟩
    · rw [pc]
    · rw [now, before]
  have arrivals : s'.arrivals = s.arrivals := by
    rw [State.arrivals, round]
    exact countOf_congr fun u => by rw [arrived]
  have stays : ∀ u, (s.thread u).pc.last = true → (s'.thread u).pc = (s.thread u).pc := by
    intro u is
    refine (last u).resolve_right fun ⟨_, before⟩ => ?_
    rw [is] at before
    cases before
  cases h with
  | opened nobody count room =>
    refine .opened (fun u => (same u).trans (nobody u)) ?_ ?_
    · rw [barrier, arrivals, count]
    · rwa [arrivals]
  | full t at_ only all =>
    refine .full t ((stays t (by rw [at_]; rfl)).trans at_) (fun u is => only u ?_) fun u => ?_
    · rwa [← same u]
    · rw [arrived, round, all]
  | reset t at_ only count all =>
    refine .reset t ((stays t (by rw [at_]; rfl)).trans at_) (fun u is => only u ?_) ?_
      fun u => ?_
    · rwa [← same u]
    · rw [barrier, count]
    · rw [arrived, round, all]

omit [DecidableEq T] [Fintype T] in
theorem Waking.quiet (h : Waking s) (round : s'.round = s.round) (woken : s'.woken = s.woken)
    (wake : ∀ u, (s'.thread u).pc = .wake ↔ (s.thread u).pc = .wake) : Waking s' := by
  cases h with
  | finished nobody same =>
    exact .finished (fun u is => nobody u ((wake u).mp is)) (by rw [woken, round, same])
  | due t at_ only next =>
    exact .due t ((wake t).mpr at_) (fun u is => only u ((wake u).mp is))
      (by rw [woken, round, next])

/-- A step of one thread that neither arrives nor is the last. -/
theorem Inv.quiet (h : Inv s) {w : Thread} (place : Place s.round w)
    (arrived : w.arrived = (s.thread t).arrived)
    (last : (s.thread t).pc.last = false ∧ w.pc.last = false)
    (wake : (s.thread t).pc ≠ .wake ∧ w.pc ≠ .wake) : Inv (s.setThread t w) := by
  have here : (s.setThread t w).thread t = w := update_self ..
  have others : ∀ u, u ≠ t → (s.setThread t w).thread u = s.thread u :=
    fun u other => update_of_ne other ..
  refine ⟨h.threshold, h.phase, fun u => ?_, h.gather.quiet rfl rfl (fun u => ?_) (fun u => ?_),
    h.waking.quiet rfl rfl fun u => ?_⟩ <;> by_cases same : u = t
  · rwa [same, here]
  · rw [others u same]
    exact h.place u
  · rw [same, here, arrived]
  · rw [others u same]
  · rw [same, here]
    exact .inr last.symm
  · rw [others u same]
    exact .inl rfl
  · rw [same, here]
    exact iff_of_false wake.2 wake.1
  · rw [others u same]

omit [DecidableEq T] in
/-- What a thread knows where it stands. -/
theorem Inv.place_at (h : Inv s) {pc : Pc} (at_ : (s.thread t).pc = pc) :
    Place s.round { s.thread t with pc := pc } := by
  have place := h.place t
  subst at_
  exact place

/-- An arrival. The count is exact, so the thread is told the truth about being the
last. -/
theorem Inv.arrive (h : Inv s) (few : Fintype.card T < 2 ^ 32) {phase : UInt32}
    (at_ : (s.thread t).pc = .add phase) :
    Inv (s.arrive t
      (if s.barrier.count + 1 = s.barrier.threshold then .store else .check phase)) := by
  have place : (s.thread t).arrived = s.round ∧ (s.thread t).returned = s.round ∧
    phase = UInt32.ofNat s.round := h.place_at at_
  obtain ⟨arrived, returned, loaded⟩ := place
  obtain ⟨nobody, count, room⟩ : (∀ u, (s.thread u).pc.last = false) ∧
      s.barrier.count.toNat = s.arrivals ∧ s.arrivals < Fintype.card T := by
    cases h.gather with
    | opened nobody count room => exact ⟨nobody, count, room⟩
    | full _ _ _ all => exact absurd (all t) (by omega)
    | reset _ _ _ _ all => exact absurd (all t) (by omega)
  have here : ∀ pc, (s.arrive t pc).thread t =
      { s.thread t with pc := pc, arrived := (s.thread t).arrived + 1 } :=
    fun _ => update_self ..
  have others : ∀ pc u, u ≠ t → (s.arrive t pc).thread u = s.thread u :=
    fun _ u other => update_of_ne other ..
  have arrivals : ∀ pc, (s.arrive t pc).arrivals = s.arrivals + 1 := fun pc =>
    countOf_update_enter (P := fun th : Thread => th.arrived == s.round + 1) (f := s.thread)
      (by simp [arrived]) (by simp [arrived])
  have counted : (s.barrier.count + 1).toNat = s.arrivals + 1 := by
    rw [UInt32.toNat_add, count]
    exact Nat.mod_eq_of_lt (by simp only [UInt32.toNat_one]; omega)
  have last : s.barrier.count + 1 = s.barrier.threshold ↔ s.arrivals + 1 = Fintype.card T := by
    rw [h.threshold, ← UInt32.toNat_inj, counted, UInt32.toNat_ofNat', Nat.mod_eq_of_lt few]
  -- Whatever the thread does next, the others are where they were.
  have inv : ∀ pc, Place s.round { s.thread t with pc := pc, arrived := s.round + 1 } →
      pc ≠ .wake → Gather (s.arrive t pc) → Inv (s.arrive t pc) := by
    intro pc place wake gather
    refine ⟨h.threshold, h.phase, fun u => ?_, gather, h.waking.quiet rfl rfl fun u => ?_⟩ <;>
      by_cases same : u = t
    · rw [same, here, arrived]
      exact place
    · rw [others pc u same]
      exact h.place u
    · rw [same, here, at_]
      exact iff_of_false wake nofun
    · rw [others pc u same]
  split
  · next is =>
    refine inv _ ⟨rfl, returned⟩ nofun (.full t (by rw [here]) (fun u also => ?_) fun u => ?_)
    · by_contra other
      rw [others _ u other, nobody u] at also
      cases also
    · have all := countOf_eq_card.mp ((arrivals .store).trans (last.mp is)) u
      simpa using all
  · next is =>
    refine inv _ (.inl ⟨rfl, returned, loaded⟩) nofun (.opened ?_ ?_ ?_)
    · exact (forall_update_iff s.thread fun _ th => th.pc.last = false).mpr
        ⟨rfl, fun u _ => nobody u⟩
    · exact counted.trans (arrivals _).symm
    · rw [arrivals]
      have := mt last.mpr is
      omega

omit [DecidableEq T] in
/-- The thread that found itself last is, and everybody has arrived. -/
theorem Inv.last (h : Inv s) (is : (s.thread t).pc.last = true) :
    (∀ u, (s.thread u).pc.last = true → u = t) ∧ ∀ u, (s.thread u).arrived = s.round + 1 := by
  cases h.gather with
  | opened nobody =>
    rw [nobody t] at is
    cases is
  | full v _ only all => exact ⟨fun u also => (only u also).trans (only t is).symm, all⟩
  | reset v _ only _ all => exact ⟨fun u also => (only u also).trans (only t is).symm, all⟩

theorem Inv.reset (h : Inv s) (at_ : (s.thread t).pc = .store) : Inv (s.reset t) := by
  have place : (s.thread t).arrived = s.round + 1 ∧ (s.thread t).returned = s.round :=
    h.place_at at_
  obtain ⟨only, all⟩ := h.last (t := t) (by rw [at_]; rfl)
  have here : (s.reset t).thread t = { s.thread t with pc := .bump } := update_self ..
  have others : ∀ u, u ≠ t → (s.reset t).thread u = s.thread u :=
    fun u other => update_of_ne other ..
  refine ⟨h.threshold, h.phase, fun u => ?_, .reset t (by rw [here]) (fun u also => ?_) rfl
    fun u => ?_, h.waking.quiet rfl rfl fun u => ?_⟩ <;> by_cases same : u = t
  · rw [same, here]
    exact place
  · rw [others u same]
    exact h.place u
  · exact same
  · rw [others u same] at also
    exact only u also
  · rw [same, here]
    exact place.1
  · rw [others u same]
    exact all u
  · rw [same, here, at_]
    exact iff_of_false nofun nofun
  · rw [others u same]

/-- The phase advances when everybody has arrived; the wake-up of the round before is
long over, since its last thread has arrived as well. -/
theorem Inv.turn (h : Inv s) (some : 0 < Fintype.card T) (at_ : (s.thread t).pc = .bump) :
    Inv (s.turn t) := by
  have place : (s.thread t).arrived = s.round + 1 ∧ (s.thread t).returned = s.round :=
    h.place_at at_
  obtain ⟨only, all⟩ := h.last (t := t) (by rw [at_]; rfl)
  have empty : s.barrier.count = 0 := by
    cases h.gather with
    | opened nobody => exact absurd (nobody t) (by rw [at_]; decide)
    | full v here =>
      have same : v = t := only v (by rw [here]; rfl)
      rw [same, at_] at here
      cases here
    | reset _ _ _ count => exact count
  have slow : ∀ u, (s.thread u).pc ≠ .wake := by
    intro u wakes
    have early : (s.thread u).arrived = s.round ∧ _ := h.place_at wakes
    have := all u
    omega
  have woken : s.woken = s.round := by
    cases h.waking with
    | finished _ woken => exact woken
    | due v wakes => exact absurd wakes (slow v)
  have here : (s.turn t).thread t = { s.thread t with pc := .wake } := update_self ..
  have others : ∀ u, u ≠ t → (s.turn t).thread u = s.thread u :=
    fun u other => update_of_ne other ..
  have arrived : ∀ u, ((s.turn t).thread u).arrived = s.round + 1 :=
    (forall_update_iff s.thread fun _ th => th.arrived = s.round + 1).mpr
      ⟨place.1, fun u _ => all u⟩
  have arrivals : (s.turn t).arrivals = 0 := by
    refine countOf_eq_zero.mpr fun u => ?_
    rw [arrived]
    simp [State.turn]
  refine ⟨h.threshold, ?_, fun u => ?_, .opened (fun u => ?_) ?_ ?_, .due t (by rw [here])
    (fun u also => ?_) ?_⟩
  · change s.barrier.phase + 1 = UInt32.ofNat (s.round + 1)
    rw [h.phase, UInt32.ofNat_add]
    rfl
  · by_cases same : u = t
    · rw [same, here]
      exact ⟨place.1, by rw [place.2]; rfl⟩
    · rw [others u same]
      refine (h.place u).advance (all u) ?_
      by_contra is
      exact same (only u (by simpa using is))
  · by_cases same : u = t
    · rw [same, here]
      rfl
    · rw [others u same]
      by_contra is
      exact same (only u (by simpa using is))
  · rw [arrivals]
    exact congrArg UInt32.toNat empty
  · rw [arrivals]
    exact some
  · by_contra other
    rw [others u other] at also
    exact slow u also
  · exact congrArg (· + 1) woken

/-- A thread in the loop sees its phase exactly if the phase has not advanced since its
increment, however often it has wrapped. -/
theorem Waits.phase_eq_iff {round : Nat} {th : Thread} {phase : UInt32}
    (h : Waits round th phase) : UInt32.ofNat round = phase ↔ th.arrived = round + 1 := by
  rcases h with ⟨arrived, -, rfl⟩ | ⟨arrived, next, rfl⟩
  · exact iff_of_true rfl arrived
  · refine iff_of_false ?_ (by omega)
    rw [← next]
    exact ofNat_succ_ne _

/-- Every step of `lc_barrier_wait` up to the wake-up. -/
theorem Inv.advance (h : Inv s) (few : Fintype.card T < 2 ^ 32) (some : 0 < Fintype.card T)
    (run : lcBarrierWait s t = .some s') : Inv s' := by
  unfold lcBarrierWait at run
  cases at_ : (s.thread t).pc <;> simp only [at_, reduceCtorEq, Option.some.injEq] at run <;>
    subst s'
  case load =>
    have before : (s.thread t).arrived = s.round ∧ (s.thread t).returned = s.round :=
      h.place_at at_
    exact h.quiet ⟨before.1, before.2, h.phase⟩ rfl (by simp [at_]) (by simp [at_])
  case add => exact h.arrive few at_
  case store => exact h.reset at_
  case bump => exact h.turn some at_
  case check phase =>
    have waits : Waits s.round (s.thread t) phase := h.place_at at_
    split
    · exact h.quiet (w := { s.thread t with pc := .wait phase }) waits rfl
        (by simp [at_]) (by simp [at_])
    · next present =>
      rw [h.phase] at present
      have gone := mt waits.phase_eq_iff.mpr present
      rcases waits with ⟨arrived, -⟩ | ⟨arrived, next, -⟩
      · exact absurd arrived gone
      · exact h.quiet (w := { s.thread t with
          pc := .outside, returned := (s.thread t).returned + 1 }) ⟨arrived, next⟩ rfl
          (by simp [at_]) (by simp [at_])
  case wait phase =>
    have waits : Waits s.round (s.thread t) phase := h.place_at at_
    by_cases present : s.barrier.phase = phase
    · rw [show futexWait s.barrier.phase phase = true from decide_eq_true present, if_pos rfl]
      exact h.quiet (w := { s.thread t with pc := .asleep phase }) waits rfl
        (by simp [at_]) (by simp [at_])
    · rw [show futexWait s.barrier.phase phase = false from decide_eq_false present, if_neg nofun]
      exact h.quiet (w := { s.thread t with pc := .check phase }) waits rfl
        (by simp [at_]) (by simp [at_])

theorem Inv.spurious (h : Inv s) (asleep : s.Sleeps t) :
    Inv (s.goto t (s.thread t).pc.wakened) := by
  obtain ⟨phase, at_⟩ := asleep
  have waits : Waits s.round (s.thread t) phase := h.place_at at_
  rw [at_]
  exact h.quiet (w := { s.thread t with pc := .check phase }) waits rfl
    (by simp [at_]) (by simp [at_])

omit [Fintype T] in
/-- What the wake-up does to the other threads. -/
theorem State.wakeAll_other (s : State T) {t u : T} (released : Finset T) (other : u ≠ t) :
    (s.wakeAll t released).thread u =
      if u ∈ released then { s.thread u with pc := (s.thread u).pc.wakened } else s.thread u := by
  have same : (s.leave t).thread u = s.thread u := update_of_ne other ..
  simp only [State.wakeAll, same]

omit [Fintype T] in
/-- And to the thread that makes it. -/
@[simp] theorem State.wakeAll_self (s : State T) {t : T} (released : Finset T) :
    (s.wakeAll t released).thread t =
      { s.thread t with pc := .outside, returned := (s.thread t).returned + 1 } := by
  have same : (s.leave t).thread t =
      { s.thread t with pc := .outside, returned := (s.thread t).returned + 1 } :=
    update_self ..
  simp only [State.wakeAll, same]
  split <;> rfl

omit [DecidableEq T] [Fintype T] in
/-- A released sleeper is back in its loop, in the same round. -/
theorem Place.wakened {round : Nat} {th : Thread} (h : Place round th) :
    Place round { th with pc := th.pc.wakened } := by
  unfold Place at h ⊢
  cases at_ : th.pc <;> simp only [at_, Pc.wakened] at h ⊢ <;> exact h

theorem wakened_last (pc : Pc) : pc.wakened = pc ∨ (pc.wakened.last = false ∧ pc.last = false) := by
  cases pc <;> simp

theorem wakened_eq_wake (pc : Pc) : pc.wakened = .wake ↔ pc = .wake := by
  cases pc <;> simp

/-- The wake-up of the present round is over. -/
theorem Inv.wake (h : Inv s) (at_ : (s.thread t).pc = .wake) (released : Finset T) :
    Inv (s.wakeAll t released) := by
  have place : (s.thread t).arrived = s.round ∧ (s.thread t).returned + 1 = s.round :=
    h.place_at at_
  obtain ⟨only, woken⟩ : (∀ u, (s.thread u).pc = .wake → u = t) ∧ s.woken + 1 = s.round := by
    cases h.waking with
    | finished nobody => exact absurd at_ (nobody t)
    | due v _ only woken => exact ⟨fun u also => (only u also).trans (only t at_).symm, woken⟩
  refine ⟨h.threshold, h.phase, fun u => ?_, h.gather.quiet rfl rfl (fun u => ?_) (fun u => ?_),
    .finished (fun u => ?_) woken⟩ <;> by_cases same : u = t
  · subst u
    rw [s.wakeAll_self]
    exact place
  · rw [s.wakeAll_other released same]
    split
    · exact (h.place u).wakened
    · exact h.place u
  · subst u
    rw [s.wakeAll_self]
  · rw [s.wakeAll_other released same]
    split <;> rfl
  · subst u
    rw [s.wakeAll_self, at_]
    exact .inr ⟨rfl, rfl⟩
  · rw [s.wakeAll_other released same]
    split
    · exact wakened_last _
    · exact .inl rfl
  · subst u
    rw [s.wakeAll_self]
    exact nofun
  · rw [s.wakeAll_other released same]
    split
    · exact fun wakes => same (only u ((wakened_eq_wake _).mp wakes))
    · exact fun wakes => same (only u wakes)

theorem Inv.step (h : Inv s) (few : Fintype.card T < 2 ^ 32) (some : 0 < Fintype.card T)
    (step : Step s s') : Inv s' := by
  cases step with
  | @call t at_ =>
    have before : (s.thread t).arrived = s.round ∧ (s.thread t).returned = s.round :=
      h.place_at at_
    exact h.quiet (w := { s.thread t with pc := .load }) before rfl (by simp [at_])
      (by simp [at_])
  | advance run => exact h.advance few some run
  | wake at_ => exact h.wake at_ _
  | spurious asleep => exact h.spurious asleep

theorem inv_inductive (few : Fintype.card T < 2 ^ 32) (some : 0 < Fintype.card T) :
    (system T).Inductive Inv where
  init s start := by
    cases start
    have arrivals : (start T (UInt32.ofNat (Fintype.card T))).arrivals = 0 :=
      countOf_eq_zero.mpr fun _ => rfl
    refine ⟨rfl, rfl, fun _ => ⟨rfl, rfl⟩, .opened (fun _ => rfl) ?_ ?_, .finished nofun rfl⟩
    · rw [arrivals]
      rfl
    · rw [arrivals]
      exact some
  step _ _ h step := h.step few some step

/-! ### Sleepers -/

/-- When the wake-up of a round is over, only threads of the next one sleep. -/
def Rested (s : State T) : Prop :=
  s.woken = s.round → ∀ t, s.Sleeps t → (s.thread t).arrived = s.round + 1

omit [Fintype T] in
/-- A step that wakes nobody and turns no phase: a thread that sleeps afterwards slept
before, or is of the present round. -/
theorem Rested.quiet (h : Rested s) {w : Thread} {barrier : LcBarrier}
    (here : ∀ phase, w.pc = .asleep phase → w.arrived = s.round + 1) :
    Rested ({ s.setThread t w with barrier := barrier } : State T) := by
  intro woken u sleeps
  by_cases same : u = t
  · subst u
    have now : ({ s.setThread t w with barrier := barrier } : State T).thread t = w :=
      update_self ..
    obtain ⟨phase, asleep⟩ := sleeps
    rw [now] at asleep ⊢
    exact here phase asleep
  · have now : ({ s.setThread t w with barrier := barrier } : State T).thread u = s.thread u :=
      update_of_ne same ..
    rw [State.Sleeps, now] at sleeps
    rw [now]
    exact h woken u sleeps

theorem Rested.advance (h : Rested s) (inv : Inv s) (after : Inv s')
    (run : lcBarrierWait s t = some s') : Rested s' := by
  unfold lcBarrierWait at run
  cases at_ : (s.thread t).pc <;> simp only [at_, reduceCtorEq, Option.some.injEq] at run <;>
    subst s'
  case load => exact h.quiet (w := { s.thread t with pc := .add s.barrier.phase }) nofun
  case add phase =>
    refine h.quiet (w := { s.thread t with
      pc := if s.barrier.count + 1 = s.barrier.threshold then .store else .check phase,
      arrived := (s.thread t).arrived + 1 }) fun phase asleep => ?_
    dsimp only at asleep
    split at asleep <;> cases asleep
  case store => exact h.quiet (w := { s.thread t with pc := .bump }) nofun
  case bump =>
    -- The wake-up of the new round is still due.
    intro done
    cases after.waking with
    | finished nobody => exact absurd (by simp [State.turn]) (nobody t)
    | due _ _ _ next => omega
  case check phase =>
    split
    · exact h.quiet (w := { s.thread t with pc := .wait phase }) nofun
    · exact h.quiet (w := { s.thread t with
        pc := .outside, returned := (s.thread t).returned + 1 }) nofun
  case wait phase =>
    have waits : Waits s.round (s.thread t) phase := inv.place_at at_
    refine h.quiet (w := { s.thread t with
      pc := if futexWait s.barrier.phase phase then .asleep phase else .check phase })
      fun number asleep => ?_
    by_cases present : s.barrier.phase = phase
    · rw [inv.phase] at present
      exact waits.phase_eq_iff.mp present
    · rw [show futexWait s.barrier.phase phase = false from decide_eq_false present] at asleep
      cases asleep

theorem Rested.step (h : Rested s) (fit : ThreadsFit T) (inv : Inv s) (after : Inv s')
    (step : Step s s') : Rested s' := by
  cases step with
  | @call t _ => exact h.quiet (w := { s.thread t with pc := .load }) nofun
  | advance run => exact h.advance inv after run
  | @wake t released at_ wake =>
    intro _ u sleeps
    obtain ⟨phase, asleep⟩ := sleeps
    by_cases same : u = t
    · subst u
      rw [s.wakeAll_self] at asleep
      cases asleep
    · rw [s.wakeAll_other released same] at asleep
      split at asleep
      · cases at_ : (s.thread u).pc <;> simp [at_] at asleep
      · next awake => exact absurd (wake.all fit u ⟨phase, asleep⟩) awake
  | @spurious t asleep =>
    obtain ⟨phase, at_⟩ := asleep
    rw [at_]
    exact h.quiet (w := { s.thread t with pc := .check phase }) nofun

/-- For every number of threads: nobody returns from a call before all have made the
increment of theirs of the same number; the count is below the number of threads unless
the last one is about to reset it; and, as the kernel's wake-up of `INT_MAX` reaches
every thread there can be, nobody sleeps in a round whose wake-up is over. -/
theorem barrier_separates_rounds (few : Fintype.card T < 2 ^ 32) (some : 0 < Fintype.card T)
    (run : (system T).Reachable s) :
    (∀ t u, (s.thread t).returned ≤ (s.thread u).arrived) ∧
    ((∀ t, (s.thread t).pc ≠ .store) → s.barrier.count.toNat < Fintype.card T) ∧
    (ThreadsFit T → ∀ t, s.Sleeps t → s.woken < (s.thread t).arrived) := by
  have inv : Inv s := (inv_inductive few some).reachable run
  refine ⟨fun t u => (inv.place t).returned_le.trans (inv.place u).le_arrived, fun nobody => ?_,
    fun fit t sleeps => ?_⟩
  · cases inv.gather with
    | opened _ count room => rwa [count]
    | full t at_ => exact absurd at_ (nobody t)
    | reset _ _ _ count => rwa [count]
  · have rested : Rested s := by
      refine System.Inductive.of_reachable (S := system T) ?_ ?_ s run
      · rintro s rfl _ t ⟨_, asleep⟩
        cases asleep
      · intro s s' run h step
        have before := (inv_inductive few some).reachable run
        exact h.step fit before (before.step few some step) step
    have arrived := (inv.place t).le_arrived
    have woken : s.woken ≤ s.round := by
      cases inv.waking with
      | finished _ woken => exact woken.le
      | due _ _ _ woken => omega
    by_contra late
    have := rested (by omega) t sleeps
    omega

end Rounds

/-- A schedule of steps up to the wake-up. -/
def follow (s : State T) (schedule : List T) : Option (State T) :=
  schedule.foldlM
    (fun s t => if (s.thread t).pc = .outside then some (s.goto t .load) else lcBarrierWait s t) s

theorem reachable_of_follow [Fintype T] {s s' : State T} {schedule : List T}
    (run : (system T).Reachable s) (followed : follow s schedule = some s') :
    (system T).Reachable s' := by
  refine run.foldlM (fun s t s' step => ?_) followed
  split at step
  · next at_ =>
    cases step
    exact Step.call at_
  · exact Step.advance step

/-- One thread sleeps in the first round; the other arrives, turns the phase and is about
to wake it. -/
def oneRound : List Bool := List.replicate 5 false ++ List.replicate 5 true

theorem oneRound_isSome :
    (follow (start Bool (UInt32.ofNat (Fintype.card Bool))) oneRound).isSome := by
  decide +kernel

/-- The state this leads to. -/
def turned : State Bool :=
  (follow (start Bool (UInt32.ofNat (Fintype.card Bool))) oneRound).get oneRound_isSome

theorem barrier_separates_rounds_turned :
    ∃ s : State Bool, (system Bool).Reachable s ∧ (s.thread false).pc = .asleep 0 ∧
      (s.thread true).pc = .wake ∧ s.barrier.phase = 1 ∧
      s.barrier.count.toNat < Fintype.card Bool ∧ s.woken < (s.thread false).arrived := by
  have run : (system Bool).Reachable turned :=
    reachable_of_follow (.init rfl) (Option.some_get _).symm
  have facts : (turned.thread false).pc = .asleep 0 ∧ (turned.thread true).pc = .wake ∧
      turned.barrier.phase = 1 := by
    decide +kernel
  obtain ⟨asleep, wakes, phase⟩ := facts
  have main := barrier_separates_rounds (by decide) (by decide) run
  refine ⟨_, run, asleep, wakes, phase, main.2.1 fun t => ?_, main.2.2 ?_ false ⟨0, asleep⟩⟩
  · cases t with
    | false => rw [asleep]; exact nofun
    | true => rw [wakes]; exact nofun
  · exact fun threads => (Finset.card_le_univ threads).trans (by decide)

end Lightc.Sync.Barrier
