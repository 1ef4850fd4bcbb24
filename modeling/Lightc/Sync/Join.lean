import Mathlib.Data.Fintype.Card
import Lightc.Machine.Atomic
import Lightc.Verification.Transition

/-!
# Joining a thread

`lc_thread_join` sleeps on `alive` until the kernel has cleared it, which happens
when the thread exits (`CLONE_CHILD_CLEARTID`): the kernel stores 0 and then wakes
one sleeper on the word. Nobody passes that wake-up on. Whoever sees 0 tries to
claim the stack with an exchange, and the one that gets it unmaps it.

Any number of parties call `lc_thread_join` on one thread, at once or again and
again. The exit may come at any time, and the futex may wake a sleeper spuriously.
-/

namespace Lightc.Sync.Join

open Machine Verification Function

/-- The next shared access of a party; `tid` is its local variable. -/
inductive Pc
  | outside
  /-- Before the load of `thread->tid`. -/
  | load
  /-- Before the load of `alive` in the loop guard. -/
  | guard (tid : Int32)
  /-- Before `futex_wait`. -/
  | wait (tid : Int32)
  /-- Sleeping in `futex_wait`. -/
  | asleep (tid : Int32)
  /-- Before the exchange of `stack_base`. -/
  | exchange
  /-- It got a stack; before `lc_kernel_unmap_memory`. -/
  | unmap (stack : Nat)
  deriving DecidableEq, Repr

/-- A sleeper that is woken looks at `alive` again. -/
def Pc.wakened : Pc → Pc
  | .asleep tid => .guard tid
  | pc => pc

/-- How far the exit of the thread has come. -/
inductive Exit
  | running
  /-- `alive` is cleared and the wake-up is still to be made. -/
  | cleared
  /-- The wake-up has been made. -/
  | woken
  deriving DecidableEq, Repr

/-- `lc_thread`. -/
structure LcThread where
  tid : Int32
  stackBase : Nat
  stackSize : Nat
  alive : Int32
  deriving DecidableEq, Repr

structure State (T : Type) where
  thread : LcThread
  exit : Exit
  pc : T → Pc
  /-- The mappings that were unmapped, with their sizes. -/
  unmapped : List (Nat × Nat)
  /-- Some call has returned. -/
  returned : Bool

variable {T : Type} [DecidableEq T]

namespace State

def goto (s : State T) (t : T) (pc : Pc) : State T :=
  { s with pc := update s.pc t pc }

/-- The call comes back. -/
def leave (s : State T) (t : T) : State T := { s.goto t .outside with returned := true }

/-- The exchange takes the stack away. -/
def claim (s : State T) (t : T) (pc : Pc) (base : Nat) : State T :=
  { s.goto t pc with thread := { s.thread with stackBase := base } }

/-- `lc_kernel_unmap_memory`, after which the call comes back. -/
def release (s : State T) (t : T) (stack : Nat) : State T :=
  { s.leave t with unmapped := (stack, s.thread.stackSize) :: s.unmapped }

def Sleeps (s : State T) (t : T) : Prop := ∃ tid, s.pc t = .asleep tid

/-- The kernel's half of an exit: `alive` is cleared, -/
def clear (s : State T) : State T :=
  { s with thread := { s.thread with alive := 0 }, exit := .cleared }

/-- and one sleeper, if there is any, is woken and goes back to the loop guard. -/
def wakeOne (s : State T) (woken : Option T) : State T :=
  { s with
    exit := .woken
    pc := fun u => if woken = some u then (s.pc u).wakened else s.pc u }

end State

/-- One step of `lc_thread_join`. -/
def lcThreadJoin (s : State T) (t : T) : Option (State T) :=
  match s.pc t with
  | .load => some (s.goto t (.guard s.thread.tid))
  | .guard tid => some (s.goto t (if s.thread.alive ≠ 0 then .wait tid else .exchange))
  | .wait tid => some (s.goto t (if futexWait s.thread.alive tid then .asleep tid else .guard tid))
  | .exchange =>
    let (stack, base) := atomicExchange s.thread.stackBase 0
    some (if stack ≠ 0 then s.claim t (.unmap stack) base
      else { s.claim t .outside base with returned := true })
  | .unmap stack => some (s.release t stack)
  | _ => none

/-- The atomic steps of all parties and of the exit. -/
inductive Step : State T → State T → Prop
  | call {s : State T} {t : T} (at_ : s.pc t = .outside) : Step s (s.goto t .load)
  | join {s s' : State T} {t : T} (run : lcThreadJoin s t = some s') : Step s s'
  | spurious {s : State T} {t : T} (asleep : s.Sleeps t) : Step s (s.goto t (s.pc t).wakened)
  | clear {s : State T} (running : s.exit = .running) : Step s s.clear
  | wake {s : State T} {woken : Option T} (cleared : s.exit = .cleared)
      (released : WakeOne s.Sleeps woken) : Step s (s.wakeOne woken)

/-- `lc_thread_create` has returned: `CLONE_PARENT_SETTID` has stored the thread id, which is
positive, and the stack is mapped. -/
structure Started (s : State T) (base size : Nat) : Prop where
  tid : 0 < s.thread.tid
  alive : s.thread.alive = s.thread.tid
  stackBase : s.thread.stackBase = base
  stackSize : s.thread.stackSize = size
  mapped : base ≠ 0
  exit : s.exit = .running
  outside : ∀ t, s.pc t = .outside
  unmapped : s.unmapped = []
  returned : s.returned = false

/-- A thread with a stack of `size` bytes at `base`. -/
def system (T : Type) [DecidableEq T] (base size : Nat) : System (State T) where
  init s := Started s base size
  step := Step

@[simp] theorem State.goto_self (s : State T) (t : T) (pc : Pc) : (s.goto t pc).pc t = pc :=
  update_self ..

variable {t u v : T} {thread : LcThread} {pc : Pc}

theorem State.goto_other (s : State T) (pc : Pc) (other : u ≠ t) :
    (s.goto t pc).pc u = s.pc u :=
  update_of_ne other ..

/-! ### What a step does -/

/-- The access a party has in front of it and the one after it, while the stack stays where
it is: it falls asleep only while `alive` is its `tid`, and leaves the loop only if `alive`
is 0. -/
inductive Walks (thread : LcThread) : Pc → Pc → Prop
  | call : Walks thread .outside .load
  | load : Walks thread .load (.guard thread.tid)
  | alive {tid : Int32} (alive : thread.alive ≠ 0) : Walks thread (.guard tid) (.wait tid)
  | dead {tid : Int32} (dead : thread.alive = 0) : Walks thread (.guard tid) .exchange
  | sleep {tid : Int32} (same : thread.alive = tid) : Walks thread (.wait tid) (.asleep tid)
  | again {tid : Int32} (other : thread.alive ≠ tid) : Walks thread (.wait tid) (.guard tid)
  | wake {tid : Int32} : Walks thread (.asleep tid) (.guard tid)

/-- Everything a step can do. -/
inductive Moves (s : State T) : State T → Prop
  | walk (t : T) {pc : Pc} (walks : Walks s.thread (s.pc t) pc) : Moves s (s.goto t pc)
  | claim (t : T) (at_ : s.pc t = .exchange) (there : s.thread.stackBase ≠ 0) :
      Moves s (s.claim t (.unmap s.thread.stackBase) 0)
  | late (t : T) (at_ : s.pc t = .exchange) (gone : s.thread.stackBase = 0) :
      Moves s { s.claim t .outside 0 with returned := true }
  | release (t : T) {stack : Nat} (at_ : s.pc t = .unmap stack) : Moves s (s.release t stack)
  | clear (running : s.exit = .running) : Moves s s.clear
  | wake {woken : Option T} (cleared : s.exit = .cleared) (released : WakeOne s.Sleeps woken) :
      Moves s (s.wakeOne woken)

theorem moves_of_join {s s' : State T} (run : lcThreadJoin s t = some s') :
    Moves s s' := by
  unfold lcThreadJoin at run
  cases at_ : s.pc t <;> simp only [at_, reduceCtorEq, Option.some.injEq] at run <;> subst s'
  case load => exact .walk t (at_ ▸ .load)
  case guard tid =>
    split
    · next alive => exact .walk t (at_ ▸ .alive alive)
    · next dead => exact .walk t (at_ ▸ .dead (not_not.mp dead))
  case wait tid =>
    by_cases same : s.thread.alive = tid
    · rw [show futexWait s.thread.alive tid = true from decide_eq_true same, if_pos rfl]
      exact .walk t (at_ ▸ .sleep same)
    · rw [show futexWait s.thread.alive tid = false from decide_eq_false same,
        if_neg Bool.false_ne_true]
      exact .walk t (at_ ▸ .again same)
  case exchange =>
    by_cases gone : s.thread.stackBase = 0
    · simpa [gone] using Moves.late t at_ gone
    · simpa [gone] using Moves.claim t at_ gone
  case unmap stack => exact .release t at_

theorem moves_of_step {s s' : State T} (step : Step s s') : Moves s s' := by
  cases step with
  | @call t at_ => exact .walk t (at_ ▸ .call)
  | join run => exact moves_of_join run
  | @spurious t asleep =>
    obtain ⟨tid, at_⟩ := asleep
    refine .walk t ?_
    rw [at_]
    exact .wake
  | clear running => exact .clear running
  | wake cleared released => exact .wake cleared released

/-! ### The stack is unmapped once -/

/-- What a party knows: its copy of `tid` is right, and beyond the loop `alive` is 0. -/
def Pc.Knows (thread : LcThread) : Pc → Prop
  | .outside | .load => True
  | .guard tid | .wait tid | .asleep tid => tid = thread.tid
  | .exchange | .unmap _ => thread.alive = 0

/-- Who is responsible for the stack. -/
inductive Custody (s : State T) (base size : Nat) : Prop
  | thread (there : s.thread.stackBase = base) (unclaimed : ∀ t stack, s.pc t ≠ .unmap stack)
      (kept : s.unmapped = []) (returned : s.returned = false)
  | joiner (w : T) (taken : s.thread.stackBase = 0) (at_ : s.pc w = .unmap base)
      (only : ∀ t stack, s.pc t = .unmap stack → t = w) (kept : s.unmapped = [])
  | nobody (taken : s.thread.stackBase = 0) (unclaimed : ∀ t stack, s.pc t ≠ .unmap stack)
      (gone : s.unmapped = [(base, size)])

structure Inv (base size : Nat) (s : State T) : Prop where
  tid : s.thread.tid ≠ 0
  alive : s.thread.alive = if s.exit = .running then s.thread.tid else 0
  stackSize : s.thread.stackSize = size
  mapped : base ≠ 0
  knows : ∀ t, (s.pc t).Knows s.thread
  custody : Custody s base size
  unmapped : s.unmapped ≠ [] → s.thread.alive = 0
  /-- Only finitely many parties are inside at any time. -/
  few : ∃ inside : Finset T, ∀ t, t ∉ inside → s.pc t = .outside

theorem Walks.knows {pc' : Pc} (h : Walks thread pc pc') (knows : pc.Knows thread) :
    pc'.Knows thread := by
  cases h with
  | call => trivial
  | load => rfl
  | alive | sleep | again | wake => exact knows
  | dead dead => exact dead

theorem Walks.not_unmap {pc' : Pc} (h : Walks thread pc pc') (stack : Nat) :
    pc ≠ .unmap stack ∧ pc' ≠ .unmap stack := by
  cases h <;> exact ⟨Pc.noConfusion, Pc.noConfusion⟩

/-- The parties' knowledge outlives a step that keeps `tid` and does not revive the thread. -/
theorem Pc.Knows.mono {thread' : LcThread} (h : pc.Knows thread) (tid : thread'.tid = thread.tid)
    (alive : thread.alive = 0 → thread'.alive = 0) :
    pc.Knows thread' := by
  cases pc with
  | outside | load => trivial
  | guard | wait | asleep => exact h.trans tid.symm
  | exchange | unmap => exact alive h

variable {base size : Nat} {s s' : State T}

theorem knows_goto (knows : ∀ t, (s.pc t).Knows thread) (pc : Pc) (here : pc.Knows thread) (u : T) :
    ((s.goto t pc).pc u).Knows thread :=
  (forall_update_iff s.pc fun _ pc => pc.Knows thread).mpr ⟨here, fun u _ => knows u⟩ u

theorem few_goto (few : ∃ inside : Finset T, ∀ t, t ∉ inside → s.pc t = .outside) (t : T)
    (pc : Pc) : ∃ inside : Finset T, ∀ u, u ∉ inside → (s.goto t pc).pc u = .outside := by
  obtain ⟨inside, outside⟩ := few
  refine ⟨insert t inside, fun u out => ?_⟩
  rw [Finset.mem_insert, not_or] at out
  rw [s.goto_other pc out.1]
  exact outside u out.2

theorem unclaimed_goto (unclaimed : ∀ t stack, s.pc t ≠ .unmap stack)
    (here : ∀ stack, pc ≠ .unmap stack) : ∀ u stack, (s.goto t pc).pc u ≠ .unmap stack :=
  (forall_update_iff s.pc fun _ pc => ∀ stack, pc ≠ .unmap stack).mpr
    ⟨here, fun u _ => unclaimed u⟩

theorem joiner_goto {w : T} (only : ∀ u stack, s.pc u = .unmap stack → u = w)
    (here : ∀ stack, pc ≠ .unmap stack) : ∀ u stack, (s.goto t pc).pc u = .unmap stack → u = w :=
  (forall_update_iff s.pc fun u pc => ∀ stack, pc = .unmap stack → u = w).mpr
    ⟨fun stack at_ => absurd at_ (here stack), fun u _ => only u⟩

/-- A step elsewhere than at the stack. -/
theorem Custody.walk (h : Custody s base size) (walks : Walks s.thread (s.pc t) pc) :
    Custody (s.goto t pc) base size := by
  have here := fun stack => (walks.not_unmap stack).2
  cases h with
  | thread there unclaimed kept returned =>
    exact .thread there (unclaimed_goto unclaimed here) kept returned
  | joiner w taken at_ only kept =>
    have other : w ≠ t := by
      rintro rfl
      exact (walks.not_unmap base).1 at_
    exact .joiner w taken ((s.goto_other pc other).trans at_) (joiner_goto only here) kept
  | nobody taken unclaimed gone => exact .nobody taken (unclaimed_goto unclaimed here) gone

section

variable (h : Inv base size s)
include h

theorem Inv.walk (walks : Walks s.thread (s.pc t) pc) :
    Inv base size (s.goto t pc) where
  tid := h.tid
  alive := h.alive
  stackSize := h.stackSize
  mapped := h.mapped
  knows := knows_goto h.knows pc (walks.knows (h.knows t))
  custody := h.custody.walk walks
  unmapped := h.unmapped
  few := few_goto h.few t pc

theorem Inv.claim (at_ : s.pc t = .exchange) (there : s.thread.stackBase ≠ 0) :
    Inv base size (s.claim t (.unmap s.thread.stackBase) 0) := by
  have dead : s.thread.alive = 0 := by
    have knows := h.knows t
    rwa [at_] at knows
  refine ⟨h.tid, h.alive, h.stackSize, h.mapped, fun u => ?_, ?_, h.unmapped, few_goto h.few t _⟩
  · exact (knows_goto h.knows (.unmap s.thread.stackBase) dead u).mono rfl id
  · cases h.custody with
    | thread same unclaimed kept returned =>
      subst same
      refine .joiner t rfl (s.goto_self t _) (fun u stack at_ => ?_) kept
      by_contra other
      exact unclaimed u stack ((s.goto_other _ other).symm.trans at_)
    | joiner _ taken => exact absurd taken there
    | nobody taken => exact absurd taken there

theorem Inv.late (at_ : s.pc t = .exchange) (gone : s.thread.stackBase = 0) :
    Inv base size { s.claim t .outside 0 with returned := true } := by
  have here : ∀ stack, Pc.outside ≠ .unmap stack := fun _ => Pc.noConfusion
  refine ⟨h.tid, h.alive, h.stackSize, h.mapped, fun u => ?_, ?_, h.unmapped, few_goto h.few t _⟩
  · exact (knows_goto h.knows .outside trivial u).mono rfl id
  · cases h.custody with
    | thread same => exact absurd (same.symm.trans gone) h.mapped
    | joiner w _ there only kept =>
      have other : w ≠ t := by
        rintro rfl
        rw [at_] at there
        cases there
      exact .joiner w rfl ((s.goto_other _ other).trans there) (joiner_goto only here) kept
    | nobody _ unclaimed unmapped => exact .nobody rfl (unclaimed_goto unclaimed here) unmapped

theorem Inv.release {stack : Nat} (at_ : s.pc t = .unmap stack) :
    Inv base size (s.release t stack) := by
  have dead : s.thread.alive = 0 := by
    have knows := h.knows t
    rwa [at_] at knows
  refine ⟨h.tid, h.alive, h.stackSize, h.mapped, fun u => ?_, ?_, fun _ => dead,
    few_goto h.few t _⟩
  · exact knows_goto h.knows .outside trivial u
  · cases h.custody with
    | thread _ unclaimed | nobody _ unclaimed => exact absurd at_ (unclaimed t stack)
    | joiner w taken there only kept =>
      cases only t stack at_
      cases at_.symm.trans there
      refine .nobody taken ?_ ?_
      · exact (forall_update_iff s.pc fun _ pc => ∀ stack, pc ≠ .unmap stack).mpr
          ⟨fun _ => Pc.noConfusion, fun u same stack at_ => same (only u stack at_)⟩
      · show (base, s.thread.stackSize) :: s.unmapped = _
        rw [kept, h.stackSize]

omit [DecidableEq T] in
theorem Inv.clear : Inv base size s.clear := by
  refine ⟨h.tid, rfl, h.stackSize, h.mapped, fun t => (h.knows t).mono rfl fun _ => rfl, ?_,
    fun _ => rfl, h.few⟩
  cases h.custody with
  | thread there unclaimed kept returned => exact .thread there unclaimed kept returned
  | joiner w taken at_ only kept => exact .joiner w taken at_ only kept
  | nobody taken unclaimed gone => exact .nobody taken unclaimed gone

omit h in
/-- Waking moves sleepers only. -/
theorem wakeOne_pc {woken : Option T} (released : WakeOne s.Sleeps woken) (t : T) :
    (s.wakeOne woken).pc t = s.pc t ∨
      ∃ tid, s.pc t = .asleep tid ∧ (s.wakeOne woken).pc t = .guard tid := by
  simp only [State.wakeOne]
  split
  · next chosen =>
    cases released with
    | one sleeper =>
      cases chosen
      obtain ⟨tid, at_⟩ := sleeper
      exact .inr ⟨tid, at_, by rw [at_]; rfl⟩
    | nobody => cases chosen
  · exact .inl rfl

theorem Inv.wake {woken : Option T} (cleared : s.exit = .cleared)
    (released : WakeOne s.Sleeps woken) : Inv base size (s.wakeOne woken) := by
  have pcs := wakeOne_pc released
  have unmaps : ∀ t stack, (s.wakeOne woken).pc t = .unmap stack ↔ s.pc t = .unmap stack := by
    intro t stack
    rcases pcs t with same | ⟨tid, before, after⟩
    · rw [same]
    · rw [before, after]
      exact ⟨Pc.noConfusion, Pc.noConfusion⟩
  refine ⟨h.tid, ?_, h.stackSize, h.mapped, fun t => ?_, ?_, h.unmapped, ?_⟩
  · have alive := h.alive
    rw [cleared] at alive
    exact alive
  · have knows := h.knows t
    rcases pcs t with same | ⟨tid, before, after⟩
    · rwa [same]
    · rw [before] at knows
      rw [after]
      exact knows
  · cases h.custody with
    | thread there unclaimed kept returned =>
      exact .thread there (fun t stack => (unmaps t stack).not.mpr (unclaimed t stack)) kept
        returned
    | joiner w taken at_ only kept =>
      exact .joiner w taken ((unmaps w base).mpr at_)
        (fun t stack at_ => only t stack ((unmaps t stack).mp at_)) kept
    | nobody taken unclaimed gone =>
      exact .nobody taken (fun t stack => (unmaps t stack).not.mpr (unclaimed t stack)) gone
  · obtain ⟨inside, outside⟩ := h.few
    refine ⟨inside, fun t out => ?_⟩
    rcases pcs t with same | ⟨tid, before, -⟩
    · exact same.trans (outside t out)
    · cases (outside t out).symm.trans before

theorem Inv.moves (moved : Moves s s') : Inv base size s' := by
  cases moved with
  | walk t walks => exact h.walk walks
  | claim t at_ there => exact h.claim at_ there
  | late t at_ gone => exact h.late at_ gone
  | release t at_ => exact h.release at_
  | clear => exact h.clear
  | wake cleared released => exact h.wake cleared released

end

theorem inv_inductive : (system T base size).Inductive (Inv base size) where
  init s start := by
    refine ⟨fun zero => ?_, ?_, start.stackSize, start.mapped, fun t => ?_, ?_, fun some_ => ?_,
      ⟨∅, fun t _ => start.outside t⟩⟩
    · have positive := start.tid
      rw [zero] at positive
      exact absurd positive (by decide)
    · rw [start.exit, if_pos rfl, start.alive]
    · rw [start.outside t]
      trivial
    · refine .thread start.stackBase (fun t stack at_ => ?_) start.unmapped start.returned
      cases (start.outside t).symm.trans at_
    · exact absurd start.unmapped some_
  step _ _ h step := h.moves (moves_of_step step)

/-! ### Who is left asleep -/

/-- Some party is asleep although the thread has exited, and nobody else is inside. -/
def Stranded (s : State T) : Prop :=
  s.thread.alive = 0 ∧ s.exit = .woken ∧ ∃ t, s.Sleeps t ∧ ∀ u, u ≠ t → s.pc u = .outside

/-- What is left of one sleeper at most: until the wake-up it may sleep on, and afterwards
nobody sleeps. -/
def Attended (s : State T) : Prop :=
  (s.exit = .cleared ∧ ∀ t u, s.Sleeps t → s.Sleeps u → t = u) ∨
    (s.exit = .woken ∧ ∀ t, ¬ s.Sleeps t)

/-- After the exit nobody falls asleep. -/
theorem Inv.sleeps_of_goto (h : Inv base size s) (exited : s.exit ≠ .running)
    (walks : Walks s.thread (s.pc t) pc) (sleeps : (s.goto t pc).Sleeps u) : s.Sleeps u := by
  obtain ⟨tid, at_⟩ := sleeps
  by_cases same : u = t
  · subst u
    rw [s.goto_self] at at_
    subst pc
    have dead := h.alive
    rw [if_neg exited] at dead
    have knows := walks.knows (h.knows t)
    generalize s.pc t = pc at walks
    cases walks with
    | sleep same => exact absurd (knows.symm.trans (same.symm.trans dead)) h.tid
  · exact ⟨tid, (s.goto_other pc same).symm.trans at_⟩

theorem sleeps_of_goto_awake (pc : Pc) (awake : ∀ tid, pc ≠ .asleep tid)
    (sleeps : (s.goto t pc).Sleeps u) : s.Sleeps u :=
  (forall_update_iff s.pc fun u pc => (∃ tid, pc = .asleep tid) → s.Sleeps u).mpr
    ⟨fun ⟨tid, at_⟩ => absurd at_ (awake tid), fun _ _ => id⟩ u sleeps

omit [DecidableEq T] in
theorem Attended.fewer (h : Attended s) (exit : s'.exit = s.exit)
    (sleeps : ∀ t, s'.Sleeps t → s.Sleeps t) : Attended s' := by
  rcases h with ⟨cleared, one⟩ | ⟨woken, nobody⟩
  · exact .inl ⟨exit.trans cleared, fun t u ht hu => one t u (sleeps t ht) (sleeps u hu)⟩
  · exact .inr ⟨exit.trans woken, fun t ht => nobody t (sleeps t ht)⟩

omit [DecidableEq T] in
theorem Attended.exited (h : Attended s) : s.exit ≠ .running := by
  rcases h with ⟨cleared, -⟩ | ⟨woken, -⟩
  · rw [cleared]
    decide
  · rw [woken]
    decide

theorem Attended.moves (h : Attended s) (inv : Inv base size s) (moved : Moves s s') :
    Attended s' := by
  cases moved with
  | walk t walks => exact h.fewer rfl fun u => inv.sleeps_of_goto h.exited walks
  | claim t => exact h.fewer rfl fun u => sleeps_of_goto_awake (.unmap _) fun _ => Pc.noConfusion
  | late t | release t =>
    exact h.fewer rfl fun u => sleeps_of_goto_awake .outside fun _ => Pc.noConfusion
  | clear running => exact absurd running h.exited
  | @wake woken cleared released =>
    rcases h with ⟨-, one⟩ | ⟨ended, -⟩
    · refine .inr ⟨rfl, ?_⟩
      rintro t ⟨tid, at_⟩
      rcases wakeOne_pc released t with same | ⟨tid, before, after⟩
      · have sleeper : s.Sleeps t := ⟨tid, same.symm.trans at_⟩
        cases released with
        | one chosen =>
          cases one _ _ chosen sleeper
          rw [same] at at_
          simp [State.wakeOne, at_, Pc.wakened] at same
        | nobody empty => exact empty t sleeper
      · cases after.symm.trans at_
    · cases cleared.symm.trans ended

theorem Inv.run (h : Inv base size s) (run : Relation.ReflTransGen Step s s') :
    Inv base size s' := by
  induction run with
  | refl => exact h
  | tail _ step ih => exact ih.moves (moves_of_step step)

theorem Attended.run (h : Attended s) (inv : Inv base size s)
    (run : Relation.ReflTransGen Step s s') : Attended s' := by
  induction run with
  | refl => exact h
  | tail run step ih => exact ih.moves (inv.run run) (moves_of_step step)

/-! ### Everybody but a sleeper can leave -/

/-- The party `v` can leave while nobody else moves. -/
def CanLeave (s : State T) (v : T) : Prop :=
  ∃ s', Relation.ReflTransGen Step s s' ∧ s'.exit = .woken ∧ s'.pc v = .outside ∧
    ∀ u, u ≠ v → s'.pc u = s.pc u

theorem CanLeave.step (step : Step s s') (others : ∀ u, u ≠ v → s'.pc u = s.pc u)
    (h : CanLeave s' v) : CanLeave s v := by
  obtain ⟨s'', run, exit, out, rest⟩ := h
  exact ⟨s'', .head step run, exit, out, fun u other => (rest u other).trans (others u other)⟩

theorem canLeave_of_outside (exit : s.exit = .woken) (at_ : s.pc v = .outside) :
    CanLeave s v :=
  ⟨s, .refl, exit, at_, fun _ _ => rfl⟩

theorem canLeave_of_unmap {stack : Nat} (exit : s.exit = .woken) (at_ : s.pc v = .unmap stack) :
    CanLeave s v := by
  have step : Step s (s.release v stack) := .join (t := v) (by rw [lcThreadJoin, at_])
  exact .step step (fun u other => s.goto_other .outside other)
    (canLeave_of_outside exit (s.goto_self v .outside))

theorem canLeave_of_exchange (exit : s.exit = .woken) (at_ : s.pc v = .exchange) :
    CanLeave s v := by
  by_cases gone : s.thread.stackBase = 0
  · have step : Step s { s.claim v .outside 0 with returned := true } :=
      .join (t := v) (by simp [lcThreadJoin, at_, gone])
    exact .step step (fun u other => s.goto_other .outside other)
      (canLeave_of_outside exit (s.goto_self v .outside))
  · have step : Step s (s.claim v (.unmap s.thread.stackBase) 0) :=
      .join (t := v) (by simp [lcThreadJoin, at_, gone])
    exact .step step (fun u other => s.goto_other _ other)
      (canLeave_of_unmap exit (s.goto_self v _))

theorem canLeave_of_guard {tid : Int32} (exit : s.exit = .woken) (dead : s.thread.alive = 0)
    (at_ : s.pc v = .guard tid) : CanLeave s v := by
  have step : Step s (s.goto v .exchange) := .join (t := v) (by simp [lcThreadJoin, at_, dead])
  exact .step step (fun u other => s.goto_other .exchange other)
    (canLeave_of_exchange exit (s.goto_self v .exchange))

/-- After the exit everybody can leave, a sleeper if it is woken spuriously. -/
theorem Inv.canLeave (h : Inv base size s) (exit : s.exit = .woken) (v : T) : CanLeave s v := by
  have dead : s.thread.alive = 0 := by rw [h.alive, exit]; rfl
  have guard : ∀ {tid : Int32}, Step s (s.goto v (.guard tid)) → CanLeave s v := fun step =>
    .step step (fun u other => s.goto_other _ other)
      (canLeave_of_guard exit dead (s.goto_self v _))
  have knows := h.knows v
  cases at_ : s.pc v with
  | outside => exact canLeave_of_outside exit at_
  | load => exact guard (.join (t := v) (by rw [lcThreadJoin, at_]))
  | guard tid => exact canLeave_of_guard exit dead at_
  | wait tid =>
    rw [at_] at knows
    have other : s.thread.alive ≠ tid := by
      rw [dead, knows]
      exact h.tid.symm
    have step : Step s (s.goto v (.guard tid)) :=
      .join (t := v) (by simp [lcThreadJoin, at_, other])
    exact guard step
  | asleep tid =>
    have step : Step s (s.goto v (s.pc v).wakened) := .spurious ⟨tid, at_⟩
    rw [at_] at step
    exact guard step
  | exchange => exact canLeave_of_exchange exit at_
  | unmap stack => exact canLeave_of_unmap exit at_

/-- Any finite number of parties can leave while the others stay where they are. -/
theorem Inv.all_leave (h : Inv base size s) (exit : s.exit = .woken) (group : Finset T) :
    ∃ s', Relation.ReflTransGen Step s s' ∧ s'.exit = .woken ∧
      (∀ u ∈ group, s'.pc u = .outside) ∧ ∀ u, u ∉ group → s'.pc u = s.pc u := by
  induction group using Finset.induction_on with
  | empty => exact ⟨s, .refl, exit, by simp, fun _ _ => rfl⟩
  | insert v group _ ih =>
    obtain ⟨s₁, first, exit₁, left, kept⟩ := ih
    obtain ⟨s₂, second, exit₂, out, rest⟩ := (h.run first).canLeave exit₁ v
    refine ⟨s₂, first.trans second, exit₂, fun u member => ?_, fun u absent => ?_⟩
    · by_cases same : u = v
      · rwa [same]
      · rw [rest u same]
        exact left u (Finset.mem_of_mem_insert_of_ne member same)
    · rw [Finset.mem_insert, not_or] at absent
      rw [rest u absent.1]
      exact kept u absent.2

/-- Of two sleepers the kernel wakes one, and the other may be the last inside. -/
theorem Inv.stranded (h : Inv base size s) (cleared : s.exit = .cleared) (sleeps : s.Sleeps t)
    (also : s.Sleeps u) (two : u ≠ t) :
    ∃ s', Relation.ReflTransGen Step s s' ∧ Stranded s' := by
  have step : Step s (s.wakeOne (some u)) := .wake cleared (.one also)
  have woken : Inv base size (s.wakeOne (some u)) := h.moves (moves_of_step step)
  have still : (s.wakeOne (some u)).pc t = s.pc t := if_neg fun same => two (Option.some.inj same)
  obtain ⟨inside, outside⟩ := woken.few
  obtain ⟨s', run, exit, left, kept⟩ := woken.all_leave rfl (inside.erase t)
  refine ⟨s', .head step run, ?_, exit, t, ?_, fun v other => ?_⟩
  · rw [(woken.run run).alive, exit]
    rfl
  · obtain ⟨tid, at_⟩ := sleeps
    exact ⟨tid, (kept t (by simp)).trans (still.trans at_)⟩
  · by_cases member : v ∈ inside
    · exact left v (Finset.mem_erase.mpr ⟨other, member⟩)
    · rw [kept v fun erased => member (Finset.mem_of_mem_erase erased)]
      exact outside v member

/-- Over every interleaving of any number of calls with the exit of the thread: the stack is
unmapped at most once, with its full size and only when `alive` is 0, and exactly once when a
call has returned and nobody is about to unmap it. When the kernel comes to its wake-up, no
party can be left asleep alone exactly if at most one is asleep then. -/
theorem join_strands_nobody_iff {base size : Nat} {s : State T}
    (run : (system T base size).Reachable s) :
    (s.unmapped = [] ∨ (s.unmapped = [(base, size)] ∧ s.thread.alive = 0)) ∧
      (s.returned = true → (∀ t stack, s.pc t ≠ .unmap stack) → s.unmapped = [(base, size)]) ∧
      (s.exit = .cleared →
        ((∀ s', Relation.ReflTransGen Step s s' → ¬ Stranded s') ↔
          ∀ t u, s.Sleeps t → s.Sleeps u → t = u)) := by
  have inv : Inv base size s := inv_inductive.reachable run
  refine ⟨?_, fun returned unclaimed => ?_, fun cleared => ⟨fun never t u ht hu => ?_, ?_⟩⟩
  · cases inv.custody with
    | thread _ _ kept => exact .inl kept
    | joiner _ _ _ _ kept => exact .inl kept
    | nobody _ _ gone => exact .inr ⟨gone, inv.unmapped (by rw [gone]; exact List.cons_ne_nil _ _)⟩
  · cases inv.custody with
    | thread _ _ _ none_ => exact absurd (returned.symm.trans none_) (by decide)
    | joiner w _ at_ => exact absurd at_ (unclaimed w base)
    | nobody _ _ gone => exact gone
  · by_contra two
    obtain ⟨s', run, stranded⟩ := inv.stranded cleared hu ht two
    exact never s' run stranded
  · rintro one s' run ⟨-, woken, t, sleeps, -⟩
    have attended : Attended s := .inl ⟨cleared, one⟩
    rcases attended.run inv run with ⟨cleared, -⟩ | ⟨-, nobody⟩
    · cases cleared.symm.trans woken
    · exact nobody t sleeps

/-- The thread 7 has been created and nobody has joined it yet. -/
def created (T : Type) (base size : Nat) : State T where
  thread := { tid := 7, stackBase := base, stackSize := size, alive := 7 }
  exit := .running
  pc _ := .outside
  unmapped := []
  returned := false

theorem reachable_created {base size : Nat} (mapped : base ≠ 0) :
    (system T base size).Reachable (created T base size) :=
  .init ⟨show (0 : Int32) < 7 by decide, rfl, rfl, rfl, mapped, rfl, fun _ => rfl, rfl, rfl⟩

/-- A step to be taken: a party's next one, the exit, or the kernel's wake-up of a party. -/
inductive Event (T : Type)
  | party (t : T)
  | exit
  | wake (t : T)

def perform (s : State T) : Event T → Option (State T)
  | .party t => if s.pc t = .outside then some (s.goto t .load) else lcThreadJoin s t
  | .exit => if s.exit = .running then some s.clear else none
  | .wake t =>
    if s.exit = .cleared ∧ s.pc t = .asleep s.thread.tid then some (s.wakeOne (some t))
    else none

/-- The state after some steps, if they can be taken. -/
def follow (s : State T) (events : List (Event T)) : Option (State T) := events.foldlM perform s

theorem reachable_of_follow {base size : Nat} (mapped : base ≠ 0) {s : State T}
    {events : List (Event T)} (followed : follow (created T base size) events = some s) :
    (system T base size).Reachable s := by
  refine (reachable_created mapped).foldlM (fun s e s' step => ?_) followed
  cases e with
  | party t =>
    simp only [perform] at step
    split at step
    · next at_ =>
      cases step
      exact Step.call at_
    · exact Step.join step
  | exit =>
    obtain ⟨running, same⟩ := Option.ite_none_right_eq_some.mp step
    cases same
    exact Step.clear running
  | wake t =>
    obtain ⟨⟨cleared, asleep⟩, same⟩ := Option.ite_none_right_eq_some.mp step
    cases same
    exact Step.wake cleared (.one ⟨_, asleep⟩)

/-- One joiner falls asleep and the thread exits. -/
def oneJoiner : List (Event Bool) := List.replicate 4 (.party false) ++ [.exit]

/-- Two joiners fall asleep and the thread exits. The kernel wakes one, which unmaps the
stack and returns. -/
def twoJoiners : List (Event Bool) :=
  List.replicate 4 (.party false) ++ List.replicate 4 (.party true) ++ [.exit, .wake false] ++
    List.replicate 3 (.party false)

theorem join_strands_nobody_iff_single :
    ∃ s, follow (created Bool 4096 65536) oneJoiner = some s ∧ s.exit = .cleared ∧
      s.Sleeps false ∧ ∀ s', Relation.ReflTransGen Step s s' → ¬ Stranded s' := by
  have executed := (Option.some_get (x := follow (created Bool 4096 65536) oneJoiner)
    (by decide +kernel)).symm
  have outside : ((follow (created Bool 4096 65536) oneJoiner).get (by decide +kernel)).pc true =
      .outside := by
    decide +kernel
  have main := join_strands_nobody_iff (reachable_of_follow (by decide) executed)
  refine ⟨_, executed, by decide +kernel, ⟨7, by decide +kernel⟩,
    (main.2.2 (by decide +kernel)).mpr ?_⟩
  rintro t u ⟨tid, ht⟩ ⟨tid', hu⟩
  cases t <;> cases u
  · rfl
  · cases outside.symm.trans hu
  · cases outside.symm.trans ht
  · rfl

/-- Nobody will wake the second joiner. -/
theorem second_joiner_stranded :
    ∃ s : State Bool, (system Bool 4096 65536).Reachable s ∧ Stranded s ∧
      s.unmapped = [(4096, 65536)] ∧ s.returned = true := by
  have executed := (Option.some_get (x := follow (created Bool 4096 65536) twoJoiners)
    (by decide +kernel)).symm
  refine ⟨_, reachable_of_follow (by decide) executed,
    ⟨by decide +kernel, by decide +kernel, true, ⟨7, by decide +kernel⟩, fun u other => ?_⟩,
    by decide +kernel, by decide +kernel⟩
  cases u with
  | false => decide +kernel
  | true => exact absurd rfl other

end Lightc.Sync.Join
