import Mathlib.Logic.Function.Basic

/-!
# Transition systems, invariants and simulations over whole runs

Two shapes of system are used below. A `System` is a bare step relation: any
number of parties take atomic steps in any order, and a property of every
interleaving is a property of every reachable state. A `Machine` answers calls
one at a time; its environment (kernel, allocator, caller) is part of the call,
and `allowed` says which calls that environment may make in a given state.

`System.Inductive.reachable` and, for a refinement between two systems,
`System.Refines.reachable` are the inductions over interleavings;
`Simulation.of_run` is the only induction over call sequences. Every result about
whole runs is obtained from one of them and a lemma about a single step.
-/

namespace Lightc.Verification

universe u v w x

/-- Where runs start and what one atomic step may do. -/
structure System (σ : Type u) where
  init : σ → Prop
  step : σ → σ → Prop

namespace System

variable {σ : Type u}

/-- The states met along some run. -/
inductive Reachable (S : System σ) : σ → Prop
  | init {s : σ} (start : S.init s) : Reachable S s
  | step {s t : σ} (run : Reachable S s) (next : S.step s t) : Reachable S t

/-- A predicate that holds initially and survives every step. -/
structure Inductive (S : System σ) (I : σ → Prop) : Prop where
  init : ∀ s, S.init s → I s
  step : ∀ s t, I s → S.step s t → I t

variable {S : System σ} {I J : σ → Prop}

theorem Inductive.reachable (h : S.Inductive I) {s : σ} (run : S.Reachable s) : I s := by
  induction run with
  | init start => exact h.init _ start
  | step _ next ih => exact h.step _ _ ih next

/-- Steps may be examined in reachable states only, so an invariant may use one
that has already been established. -/
theorem Inductive.of_reachable (init : ∀ s, S.init s → I s)
    (step : ∀ s t, S.Reachable s → I s → S.step s t → I t) :
    ∀ s, S.Reachable s → I s := by
  intro s run
  induction run with
  | init start => exact init _ start
  | step run next ih => exact step _ _ run ih next

/-- A schedule of steps that can be executed leads to a reachable state. -/
theorem Reachable.foldlM {ι : Type v} {exec : σ → ι → Option σ}
    (sound : ∀ s i t, exec s i = some t → S.step s t) {s t : σ} {schedule : List ι}
    (run : S.Reachable s) (executed : schedule.foldlM exec s = some t) : S.Reachable t := by
  induction schedule generalizing s with
  | nil =>
    cases executed
    exact run
  | cons i schedule ih =>
    rw [List.foldlM_cons] at executed
    obtain ⟨u, first, rest⟩ := Option.bind_eq_some_iff.mp executed
    exact ih (run.step (sound s i u first)) rest

/-- Every step of `S` is a step of `A` or invisible there. Only reachable states
of `S` have to be related. -/
structure Refines {α : Type v} (S : System σ) (A : System α) (Rel : σ → α → Prop) : Prop where
  init : ∀ s, S.init s → ∃ a, A.init a ∧ Rel s a
  step : ∀ s t a, S.Reachable s → Rel s a → S.step s t → ∃ b, (b = a ∨ A.step a b) ∧ Rel t b

/-- Every run of `S` is matched by a run of `A`. -/
theorem Refines.reachable {α : Type v} {A : System α} {Rel : σ → α → Prop}
    (h : S.Refines A Rel) {s : σ} (run : S.Reachable s) : ∃ a, A.Reachable a ∧ Rel s a := by
  induction run with
  | init start =>
    obtain ⟨a, initial, related⟩ := h.init _ start
    exact ⟨a, .init initial, related⟩
  | step run next ih =>
    obtain ⟨a, reached, related⟩ := ih
    obtain ⟨b, moved, related'⟩ := h.step _ _ a run related next
    refine ⟨b, ?_, related'⟩
    cases moved with
    | inl same => exact same ▸ reached
    | inr step => exact .step reached step

end System

/-- A component that answers calls. `exec` is `none` when a call does not come
back, and `allowed` is what the environment promises about a call. -/
structure Machine (σ : Type u) (ι : Type v) (ο : Type w) where
  init : σ
  allowed : σ → ι → Prop
  exec : σ → ι → Option (σ × ο)

/-- What a component is for: the replies a call may have and what they do. -/
structure Spec (α : Type u) (ι : Type v) (ο : Type w) where
  init : α
  call : α → ι → ο → α → Prop

namespace Machine

variable {σ : Type u} {ι : Type v} {ο : Type w}

/-- A history of calls with their replies, each allowed where it was made. -/
inductive Run (M : Machine σ ι ο) : List (ι × ο) → σ → Prop
  | nil : Run M [] M.init
  | snoc {history : List (ι × ο)} {s t : σ} {call : ι} {reply : ο}
      (before : Run M history s) (legal : M.allowed s call)
      (answer : M.exec s call = some (t, reply)) : Run M (history ++ [(call, reply)]) t

/-- One more call; its reply is what `exec` answers. -/
theorem Run.call {M : Machine σ ι ο} {history : List (ι × ο)} {s t : σ} {reply : ο}
    (before : M.Run history s) (call : ι) (legal : M.allowed s call)
    (answer : M.exec s call = some (t, reply)) : M.Run (history ++ [(call, reply)]) t :=
  .snoc before legal answer

end Machine

namespace Spec

variable {α : Type u} {ι : Type v} {ο : Type w}

/-- The abstract histories, with the abstract state they lead to. -/
inductive Run (S : Spec α ι ο) : List (ι × ο) → α → Prop
  | nil : Run S [] S.init
  | snoc {history : List (ι × ο)} {a b : α} {call : ι} {reply : ο}
      (before : Run S history a) (answer : S.call a call reply b) :
      Run S (history ++ [(call, reply)]) b

end Spec

/-- A forward simulation: every allowed call comes back, and its reply and
effect are ones the specification permits. -/
structure Simulation {σ : Type u} {ι : Type v} {ο : Type w} {α : Type x}
    (M : Machine σ ι ο) (S : Spec α ι ο) (Rel : σ → α → Prop) : Prop where
  init : Rel M.init S.init
  call : ∀ s a i, Rel s a → M.allowed s i →
    ∃ t o b, M.exec s i = some (t, o) ∧ S.call a i o b ∧ Rel t b

namespace Simulation

variable {σ : Type u} {ι : Type v} {ο : Type w} {α : Type x}
variable {M : Machine σ ι ο} {S : Spec α ι ο} {Rel : σ → α → Prop}

/-- Every concrete history is an abstract one, ending in related states. -/
theorem of_run (h : Simulation M S Rel) {history : List (ι × ο)} {s : σ}
    (run : M.Run history s) : ∃ a, S.Run history a ∧ Rel s a := by
  induction run with
  | nil => exact ⟨S.init, .nil, h.init⟩
  | snoc _ legal answer ih =>
    obtain ⟨a, before, related⟩ := ih
    obtain ⟨t, o, b, executed, permitted, related'⟩ := h.call _ a _ related legal
    rw [answer] at executed
    cases executed
    exact ⟨b, .snoc before permitted, related'⟩

end Simulation

end Lightc.Verification
