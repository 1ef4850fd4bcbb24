import Lightc.Verification.Guarded

/-!
# Programs that come back

`Total P c Q` says that from every state in `P` the program `c` returns, and that
`Q` holds of its value and the state it leaves. Neither a fault, an error nor a
lack of fuel satisfies it. A loop comes back if a measure on its variable and the
state falls with every round; the measure is also what its fuel has to exceed.

`Total.entry` keeps the state a program starts in, so that a postcondition can
speak about it.
-/

namespace Lightc.Verification

variable {ε σ α β ρ : Type}

namespace Program

/-- The current state. -/
def get : Program ε σ σ := fun s => .done s s

/-- An access that must not happen unless `p` holds. -/
def guard (p : Prop) [Decidable p] : Program ε σ Unit := fun s => if p then .done () s else .fault

end Program

/-- From `P`, the program returns, with a value and a state in `Q`. -/
def Total (P : σ → Prop) (c : Program ε σ α) (Q : α → σ → Prop) : Prop :=
  ∀ s, P s → ∃ a t, c s = .done a t ∧ Q a t

/-- What is known after a round that started with the measure at `n`. -/
def Step.Falls (I : β → Prop) (measure : β → Nat) (T : ρ → Prop) (n : Nat) : Step β ρ → Prop
  | .next b => I b ∧ measure b < n
  | .leave r => T r

namespace Total

open Program

variable {P P' : σ → Prop} {Q Q' : α → σ → Prop} {R : β → σ → Prop}
variable {c d : Program ε σ α} {f : α → Program ε σ β}

theorem ret {a : α} (h : ∀ s, P s → Q a s) : Total P (pure a : Program ε σ α) Q :=
  fun s hs => ⟨a, s, rfl, h s hs⟩

theorem modify {g : σ → σ} {Q : Unit → σ → Prop} (h : ∀ s, P s → Q () (g s)) :
    Total P (Program.modify g : Program ε σ Unit) Q :=
  fun s hs => ⟨(), g s, rfl, h s hs⟩

theorem bind (first : Total P c Q) (second : ∀ a, Total (Q a) (f a) R) :
    Total P (c >>= f) R := by
  intro s hs
  obtain ⟨a, t, run, met⟩ := first s hs
  obtain ⟨b, u, run', met'⟩ := second a t met
  exact ⟨b, u, (bind_done run).trans run', met'⟩

theorem consequence (h : Total P c Q) (pre : ∀ s, P' s → P s) (post : ∀ a s, Q a s → Q' a s) :
    Total P' c Q' := by
  intro s hs
  obtain ⟨a, t, run, met⟩ := h s (pre s hs)
  exact ⟨a, t, run, post a t met⟩

theorem ite {p : Prop} [Decidable p] (yes : p → Total P c Q) (no : ¬ p → Total P d Q) :
    Total P (if p then c else d) Q :=
  iteInduction (motive := fun x => Total P x Q) yes no

/-- The state a program starts in may be named. -/
theorem entry (h : ∀ s, P s → Total (fun t => t = s) c Q) : Total P c Q :=
  fun s hs => h s hs s rfl

theorem start {s : σ} (h : Total P c Q) (hs : P s) : Total (fun t => t = s) c Q := by
  rintro t rfl
  exact h t hs

/-- A program may branch on the state it finds. -/
theorem get_bind {f : σ → Program ε σ α} (h : ∀ s, P s → Total (fun t => t = s) (f s) Q) :
    Total P (Program.get >>= f) Q := by
  intro s hs
  obtain ⟨a, t, run, met⟩ := h s hs s rfl
  exact ⟨a, t, (bind_done rfl).trans run, met⟩

/-- An access that is allowed does nothing of its own. -/
theorem guard_bind {p : Prop} [Decidable p] {f : Unit → Program ε σ α} (holds : p)
    (h : Total P (f ()) Q) : Total P (Program.guard p >>= f) Q := by
  intro s hs
  obtain ⟨a, t, run, met⟩ := h s hs
  have allowed : (Program.guard p : Program ε σ Unit) s = .done () s := if_pos holds
  exact ⟨a, t, (bind_done allowed).trans run, met⟩

/-- A loop with a falling measure comes back if its fuel exceeds the measure. -/
theorem loop (I : β → σ → Prop) (measure : β → σ → Nat) {body : β → Program ε σ (Step β ρ)}
    {Q : ρ → σ → Prop}
    (round : ∀ b s, I b s → Total (fun t => t = s) (body b)
      fun r t => r.Falls (I · t) (measure · t) (Q · t) (measure b s))
    (fuel : Nat) (b : β) :
    Total (fun s => I b s ∧ measure b s < fuel) (Program.loop body fuel b) Q := by
  induction fuel generalizing b with
  | zero =>
    rintro s ⟨-, none_⟩
    exact absurd none_ (Nat.not_lt_zero _)
  | succ fuel ih =>
    rintro s ⟨holds, enough⟩
    obtain ⟨r, t, run, met⟩ := round b s holds s rfl
    rw [Program.loop]
    cases r with
    | next b' =>
      have falls : measure b' t < measure b s := met.2
      obtain ⟨result, u, rest, post⟩ := ih b' t ⟨met.1, by omega⟩
      exact ⟨result, u, (bind_done run).trans rest, post⟩
    | leave result => exact ⟨result, t, bind_done run, met⟩

/-- A counted loop comes back if its rounds do. -/
theorem upTo {body : Nat → β → Program ε σ (Step β ρ)} {I : Nat → β → σ → Prop}
    {Q : ρ → σ → Prop} {bound : Nat}
    (round : ∀ i b, i < bound → Total (I i b) (body i b)
      fun r s => r.Meets (I (i + 1) · s) (Q · s))
    (rounds i : Nat) (b : β) (reaches : i + rounds = bound) :
    Total (I i b) (Program.upTo body rounds i b) fun r s => r.Meets (I bound · s) (Q · s) := by
  induction rounds generalizing i b with
  | zero =>
    obtain rfl : i = bound := reaches
    exact ret fun _ h => h
  | succ rounds ih =>
    rw [Program.upTo]
    apply bind (round i b (by omega))
    intro r
    cases r with
    | next b' => exact ih (i + 1) b' (by omega)
    | leave r => exact ret fun _ h => h

end Total

end Lightc.Verification
