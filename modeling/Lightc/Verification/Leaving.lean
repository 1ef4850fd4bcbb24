import Lightc.Verification.Guarded

/-!
# What a run leaves behind if it comes back

`Outcome.Leaves Q E` is the weak reading of a postcondition: `Q` after a return and `E`
after an error, and nothing about a fault or a lack of fuel. It is the right one for
what a program gives back on its way out, since a program that never comes back gives
nothing back.

`Keeps view c` is for the parts in between: they report no error, and what `view` shows
of the state is the same when they return.
-/

namespace Lightc.Verification

variable {ε σ α β ρ ν : Type}

def Outcome.Leaves (Q : α → σ → Prop) (E : ε → σ → Prop) : Outcome ε σ α → Prop
  | .done a s => Q a s
  | .failed e s => E e s
  | .fault => True
  | .outOfFuel => True

namespace Outcome.Leaves

variable {Q : α → σ → Prop} {R : β → σ → Prop} {E : ε → σ → Prop}
variable {c d : Program ε σ α} {f : α → Program ε σ β} {s : σ}

/-- The second half may use how the first one ended. -/
theorem bind (first : (c s).Leaves Q E)
    (second : ∀ a t, c s = .done a t → Q a t → (f a t).Leaves R E) :
    ((c >>= f) s).Leaves R E := by
  cases run : c s with
  | done a t =>
    rw [run] at first
    rw [Program.bind_done run]
    exact second a t run first
  | failed e t =>
    rw [run] at first
    rw [Program.bind_failed run]
    exact first
  | fault =>
    rw [Program.bind_fault run]
    trivial
  | outOfFuel =>
    rw [Program.bind_outOfFuel run]
    trivial

theorem mono {Q' : α → σ → Prop} {E' : ε → σ → Prop} {o : Outcome ε σ α} (h : o.Leaves Q E)
    (returned : ∀ a t, Q a t → Q' a t) (failed : ∀ e t, E e t → E' e t) : o.Leaves Q' E' := by
  cases o with
  | done a t => exact returned a t h
  | failed e t => exact failed e t h
  | fault | outOfFuel => trivial

theorem ite {p : Prop} [Decidable p] (yes : p → (c s).Leaves Q E) (no : ¬ p → (d s).Leaves Q E) :
    ((if p then c else d) s).Leaves Q E :=
  iteInduction (motive := fun x : Program ε σ α => (x s).Leaves Q E) yes no

end Outcome.Leaves

/-- No error, and the same view of the state after a return. -/
def Keeps (view : σ → ν) (c : Program ε σ α) : Prop :=
  ∀ s, (c s).Leaves (fun _ t => view t = view s) fun _ _ => False

namespace Keeps

variable {view : σ → ν} {c d : Program ε σ α} {f : α → Program ε σ β}

/-- A part that keeps the view passes through to the next one. -/
theorem andThen {s : σ} {R : β → σ → Prop} {E : ε → σ → Prop} (first : Keeps view c)
    (second : ∀ a t, c s = .done a t → view t = view s → (f a t).Leaves R E) :
    ((c >>= f) s).Leaves R E :=
  ((first s).mono (fun _ _ => id) fun _ _ => False.elim).bind second

end Keeps

theorem Follows.keeps {view : σ → ν} {R : σ → σ → Prop} {c : Program ε σ α} (h : Follows R c)
    (same : ∀ s t, R s t → view t = view s) : Keeps view c := by
  intro s
  rcases h s with faulted | ⟨a, t, run, here⟩
  · rw [faulted]
    trivial
  · rw [run]
    exact same s t here

end Lightc.Verification
