import Mathlib.Data.Fintype.Pigeonhole

/-!
# Programs that may fail, fault or not come back

A `Program` acts on a state and ends in one of four ways. It returns a value, it
reports an error (and the state it leaves behind matters, since an error path
still has to release what it holds), it faults, or it uses up its fuel. A fault
is what no caller may ever see: an access outside the memory it was given, or a
division by zero. Running out of fuel is not an error of the program; a program
comes back exactly if some amount of fuel is enough.

`Triple P c Q E` says that from every state in `P` the program `c` does not
fault, and that `Q` or `E` holds when it returns or reports an error. The second
half is about loops that change nothing but their own variable. Such a loop is
the pure walk along its step function, and whether the walk ends is a question
about the graph of that function.
-/

namespace Lightc.Verification

inductive Outcome (ε σ α : Type) where
  | done (value : α) (state : σ)
  | failed (error : ε) (state : σ)
  | fault
  | outOfFuel

def Program (ε σ α : Type) : Type := σ → Outcome ε σ α

/-- What one round of a loop decides. -/
inductive Step (β ρ : Type) where
  | next (value : β)
  | leave (result : ρ)
  deriving DecidableEq

variable {ε σ α β ρ : Type}

/-- What is known of the loop variable or of the loop's result. -/
def Step.Meets (I : β → Prop) (T : ρ → Prop) : Step β ρ → Prop
  | .next b => I b
  | .leave r => T r

namespace Outcome

def isFault : Outcome ε σ α → Bool
  | .fault => true
  | _ => false

/-- The program came back, with a value or with an error. -/
def CameBack : Outcome ε σ α → Prop
  | .done _ _ => True
  | .failed _ _ => True
  | .fault => False
  | .outOfFuel => False

/-- The program returned, and its value and state pass a check. -/
def returns (check : α → σ → Bool) : Outcome ε σ α → Bool
  | .done a s => check a s
  | _ => false

def Meets (Q : α → σ → Prop) (E : ε → σ → Prop) : Outcome ε σ α → Prop
  | .done a s => Q a s
  | .failed e s => E e s
  | .fault => False
  | .outOfFuel => True

theorem eq_fault_of_isFault {o : Outcome ε σ α} (h : o.isFault = true) : o = .fault := by
  cases o with
  | fault => rfl
  | done | failed | outOfFuel => cases h

theorem returns_eq_true {o : Outcome ε σ α} {check : α → σ → Bool} (h : o.returns check = true) :
    ∃ a s, o = .done a s ∧ check a s = true := by
  cases o with
  | done a s => exact ⟨a, s, rfl, h⟩
  | failed | fault | outOfFuel => cases h

end Outcome

namespace Program

/-- Only a returned value is handed on. -/
def andThen (c : Program ε σ α) (f : α → Program ε σ β) : Program ε σ β := fun s =>
  match c s with
  | .done a t => f a t
  | .failed e t => .failed e t
  | .fault => .fault
  | .outOfFuel => .outOfFuel

instance : Monad (Program ε σ) where
  pure a := fun s => .done a s
  bind := andThen

def modify (f : σ → σ) : Program ε σ Unit := fun s => .done () (f s)

def fail (e : ε) : Program ε σ α := fun s => .failed e s

/-- `while` with `fuel` rounds to go. -/
def loop (body : β → Program ε σ (Step β ρ)) : Nat → β → Program ε σ ρ
  | 0, _ => fun _ => .outOfFuel
  | fuel + 1, b => do
    match ← body b with
    | .next b' => loop body fuel b'
    | .leave r => pure r

/-- `for` with `rounds` rounds to go, the first of them at index `i`. -/
def upTo (body : Nat → β → Program ε σ (Step β ρ)) :
    Nat → Nat → β → Program ε σ (Step β ρ)
  | 0, _, b => pure (.next b)
  | rounds + 1, i, b => do
    match ← body i b with
    | .next b' => upTo body rounds (i + 1) b'
    | .leave r => pure (.leave r)

variable {c : Program ε σ α} {f : α → Program ε σ β} {s t : σ} {a : α} {e : ε}

@[simp] theorem pure_apply : (pure a : Program ε σ α) s = .done a s := rfl

theorem bind_done (h : c s = .done a t) : (c >>= f) s = f a t := by
  change andThen c f s = _
  rw [andThen, h]

theorem bind_failed (h : c s = .failed e t) : (c >>= f) s = .failed e t := by
  change andThen c f s = _
  rw [andThen, h]

theorem bind_fault (h : c s = .fault) : (c >>= f) s = .fault := by
  change andThen c f s = _
  rw [andThen, h]

theorem bind_outOfFuel (h : c s = .outOfFuel) : (c >>= f) s = .outOfFuel := by
  change andThen c f s = _
  rw [andThen, h]

/-- A composition that returned did so through its first half. -/
theorem bind_eq_done {b : β} (h : (c >>= f) s = .done b t) :
    ∃ a u, c s = .done a u ∧ f a u = .done b t := by
  cases first : c s with
  | done a u => exact ⟨a, u, rfl, by rwa [bind_done first] at h⟩
  | failed e u => rw [bind_failed first] at h; cases h
  | fault => rw [bind_fault first] at h; cases h
  | outOfFuel => rw [bind_outOfFuel first] at h; cases h

/-- A composition that faulted did so in one of its halves. -/
theorem bind_eq_fault (h : (c >>= f) s = .fault) :
    c s = .fault ∨ ∃ a u, c s = .done a u ∧ f a u = .fault := by
  cases first : c s with
  | done a u => exact .inr ⟨a, u, rfl, by rwa [bind_done first] at h⟩
  | failed e u => rw [bind_failed first] at h; cases h
  | fault => exact .inl rfl
  | outOfFuel => rw [bind_outOfFuel first] at h; cases h

end Program

/-! ## Triples -/

/-- From `P`, no fault; `Q` after a return and `E` after an error. -/
def Triple (P : σ → Prop) (c : Program ε σ α) (Q : α → σ → Prop) (E : ε → σ → Prop) : Prop :=
  ∀ s, P s → (c s).Meets Q E

namespace Triple

open Program

variable {P P' : σ → Prop} {Q Q' : α → σ → Prop} {R : β → σ → Prop} {E : ε → σ → Prop}
variable {c : Program ε σ α} {f : α → Program ε σ β}

theorem ret {a : α} (h : ∀ s, P s → Q a s) : Triple P (pure a) Q E := h

theorem fail {e : ε} (h : ∀ s, P s → E e s) : Triple P (Program.fail e) Q E := h

theorem bind (first : Triple P c Q E) (second : ∀ a, Triple (Q a) (f a) R E) :
    Triple P (c >>= f) R E := by
  intro s hs
  have met := first s hs
  cases run : c s with
  | done a t =>
    rw [run] at met
    rw [bind_done run]
    exact second a t met
  | failed e t =>
    rw [run] at met
    rw [bind_failed run]
    exact met
  | fault =>
    rw [run] at met
    exact met.elim
  | outOfFuel =>
    rw [bind_outOfFuel run]
    trivial

theorem consequence (h : Triple P c Q E) (pre : ∀ s, P' s → P s)
    (post : ∀ a s, Q a s → Q' a s) : Triple P' c Q' E := by
  intro s hs
  have met := h s (pre s hs)
  cases run : c s with
  | done a t =>
    rw [run] at met
    exact post a t met
  | failed e t => rwa [run] at met
  | fault => rwa [run] at met
  | outOfFuel => trivial

theorem ite {p : Prop} [Decidable p] {d : Program ε σ α} (yes : p → Triple P c Q E)
    (no : ¬ p → Triple P d Q E) : Triple P (if p then c else d) Q E :=
  iteInduction (motive := fun x => Triple P x Q E) yes no

/-- A loop keeps what each of its rounds keeps. -/
theorem loop {body : β → Program ε σ (Step β ρ)} {I : β → σ → Prop} {Q : ρ → σ → Prop}
    (round : ∀ b, Triple (I b) (body b)
      (fun r s => r.Meets (I · s) (Q · s)) E)
    (fuel : Nat) (b : β) : Triple (I b) (Program.loop body fuel b) Q E := by
  induction fuel generalizing b with
  | zero => intro s _; trivial
  | succ fuel ih =>
    rw [Program.loop]
    apply bind (round b)
    intro r
    cases r with
    | next b' => exact ih b'
    | leave r => exact ret fun _ h => h

/-- A counted loop may use that its index stays below the bound. -/
theorem upTo {body : Nat → β → Program ε σ (Step β ρ)} {I : Nat → β → σ → Prop}
    {Q : ρ → σ → Prop} {bound : Nat}
    (round : ∀ i b, i < bound → Triple (I i b) (body i b)
      (fun r s => r.Meets (I (i + 1) · s) (Q · s)) E)
    (rounds i : Nat) (b : β) (reaches : i + rounds = bound) :
    Triple (I i b) (Program.upTo body rounds i b)
      (fun r s => r.Meets (I bound · s) (Q · s)) E := by
  induction rounds generalizing i b with
  | zero =>
    obtain rfl : i = bound := reaches
    exact ret fun _ h => h
  | succ rounds ih =>
    rw [Program.upTo]
    apply bind (round i b (by omega))
    intro r
    cases r with
    | next b' => exact ih (i + 1) b' (by omega)
    | leave r => exact ret fun _ h => h

theorem not_fault {s : σ} (h : Triple P c Q E) (hs : P s) : c s ≠ .fault := by
  intro faulted
  have met := h s hs
  rw [faulted] at met
  exact met

/-- What a triple says about a run that returned. -/
theorem of_done {s t : σ} {a : α} (h : Triple P c Q E) (hs : P s) (run : c s = .done a t) :
    Q a t := by
  have met := h s hs
  rwa [run] at met

end Triple

/-! ## Programs that never fault -/

/-- No fault from any state, and a returned value satisfies `T`. -/
def Safe (c : Program ε σ α) (T : α → Prop) : Prop :=
  Triple (fun _ => True) c (fun a _ => T a) fun _ _ => True

namespace Safe

open Program

variable {c d : Program ε σ α} {f : α → Program ε σ β} {T : α → Prop} {U : β → Prop}

theorem ret {a : α} (h : T a) : Safe (pure a : Program ε σ α) T := fun _ _ => h

theorem fail {e : ε} : Safe (Program.fail e : Program ε σ α) T := fun _ _ => trivial

theorem modify {g : σ → σ} : Safe (Program.modify g : Program ε σ Unit) fun _ => True :=
  fun _ _ => trivial

theorem bind (first : Safe c T) (second : ∀ a, T a → Safe (f a) U) : Safe (c >>= f) U :=
  Triple.bind first fun a s ha => second a ha s trivial

theorem ite {p : Prop} [Decidable p] (yes : p → Safe c T) (no : ¬ p → Safe d T) :
    Safe (if p then c else d) T :=
  Triple.ite yes no

theorem upTo {body : Nat → β → Program ε σ (Step β ρ)} {I : β → Prop} {T : ρ → Prop} {bound : Nat}
    (round : ∀ i b, i < bound → I b → Safe (body i b) fun r => r.Meets I T)
    (rounds i : Nat) (b : β) (reaches : i + rounds = bound) (start : I b) :
    Safe (Program.upTo body rounds i b) fun r => r.Meets I T :=
  (Triple.upTo (I := fun _ b _ => I b) (Q := fun r _ => T r)
    (fun i b before s h => round i b before h s trivial) rounds i b reaches).consequence
    (fun _ _ => start) fun _ _ h => h

end Safe

/-! ## What runs do to the state -/

/-- Every run that returns leads along `R`. -/
def Along (R : σ → σ → Prop) (c : Program ε σ α) : Prop := ∀ s a t, c s = .done a t → R s t

namespace Along

open Program

variable {R : σ → σ → Prop} {c d : Program ε σ α} {f : α → Program ε σ β}

theorem ret (refl : ∀ s, R s s) {a : α} : Along R (pure a : Program ε σ α) := by
  intro s a t run
  cases run
  exact refl s

theorem fail {e : ε} : Along R (Program.fail e : Program ε σ α) := by
  intro s a t run
  cases run

theorem modify {g : σ → σ} (moves : ∀ s, R s (g s)) :
    Along R (Program.modify g : Program ε σ Unit) := by
  intro s a t run
  cases run
  exact moves s

theorem bind (trans : ∀ s t u, R s t → R t u → R s u) (first : Along R c)
    (second : ∀ a, Along R (f a)) : Along R (c >>= f) := by
  intro s b u run
  obtain ⟨a, t, one, two⟩ := bind_eq_done run
  exact trans s t u (first s a t one) (second a t b u two)

theorem ite {p : Prop} [Decidable p] (yes : p → Along R c) (no : ¬ p → Along R d) :
    Along R (if p then c else d) :=
  iteInduction (motive := fun x => Along R x) yes no

end Along

/-! ## Programs that return unless they fault -/

/-- No errors and no loops: the program faults, or returns and leads along `R`. -/
def Follows (R : σ → σ → Prop) (c : Program ε σ α) : Prop :=
  ∀ s, c s = .fault ∨ ∃ a t, c s = .done a t ∧ R s t

namespace Follows

open Program

variable {R : σ → σ → Prop} {c d : Program ε σ α} {f : α → Program ε σ β}

theorem ret (refl : ∀ s, R s s) {a : α} : Follows R (pure a : Program ε σ α) := fun s =>
  .inr ⟨a, s, rfl, refl s⟩

theorem modify {g : σ → σ} (moves : ∀ s, R s (g s)) :
    Follows R (Program.modify g : Program ε σ Unit) := fun s => .inr ⟨(), g s, rfl, moves s⟩

theorem bind (trans : ∀ s t u, R s t → R t u → R s u) (first : Follows R c)
    (second : ∀ a, Follows R (f a)) : Follows R (c >>= f) := by
  intro s
  cases first s with
  | inl faulted => exact .inl (bind_fault faulted)
  | inr returned =>
    obtain ⟨a, t, run, here⟩ := returned
    rw [bind_done run]
    refine (second a t).imp_right ?_
    rintro ⟨b, u, run', there⟩
    exact ⟨b, u, run', trans s t u here there⟩

theorem ite {p : Prop} [Decidable p] (yes : Follows R c) (no : Follows R d) :
    Follows R (if p then c else d) :=
  iteInduction (motive := fun x => Follows R x) (fun _ => yes) fun _ => no

theorem upTo (refl : ∀ s, R s s) (trans : ∀ s t u, R s t → R t u → R s u)
    {body : Nat → β → Program ε σ (Step β ρ)} (round : ∀ i b, Follows R (body i b))
    (rounds i : Nat) (b : β) : Follows R (Program.upTo body rounds i b) := by
  induction rounds generalizing i b with
  | zero => exact ret refl
  | succ rounds ih =>
    rw [Program.upTo]
    apply bind trans (round i b)
    intro r
    cases r with
    | next b' => exact ih (i + 1) b'
    | leave r => exact ret refl

theorem along (h : Follows R c) : Along R c := by
  intro s a t run
  rcases h s with faulted | ⟨a', t', run', here⟩
  · cases run.symm.trans faulted
  · cases run.symm.trans run'
    exact here

end Follows

/-! ## Programs that only read -/

/-- The program returns, leaves the state as it was, and its value satisfies `Q`. -/
def Quiet (c : Program ε σ α) (Q : σ → α → Prop) : Prop := ∀ s, ∃ a, c s = .done a s ∧ Q s a

namespace Quiet

open Program

variable {c d : Program ε σ α} {f : α → Program ε σ β}
variable {Q Q' : σ → α → Prop} {R : σ → β → Prop}

theorem ret {a : α} (h : ∀ s, Q s a) : Quiet (pure a : Program ε σ α) Q := fun s => ⟨a, rfl, h s⟩

theorem any {a : α} : Quiet (pure a : Program ε σ α) fun _ _ => True := ret fun _ => trivial

/-- The second half may use in which state the first one was run. -/
theorem bind_at (first : Quiet c Q)
    (second : ∀ s a, Q s a → ∃ b, f a s = .done b s ∧ R s b) : Quiet (c >>= f) R := by
  intro s
  obtain ⟨a, run, ha⟩ := first s
  rw [bind_done run]
  exact second s a ha

theorem bind {T : α → Prop} (first : Quiet c fun _ a => T a) (second : ∀ a, T a → Quiet (f a) R) :
    Quiet (c >>= f) R :=
  bind_at first fun s a ha => second a ha s

theorem ite {p : Prop} [Decidable p] (yes : p → Quiet c Q) (no : ¬ p → Quiet d Q) :
    Quiet (if p then c else d) Q :=
  iteInduction (motive := fun x => Quiet x Q) yes no

/-- A test that ends the program if it succeeds. -/
theorem early {p : Prop} [Decidable p] {a : α} (exit : ∀ s, Q s a) (rest : ¬ p → Quiet c Q) :
    Quiet (if p then pure a else c) Q :=
  ite (fun _ => ret exit) rest

/-- A test that ends the program if it fails. -/
theorem guarded {p : Prop} [Decidable p] {a : α} (exit : ∀ s, Q s a) (rest : p → Quiet c Q) :
    Quiet (if p then c else pure a) Q :=
  ite rest fun _ => ret exit

theorem mono (h : Quiet c Q) (weaken : ∀ s a, Q s a → Q' s a) : Quiet c Q' := by
  intro s
  obtain ⟨a, run, ha⟩ := h s
  exact ⟨a, run, weaken s a ha⟩

theorem forget (h : Quiet c Q) : Quiet c fun _ _ => True := h.mono fun _ _ _ => trivial

theorem triple (h : Quiet c Q) {P : σ → Prop} {E : ε → σ → Prop} :
    Triple P c (fun a s => P s ∧ Q s a) E := by
  intro s hs
  obtain ⟨a, run, ha⟩ := h s
  rw [run]
  exact ⟨hs, ha⟩

/-- A counted loop whose rounds only read, with an invariant of its variable. -/
theorem upTo {body : Nat → β → Program ε σ (Step β ρ)} {I : β → Prop} {T : ρ → Prop} {bound : Nat}
    (round : ∀ i b, i < bound → I b → Quiet (body i b) fun _ r => r.Meets I T)
    (rounds i : Nat) (b : β) (reaches : i + rounds = bound) (start : I b) :
    Quiet (Program.upTo body rounds i b) fun _ r => r.Meets I T := by
  induction rounds generalizing i b with
  | zero => exact ret fun _ => start
  | succ rounds ih =>
    rw [Program.upTo]
    apply bind (round i b (by omega) start)
    intro r met
    cases r with
    | next b' => exact ih (i + 1) b' (by omega) met
    | leave r => exact ret fun _ => met

theorem safe {T : α → Prop} (h : Quiet c fun _ a => T a) : Safe c T :=
  h.triple.consequence (fun _ h => h) fun _ _ h => h.2

end Quiet

/-- A composition comes back exactly if its first half does, provided the second
half comes back from wherever the first half returns. -/
theorem cameBack_bind {c : Program ε σ α} {f : α → Program ε σ β} {s : σ}
    (onward : ∀ a t, c s = .done a t → (f a t).CameBack) :
    ((c >>= f) s).CameBack ↔ (c s).CameBack := by
  cases run : c s with
  | done a t =>
    rw [Program.bind_done run]
    exact iff_of_true (onward a t run) trivial
  | failed e t => rw [Program.bind_failed run]; exact Iff.rfl
  | fault => rw [Program.bind_fault run]; exact Iff.rfl
  | outOfFuel => rw [Program.bind_outOfFuel run]; exact Iff.rfl

/-! ## Walks -/

/-- The walk along a step function, `none` while it has not ended. -/
def walk (next : β → Step β ρ) : Nat → β → Option ρ
  | 0, _ => none
  | fuel + 1, b =>
    match next b with
    | .next b' => walk next fuel b'
    | .leave r => some r

/-- A loop whose rounds read the state but do not change it is a walk. -/
theorem Program.loop_eq_walk {body : β → Program ε σ (Step β ρ)} {next : β → Step β ρ} {s : σ}
    (follows : ∀ b, body b s = .done (next b) s) (fuel : Nat) (b : β) :
    Program.loop body fuel b s =
      match walk next fuel b with
      | some r => .done r s
      | none => .outOfFuel := by
  induction fuel generalizing b with
  | zero => rfl
  | succ fuel ih =>
    rw [Program.loop, bind_done (follows b), walk]
    cases next b with
    | next b' => exact ih b'
    | leave r => rfl

/-- Some amount of fuel is enough. -/
def Halts (next : β → Step β ρ) (b : β) : Prop := ∃ fuel r, walk next fuel b = some r

/-- One step that does not end the walk. -/
def Link (next : β → Step β ρ) (b c : β) : Prop := next b = .next c

variable {next : β → Step β ρ} {b b' : β}

theorem halts_of_leave {r : ρ} (h : next b = .leave r) : Halts next b :=
  ⟨1, r, by rw [walk, h]⟩

theorem halts_of_next (h : next b = .next b') : Halts next b ↔ Halts next b' := by
  constructor
  · rintro ⟨fuel, r, ended⟩
    cases fuel with
    | zero => cases ended
    | succ fuel =>
      rw [walk, h] at ended
      exact ⟨fuel, r, ended⟩
  · rintro ⟨fuel, r, ended⟩
    exact ⟨fuel + 1, r, by rw [walk, h]; exact ended⟩

/-- A walk that ends is accessible along its links, so it meets no cycle. -/
theorem Halts.acc (h : Halts next b) : Acc (flip (Link next)) b := by
  obtain ⟨fuel, r, ended⟩ := h
  induction fuel generalizing b with
  | zero => cases ended
  | succ fuel ih =>
    refine ⟨b, fun c link => ?_⟩
    have step : next b = .next c := link
    rw [walk, step] at ended
    exact ih ended

theorem not_self_of_acc {r : β → β → Prop} (h : Acc r b) : ¬ r b b := by
  induction h with
  | intro b _ ih => exact fun self => ih b self self

/-- A loop whose rounds only read comes back exactly if the walk along what its
rounds decide ends. -/
theorem exists_walk {body : β → Program ε σ (Step β ρ)} {R : β → σ → Step β ρ → Prop}
    (rounds : ∀ b, Quiet (body b) (R b)) (s : σ) :
    ∃ next : β → Step β ρ, (∀ b, R b s (next b)) ∧ ∀ b,
      ((∃ fuel, (Program.loop body fuel b s).CameBack) ↔ Halts next b) := by
  choose next follows decides using fun b => rounds b s
  refine ⟨next, decides, fun b => ?_⟩
  constructor
  · rintro ⟨fuel, back⟩
    rw [Program.loop_eq_walk follows] at back
    cases ended : walk next fuel b with
    | none =>
      rw [ended] at back
      exact back.elim
    | some r => exact ⟨fuel, r, ended⟩
  · rintro ⟨fuel, r, ended⟩
    refine ⟨fuel, ?_⟩
    rw [Program.loop_eq_walk follows, ended]
    trivial

/-- Every value of a walk that never ends, by position. -/
private theorem exists_orbit (endless : ¬ Halts next b) :
    ∃ orbit : Nat → β, orbit 0 = b ∧ ∀ n, Link next (orbit n) (orbit (n + 1)) := by
  have onward : ∀ c : { c // ¬ Halts next c }, ∃ d : { d // ¬ Halts next d },
      Link next c.1 d.1 := by
    rintro ⟨c, never⟩
    cases step : next c with
    | next d => exact ⟨⟨d, fun ends => never ((halts_of_next step).mpr ends)⟩, step⟩
    | leave r => exact absurd (halts_of_leave step) never
  choose succ link using onward
  refine ⟨fun n => (succ^[n] ⟨b, endless⟩).1, rfl, fun n => ?_⟩
  change Link next (succ^[n] ⟨b, endless⟩).1 (succ^[n + 1] ⟨b, endless⟩).1
  rw [Function.iterate_succ_apply']
  exact link _

private theorem orbit_transGen {r : β → β → Prop} {orbit : Nat → β}
    (step : ∀ n, r (orbit n) (orbit (n + 1))) {i j : Nat} (order : i < j) :
    Relation.TransGen r (orbit i) (orbit j) := by
  induction order with
  | refl => exact .single (step i)
  | step _ ih => exact ih.tail (step _)

/-- A walk through finitely many values ends exactly if it meets no cycle. -/
theorem halts_iff_acyclic {next : Nat → Step Nat ρ} {start : Nat} (bound : Nat)
    (bounded : ∀ i j, next i = .next j → j < bound) :
    Halts next start ↔ ∀ i, Relation.ReflTransGen (Link next) start i →
      ¬ Relation.TransGen (Link next) i i := by
  constructor
  · intro ends i reached cycle
    have accessible : Acc (flip (Link next)) i := by
      clear cycle
      induction reached with
      | refl => exact ends.acc
      | tail _ link ih => exact ih.inv link
    exact not_self_of_acc accessible.transGen (Relation.transGen_swap.mpr cycle)
  · -- An endless walk repeats a value, since all but its first are below the bound.
    intro acyclic
    by_contra endless
    obtain ⟨orbit, first, step⟩ := exists_orbit endless
    have inside : ∀ n, orbit (n + 1) < bound := fun n => bounded _ _ (step n)
    obtain ⟨m, n, different, same⟩ := Finite.exists_ne_map_eq_of_infinite
      fun n => (⟨orbit (n + 1), inside n⟩ : Fin bound)
    have same : orbit (m + 1) = orbit (n + 1) := congrArg Fin.val same
    have reached : ∀ k, Relation.ReflTransGen (Link next) start (orbit (k + 1)) := fun k =>
      first ▸ (orbit_transGen step (Nat.succ_pos k)).to_reflTransGen
    rcases Nat.lt_or_gt_of_ne different with before | after
    · have cycle := orbit_transGen step (Nat.succ_lt_succ before)
      rw [← same] at cycle
      exact acyclic _ (reached m) cycle
    · have cycle := orbit_transGen step (Nat.succ_lt_succ after)
      rw [same] at cycle
      exact acyclic _ (reached n) cycle

/-- A counter that wraps at `bound` visits every value, so the walk ends exactly
if some value ends it. -/
theorem halts_iff_counter {next : Nat → Step Nat ρ} {bound start : Nat} (inside : start < bound)
    (counts : ∀ i j, next i = .next j → j = (i + 1) % bound) :
    Halts next start ↔ ∃ i, i < bound ∧ ∃ r, next i = .leave r := by
  constructor
  · rintro ⟨fuel, r, ended⟩
    induction fuel generalizing start with
    | zero => cases ended
    | succ fuel ih =>
      cases step : next start with
      | leave r => exact ⟨start, inside, r, step⟩
      | next j =>
        rw [walk, step] at ended
        obtain rfl := counts _ _ step
        exact ih (Nat.mod_lt _ (by omega)) ended
  · rintro ⟨i, small, r, leaves⟩
    -- Induction on the number of steps from the start to the value that ends it.
    suffices ∀ distance start, start < bound → (start + distance) % bound = i →
        Halts next start by
      apply this (i + bound - start) start inside
      rw [show start + (i + bound - start) = i + bound by omega, Nat.add_mod_right,
        Nat.mod_eq_of_lt small]
    intro distance
    induction distance with
    | zero =>
      intro start inside here
      rw [Nat.add_zero, Nat.mod_eq_of_lt inside] at here
      exact halts_of_leave (here ▸ leaves)
    | succ distance ih =>
      intro start inside here
      cases step : next start with
      | leave r => exact halts_of_leave step
      | next j =>
        obtain rfl := counts _ _ step
        rw [halts_of_next step]
        apply ih _ (Nat.mod_lt _ (by omega))
        rw [Nat.mod_add_mod, ← here]
        congr 1
        omega

end Lightc.Verification
