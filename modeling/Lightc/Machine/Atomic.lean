import Mathlib.Data.Finset.Card

/-!
# Atomic read-modify-write operations and futex calls

Each operation takes the shared word it acts on and returns what the caller sees
together with the word left behind; memory order plays no part, every
interleaving is sequentially consistent. A futex call is described by what it
may do to its callers: `futexWait` decides whether the caller sleeps, `WakeOne` and
`WakeUpTo` which sleepers a wake-up releases.
-/

namespace Lightc.Machine

variable {ω : Type} [DecidableEq ω]

/-- `atomic_compare_exchange_strong`: success flag and new word. -/
@[simp] def atomicCompareExchange (word expected desired : ω) : Bool × ω :=
  if word = expected then (true, desired) else (false, word)

/-- `atomic_exchange`: old word and new word. -/
@[simp] def atomicExchange {ω : Type} (word desired : ω) : ω × ω := (word, desired)

/-- `atomic_fetch_sub`, modulo the width of the word. -/
@[simp] def atomicFetchSub (word amount : UInt32) : UInt32 × UInt32 := (word, word - amount)

/-- `FUTEX_WAIT`: the caller sleeps only if the word still is the expected one. -/
@[simp] def futexWait (word expected : ω) : Bool := word = expected

/-- `FUTEX_WAKE` with count one: some sleeper if there is any, else nobody. -/
inductive WakeOne {T : Type} (asleep : T → Prop) : Option T → Prop
  | one {t : T} (sleeper : asleep t) : WakeOne asleep (some t)
  | nobody (empty : ∀ t, ¬ asleep t) : WakeOne asleep none

/-- `FUTEX_WAKE` with any count: that many sleepers, or all if there are fewer. -/
structure WakeUpTo {T : Type} (count : Nat) (asleep : T → Prop) (woken : Finset T) : Prop where
  sleepers : ∀ t ∈ woken, asleep t
  atMost : woken.card ≤ count
  enough : woken.card = count ∨ ∀ t, asleep t → t ∈ woken

/-- Linux numbers threads with positive `int`s, so there are at most `INT_MAX` of
them. -/
def ThreadsFit (T : Type) : Prop := ∀ threads : Finset T, threads.card ≤ 2147483647

/-- `FUTEX_WAKE` with count `INT_MAX` wakes everybody. -/
theorem WakeUpTo.all {T : Type} [DecidableEq T] {asleep : T → Prop} {woken : Finset T}
    (h : WakeUpTo 2147483647 asleep woken) (fit : ThreadsFit T) (t : T) (sleeper : asleep t) :
    t ∈ woken := by
  rcases h.enough with full | all
  · by_contra missing
    have more := fit (insert t woken)
    rw [Finset.card_insert_of_notMem missing, full] at more
    omega
  · exact all t sleeper

end Lightc.Machine
