import Lightc.Machine.Word
import Lightc.Sync.Tls

/-!
# The keys of thread-local values

`lc_tls_key_create` hands out the numbers of one shared counter, by one atomic
addition, and refuses from 64 on. The coroutine scheduler and the event loop get a
key of their own when they first need one, through an `lc_once`, and do not look at
the answer: after a refusal their key is the 0 of a static variable.

A run is the order in which the additions happen, whichever threads make them.
-/

namespace Lightc.Sync.TlsKeys

open Function
open Tls (maxKeys)

inductive Party
  | user
  | scheduler
  | loop
  deriving DecidableEq, Repr

structure State where
  tlsNextKey : UInt32
  /-- The calls of `lc_tls_key_create` so far, with their answers. -/
  calls : List (Party × Option UInt32)

/-- `lc_tls_key_create`: the counter after it, and the key unless it fails. -/
def lcTlsKeyCreate (next : UInt32) : UInt32 × Option UInt32 :=
  (next + 1, if next ≥ maxKeys then none else some next)

/-- A party needs a key. Users may ask again and again; `init_scheduler_tls` and
`init_loop_tls` are executed once. -/
def request (s : State) (party : Party) : State :=
  if party ≠ .user ∧ s.calls.any (fun call => call.1 = party) then s
  else
    let (next, key) := lcTlsKeyCreate s.tlsNextKey
    ⟨next, s.calls ++ [(party, key)]⟩

def run (order : List Party) : State := order.foldl request ⟨0, []⟩

/-- The key a party goes on to use. After a refusal a user has none, and the others use
the initial value of their static variable. -/
def keyOf : Party × Option UInt32 → Option UInt32
  | (.user, key) => key
  | (_, key) => some (key.getD 0)

/-- The key that was obtained with a call. -/
def State.key? (s : State) (n : Nat) : Option UInt32 := s.calls[n]?.bind keyOf

/-- `lc_tls_set` on the slots of a thread. -/
def lcTlsSet (slots : UInt32 → Nat) (key : UInt32) (value : Nat) : UInt32 → Nat :=
  if key ≥ maxKeys then slots else update slots key value

def lcTlsGet (slots : UInt32 → Nat) (key : UInt32) : Nat :=
  if key ≥ maxKeys then 0 else slots key

/-- What is set with one key is not read with the other. -/
def Isolated (a b : UInt32) : Prop :=
  ∀ slots value, lcTlsGet (lcTlsSet slots a value) b = lcTlsGet slots b

/-- No two holders share a slot. -/
def NeverAlias (s : State) : Prop :=
  ∀ m n a b, m < n → s.key? m = some a → s.key? n = some b →
    a ≠ b ∧ Isolated a b ∧ Isolated b a

theorem isolated_of_ne {a b : UInt32} (other : b ≠ a) : Isolated a b := by
  intro slots value
  rw [lcTlsGet, lcTlsGet, lcTlsSet]
  by_cases refused : a ≥ maxKeys
  · rw [if_pos refused]
  · rw [if_neg refused, update_of_ne other]

/-- The answer to a call is decided by its number. -/
structure Numbered (s : State) : Prop where
  next : s.tlsNextKey = .ofNat s.calls.length
  answer : ∀ n call, s.calls[n]? = some call → call.2 = (lcTlsKeyCreate (.ofNat n)).2

theorem Numbered.request {s : State} (h : Numbered s) (party : Party) :
    Numbered (request s party) := by
  unfold TlsKeys.request
  split
  · exact h
  · refine ⟨?_, fun n call at_ => ?_⟩
    · rw [List.length_append, List.length_singleton, UInt32.ofNat_add, ← h.next]
      rfl
    · rw [List.getElem?_append] at at_
      split at at_
      · exact h.answer n call at_
      · obtain ⟨last, same⟩ := List.getElem?_eq_some_iff.mp at_
        have here : n = s.calls.length := by
          rw [List.length_singleton] at last
          omega
        rw [List.getElem_singleton] at same
        rw [← same, here, ← h.next]

theorem numbered_run (order : List Party) : Numbered (run order) :=
  List.foldlRecOn order request ⟨rfl, nofun⟩ fun _ h party _ => h.request party

theorem lcTlsKeyCreate_ofNat (n : Nat) : (lcTlsKeyCreate (.ofNat n)).2 =
    if n % 2 ^ 32 < 64 then some (.ofNat n) else none := by
  have bound : (UInt32.ofNat n ≥ maxKeys) ↔ ¬ n % 2 ^ 32 < 64 := by
    rw [ge_iff_le, UInt32.le_iff_toNat_le, UInt32.toNat_ofNat', Nat.not_lt]
    rfl
  rw [lcTlsKeyCreate]
  by_cases small : n % 2 ^ 32 < 64
  · rw [if_neg (mt bound.mp (not_not.mpr small)), if_pos small]
  · rw [if_pos (bound.mpr small), if_neg small]

/-- Which key a call has led to. -/
theorem Numbered.key?_eq {s : State} (h : Numbered s) {n : Nat} {call : Party × Option UInt32}
    (at_ : s.calls[n]? = some call) : s.key? n =
      if n % 2 ^ 32 < 64 then some (.ofNat n) else if call.1 = .user then none else some 0 := by
  obtain ⟨party, key⟩ := call
  have answer := h.answer n _ at_
  rw [lcTlsKeyCreate_ofNat] at answer
  rw [State.key?, at_, Option.bind_some]
  cases party with
  | user => simpa [keyOf] using answer
  | scheduler | loop =>
    dsimp only at answer
    rw [answer]
    split <;> rfl

/-- No two holders alias as long as the counter has not wrapped and the scheduler
and the loop came for their keys among the first 64. Later they are refused and use
key 0, which the first caller has. -/
theorem tls_keys_never_alias_iff (order : List Party) :
    NeverAlias (run order) ↔ (run order).calls.length ≤ 2 ^ 32 ∧
      ∀ n call, (run order).calls[n]? = some call → call.1 ≠ .user → n < 64 := by
  have h := numbered_run order
  constructor
  · intro apart
    -- The first call has led to key 0, so no later one may.
    have first : ∀ n call, (run order).calls[n]? = some call → 0 < n →
        (run order).key? n ≠ some 0 := by
      intro n call at_ later same
      have inside := (List.getElem?_eq_some_iff.mp at_).1
      have zero := h.key?_eq (List.getElem?_eq_getElem (Nat.lt_trans later inside))
      exact (apart 0 n 0 0 later zero same).1 rfl
    have fits : (run order).calls.length ≤ 2 ^ 32 := by
      by_contra many
      have wrapped := List.getElem?_eq_getElem (Nat.lt_of_not_le many)
      exact first _ _ wrapped (by decide) (h.key?_eq wrapped)
    refine ⟨fits, fun n call at_ internal => ?_⟩
    by_contra late
    have inside := (List.getElem?_eq_some_iff.mp at_).1
    refine first n call at_ (by omega) ?_
    rw [h.key?_eq at_, Nat.mod_eq_of_lt (by omega), if_neg late, if_neg internal]
  · rintro ⟨fits, early⟩ m n a b before ha hb
    have number : ∀ n a, (run order).key? n = some a → a.toNat = n := by
      intro n a key
      obtain ⟨call, at_, -⟩ := Option.bind_eq_some_iff.mp key
      have inside := (List.getElem?_eq_some_iff.mp at_).1
      have word : n % 2 ^ 32 = n := Nat.mod_eq_of_lt (by omega)
      rw [h.key?_eq at_, word] at key
      by_cases small : n < 64
      · rw [if_pos small] at key
        cases key
        exact (UInt32.toNat_ofNat' ..).trans word
      · rw [if_neg small, if_pos (not_not.mp (mt (early n call at_) small))] at key
        cases key
    have other : a ≠ b := by
      rintro rfl
      have := (number m a ha).symm.trans (number n a hb)
      omega
    exact ⟨other, isolated_of_ne other.symm, isolated_of_ne other⟩

/-- A scheduler that comes after 64 user keys: the first user's `lc_tls_set` replaces
the current scheduler. -/
theorem tls_key_shared_with_scheduler :
    (run (List.replicate 64 .user ++ [.scheduler])).calls[64]? = some (.scheduler, none) ∧
      ¬ NeverAlias (run (List.replicate 64 .user ++ [.scheduler])) ∧
      lcTlsGet (lcTlsSet (fun _ => 0) 0 5) 0 = 5 := by
  refine ⟨by decide +kernel, fun apart => ?_, rfl⟩
  exact (apart 0 64 0 0 (by decide) (by decide +kernel) (by decide +kernel)).1 rfl

end Lightc.Sync.TlsKeys
