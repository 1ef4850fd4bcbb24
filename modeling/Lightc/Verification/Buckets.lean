import Lightc.Verification.Guarded

/-!
# Hashed indexes

An index keeps its entries in chains, and the key of an entry says on which chain it
is. To search one chain is then to search the whole index. A loop whose cursor goes
along a chain and leaves at the first match computes the search; where the cursor
points and how it moves on are up to the loop.
-/

namespace Lightc.Verification

/-- Entries with keys, in chains. An entry that is anywhere is on the chain its key
belongs to. -/
structure Buckets (K E : Type) where
  size : Nat
  key : E → Option K
  home : K → Nat
  chain : Nat → List E
  home_lt : ∀ k, home k < size
  placed : ∀ b < size, ∀ e ∈ chain b, ∀ k, key e = some k → e ∈ chain (home k)

namespace Buckets

variable {K E : Type} {index : Buckets K E} {test : E → Bool} {k : K} {e : E}

/-- The entry is on some chain. -/
def Mem (index : Buckets K E) (e : E) : Prop := ∃ b < index.size, e ∈ index.chain b

/-- The first entry on the chain of a key that passes a test. -/
def lookup (index : Buckets K E) (test : E → Bool) (k : K) : Option E :=
  (index.chain (index.home k)).find? test

theorem mem_of_lookup (found : index.lookup test k = some e) : index.Mem e ∧ test e = true :=
  ⟨⟨_, index.home_lt k, List.mem_of_find?_eq_some found⟩, List.find?_some found⟩

/-- A test that only entries with the key pass is failed by all of them. -/
theorem not_test_of_lookup (keyed : ∀ e, test e = true → index.key e = some k)
    (none_ : index.lookup test k = none) (member : index.Mem e) : test e = false := by
  by_contra passed
  have passes : test e = true := Bool.eq_true_of_not_eq_false passed
  obtain ⟨b, inside, on⟩ := member
  have here := index.placed b inside e on k (keyed e passes)
  exact List.find?_eq_none.mp none_ e here passes

end Buckets

variable {ε σ β ρ E : Type}

/-- What a round does at a cursor with `rest` of the chain ahead: it leaves with the
first entry if that passes, and without one at the end. Otherwise the cursor moves on. -/
def Visits (body : β → Program ε σ (Step β (Option ρ))) (at_ : β → List E → Prop)
    (test : E → Bool) (result : E → ρ) (s : σ) : Prop :=
  ∀ b rest, at_ b rest → match rest with
    | [] => body b s = .done (.leave none) s
    | e :: rest =>
      if test e = true then body b s = .done (.leave (some (result e))) s
      else (rest = [] ∧ body b s = .done (.leave none) s) ∨
        ∃ b', body b s = .done (.next b') s ∧ at_ b' rest

theorem Program.loop_find {body : β → Program ε σ (Step β (Option ρ))} {at_ : β → List E → Prop}
    {test : E → Bool} {result : E → ρ} {s : σ} (visits : Visits body at_ test result s)
    {fuel : Nat} {b : β} {chain : List E} (start : at_ b chain) (enough : chain.length < fuel) :
    Program.loop body fuel b s = .done ((chain.find? test).map result) s := by
  induction chain generalizing fuel b with
  | nil =>
    obtain ⟨fuel, rfl⟩ := Nat.exists_eq_succ_of_ne_zero (Nat.ne_of_gt enough)
    rw [Program.loop, bind_done (visits b [] start)]
    rfl
  | cons e rest ih =>
    obtain ⟨fuel, rfl⟩ := Nat.exists_eq_succ_of_ne_zero (Nat.ne_of_gt (Nat.zero_lt_of_lt enough))
    have round := visits b (e :: rest) start
    dsimp only at round
    rw [Program.loop, List.find?_cons]
    split at round
    · next passes =>
      rw [bind_done round, passes]
      rfl
    · next passes =>
      rw [Bool.eq_false_of_not_eq_true passes]
      obtain ⟨rfl, leaves⟩ | ⟨b', goes, next⟩ := round
      · rw [bind_done leaves]
        rfl
      · rw [bind_done goes]
        exact ih next (Nat.lt_of_succ_lt_succ enough)

end Lightc.Verification
