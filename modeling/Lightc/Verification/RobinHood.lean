import Lightc.Machine.Word
import Mathlib.Data.List.Basic

/-!
# Cyclic tables with probe distances

A table of `size` slots in a circle. Every item knows the slot it would like to
have, its home, and how far past its home it sits. `Placed` says that these
distances are true and that no item sits further from home than the item before
it allows: behind an item at distance `d + 1` there is one at distance `d` or more.
A search that walks from a home can therefore stop at the first slot whose item
is closer to home than the search is.

`Placed.put` is the step of an insertion that takes slots from richer items, and
`Hole` the state of a deletion that shifts items back. Both are stated for one
slot; the loops that use them are inductions elsewhere.
-/

namespace Lightc.Verification

open scoped List
open Function

universe u v

/-- The size of a table and what its items know about themselves. -/
structure Probing (α : Type u) where
  size : Nat
  home : α → Nat
  dist : α → Nat

namespace Probing

variable {α : Type u} {β : Type v} (P : Probing α) {T : Nat → Option α}

/-- The slot `j` steps past `start`. -/
def slot (start j : Nat) : Nat := (start + j) % P.size

/-- The slot `q` can have an item at distance `d` behind it. -/
def Supports (T : Nat → Option α) (q d : Nat) : Prop :=
  d = 0 ∨ ∃ y, T q = some y ∧ d ≤ P.dist y + 1

structure Placed (T : Nat → Option α) : Prop where
  here : ∀ i x, i < P.size → T i = some x →
    P.dist x < P.size ∧ P.slot (P.home x) (P.dist x) = i
  chain : ∀ q x, q < P.size → T (P.slot q 1) = some x → P.Supports T q (P.dist x)

theorem slot_lt (positive : 0 < P.size) (start j : Nat) : P.slot start j < P.size :=
  Nat.mod_lt _ positive

@[simp] theorem slot_slot (start i j : Nat) : P.slot (P.slot start i) j = P.slot start (i + j) := by
  simp only [slot, Nat.mod_add_mod, Nat.add_assoc]

variable {i j start p q d : Nat} {x : α}

theorem slot_zero (inside : i < P.size) : P.slot i 0 = i := Nat.mod_eq_of_lt inside

/-- Every slot is reached from everywhere in less than one turn. -/
theorem exists_slot_eq (start : Nat) (inside : i < P.size) :
    ∃ j, j < P.size ∧ P.slot start j = i := by
  have positive : 0 < P.size := Nat.zero_lt_of_lt inside
  have residue := Nat.mod_lt start positive
  refine ⟨(i + (P.size - start % P.size)) % P.size, Nat.mod_lt _ positive, ?_⟩
  rw [slot, Nat.add_mod_mod, ← Nat.mod_add_mod,
    show start % P.size + (i + (P.size - start % P.size)) = i + P.size by omega,
    Nat.add_mod_right]
  exact Nat.mod_eq_of_lt inside

/-- Within one turn the slots are all different. -/
theorem slot_injective (hi : i < P.size) (hj : j < P.size)
    (same : P.slot start i = P.slot start j) : i = j := by
  rcases Nat.lt_trichotomy i j with below | equal | above
  · exact absurd same (Machine.residue_ne below (by omega))
  · exact equal
  · exact absurd same.symm (Machine.residue_ne above (by omega))

variable {P}

/-- Less than a turn does not lead back. -/
theorem slot_ne {k : Nat} (inside : p < P.size) (some_ : 0 < k) (turn : k < P.size) :
    P.slot p k ≠ p := by
  intro same
  have : P.slot p k = P.slot p 0 := by rw [same, P.slot_zero inside]
  exact absurd (P.slot_injective turn (by omega) this) (by omega)

theorem slot_one_ne (two : 2 ≤ P.size) (inside : q < P.size) : P.slot q 1 ≠ q :=
  slot_ne inside Nat.zero_lt_one two

theorem slot_one_injective (hp : p < P.size) (hq : q < P.size) (same : P.slot p 1 = P.slot q 1) :
    p = q := by
  obtain ⟨j, hj, rfl⟩ := P.exists_slot_eq p hq
  rw [slot_slot] at same
  by_cases last : j + 1 < P.size
  · have := P.slot_injective (by omega) last same
    rw [show j = 0 by omega, P.slot_zero hp]
  · rw [show j + 1 = P.size by omega] at same
    rw [show P.slot p P.size = P.slot p 0 by simp [slot]] at same
    by_cases one : 1 < P.size
    · exact absurd (P.slot_injective one (by omega) same) (by decide)
    · rw [show j = 0 by omega, P.slot_zero hp]

/-- Every slot has one before it. -/
theorem exists_slot_one_eq (inside : i < P.size) : ∃ q, q < P.size ∧ P.slot q 1 = i := by
  have positive : 0 < P.size := Nat.zero_lt_of_lt inside
  refine ⟨P.slot i (P.size - 1), P.slot_lt positive _ _, ?_⟩
  rw [slot_slot, Nat.sub_add_cancel positive, slot, Nat.add_mod_right]
  exact Nat.mod_eq_of_lt inside

/-! ### Searching -/

/-- From an item at distance `d` or more, every slot of the last `d` is taken by an
item that is no closer to home than a search from there would be. -/
theorem Placed.reach (h : P.Placed T) (positive : 0 < P.size) (found : T (P.slot start d) = some x)
    (far : d ≤ P.dist x) :
    ∀ j, j ≤ d → ∃ y, T (P.slot start j) = some y ∧ j ≤ P.dist y := by
  induction d generalizing x with
  | zero =>
    intro j hj
    rw [Nat.le_zero.mp hj]
    exact ⟨x, found, Nat.zero_le _⟩
  | succ d ih =>
    intro j hj
    by_cases last : j = d + 1
    · rw [last]
      exact ⟨x, found, far⟩
    · rw [← slot_slot] at found
      rcases h.chain _ x (P.slot_lt positive _ _) found with zero | ⟨y, before, near⟩
      · omega
      · exact ih before (by omega) j (by omega)

/-- An item whose home a search starts from is not past a slot where the search
may stop. -/
theorem Placed.dist_lt_of_stop (h : P.Placed T) (positive : 0 < P.size)
    (found : T (P.slot start d) = some x) (dist : P.dist x = d)
    (stop : ∀ y, T (P.slot start j) = some y → P.dist y < j) : d < j := by
  by_contra past
  obtain ⟨y, taken, near⟩ := h.reach positive found (Nat.le_of_eq dist.symm) j
    (Nat.le_of_not_lt past)
  exact Nat.not_lt_of_le near (stop y taken)

/-- While a slot is free, no distance reaches the table size. -/
theorem Placed.lt_of_supports (h : P.Placed T) {z : Nat} (inside : z < P.size) (free : T z = none)
    (hq : q < P.size) (support : P.Supports T q d) : d < P.size := by
  have positive : 0 < P.size := Nat.zero_lt_of_lt hq
  rcases support with rfl | ⟨y, taken, near⟩
  · exact positive
  · by_contra far
    obtain ⟨bound, home⟩ := h.here q y hq taken
    obtain ⟨j, hj, rfl⟩ := P.exists_slot_eq (P.home y) inside
    obtain ⟨w, occupied, _⟩ := h.reach positive (home.symm ▸ taken) (Nat.le_refl _) j (by omega)
    rw [free] at occupied
    cases occupied

/-! ### Inserting -/

/-- An item may take a slot that is free or held by an item closer to home,
provided the slot before it supports the item. -/
theorem Placed.put (h : P.Placed T) (two : 2 ≤ P.size) (inside : q < P.size)
    (near : P.dist x < P.size) (home : P.slot (P.home x) (P.dist x) = P.slot q 1)
    (support : P.Supports T q (P.dist x))
    (richer : ∀ y, T (P.slot q 1) = some y → P.dist y ≤ P.dist x) :
    P.Placed (update T (P.slot q 1) (some x)) := by
  have elsewhere := slot_one_ne two inside
  refine ⟨?_, ?_⟩
  · intro i w hi found
    by_cases here : i = P.slot q 1
    · subst here
      rw [update_self] at found
      cases found
      exact ⟨near, home⟩
    · rw [update_of_ne here] at found
      exact h.here i w hi found
  · intro r w hr found
    by_cases same : P.slot r 1 = P.slot q 1
    · have := slot_one_injective hr inside same
      subst this
      rw [update_self] at found
      cases found
      exact support.imp id fun ⟨y, taken, close⟩ =>
        ⟨y, by rw [update_of_ne elsewhere.symm]; exact taken, close⟩
    · rw [update_of_ne same] at found
      rcases h.chain r w hr found with zero | ⟨y, taken, close⟩
      · exact .inl zero
      · by_cases behind : r = P.slot q 1
        · -- The slot behind the new item: the item it replaces was closer to home.
          subst behind
          exact .inr ⟨x, update_self .., by have := richer y taken; omega⟩
        · exact .inr ⟨y, by rw [update_of_ne behind]; exact taken, close⟩

/-! ### Deleting -/

/-- A table whose slot behind `q` is being vacated. `d` is the distance of the item
that was there last. -/
structure Hole (P : Probing α) (T : Nat → Option α) (q d : Nat) : Prop where
  free : T (P.slot q 1) = none
  here : ∀ i x, i < P.size → T i = some x →
    P.dist x < P.size ∧ P.slot (P.home x) (P.dist x) = i
  chain : ∀ r x, r < P.size → r ≠ P.slot q 1 → T (P.slot r 1) = some x → P.Supports T r (P.dist x)
  before : P.Supports T q d
  after : ∀ x, T (P.slot q 2) = some x → P.dist x ≤ d + 1

theorem Placed.vacate (h : P.Placed T) (two : 2 ≤ P.size) (inside : q < P.size)
    (found : T (P.slot q 1) = some x) :
    P.Hole (update T (P.slot q 1) none) q (P.dist x) := by
  have elsewhere := slot_one_ne two inside
  have positive : 0 < P.size := by omega
  refine ⟨update_self .., ?_, ?_, ?_, ?_⟩
  · intro i w hi taken
    by_cases here : i = P.slot q 1
    · rw [here, update_self] at taken
      cases taken
    · rw [update_of_ne here] at taken
      exact h.here i w hi taken
  · intro r w hr other taken
    by_cases same : P.slot r 1 = P.slot q 1
    · rw [same, update_self] at taken
      cases taken
    · rw [update_of_ne same] at taken
      exact (h.chain r w hr taken).imp id fun ⟨y, occupied, close⟩ =>
        ⟨y, by rw [update_of_ne other]; exact occupied, close⟩
  · exact (h.chain q x inside found).imp id fun ⟨y, occupied, close⟩ =>
      ⟨y, by rw [update_of_ne elsewhere.symm]; exact occupied, close⟩
  · intro w taken
    have next : P.slot q 2 = P.slot (P.slot q 1) 1 := (P.slot_slot q 1 1).symm
    have other : P.slot q 2 ≠ P.slot q 1 := by
      rw [next]
      exact slot_one_ne two (P.slot_lt positive _ _)
    rw [update_of_ne other, next] at taken
    rcases h.chain _ w (P.slot_lt positive _ _) taken with zero | ⟨y, occupied, close⟩
    · omega
    · rw [found] at occupied
      cases occupied
      exact close

/-- One shift: the item behind the hole moves into it, one step closer to home. -/
theorem Hole.shift (h : P.Hole T q d) (two : 2 ≤ P.size) {y : α} (inside : q < P.size)
    (behind : T (P.slot q 2) = some x) (away : 0 < P.dist x) (home : P.home y = P.home x)
    (dist : P.dist y = P.dist x - 1) :
    P.Hole (update (update T (P.slot q 1) (some y)) (P.slot q 2) none)
      (P.slot q 1) (P.dist x) := by
  have positive : 0 < P.size := by omega
  have hp := P.slot_lt positive q 1
  have next : P.slot (P.slot q 1) 1 = P.slot q 2 := P.slot_slot q 1 1
  have apart : P.slot q 1 ≠ P.slot q 2 := by
    rw [← next]
    exact (slot_one_ne two hp).symm
  have elsewhere := slot_one_ne two inside
  obtain ⟨bound, at_⟩ := h.here _ x (P.slot_lt positive _ _) behind
  have close := h.after x behind
  -- The item in its new slot.
  have moved : (update (update T (P.slot q 1) (some y)) (P.slot q 2) none)
      (P.slot q 1) = some y := by
    rw [update_of_ne apart, update_self]
  have kept : ∀ i, i ≠ P.slot q 1 → i ≠ P.slot q 2 →
      (update (update T (P.slot q 1) (some y)) (P.slot q 2) none) i = T i := by
    intro i first second
    rw [update_of_ne second, update_of_ne first]
  refine ⟨by rw [next]; exact update_self .., ?_, ?_, ?_, ?_⟩
  · intro i w hi taken
    by_cases hole : i = P.slot q 2
    · rw [hole, update_self] at taken
      cases taken
    · by_cases filled : i = P.slot q 1
      · subst filled
        rw [moved] at taken
        cases taken
        refine ⟨by omega, ?_⟩
        apply slot_one_injective (P.slot_lt positive _ _) hp
        rw [slot_slot, home, dist, Nat.sub_add_cancel away, at_, next]
      · rw [kept i filled hole] at taken
        exact h.here i w hi taken
  · intro r w hr other taken
    rw [next] at other
    by_cases hole : P.slot r 1 = P.slot q 2
    · rw [hole, update_self] at taken
      cases taken
    · by_cases filled : P.slot r 1 = P.slot q 1
      · have := slot_one_injective hr inside filled
        subst this
        rw [moved] at taken
        cases taken
        rcases h.before with zero | ⟨z, occupied, near⟩
        · exact .inl (by omega)
        · by_cases wrap : r = P.slot r 2
          · exact absurd wrap other
          · exact .inr ⟨z, by rw [kept r elsewhere.symm other]; exact occupied, by omega⟩
      · rw [kept _ filled hole] at taken
        by_cases gap : r = P.slot q 1
        · exact absurd (gap ▸ next) hole
        · exact (h.chain r w hr gap taken).imp id fun ⟨z, occupied, near⟩ =>
            ⟨z, by rw [kept r gap other]; exact occupied, near⟩
  · exact .inr ⟨y, moved, by omega⟩
  · intro w taken
    have third : P.slot (P.slot q 1) 2 = P.slot (P.slot q 2) 1 := by
      rw [slot_slot, slot_slot]
    rw [third] at taken
    have hole : P.slot (P.slot q 2) 1 ≠ P.slot q 2 := slot_one_ne two (P.slot_lt positive _ _)
    by_cases turn : P.slot (P.slot q 2) 1 = P.slot q 1
    · -- Two slots only: the item has come to stand behind its own hole.
      rw [turn, moved] at taken
      cases taken
      omega
    · rw [kept _ turn hole] at taken
      rcases h.chain _ w (P.slot_lt positive _ _) apart.symm taken with zero | ⟨z, occupied, near⟩
      · omega
      · rw [behind] at occupied
        cases occupied
        exact near

/-- Nothing behind the hole needs it: the table is in order again. -/
theorem Hole.close (h : P.Hole T q d) (ok : ∀ x, T (P.slot q 2) = some x → P.dist x = 0) :
    P.Placed T := by
  refine ⟨h.here, ?_⟩
  intro r x hr taken
  by_cases gap : r = P.slot q 1
  · rw [gap, slot_slot] at taken
    exact .inl (ok x taken)
  · exact h.chain r x hr gap taken

/-! ### Contents -/

/-- What the table holds, slot by slot, seen through `payload`. -/
def contents (P : Probing α) (payload : α → β) (T : Nat → Option α) : List β :=
  (List.range P.size).filterMap fun i => (T i).map payload

@[simp] theorem mem_contents {payload : α → β} {b : β} :
    b ∈ P.contents payload T ↔ ∃ i x, i < P.size ∧ T i = some x ∧ payload x = b := by
  simp [contents]

/-- Different payloads stand in different slots. -/
theorem slot_eq_of_nodup {payload : α → β} (distinct : (P.contents payload T).Nodup) {y : α}
    (hi : i < P.size) (hj : j < P.size) (first : T i = some x) (second : T j = some y)
    (same : payload x = payload y) : i = j := by
  have pairs := List.pairwise_iff_getElem.mp (List.pairwise_filterMap.mp distinct)
  simp only [List.getElem_range, List.length_range] at pairs
  rcases Nat.lt_trichotomy i j with below | equal | above
  · exact absurd same (pairs i j hi hj below _ (by rw [first]; rfl) _ (by rw [second]; rfl))
  · exact equal
  · exact absurd same.symm (pairs j i hj hi above _ (by rw [second]; rfl) _ (by rw [first]; rfl))

/-- One slot is overwritten: its old item leaves and the new one enters. -/
theorem contents_update (payload : α → β) (inside : p < P.size) (item : Option α) :
    ((T p).map payload).toList ++ P.contents payload (update T p item) ~
      (item.map payload).toList ++ P.contents payload T := by
  have split := List.perm_cons_erase (List.mem_range.mpr inside)
  have rest : ((List.range P.size).erase p).filterMap
      (fun i => (update T p item i).map payload) =
      ((List.range P.size).erase p).filterMap fun i => (T i).map payload := by
    apply List.filterMap_congr
    intro i member
    have other : i ≠ p := fun same => List.nodup_range.not_mem_erase (same ▸ member)
    rw [update_of_ne other]
  have pull : ∀ S : Nat → Option α, P.contents payload S ~
      ((S p).map payload).toList ++
        ((List.range P.size).erase p).filterMap fun i => (S i).map payload := by
    intro S
    refine (split.filterMap _).trans ?_
    rw [List.filterMap_cons]
    cases S p with
    | none => exact .refl _
    | some y => exact .refl _
  refine ((pull _).append_left _).trans ?_
  rw [rest, update_self]
  refine List.perm_append_comm_assoc .. |>.trans ?_
  exact (pull T).symm.append_left _

/-- A table with fewer items than slots has a free slot. -/
theorem exists_free (payload : α → β) (few : (P.contents payload T).length < P.size) :
    ∃ z, z < P.size ∧ T z = none := by
  have fewer : (P.contents payload T).length < (List.range P.size).length := by
    rw [List.length_range]
    exact few
  obtain ⟨z, inside, free⟩ := List.length_filterMap_lt_length_iff_exists.mp fewer
  exact ⟨z, List.mem_range.mp inside, Option.map_eq_none_iff.mp free⟩

end Probing

end Lightc.Verification
