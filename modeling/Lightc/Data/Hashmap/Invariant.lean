import Lightc.Data.Hashmap.Refinement

/-!
# What holds in every state of the hash map

The table invariant in the terms of the source, with the end of every probe loop,
and the account of the key copies: each one made is in one slot of the table or
has been freed, once. Both are read off the simulation of the finite map.
-/

namespace Lightc.Data.Hashmap

open Machine Verification Function
open scoped List

namespace Table

variable {capacity : Nat} {entries : Entries} (h : Table capacity entries)
include h

/-- The stored distance, as the difference of slot and hash. -/
theorem distance_eq {i : Nat} {key : Key} (inside : i < capacity)
    (taken : (entries i).key = some key) :
    ((entries i).distance : Int) = ((i : Int) - (entries i).hash) % capacity := by
  obtain ⟨near, slot⟩ := h.offset_of_key inside taken
  have home : ((i : Int)) = ((entries i).hash + (entries i).distance) % capacity := by
    rw [← h.hashed i key inside taken] at slot
    exact_mod_cast slot.symm
  have same : ((i : Int) - (entries i).hash) % capacity =
      ((entries i).distance : Int) % capacity := by
    rw [home, Int.emod_sub_emod, add_sub_cancel_left]
  rw [same]
  exact_mod_cast (Nat.mod_eq_of_lt near).symm

/-- Behind an entry that is away from home stands one that is hardly less so. -/
theorem support_before {i : Nat} {key : Key} (inside : i < capacity)
    (taken : (entries i).key = some key) (away : 0 < (entries i).distance) :
    (entries ((i + capacity - 1) % capacity)).key ≠ none ∧
      (entries i).distance - 1 ≤ (entries ((i + capacity - 1) % capacity)).distance := by
  have positive : 0 < capacity := Nat.zero_lt_of_lt inside
  have next : (geometry capacity).slot ((i + capacity - 1) % capacity) 1 = i := by
    rw [Probing.slot, geometry_size, Nat.mod_add_mod,
      show i + capacity - 1 + 1 = i + capacity by omega, Nat.add_mod_right]
    exact Nat.mod_eq_of_lt inside
  have chain := h.placed.chain ((i + capacity - 1) % capacity) (entries i)
    (Nat.mod_lt _ positive) (by rw [next]; exact view_of_key taken)
  rcases chain with home | ⟨before, occupied, near⟩
  · exact absurd (show (entries i).distance = 0 from home) (by omega)
  · obtain ⟨rfl, isKey⟩ := view_eq_some.mp occupied
    refine ⟨isKey, Nat.sub_le_of_le_add ?_⟩
    exact near

end Table

namespace WellFormed

variable {map : LcHashmap}

theorem count_occupied (h : WellFormed map) :
    map.count = (List.range map.capacity).countP fun i => (map.entries i).key.isSome := by
  rw [h.count_eq, items, Probing.contents, List.length_filterMap_eq_countP]
  refine List.countP_congr fun i _ => ?_
  cases taken : (map.entries i).key with
  | none => simp [view, taken]
  | some key => simp [view, taken]

/-- An insertion ends in one of two ways: a slot has been filled and no copy freed,
or the key was there, and then its value is the only thing that is different. -/
theorem insertEntry_cases (h : WellFormed map) (some_ : map.capacity ≠ 0) (key : Key)
    (value : Nat) :
    (∃ result, hashmapInsertEntry map.entries map.capacity key value (fnv1a key.chars) =
        some (result, true, [])) ∨
      ∃ i present, i < map.capacity ∧ (map.entries i).key = some present ∧
        present.chars = key.chars ∧
        hashmapInsertEntry map.entries map.capacity key value (fnv1a key.chars) =
          some (update map.entries i { map.entries i with value := value }, false, [key.id]) := by
  obtain ⟨exponent, least, shape⟩ := h.exists_shape some_
  obtain ⟨found, search, hit, miss⟩ := findSlot_spec h.table shape (h.few some_) key.chars
  cases found with
  | none =>
    obtain ⟨result, done, -⟩ :=
      hashmapInsertEntry_fresh h.table shape (h.few some_) key value (miss rfl)
    exact .inl ⟨result, done⟩
  | some i =>
    obtain ⟨inside, present, taken, same⟩ := hit i rfl
    exact .inr ⟨i, present, inside, taken, same,
      (hashmapInsertEntry_present h.table shape key value inside taken same).1⟩

end WellFormed

/-- In every state the table is a Robin Hood table with a quarter of its slots
free, so that each of the loops without a counter ends, for every key. -/
theorem table_invariant {history : List (Call × Reply)} {s : State}
    (run : machine.Run history s) :
    (s.map.capacity = 0 ∨ ∃ exponent, 4 ≤ exponent ∧ s.map.capacity = 2 ^ exponent) ∧
    (∀ i key, i < s.map.capacity → (s.map.entries i).key = some key →
      (s.map.entries i).hash = fnv1a key.chars ∧
      ((s.map.entries i).distance : Int) =
        ((i : Int) - (s.map.entries i).hash) % s.map.capacity ∧
      (0 < (s.map.entries i).distance →
        (s.map.entries ((i + s.map.capacity - 1) % s.map.capacity)).key ≠ none ∧
        (s.map.entries i).distance - 1 ≤
          (s.map.entries ((i + s.map.capacity - 1) % s.map.capacity)).distance)) ∧
    (∀ i j first second, i < s.map.capacity → j < s.map.capacity →
      (s.map.entries i).key = some first → (s.map.entries j).key = some second →
      first.chars = second.chars → i = j) ∧
    (s.map.count = (List.range s.map.capacity).countP fun i => (s.map.entries i).key.isSome) ∧
    100 * s.map.count ≤ 75 * s.map.capacity ∧
    (grownCapacity s.map.capacity ≤ 2 ^ 32 → hashmapGrow s true ≠ none) ∧
    (s.map.capacity ≠ 0 → ∀ chars,
      (∀ id value, hashmapInsertEntry s.map.entries s.map.capacity ⟨id, chars⟩ value
        (fnv1a chars) ≠ none) ∧
      findSlot s.map chars ≠ none ∧
      ∀ i, findSlot s.map chars = some (some i) →
        shiftLoop (slotMask s.map.capacity) s.map.capacity s.map.entries i
          (nextSlot (slotMask s.map.capacity) i) ≠ none) := by
  obtain ⟨f, -, represents, -⟩ := hashmap_simulation.of_run run
  have wf := represents.wellFormed
  refine ⟨?_, fun i key inside taken => ⟨wf.table.hashed i key inside taken,
    wf.table.distance_eq inside taken, wf.table.support_before inside taken⟩,
    fun i j first second hi hj atI atJ => wf.table.slot_unique hi hj atI atJ,
    wf.count_occupied, wf.load, ?_, fun some_ chars => ⟨?_, ?_⟩⟩
  · exact wf.shape.imp id fun ⟨exponent, least, shape⟩ => ⟨exponent, least, shape.power⟩
  · intro bound
    obtain ⟨t, grown, -⟩ := hashmapGrow_spec wf bound
    rw [grown]
    exact Option.some_ne_none _
  · intro id value
    rcases wf.insertEntry_cases some_ ⟨id, chars⟩ value with
      ⟨result, done⟩ | ⟨i, present, -, -, -, done⟩
    all_goals
      rw [done]
      exact Option.some_ne_none _
  · obtain ⟨exponent, least, shape⟩ := wf.exists_shape some_
    obtain ⟨found, search, hit, -⟩ := findSlot_spec wf.table shape (wf.few some_) chars
    rw [search]
    refine ⟨Option.some_ne_none _, ?_⟩
    rintro i ⟨⟩
    obtain ⟨inside, key, taken, -⟩ := hit i rfl
    obtain ⟨result, done, -⟩ := remove_spec wf.table shape (wf.few some_) inside taken
    rw [done]
    exact Option.some_ne_none _

/-- Two keys of one home, the second pushed on to the slot behind. -/
theorem table_invariant_colliding : ∃ s,
    machine.Run [(.set [97] 7 true true, .ok), (.set [113] 8 false true, .ok)] s ∧
      s.map.capacity = 16 ∧ ∀ chars, findSlot s.map chars ≠ none := by
  have first := (Machine.Run.nil (M := machine)).call (.set [97] 7 true true)
    (fun _ _ => by decide) rfl
  have second := first.call (.set [113] 8 false true) (fun _ no => nomatch no) rfl
  obtain ⟨-, -, -, -, -, -, ends⟩ := table_invariant second
  exact ⟨_, second, rfl, fun chars => (ends (by decide) chars).2.1⟩

/-! ### The key copies -/

/-- The loop of `lc_hashmap_destroy` over the slots from `i` on; freeing `NULL`
does nothing. -/
def freeKeys (entries : Entries) : Nat → Nat → List Nat → List Nat
  | 0, _, freed => freed
  | left + 1, i, freed =>
    freeKeys entries left (i + 1) (((entries i).key.map Key.id).toList ++ freed)

def lcHashmapDestroy (s : State) : State :=
  { s with map := lcHashmapCreate, freed := freeKeys s.map.entries s.map.capacity 0 s.freed }

theorem freeKeys_perm (entries : Entries) (left i : Nat) (freed : List Nat) :
    freeKeys entries left i freed ~
      ((List.range' i left).filterMap fun k => (entries k).key.map Key.id) ++ freed := by
  induction left generalizing i freed with
  | zero => exact .refl _
  | succ left ih =>
    refine (ih (i + 1) _).trans ?_
    rw [List.range'_succ, List.filterMap_cons]
    cases taken : (entries i).key with
    | none => exact .refl _
    | some key => exact List.perm_middle

theorem keyCopies_eq (map : LcHashmap) : keyCopies map =
    (List.range' 0 map.capacity).filterMap fun k => (map.entries k).key.map Key.id := by
  rw [keyCopies, items, Probing.contents, List.map_filterMap, List.range_eq_range']
  refine List.filterMap_congr fun k _ => ?_
  cases taken : (map.entries k).key with
  | none => simp [view, taken]
  | some key => simp [view, taken, Entry.item]

/-- In every state the copies made are those in the table, one slot each, and
those freed, once each; `lc_hashmap_destroy` frees the rest. A call that meets its
key in the table frees its own copy there, and then nothing has been displaced:
the table is the one before but for the value. Growing frees no copy. -/
theorem key_copies_settled {history : List (Call × Reply)} {s : State}
    (run : machine.Run history s) :
    keyCopies s.map ++ s.freed ~ List.range s.copied ∧
    (keyCopies s.map ++ s.freed).Nodup ∧
    (lcHashmapDestroy s).freed ~ List.range s.copied ∧
    (∀ t ok allocates, (allocates = true → grownCapacity s.map.capacity ≤ 2 ^ 32) →
      hashmapGrow s allocates = some (t, ok) →
      t.freed = s.freed ∧ keyCopies t.map ~ keyCopies s.map) ∧
    ∀ chars value result inserted freed, s.map.capacity ≠ 0 →
      hashmapInsertEntry s.map.entries s.map.capacity ⟨s.copied, chars⟩ value (fnv1a chars) =
        some (result, inserted, freed) →
      inserted = true ∧ freed = [] ∨ inserted = false ∧ freed = [s.copied] ∧
        ∃ i present, i < s.map.capacity ∧ (s.map.entries i).key = some present ∧
          present.chars = chars ∧
          result = update s.map.entries i { s.map.entries i with value := value } := by
  obtain ⟨f, -, represents, settled⟩ := hashmap_simulation.of_run run
  have wf := represents.wellFormed
  refine ⟨settled, settled.nodup_iff.mpr List.nodup_range, ?_, ?_, ?_⟩
  · refine (freeKeys_perm _ _ _ _).trans ?_
    rw [← keyCopies_eq]
    exact settled
  · intro t ok allocates bound done
    cases allocates with
    | false =>
      cases done
      exact ⟨rfl, .refl _⟩
    | true =>
      obtain ⟨u, grown, -, -, perm, -, -, freed⟩ := hashmapGrow_spec wf (bound rfl)
      cases grown.symm.trans done
      exact ⟨freed, perm.map _⟩
  · intro chars value result inserted freed some_ done
    rcases wf.insertEntry_cases some_ ⟨s.copied, chars⟩ value with
      ⟨filled, ends⟩ | ⟨i, present, inside, taken, same, ends⟩
    · cases ends.symm.trans done
      exact .inl ⟨rfl, rfl⟩
    · cases ends.symm.trans done
      exact .inr ⟨rfl, rfl, i, present, inside, taken, same, rfl⟩

/-- A key set twice: two copies made, both of them freed. -/
theorem key_copies_settled_replaced : ∃ s,
    machine.Run [(.set [97] 7 true true, .ok), (.set [97] 8 false true, .ok)] s ∧
      (lcHashmapDestroy s).freed ~ [0, 1] := by
  have first := (Machine.Run.nil (M := machine)).call (.set [97] 7 true true)
    (fun _ _ => by decide) rfl
  have second := first.call (.set [97] 8 false true) (fun _ no => nomatch no) rfl
  exact ⟨_, second, (key_copies_settled second).2.2.1⟩

end Lightc.Data.Hashmap
