import Lightc.Data.Hashmap.Probe
import Mathlib.Data.Set.Card

/-!
# The hash map refines a finite map

The abstract state is a partial function from keys to values. `WellFormed` is the
state invariant of the map: the table invariant of its slots, a count of the
items, and a load that leaves a quarter of the slots free, so that every probe
ends. Each call is simulated by the corresponding change of the function.
-/

namespace Lightc.Data.Hashmap

open Machine Verification Function
open scoped List

/-! ### The state invariant -/

structure WellFormed (map : LcHashmap) : Prop where
  shape : map.capacity = 0 ∨ ∃ exponent, 4 ≤ exponent ∧ Shape map.capacity exponent
  table : Table map.capacity map.entries
  count_eq : map.count = (items map.capacity map.entries).length
  load : 100 * map.count ≤ 75 * map.capacity

/-- The bindings of a map, slot by slot. -/
def bindings (map : LcHashmap) : List (List UInt8 × Nat) :=
  (items map.capacity map.entries).map fun item => (item.1.chars, item.2)

namespace WellFormed

variable {map : LcHashmap}

variable (h : WellFormed map)
include h

theorem capacity_le : map.capacity ≤ 2 ^ 32 := by
  rcases h.shape with zero | ⟨_, _, shape⟩
  · rw [zero]
    exact Nat.zero_le _
  · exact shape.le_range

theorem few (some_ : map.capacity ≠ 0) :
    (items map.capacity map.entries).length < map.capacity := by
  rw [← h.count_eq]
  have := h.load
  omega

theorem exists_shape (some_ : map.capacity ≠ 0) :
    ∃ exponent, 4 ≤ exponent ∧ Shape map.capacity exponent :=
  h.shape.resolve_left some_

theorem capacity_ge (some_ : map.capacity ≠ 0) : 16 ≤ map.capacity := by
  obtain ⟨exponent, least, shape⟩ := h.exists_shape some_
  rw [shape.power]
  exact Nat.pow_le_pow_right (n := 2) (i := 4) (by decide) least

theorem bindings_nodup : ((bindings map).map Prod.fst).Nodup := by
  simpa only [bindings, List.map_map, comp_def] using h.table.distinct

/-- The load test computes without wrapping. -/
theorem needsGrowth_iff :
    needsGrowth map = true ↔ map.capacity = 0 ∨ 75 * map.capacity < 100 * (map.count + 1) := by
  have capacity := h.capacity_le
  have load := h.load
  rw [needsGrowth, hashmapLoadPercent, add64_of_lt (by omega), mul64_of_lt (by omega),
    mul64_of_lt (by omega)]
  simp only [Bool.or_eq_true, beq_iff_eq, decide_eq_true_eq]
  omega

end WellFormed

theorem wellFormed_create : WellFormed lcHashmapCreate :=
  ⟨.inl rfl, table_empty 0, rfl, Nat.le_refl _⟩

/-! ### Growing -/

/-- What `hashmap_grow` leaves: a table of twice the size with the same items. -/
theorem hashmapGrow_spec {s : State} (h : WellFormed s.map)
    (bound : grownCapacity s.map.capacity ≤ 2 ^ 32) :
    ∃ t, hashmapGrow s true = some (t, true) ∧ WellFormed t.map ∧ t.map.capacity ≠ 0 ∧
      items t.map.capacity t.map.entries ~ items s.map.capacity s.map.entries ∧
      100 * (t.map.count + 1) ≤ 75 * t.map.capacity ∧ t.copied = s.copied ∧
      t.freed = s.freed := by
  have capacity := h.capacity_le
  have load := h.load
  obtain ⟨exponent, least, shape, larger, room⟩ : ∃ exponent, 4 ≤ exponent ∧
      Shape (grownCapacity s.map.capacity) exponent ∧
      s.map.capacity ≤ grownCapacity s.map.capacity ∧
      100 * (s.map.count + 1) ≤ 75 * grownCapacity s.map.capacity := by
    by_cases zero : s.map.capacity = 0
    · rw [grownCapacity, if_neg (by simpa using zero), hashmapInitialCapacity, zero]
      rw [zero] at load
      exact ⟨4, Nat.le_refl _, ⟨rfl, by decide, by decide⟩, Nat.zero_le _, by omega⟩
    · obtain ⟨exponent, least, shape⟩ := h.exists_shape zero
      have big := h.capacity_ge zero
      have grown : grownCapacity s.map.capacity = s.map.capacity * 2 := by
        rw [grownCapacity, if_pos zero, mul64_of_lt (by omega)]
      rw [grown] at bound ⊢
      have power : s.map.capacity * 2 = 2 ^ (exponent + 1) := by rw [Nat.pow_succ, shape.power]
      refine ⟨exponent + 1, by omega, ⟨power, by omega, ?_⟩, by omega, by omega⟩
      rw [power] at bound
      exact (Nat.pow_le_pow_iff_right (by decide)).mp bound
  have emptyItems : items (grownCapacity s.map.capacity) (fun _ => .empty) ~
      items 0 s.map.entries := by
    simp [items, Probing.contents, view, Entry.empty, geometry]
  obtain ⟨entries, done, table, perm⟩ := reinsert_spec h.table shape
    (by rw [← h.count_eq]; omega) s.map.capacity 0 _ s.freed (Nat.zero_add _)
    (table_empty _) emptyItems
  refine ⟨⟨⟨entries, grownCapacity s.map.capacity, s.map.count⟩, s.copied, s.freed⟩,
    by simp only [hashmapGrow, done]; rfl, ⟨.inr ⟨exponent, least, shape⟩, table, ?_, ?_⟩,
    ?_, perm, room, rfl, rfl⟩
  · rw [perm.length_eq]
    exact h.count_eq
  · exact Nat.le_trans load (Nat.mul_le_mul_left _ larger)
  · have positive := shape.two_le
    intro zero
    rw [show grownCapacity s.map.capacity = 0 from zero] at positive
    omega

/-! ### The key copies -/

/-- The key copies that stand in the table, slot by slot. -/
def keyCopies (map : LcHashmap) : List Nat :=
  (items map.capacity map.entries).map fun item => item.1.id

/-- Every copy made is in one slot or has been freed once. -/
def Settled (s : State) : Prop := keyCopies s.map ++ s.freed ~ List.range s.copied

namespace Settled

variable {s t : State}

theorem of_perm (h : Settled s) (copied : t.copied = s.copied)
    (perm : keyCopies t.map ++ t.freed ~ keyCopies s.map ++ s.freed) : Settled t := by
  rw [Settled, copied]
  exact perm.trans h

/-- One more copy, which went into the table or was freed. -/
theorem copy (h : Settled s) (copied : t.copied = s.copied + 1)
    (perm : keyCopies t.map ++ t.freed ~ s.copied :: (keyCopies s.map ++ s.freed)) :
    Settled t := by
  rw [Settled, copied, List.range_succ]
  exact (perm.trans (h.cons _)).trans (List.perm_append_singleton _ _).symm

end Settled

/-! ### The abstract map -/

/-- The calls on a partial function. An allocation failure leaves it alone. -/
def mapCall (f : List UInt8 → Option Nat) : Call → Reply → (List UInt8 → Option Nat) → Prop
  | .set key value _ _, .ok, g => g = update f key (some value)
  | .set _ _ allocates copies, .nomem, g => (allocates = false ∨ copies = false) ∧ g = f
  | .remove key, .value v, g => v = (f key).getD 0 ∧ g = update f key none
  | .get key, .value v, g => v = (f key).getD 0 ∧ g = f
  | .contains key, .bool b, g => b = (f key).isSome ∧ g = f
  | .count, .count n, g => n = Set.ncard {key | f key ≠ none} ∧ g = f
  | .iterate, .visited calls, g =>
    calls.Nodup ∧ (∀ key value, (key, value) ∈ calls ↔ f key = some value) ∧ g = f
  | _, _, _ => False

def mapSpec : Spec (List UInt8 → Option Nat) Call Reply where
  init := fun _ => none
  call := mapCall

/-- The map in state `s` stands for the function `f`. -/
structure Represents (s : State) (f : List UInt8 → Option Nat) : Prop where
  wellFormed : WellFormed s.map
  binds : ∀ key value, f key = some value ↔ (key, value) ∈ bindings s.map

@[simp] theorem mem_bindings {map : LcHashmap} {chars : List UInt8} {value : Nat} :
    (chars, value) ∈ bindings map ↔ ∃ i key, i < map.capacity ∧ (map.entries i).key = some key ∧
      key.chars = chars ∧ (map.entries i).value = value := by
  rw [bindings, List.mem_map]
  constructor
  · rintro ⟨item, member, equal⟩
    obtain ⟨i, key, hi, taken, rfl⟩ := mem_items.mp member
    cases equal
    exact ⟨i, key, hi, taken, rfl, rfl⟩
  · rintro ⟨i, key, hi, taken, rfl, rfl⟩
    exact ⟨_, mem_items.mpr ⟨i, key, hi, taken, rfl⟩, rfl⟩

namespace Represents

variable {s t : State} {f : List UInt8 → Option Nat}

variable {key : Key} {value : Nat}

variable (h : Represents s f)
include h

/-- A slot with the key decides the binding. -/
theorem eq_some {i : Nat} (inside : i < s.map.capacity) (taken : (s.map.entries i).key = some key) :
    f key.chars = some (s.map.entries i).value :=
  (h.binds _ _).mpr (mem_bindings.mpr ⟨i, key, inside, taken, rfl, rfl⟩)

/-- No slot with the key: no binding. -/
theorem eq_none {chars : List UInt8}
    (absent : ∀ i key, i < s.map.capacity → (s.map.entries i).key = some key → key.chars ≠ chars) :
    f chars = none := by
  cases bound : f chars with
  | none => rfl
  | some value =>
    obtain ⟨i, key, hi, taken, same, _⟩ := mem_bindings.mp ((h.binds _ _).mp bound)
    exact absurd same (absent i key hi taken)

variable (wellFormed : WellFormed t.map)
include wellFormed

/-- Only the items matter. -/
theorem of_perm (perm : items t.map.capacity t.map.entries ~ items s.map.capacity s.map.entries) :
    Represents t f := by
  refine ⟨wellFormed, fun key value => (h.binds key value).trans ?_⟩
  exact (perm.map _).mem_iff.symm

/-- One more item with a new key is one more binding. -/
theorem insert
    (perm : items t.map.capacity t.map.entries ~ (key, value) :: items s.map.capacity s.map.entries)
    (unbound : f key.chars = none) : Represents t (update f key.chars (some value)) := by
  refine ⟨wellFormed, fun chars v => ?_⟩
  rw [bindings, (perm.map _).mem_iff, List.map_cons, List.mem_cons]
  by_cases same : chars = key.chars
  · subst same
    rw [update_self]
    constructor
    · rintro ⟨⟩
      exact .inl rfl
    · rintro (equal | member)
      · cases equal
        rfl
      · rw [(h.binds _ _).mpr member] at unbound
        cases unbound
  · rw [update_of_ne same, h.binds]
    constructor
    · exact .inr
    · rintro (equal | member)
      · exact absurd (Prod.mk.inj equal).1 same
      · exact member

/-- A new value in the slot of a key changes that key's binding. -/
theorem replace {i : Nat} (inside : i < s.map.capacity) (taken : (s.map.entries i).key = some key)
    (capacity : t.map.capacity = s.map.capacity)
    (entries : t.map.entries = update s.map.entries i { s.map.entries i with value := value }) :
    Represents t (update f key.chars (some value)) := by
  have here : (t.map.entries i).key = some key ∧ (t.map.entries i).value = value := by
    rw [entries, update_self]
    exact ⟨taken, rfl⟩
  refine ⟨wellFormed, fun chars v => ?_⟩
  rw [mem_bindings]
  by_cases same : chars = key.chars
  · subst same
    rw [update_self]
    constructor
    · rintro ⟨⟩
      exact ⟨i, key, capacity ▸ inside, here.1, rfl, here.2⟩
    · rintro ⟨j, other, hj, found, equal, rfl⟩
      cases wellFormed.table.slot_unique hj (capacity ▸ inside) found here.1 equal
      rw [here.2]
  · rw [update_of_ne same, h.binds, mem_bindings]
    constructor
    · rintro ⟨j, other, hj, found, rfl, rfl⟩
      have apart : j ≠ i := by
        rintro rfl
        rw [taken] at found
        cases found
        exact same rfl
      refine ⟨j, other, capacity ▸ hj, ?_⟩
      rw [entries, update_of_ne apart]
      exact ⟨found, rfl, rfl⟩
    · rintro ⟨j, other, hj, found, rfl, rfl⟩
      have apart : j ≠ i := by
        rintro rfl
        rw [here.1] at found
        cases found
        exact same rfl
      refine ⟨j, other, capacity ▸ hj, ?_⟩
      rw [entries, update_of_ne apart] at found ⊢
      exact ⟨found, rfl, rfl⟩

/-- One item less is one binding less. -/
theorem erase
    (perm : (key, value) :: items t.map.capacity t.map.entries ~
      items s.map.capacity s.map.entries) :
    Represents t (update f key.chars none) := by
  have mapped := perm.map fun item : Key × Nat => (item.1.chars, item.2)
  rw [List.map_cons] at mapped
  have distinct : key.chars ∉ (bindings t.map).map Prod.fst := by
    have := (mapped.map Prod.fst).nodup_iff.mpr h.wellFormed.bindings_nodup
    exact (List.nodup_cons.mp this).1
  refine ⟨wellFormed, fun chars v => ?_⟩
  by_cases same : chars = key.chars
  · subst same
    rw [update_self]
    constructor
    · intro no
      cases no
    · intro member
      exact absurd (List.mem_map_of_mem member) distinct
  · rw [update_of_ne same, h.binds, bindings, ← mapped.mem_iff, List.mem_cons]
    constructor
    · rintro (equal | member)
      · exact absurd (Prod.mk.inj equal).1 same
      · exact member
    · exact .inr

end Represents

/-! ### The calls -/

section Calls

variable {s : State} {f : List UInt8 → Option Nat}

section

variable (h : Represents s f)
include h

/-- `lc_hashmap_set` once there is room in the table. -/
theorem insertCopy_spec (some_ : s.map.capacity ≠ 0)
    (room : 100 * (s.map.count + 1) ≤ 75 * s.map.capacity) (chars : List UInt8) (value : Nat) :
    ∃ t, insertCopy s chars value true = some (t, true) ∧
      Represents t (update f chars (some value)) ∧ (Settled s → Settled t) := by
  have wf := h.wellFormed
  obtain ⟨exponent, least, shape⟩ := wf.exists_shape some_
  obtain ⟨found, search, hit, miss⟩ := findSlot_spec wf.table shape (wf.few some_) chars
  cases found with
  | some i =>
    obtain ⟨inside, key, taken, rfl⟩ := hit i rfl
    obtain ⟨done, table, exchange⟩ :=
      hashmapInsertEntry_present wf.table shape ⟨s.copied, key.chars⟩ value inside taken rfl
    have length := exchange.length_eq
    rw [List.length_cons, List.length_cons, Nat.add_right_cancel_iff] at length
    have wf' : WellFormed ⟨update s.map.entries i
        { s.map.entries i with value := value }, s.map.capacity, s.map.count⟩ :=
      ⟨wf.shape, table, wf.count_eq.trans length.symm, wf.load⟩
    refine ⟨⟨⟨_, s.map.capacity, s.map.count⟩, s.copied + 1, s.copied :: s.freed⟩, ?_,
      h.replace wf' inside taken ?_ ?_, fun settled => settled.copy rfl ?_⟩
    · simp only [insertCopy, done]
      rfl
    · rfl
    · rfl
    · have same := exchange.map fun item => item.1.id
      rw [List.map_cons, List.map_cons] at same
      exact (same.cons_inv.append_right _).trans List.perm_middle
  | none =>
    obtain ⟨entries, done, table, perm⟩ :=
      hashmapInsertEntry_fresh wf.table shape (wf.few some_) ⟨s.copied, chars⟩ value (miss rfl)
    have bound := wf.capacity_le
    have count : add64 s.map.count 1 = s.map.count + 1 := add64_of_lt (by omega)
    have wf' : WellFormed ⟨entries, s.map.capacity, s.map.count + 1⟩ := by
      refine ⟨wf.shape, table, ?_, room⟩
      rw [perm.length_eq, List.length_cons, ← wf.count_eq]
    have inserted := h.insert (t := ⟨_, s.copied + 1, s.freed⟩) wf' perm (h.eq_none (miss rfl))
    refine ⟨_, ?_, inserted, fun settled => settled.copy rfl ?_⟩
    · simp only [insertCopy, done, count]
      rfl
    · exact (perm.map fun item => item.1.id).append_right _

theorem lcHashmapSet_spec (chars : List UInt8) (value : Nat) (allocates copies : Bool)
    (legal : allowed s (.set chars value allocates copies)) :
    ∃ t ok, lcHashmapSet s chars value allocates copies = some (t, ok) ∧
      (ok = true → Represents t (update f chars (some value))) ∧
      (ok = false → (allocates = false ∨ copies = false) ∧ Represents t f) ∧
      (Settled s → Settled t) := by
  -- With room in the table only the key copy can fail.
  have insert : ∀ {r : State}, Represents r f → r.map.capacity ≠ 0 →
      100 * (r.map.count + 1) ≤ 75 * r.map.capacity →
      ∃ t ok, insertCopy r chars value copies = some (t, ok) ∧
        (ok = true → Represents t (update f chars (some value))) ∧
        (ok = false → (allocates = false ∨ copies = false) ∧ Represents t f) ∧
        (Settled r → Settled t) := by
    intro r represents some_ room
    cases copies with
    | false => exact ⟨r, false, rfl, fun no => (nomatch no), fun _ => ⟨.inr rfl, represents⟩, id⟩
    | true =>
      obtain ⟨t, done, represents', settles⟩ := insertCopy_spec represents some_ room chars value
      exact ⟨t, true, done, fun _ => represents', fun no => (nomatch no), settles⟩
  rw [lcHashmapSet]
  split
  · next grow =>
    cases allocates with
    | false => exact ⟨s, false, rfl, fun no => (nomatch no), fun _ => ⟨.inl rfl, h⟩, id⟩
    | true =>
      obtain ⟨t, grown, wf, some_, perm, room, copied, freed⟩ :=
        hashmapGrow_spec h.wellFormed (legal grow rfl)
      rw [grown]
      obtain ⟨u, ok, done, bound, failed, settles⟩ := insert (h.of_perm wf perm) some_ room
      refine ⟨u, ok, done, bound, failed, fun settled => settles (settled.of_perm copied ?_)⟩
      rw [freed]
      exact (perm.map _).append_right _
  · next grow =>
    have enough := mt h.wellFormed.needsGrowth_iff.mpr grow
    exact insert h (fun zero => enough (.inl zero)) (by omega)

/-- What the three searching calls see. -/
theorem find_spec (some_ : s.map.capacity ≠ 0) (chars : List UInt8) :
    findSlot s.map chars = some none ∧ f chars = none ∨
      ∃ i key, findSlot s.map chars = some (some i) ∧ i < s.map.capacity ∧
        (s.map.entries i).key = some key ∧ key.chars = chars ∧
        f chars = some (s.map.entries i).value := by
  obtain ⟨exponent, least, shape⟩ := h.wellFormed.exists_shape some_
  obtain ⟨found, search, hit, miss⟩ :=
    findSlot_spec h.wellFormed.table shape (h.wellFormed.few some_) chars
  cases found with
  | none => exact .inl ⟨search, h.eq_none (miss rfl)⟩
  | some i =>
    obtain ⟨inside, key, taken, rfl⟩ := hit i rfl
    exact .inr ⟨i, key, search, inside, taken, rfl, h.eq_some inside taken⟩

theorem eq_none_of_capacity (zero : s.map.capacity = 0) (chars : List UInt8) : f chars = none := by
  apply h.eq_none
  intro i key hi
  omega

theorem lcHashmapGet_spec (chars : List UInt8) :
    lcHashmapGet s.map chars = some ((f chars).getD 0) := by
  rw [lcHashmapGet]
  by_cases zero : s.map.capacity = 0
  · rw [if_pos zero, eq_none_of_capacity h zero]
    rfl
  · rw [if_neg zero]
    rcases find_spec h zero chars with ⟨search, unbound⟩ | ⟨i, key, search, _, _, _, bound⟩
    · rw [search, unbound]
      rfl
    · rw [search, bound]
      rfl

theorem lcHashmapContains_spec (chars : List UInt8) :
    lcHashmapContains s.map chars = some (f chars).isSome := by
  rw [lcHashmapContains]
  by_cases zero : s.map.capacity = 0
  · rw [if_pos zero, eq_none_of_capacity h zero]
    rfl
  · rw [if_neg zero]
    rcases find_spec h zero chars with ⟨search, unbound⟩ | ⟨i, key, search, _, _, _, bound⟩
    · rw [search, unbound]
      rfl
    · rw [search, bound]
      rfl

theorem lcHashmapRemove_spec (chars : List UInt8) :
    ∃ t, lcHashmapRemove s chars = some (t, (f chars).getD 0) ∧
      Represents t (update f chars none) ∧ (Settled s → Settled t) := by
  rw [lcHashmapRemove]
  by_cases zero : s.map.capacity = 0
  · have unbound := eq_none_of_capacity h zero chars
    rw [if_pos zero, unbound, ← unbound, update_eq_self]
    exact ⟨s, by rw [unbound]; rfl, h, id⟩
  rw [if_neg zero]
  rcases find_spec h zero chars with ⟨search, unbound⟩ |
    ⟨i, key, search, inside, taken, rfl, bound⟩
  · refine ⟨s, by rw [search, unbound]; rfl, ?_, id⟩
    rw [← unbound, update_eq_self]
    exact h
  · have wf := h.wellFormed
    obtain ⟨exponent, least, shape⟩ := wf.exists_shape zero
    obtain ⟨entries, done, table, perm⟩ := remove_spec wf.table shape (wf.few zero) inside taken
    have length := perm.length_eq
    rw [List.length_cons, ← wf.count_eq] at length
    have load := wf.load
    have bounded := wf.capacity_le
    have count : sub64 s.map.count 1 = s.map.count - 1 := sub64_of_le (by omega) (by omega)
    have wf' : WellFormed ⟨entries, s.map.capacity, s.map.count - 1⟩ :=
      ⟨wf.shape, table, Nat.sub_eq_of_eq_add length.symm,
        Nat.le_trans (Nat.mul_le_mul_left _ (Nat.sub_le _ _)) load⟩
    refine ⟨⟨_, s.copied, key.id :: s.freed⟩, ?_, h.erase wf' perm,
      fun settled => settled.of_perm rfl ?_⟩
    · simp only [search, done, bound, count, taken]
      rfl
    · have moved := (perm.map fun item => item.1.id).append_right s.freed
      exact List.perm_middle.trans moved

end

theorem iterateFrom_spec (entries : Entries) (left i : Nat) :
    iterateFrom entries (fun _ _ => true) left i =
      ((List.range' i left).filterMap fun k => (view entries k).map Entry.item).map
        fun item => (item.1.chars, item.2) := by
  induction left generalizing i with
  | zero => rfl
  | succ left ih =>
    rw [iterateFrom, List.range'_succ, List.filterMap_cons]
    cases taken : (entries i).key with
    | none =>
      rw [view_eq_none.mpr taken]
      exact ih (i + 1)
    | some key =>
      rw [view_of_key taken, Option.map_some, item_of_key taken]
      dsimp only
      rw [if_pos rfl, ih (i + 1)]
      rfl

/-- With a callback that never stops, the visited bindings are all bindings. -/
@[simp] theorem lcHashmapIterate_eq (map : LcHashmap) :
    lcHashmapIterate map (fun _ _ => true) = bindings map := by
  rw [lcHashmapIterate, iterateFrom_spec, bindings, items, Probing.contents, List.range_eq_range']
  rfl

theorem count_spec (h : Represents s f) : s.map.count = Set.ncard {key | f key ≠ none} := by
  have keys : {key | f key ≠ none} =
      (((bindings s.map).map Prod.fst).toFinset : Set (List UInt8)) := by
    ext chars
    simp only [Set.mem_ofPred_eq, List.coe_toFinset, List.mem_map, Prod.exists, exists_and_right,
      exists_eq_right]
    rw [Option.ne_none_iff_exists']
    exact exists_congr fun value => h.binds chars value
  rw [keys, Set.ncard_coe_finset, List.toFinset_card_of_nodup h.wellFormed.bindings_nodup,
    h.wellFormed.count_eq, List.length_map, bindings, List.length_map]

end Calls

theorem hashmap_simulation :
    Simulation machine mapSpec fun s f => Represents s f ∧ Settled s where
  init := by
    refine ⟨⟨wellFormed_create, fun key value => ?_⟩, .nil⟩
    exact ⟨fun no => (nomatch no), fun no => (nomatch no)⟩
  call := by
    rintro s f call ⟨h, settled⟩ legal
    cases call with
    | set chars value allocates copies =>
      obtain ⟨t, ok, done, bound, failed, settles⟩ :=
        lcHashmapSet_spec h chars value allocates copies legal
      cases ok with
      | true =>
        exact ⟨t, .ok, _, by simp only [machine, exec, done]; rfl, rfl, bound rfl,
          settles settled⟩
      | false =>
        exact ⟨t, .nomem, f, by simp only [machine, exec, done]; rfl, ⟨(failed rfl).1, rfl⟩,
          (failed rfl).2, settles settled⟩
    | remove chars =>
      obtain ⟨t, done, represents, settles⟩ := lcHashmapRemove_spec h chars
      exact ⟨t, .value _, _, by simp only [machine, exec, done]; rfl, ⟨rfl, rfl⟩, represents,
        settles settled⟩
    | get chars =>
      exact ⟨s, .value _, f, by simp only [machine, exec, lcHashmapGet_spec h]; rfl,
        ⟨rfl, rfl⟩, h, settled⟩
    | contains chars =>
      exact ⟨s, .bool _, f, by simp only [machine, exec, lcHashmapContains_spec h]; rfl,
        ⟨rfl, rfl⟩, h, settled⟩
    | count => exact ⟨s, .count _, f, rfl, ⟨count_spec h, rfl⟩, h, settled⟩
    | iterate =>
      refine ⟨s, .visited _, f, rfl, ⟨?_, ?_, rfl⟩, h, settled⟩
      · rw [lcHashmapIterate_eq]
        exact h.wellFormed.bindings_nodup.of_map
      · intro key value
        rw [lcHashmapIterate_eq]
        exact (h.binds key value).symm

/-- Every history of calls from `lc_hashmap_create` is a history of the finite map
it leads to, whatever the hashes of the keys and whichever allocations fail; and
from the state reached every further call comes back with an answer the map
permits. -/
theorem hashmap_refines_map {history : List (Call × Reply)} {s : State}
    (run : machine.Run history s) :
    ∃ f, mapSpec.Run history f ∧
      (∀ key value, f key = some value ↔ (key, value) ∈ bindings s.map) ∧
      ∀ call, machine.allowed s call →
        ∃ t reply g, machine.exec s call = some (t, reply) ∧ mapCall f call reply g := by
  obtain ⟨f, abstract, represents, settled⟩ := hashmap_simulation.of_run run
  refine ⟨f, abstract, represents.binds, fun call legal => ?_⟩
  obtain ⟨t, reply, g, executed, answer, -⟩ :=
    hashmap_simulation.call s f call ⟨represents, settled⟩ legal
  exact ⟨t, reply, g, executed, answer⟩

/-- Two keys that want the same slot: the first is removed, the second shifts back
and is still found, and a failed copy changes nothing. -/
theorem hashmap_refines_map_colliding :
    fnv1a [97] &&& slotMask 16 = fnv1a [113] &&& slotMask 16 ∧
      ∃ s f, machine.Run
        [(.set [97] 7 true true, .ok), (.set [113] 8 false true, .ok), (.remove [97], .value 7),
          (.set [97] 9 true false, .nomem), (.get [113], .value 8)] s ∧
      mapSpec.Run
        [(.set [97] 7 true true, .ok), (.set [113] 8 false true, .ok), (.remove [97], .value 7),
          (.set [97] 9 true false, .nomem), (.get [113], .value 8)] f := by
  have first := (Machine.Run.nil (M := machine)).call (.set [97] 7 true true)
    (fun _ _ => by decide) rfl
  have second := first.call (.set [113] 8 false true) (fun _ no => nomatch no) rfl
  have third := second.call (.remove [97]) trivial rfl
  have fourth := third.call (.set [97] 9 true false) (fun _ _ => by decide) rfl
  have fifth := fourth.call (.get [113]) trivial rfl
  obtain ⟨f, abstract, _⟩ := hashmap_refines_map fifth
  exact ⟨by decide, _, f, fifth, abstract⟩

end Lightc.Data.Hashmap
