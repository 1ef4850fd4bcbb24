import Lightc.Data.Hashmap.Model
import Lightc.Verification.RobinHood

/-!
# The probe loops of the hash map

`Table` is what a table of the hash map always satisfies: items sit where the
Robin Hood discipline puts them, the cached hashes are the hashes of the keys and
no key occurs twice. Under it, and with one free slot, every loop comes back
within one turn: a search finds its key exactly if it is there, an insertion
either replaces a value or adds one item, and a backward shift removes one.
-/

namespace Lightc.Data.Hashmap

open Machine Verification Function
open scoped List

/-! ### Hashes, strings and slots -/

theorem memcmp_eq_zero {a b : List UInt8} (length : a.length = b.length) :
    memcmp a b = 0 ↔ a = b := by
  induction a generalizing b with
  | nil =>
    cases b with
    | nil => simp [memcmp]
    | cons y ys => simp at length
  | cons x xs ih =>
    cases b with
    | nil => simp at length
    | cons y ys =>
      rw [memcmp]
      by_cases same : x = y
      · rw [if_neg (by simpa using same), ih (by simpa using length)]
        simp [same]
      · have apart : (x.toNat : Int) - y.toNat ≠ 0 := by
          have := mt UInt8.toNat_inj.mp same
          omega
        simp [same, apart]

@[simp] theorem lcStringEqual_iff {a b : List UInt8} : lcStringEqual a b = true ↔ a = b := by
  rw [lcStringEqual]
  by_cases length : a.length = b.length
  · rw [if_neg (by simpa using length), beq_iff_eq]
    exact memcmp_eq_zero length
  · rw [if_pos length]
    exact ⟨fun no => (nomatch no), fun same => absurd (congrArg List.length same) length⟩

variable {entry : Entry} {present key : Key} {m : Nat}

@[simp] theorem matchesKey_iff {hash : Nat} {chars : List UInt8} :
    matchesKey entry present hash chars = true ↔ entry.hash = hash ∧ present.chars = chars := by
  simp [matchesKey]

/-- The table's geometry: a hash is the home of its entry. -/
def geometry (capacity : Nat) : Probing Entry := ⟨capacity, Entry.hash, Entry.distance⟩

/-- The slots of a table that are taken. -/
def view (entries : Entries) (i : Nat) : Option Entry :=
  match (entries i).key with
  | none => none
  | some _ => some (entries i)

/-- What an entry is for: a key copy and a value. -/
def Entry.item (entry : Entry) : Key × Nat := (entry.key.getD ⟨0, []⟩, entry.value)

def items (capacity : Nat) (entries : Entries) : List (Key × Nat) :=
  (geometry capacity).contents Entry.item (view entries)

variable {entries : Entries} {capacity exponent i j : Nat}

@[simp] theorem geometry_size : (geometry capacity).size = capacity := rfl

@[simp] theorem view_eq_none : view entries i = none ↔ (entries i).key = none := by
  cases empty : (entries i).key <;> simp [view, empty]

theorem view_eq_some :
    view entries i = some entry ↔ entries i = entry ∧ entry.key ≠ none := by
  cases taken : (entries i).key with
  | none =>
    simp only [view, taken, reduceCtorEq, false_iff, not_and, not_not]
    rintro rfl
    exact taken
  | some key =>
    simp only [view, taken, Option.some.injEq]
    constructor
    · rintro rfl
      exact ⟨rfl, by simp [taken]⟩
    · exact And.left

theorem view_of_key (taken : (entries i).key = some key) :
    view entries i = some (entries i) := by
  rw [view, taken]

theorem view_update (taken : entry.key ≠ none) (p : Nat) :
    view (update entries p entry) = update (view entries) p (some entry) := by
  funext i
  by_cases here : i = p
  · subst here
    rw [update_self, view_eq_some, update_self]
    exact ⟨rfl, taken⟩
  · rw [update_of_ne here, view, view, update_of_ne here]

@[simp] theorem view_clear (p : Nat) :
    view (update entries p .empty) = update (view entries) p none := by
  funext i
  by_cases here : i = p
  · subst here
    rw [update_self, view_eq_none, update_self, Entry.empty]
  · rw [update_of_ne here, view, view, update_of_ne here]

section Slots

variable (power : capacity = 2 ^ exponent) (small : exponent ≤ 32)
include power small

theorem slotMask_eq : slotMask capacity = 2 ^ exponent - 1 := by
  have bound : 2 ^ exponent ≤ 2 ^ 32 := Nat.pow_le_pow_right (by decide) small
  have positive := Nat.two_pow_pos exponent
  rw [slotMask, power, sub64_of_le (by omega) positive, Nat.mod_eq_of_lt (by omega)]

theorem and_slotMask (hash : Nat) :
    hash &&& slotMask capacity = (geometry capacity).slot hash 0 := by
  rw [slotMask_eq power small, Nat.and_two_pow_sub_one_eq_mod, Probing.slot, geometry_size, power,
    Nat.add_zero]

theorem nextSlot_eq (start j : Nat) :
    nextSlot (slotMask capacity) ((geometry capacity).slot start j) =
      (geometry capacity).slot start (j + 1) := by
  rw [nextSlot, slotMask_eq power small, Nat.and_two_pow_sub_one_eq_mod, add32,
    Nat.mod_mod_of_dvd _ (Nat.pow_dvd_pow 2 small), ← (geometry capacity).slot_slot start j 1]
  rw [Probing.slot, Probing.slot, geometry_size, power]

end Slots

/-! ### The table invariant -/

structure Table (capacity : Nat) (entries : Entries) : Prop where
  placed : (geometry capacity).Placed (view entries)
  hashed : ∀ i key, i < capacity → (entries i).key = some key →
    (entries i).hash = fnv1a key.chars
  distinct : ((items capacity entries).map fun item => item.1.chars).Nodup

/-- The shape of every table that is ever allocated. -/
structure Shape (capacity exponent : Nat) : Prop where
  power : capacity = 2 ^ exponent
  least : 1 ≤ exponent
  small : exponent ≤ 32

namespace Shape

variable (h : Shape capacity exponent)
include h

theorem two_le : 2 ≤ capacity := by
  rw [h.power]
  exact Nat.pow_le_pow_right (n := 2) (by decide) h.least

theorem le_range : capacity ≤ 2 ^ 32 := by
  rw [h.power]
  exact Nat.pow_le_pow_right (by decide) h.small

theorem add32_lt (inside : j + 1 < capacity) : add32 j 1 = j + 1 := by
  have := h.le_range
  exact Nat.mod_eq_of_lt (by omega)

end Shape

theorem chars_contents : ((items capacity entries).map fun item => item.1.chars) =
    (geometry capacity).contents (fun entry => entry.item.1.chars) (view entries) := by
  simp only [items, Probing.contents, List.map_filterMap, Option.map_map]
  rfl

theorem item_of_key (taken : entry.key = some key) :
    entry.item = (key, entry.value) := by
  rw [Entry.item, taken, Option.getD_some]

namespace Table

variable (h : Table capacity entries)
include h

/-- A key stands in one slot only. -/
theorem slot_unique {first second : Key} (hi : i < capacity) (hj : j < capacity)
    (atI : (entries i).key = some first) (atJ : (entries j).key = some second)
    (same : first.chars = second.chars) : i = j := by
  have distinct := h.distinct
  rw [chars_contents] at distinct
  refine Probing.slot_eq_of_nodup distinct hi hj (view_of_key atI) (view_of_key atJ) ?_
  rw [item_of_key atI, item_of_key atJ]
  exact same

/-- Where a key is, seen from its hash. -/
theorem offset_of_key {key : Key} (hi : i < capacity) (taken : (entries i).key = some key) :
    (entries i).distance < capacity ∧
      (geometry capacity).slot (fnv1a key.chars) (entries i).distance = i := by
  rw [← h.hashed i key hi taken]
  exact h.placed.here i (entries i) hi (view_of_key taken)

/-- A search may stop where it meets a free slot or an item closer to home. -/
theorem absent_of_stop (positive : 0 < capacity) {chars : List UInt8}
    (passed : ∀ k, k < j → ∀ key,
      (entries ((geometry capacity).slot (fnv1a chars) k)).key = some key →
      key.chars ≠ chars)
    (stop : ∀ key, (entries ((geometry capacity).slot (fnv1a chars) j)).key = some key →
      (entries ((geometry capacity).slot (fnv1a chars) j)).distance < j) :
    ∀ i key, i < capacity → (entries i).key = some key → key.chars ≠ chars := by
  rintro i key hi taken rfl
  obtain ⟨_, at_⟩ := h.offset_of_key hi taken
  have found : view entries ((geometry capacity).slot (fnv1a key.chars) (entries i).distance) =
      some (entries i) := by
    rw [at_]
    exact view_of_key taken
  have before : (entries i).distance < j := by
    refine h.placed.dist_lt_of_stop positive found rfl ?_
    intro y occupied
    obtain ⟨same, isKey⟩ := view_eq_some.mp occupied
    obtain ⟨other, otherKey⟩ := Option.ne_none_iff_exists'.mp isKey
    rw [← same] at otherKey ⊢
    exact stop other otherKey
  exact passed _ before key (by rw [at_]; exact taken) rfl

end Table

/-! ### Searching -/

/-- The search loop from offset `j` on, with a free slot at offset `m`. -/
theorem findLoop_spec (h : Table capacity entries) (shape : Shape capacity exponent)
    {chars : List UInt8} (inside : m < capacity)
    (free : (entries ((geometry capacity).slot (fnv1a chars) m)).key = none) (rounds j : Nat)
    (reaches : j ≤ m) (enough : m < j + rounds)
    (passed : ∀ k, k < j → ∀ key, (entries ((geometry capacity).slot (fnv1a chars) k)).key = some
      key → key.chars ≠ chars) :
    ∃ found, findLoop entries (slotMask capacity) (fnv1a chars) chars rounds j
        ((geometry capacity).slot (fnv1a chars) j) = some found ∧
      (∀ i, found = some i → i < capacity ∧ ∃ key, (entries i).key = some key ∧ key.chars = chars) ∧
      (found = none → ∀ i key, i < capacity → (entries i).key = some key → key.chars ≠ chars) := by
  have positive : 0 < capacity := by have := shape.two_le; omega
  induction rounds generalizing j with
  | zero => omega
  | succ rounds ih =>
    rw [findLoop]
    cases present : (entries ((geometry capacity).slot (fnv1a chars) j)).key with
    | none =>
      refine ⟨none, rfl, fun _ no => (nomatch no), fun _ => ?_⟩
      exact h.absent_of_stop positive passed fun key taken => nomatch present.symm.trans taken
    | some other =>
      dsimp only
      by_cases richer : j > (entries ((geometry capacity).slot (fnv1a chars) j)).distance
      · rw [if_pos richer]
        refine ⟨none, rfl, fun _ no => (nomatch no), fun _ => ?_⟩
        exact h.absent_of_stop positive passed fun _ _ => richer
      rw [if_neg richer]
      by_cases same : other.chars = chars
      · -- The cached hash agrees whenever the strings do.
        have slotLt := (geometry capacity).slot_lt positive (fnv1a chars) j
        have hashed := h.hashed _ other slotLt present
        rw [if_pos (matchesKey_iff.mpr ⟨by rw [hashed, same], same⟩)]
        refine ⟨_, rfl, ?_, fun no => (nomatch no)⟩
        rintro i ⟨⟩
        exact ⟨slotLt, other, present, same⟩
      · have beyond : j ≠ m := by
          rintro rfl
          rw [free] at present
          cases present
        rw [if_neg (fun hit => same (matchesKey_iff.mp hit).2), shape.add32_lt (by omega),
          nextSlot_eq shape.power shape.small]
        refine ih (j + 1) (by omega) (by omega) ?_
        intro k hk key taken
        by_cases last : k = j
        · subst last
          rw [present] at taken
          cases taken
          exact same
        · exact passed k (by omega) key taken

theorem exists_free_offset (start : Nat)
    (few : (items capacity entries).length < capacity) :
    ∃ m, m < capacity ∧ (entries ((geometry capacity).slot start m)).key = none := by
  obtain ⟨z, inside, free⟩ := (geometry capacity).exists_free Entry.item few
  obtain ⟨m, hm, rfl⟩ := (geometry capacity).exists_slot_eq start inside
  exact ⟨m, hm, view_eq_none.mp free⟩

/-- A search finds the slot of its key, or there is none. -/
theorem findSlot_spec {map : LcHashmap} (h : Table map.capacity map.entries)
    (shape : Shape map.capacity exponent)
    (few : (items map.capacity map.entries).length < map.capacity) (chars : List UInt8) :
    ∃ found, findSlot map chars = some found ∧
      (∀ i, found = some i →
        i < map.capacity ∧ ∃ key, (map.entries i).key = some key ∧ key.chars = chars) ∧
      (found = none →
        ∀ i key, i < map.capacity → (map.entries i).key = some key → key.chars ≠ chars) := by
  obtain ⟨m, inside, free⟩ := exists_free_offset (fnv1a chars) few
  rw [findSlot, and_slotMask shape.power shape.small]
  exact findLoop_spec h shape inside free map.capacity 0 (Nat.zero_le _) (by omega)
    fun k no => absurd no (Nat.not_lt_zero k)

/-! ### Inserting -/

/-- Writing one slot: the item that was there leaves, the new one enters. -/
theorem items_update (entries : Entries) (entry : Entry) (taken : entry.key ≠ none) {p : Nat}
    (inside : p < capacity) :
    ((view entries p).map Entry.item).toList ++ items capacity (update entries p entry) ~
      entry.item :: items capacity entries := by
  have := Probing.contents_update (P := geometry capacity) (T := view entries) Entry.item inside
    (some entry)
  rwa [← view_update taken] at this

def Hashed (capacity : Nat) (entries : Entries) : Prop :=
  ∀ i key, i < capacity → (entries i).key = some key → (entries i).hash = fnv1a key.chars

theorem Hashed.update (h : Hashed capacity entries) {p : Nat}
    (ok : ∀ key, entry.key = some key → entry.hash = fnv1a key.chars) :
    Hashed capacity (Function.update entries p entry) :=
  (Function.forall_update_iff entries fun i entry => ∀ key, i < capacity →
    entry.key = some key → entry.hash = fnv1a key.chars).mpr ⟨fun key _ => ok key, fun i _ => h i⟩

/-- An insertion in progress: the table without the entry that is being carried,
which stands at offset `j` from the hash of the original key and at distance
`distance` from its own. The slots from `j` on have not been touched. -/
structure Carry (capacity : Nat) (start : Nat) (original entries : Entries) (incoming : Entry)
    (distance j : Nat) : Prop where
  placed : (geometry capacity).Placed (view entries)
  hashed : Hashed capacity entries
  isKey : incoming.key ≠ none
  own : ∀ key, incoming.key = some key → incoming.hash = fnv1a key.chars
  home : (geometry capacity).slot incoming.hash distance = (geometry capacity).slot start j
  before : ∃ q, q < capacity ∧ (geometry capacity).slot q 1 = (geometry capacity).slot start j ∧
    (geometry capacity).Supports (view entries) q distance
  ahead : ∀ k, j ≤ k → k < capacity →
    entries ((geometry capacity).slot start k) = original ((geometry capacity).slot start k)

namespace Carry

variable {start distance : Nat} {original : Entries} {incoming : Entry}

variable (h : Carry capacity start original entries incoming distance j)
include h

/-- The carried entry takes the slot it stands at. -/
theorem put (two : 2 ≤ capacity) (near : distance < capacity)
    (richer : ∀ entry, view entries ((geometry capacity).slot start j) = some entry →
      entry.distance ≤ distance) :
    (geometry capacity).Placed (view (update entries ((geometry capacity).slot start j)
        { incoming with distance := distance })) ∧
      Hashed capacity (update entries ((geometry capacity).slot start j)
        { incoming with distance := distance }) := by
  obtain ⟨q, hq, slot, support⟩ := h.before
  refine ⟨?_, h.hashed.update h.own⟩
  rw [view_update (by exact h.isKey), ← slot]
  apply h.placed.put (x := ({ incoming with distance := distance } : Entry)) two hq near
  · rw [slot]
    exact h.home
  · exact support
  · rw [slot]
    exact richer

/-- While a slot ahead is free, distances stay below the table size. -/
theorem distance_lt {m : Nat} (inside : m < capacity) (reaches : j ≤ m)
    (free : (original ((geometry capacity).slot start m)).key = none) : distance < capacity := by
  obtain ⟨q, hq, _, support⟩ := h.before
  refine h.placed.lt_of_supports ((geometry capacity).slot_lt (Nat.zero_lt_of_lt hq) start m) ?_ hq
    support
  rw [view_eq_none, h.ahead m reaches inside]
  exact free

/-- The carried entry moves past an item that is at least as far from home. -/
theorem pass (inside : j < capacity) {key : Key}
    (taken : (entries ((geometry capacity).slot start j)).key = some key)
    (far : distance ≤ (entries ((geometry capacity).slot start j)).distance) :
    Carry capacity start original entries incoming (distance + 1) (j + 1) where
  placed := h.placed
  hashed := h.hashed
  isKey := h.isKey
  own := h.own
  home := by rw [← Probing.slot_slot, h.home, Probing.slot_slot]
  before := by
    refine ⟨_, (geometry capacity).slot_lt (Nat.zero_lt_of_lt inside) start j,
      Probing.slot_slot .., .inr ⟨_, view_of_key taken, ?_⟩⟩
    exact Nat.succ_le_succ far
  ahead k hk := h.ahead k (by omega)

/-- The carried entry is exchanged for an item closer to home. -/
theorem swap (two : 2 ≤ capacity) (inside : j < capacity) (near : distance < capacity) {key : Key}
    (taken : (entries ((geometry capacity).slot start j)).key = some key)
    (rich : (entries ((geometry capacity).slot start j)).distance < distance) :
    Carry capacity start original
      (update entries ((geometry capacity).slot start j)
        { incoming with distance := distance })
      (entries ((geometry capacity).slot start j))
      ((entries ((geometry capacity).slot start j)).distance + 1) (j + 1) := by
  have slotLt := (geometry capacity).slot_lt (Nat.zero_lt_of_lt inside) start j
  obtain ⟨placed, hashed⟩ := h.put two near (by
    intro entry occupied
    rw [(view_eq_some.mp occupied).1] at rich
    exact Nat.le_of_lt rich)
  refine ⟨placed, hashed, by rw [taken]; exact Option.some_ne_none _,
    fun other same => h.hashed _ other slotLt same, ?_, ?_, ?_⟩
  · have here : (geometry capacity).slot (entries ((geometry capacity).slot start j)).hash
        (entries ((geometry capacity).slot start j)).distance = (geometry capacity).slot start j :=
      (h.placed.here _ _ slotLt (view_of_key taken)).2
    rw [← Probing.slot_slot, here, Probing.slot_slot]
  · refine ⟨_, slotLt, Probing.slot_slot .., .inr ⟨{ incoming with distance := distance }, ?_, ?_⟩⟩
    · rw [view_eq_some, update_self]
      exact ⟨rfl, h.isKey⟩
    · exact Nat.succ_le_succ (Nat.le_of_lt rich)
  · intro k hk inside'
    have other : (geometry capacity).slot start k ≠ (geometry capacity).slot start j := by
      intro same
      have := (geometry capacity).slot_injective inside' inside same
      omega
    rw [update_of_ne other]
    exact h.ahead k (by omega) inside'

end Carry

/-- The insertion loop for a key that is not in the table. -/
theorem insertLoop_fresh (shape : Shape capacity exponent) {start : Nat} {original : Entries}
    (value : Nat) (inside : m < capacity)
    (free : (original ((geometry capacity).slot start m)).key = none)
    (absent : ∀ i other, i < capacity → (original i).key = some other → other.chars ≠ key.chars)
    (rounds j distance : Nat) (entries : Entries) (incoming : Entry) (reaches : j ≤ m)
    (enough : m < j + rounds) (carry : Carry capacity start original entries incoming distance j) :
    ∃ result, insertLoop (slotMask capacity) key value start rounds entries incoming distance
        ((geometry capacity).slot start j) = some (result, true, []) ∧
      (geometry capacity).Placed (view result) ∧ Hashed capacity result ∧
      items capacity result ~ incoming.item :: items capacity entries := by
  have two := shape.two_le
  induction rounds generalizing j distance entries incoming with
  | zero => omega
  | succ rounds ih =>
    have near := carry.distance_lt inside reaches free
    have slotLt := (geometry capacity).slot_lt (show 0 < capacity by omega) start j
    rw [insertLoop]
    cases present : (entries ((geometry capacity).slot start j)).key with
    | none =>
      obtain ⟨placed, hashed⟩ := carry.put two near (by
        intro entry occupied
        rw [view_eq_none.mpr present] at occupied
        cases occupied)
      refine ⟨_, rfl, placed, hashed, ?_⟩
      have := items_update entries { incoming with distance := distance } carry.isKey slotLt
      rw [view_eq_none.mpr present] at this
      exact this
    | some other =>
      have untouched := carry.ahead j (Nat.le_refl _) (by omega)
      have beyond : j ≠ m := by
        rintro rfl
        rw [untouched, free] at present
        cases present
      have different : ¬ matchesKey (entries ((geometry capacity).slot start j)) other start
          key.chars = true := by
        intro hit
        exact absent _ other slotLt (untouched ▸ present) (matchesKey_iff.mp hit).2
      dsimp only
      rw [if_neg different, nextSlot_eq shape.power shape.small]
      split
      · next rich =>
        have swapped := carry.swap two (by omega) near present rich
        have bound := swapped.distance_lt inside (by omega) free
        rw [shape.add32_lt bound]
        obtain ⟨result, done, placed, hashed, perm⟩ :=
          ih (j + 1) _ _ _ (by omega) (by omega) swapped
        refine ⟨result, done, placed, hashed, perm.trans ?_⟩
        have := items_update entries { incoming with distance := distance } carry.isKey
          slotLt
        rw [view_of_key present] at this
        exact this
      · next rich =>
        have passed := carry.pass (by omega) present (Nat.le_of_not_lt rich)
        have bound := passed.distance_lt inside (by omega) free
        rw [shape.add32_lt bound]
        exact ih (j + 1) _ _ _ (by omega) (by omega) passed

section

variable (h : Table capacity entries)
include h

/-- The insertion loop for a key that stands at offset `d`. -/
theorem insertLoop_present (shape : Shape capacity exponent) (value : Nat) (incoming : Entry)
    {d : Nat} (inside : d < capacity)
    (found : (entries ((geometry capacity).slot (fnv1a key.chars) d)).key = some present)
    (same : present.chars = key.chars)
    (distance : (entries ((geometry capacity).slot (fnv1a key.chars) d)).distance = d)
    (rounds j : Nat) (reaches : j ≤ d) (enough : d < j + rounds) :
    insertLoop (slotMask capacity) key value (fnv1a key.chars) rounds entries incoming j
        ((geometry capacity).slot (fnv1a key.chars) j) =
      some (update entries ((geometry capacity).slot (fnv1a key.chars) d)
        { entries ((geometry capacity).slot (fnv1a key.chars) d) with value := value },
        false, [key.id]) := by
  have positive : 0 < capacity := by omega
  induction rounds generalizing j with
  | zero => omega
  | succ rounds ih =>
    rw [insertLoop]
    by_cases arrived : j = d
    · subst arrived
      have hashed := h.hashed _ present ((geometry capacity).slot_lt positive _ _) found
      simp only [found]
      rw [if_pos (matchesKey_iff.mpr ⟨by rw [hashed, same], same⟩)]
    · -- Every slot on the way is taken by another key, no closer to home.
      obtain ⟨y, occupied, far⟩ := h.placed.reach positive (view_of_key found)
        (Nat.le_of_eq distance.symm) j reaches
      obtain ⟨rfl, isKey⟩ := view_eq_some.mp occupied
      obtain ⟨other, otherKey⟩ := Option.ne_none_iff_exists'.mp isKey
      change j ≤ (entries _).distance at far
      have different : other.chars ≠ key.chars := by
        intro equal
        have := h.slot_unique ((geometry capacity).slot_lt positive _ _)
          ((geometry capacity).slot_lt positive _ _) otherKey found (equal.trans same.symm)
        exact arrived ((geometry capacity).slot_injective (by simp; omega) inside this)
      simp only [otherKey]
      rw [if_neg (fun hit => different (matchesKey_iff.mp hit).2), if_neg (Nat.not_lt_of_le far),
        shape.add32_lt (by omega), nextSlot_eq shape.power shape.small]
      exact ih (j + 1) (by omega) (by omega)

theorem Table.of_perm {result : Entries} {value : Nat}
    (placed : (geometry capacity).Placed (view result)) (hashed : Hashed capacity result)
    (perm : items capacity result ~ (key, value) :: items capacity entries)
    (absent : ∀ i other, i < capacity → (entries i).key = some other → other.chars ≠ key.chars) :
    Table capacity result := by
  refine ⟨placed, hashed, ?_⟩
  rw [(perm.map _).nodup_iff, List.map_cons, List.nodup_cons]
  refine ⟨?_, h.distinct⟩
  simp only [List.mem_map, not_exists, not_and]
  rintro item member same
  obtain ⟨i, entry, hi, occupied, rfl⟩ := Probing.mem_contents.mp member
  obtain ⟨rfl, isKey⟩ := view_eq_some.mp occupied
  obtain ⟨other, taken⟩ := Option.ne_none_iff_exists'.mp isKey
  rw [item_of_key taken] at same
  exact absent i other hi taken same

/-- A key that is not there is added. -/
theorem hashmapInsertEntry_fresh (shape : Shape capacity exponent)
    (few : (items capacity entries).length < capacity) (key : Key) (value : Nat)
    (absent : ∀ i other, i < capacity → (entries i).key = some other → other.chars ≠ key.chars) :
    ∃ result, hashmapInsertEntry entries capacity key value (fnv1a key.chars) =
        some (result, true, []) ∧ Table capacity result ∧
      items capacity result ~ (key, value) :: items capacity entries := by
  obtain ⟨m, inside, free⟩ := exists_free_offset (fnv1a key.chars) few
  have positive : 0 < capacity := Nat.zero_lt_of_lt inside
  have start : Carry capacity (fnv1a key.chars) entries entries
      ⟨some key, value, fnv1a key.chars, 0⟩ 0 0 := by
    refine ⟨h.placed, h.hashed, Option.some_ne_none _, ?_, rfl, ?_, fun _ _ _ => rfl⟩
    · rintro _ ⟨⟩
      rfl
    · obtain ⟨q, hq, slot⟩ := Probing.exists_slot_one_eq
        ((geometry capacity).slot_lt positive (fnv1a key.chars) 0)
      exact ⟨q, hq, slot, .inl rfl⟩
  obtain ⟨result, done, placed, hashed, perm⟩ := insertLoop_fresh shape value inside free
    absent capacity 0 0 entries _ (Nat.zero_le _) (by omega) start
  rw [hashmapInsertEntry, and_slotMask shape.power shape.small]
  exact ⟨result, done, h.of_perm placed hashed perm absent, perm⟩

/-- A key that is there keeps its slot and its copy, and gets the new value. -/
theorem hashmapInsertEntry_present (shape : Shape capacity exponent) (key : Key) (value : Nat)
    (inside : i < capacity) (found : (entries i).key = some present)
    (same : present.chars = key.chars) :
    hashmapInsertEntry entries capacity key value (fnv1a key.chars) =
        some (update entries i { entries i with value := value }, false, [key.id]) ∧
      Table capacity (update entries i { entries i with value := value }) ∧
      (present, (entries i).value) ::
          items capacity (update entries i { entries i with value := value }) ~
        (present, value) :: items capacity entries := by
  obtain ⟨near, slot⟩ := h.offset_of_key inside found
  rw [same] at slot
  have isKey : ({ entries i with value := value } : Entry).key ≠ none := by simp [found]
  have exchange : (present, (entries i).value) ::
      items capacity (update entries i { entries i with value := value }) ~
      (present, value) :: items capacity entries := by
    have update := items_update entries _ isKey inside
    have found' : ({ entries i with value := value } : Entry).key = some present := found
    rw [view_of_key found, item_of_key found'] at update
    simpa [item_of_key found] using update
  refine ⟨?_, ⟨?_, ?_, ?_⟩, exchange⟩
  · rw [hashmapInsertEntry, and_slotMask shape.power shape.small]
    have done := insertLoop_present h shape value
      ⟨some key, value, fnv1a key.chars, 0⟩ near (by rw [slot]; exact found) same
      (by rw [slot]) capacity 0 (Nat.zero_le _) (by omega)
    rwa [slot] at done
  · -- The entry keeps its hash and its distance.
    rw [view_update isKey]
    obtain ⟨q, hq, rfl⟩ := Probing.exists_slot_one_eq (P := geometry capacity) inside
    have here := h.placed.here _ _ inside (view_of_key found)
    apply h.placed.put (x := ({ entries _ with value := value } : Entry)) shape.two_le hq here.1
      here.2
    · exact h.placed.chain q (entries _) hq (view_of_key found)
    · intro y occupied
      rw [← (view_eq_some.mp occupied).1]
      exact Nat.le_refl _
  · exact Hashed.update h.hashed fun other taken => h.hashed i other inside taken
  · have chars := exchange.map fun item => item.1.chars
    rw [List.map_cons, List.map_cons] at chars
    rw [chars.cons_inv.nodup_iff]
    exact h.distinct

/-! ### Deleting -/

omit h in
/-- One round of the shift loop. `moved` is the entry behind the hole as it is
written into it; the hole is then the slot that entry came from. -/
theorem shift_round (two : 2 ≤ capacity) {q d : Nat} {moved : Entry} (hq : q < capacity)
    (hashed : Hashed capacity entries)
    (hole : (geometry capacity).Hole (update (view entries) ((geometry capacity).slot q 1)
      none) q d) (taken : (entries ((geometry capacity).slot q 2)).key = some key)
    (away : 0 < (entries ((geometry capacity).slot q 2)).distance)
    (written : moved = { entries ((geometry capacity).slot q 2) with distance := (entries
      ((geometry capacity).slot q 2)).distance - 1 }) :
    (geometry capacity).Hole
        (update (view (update entries ((geometry capacity).slot q 1) moved))
          ((geometry capacity).slot ((geometry capacity).slot q 1) 1) none)
        ((geometry capacity).slot q 1) (entries ((geometry capacity).slot q 2)).distance ∧
      Hashed capacity (update entries ((geometry capacity).slot q 1) moved) ∧
      (geometry capacity).contents Entry.item
          (update (view (update entries ((geometry capacity).slot q 1) moved))
            ((geometry capacity).slot ((geometry capacity).slot q 1) 1) none) ~
        (geometry capacity).contents Entry.item
          (update (view entries) ((geometry capacity).slot q 1) none) := by
  have positive : 0 < capacity := by omega
  have emptyLt := (geometry capacity).slot_lt positive q 1
  have nextLt := (geometry capacity).slot_lt positive q 2
  have next : (geometry capacity).slot ((geometry capacity).slot q 1) 1 =
      (geometry capacity).slot q 2 := Probing.slot_slot _ q 1 1
  have apart : (geometry capacity).slot q 2 ≠ (geometry capacity).slot q 1 := by
    rw [← next]
    exact Probing.slot_one_ne two emptyLt
  have movedKey : moved.key ≠ none := by
    rw [written]
    simp [taken]
  have table : update (view (update entries ((geometry capacity).slot q 1) moved))
      ((geometry capacity).slot ((geometry capacity).slot q 1) 1) none =
      update (update
        (update (view entries) ((geometry capacity).slot q 1) none)
        ((geometry capacity).slot q 1) (some moved)) ((geometry capacity).slot q 2) none := by
    rw [view_update movedKey, update_idem, next]
  have behind : update (view entries) ((geometry capacity).slot q 1) none
      ((geometry capacity).slot q 2) = some (entries ((geometry capacity).slot q 2)) := by
    rw [update_of_ne apart]
    exact view_of_key taken
  rw [table]
  generalize update (view entries) ((geometry capacity).slot q 1) none = T
    at hole behind
  refine ⟨hole.shift two hq behind away (by rw [written]; rfl) (by rw [written]; rfl), ?_, ?_⟩
  · apply hashed.update
    rw [written]
    exact fun other same => hashed _ other nextLt same
  · -- The item enters one slot and leaves the other.
    have enter := Probing.contents_update (T := T) Entry.item emptyLt (some moved)
    have leave := Probing.contents_update
      (T := update T ((geometry capacity).slot q 1) (some moved)) Entry.item nextLt none
    rw [hole.free] at enter
    rw [update_of_ne apart, behind] at leave
    have same : moved.item = (entries ((geometry capacity).slot q 2)).item := by
      rw [written]
      rfl
    rw [Option.map_some, same] at enter
    exact (leave.trans enter).cons_inv

omit h in
/-- The shift loop, when the hole is the slot behind `q`. The slot itself still
holds what was there before; the table is the one without it. -/
theorem shiftLoop_spec (shape : Shape capacity exponent) (rounds : Nat) (entries : Entries)
    (q d m : Nat) (hq : q < capacity) (hashed : Hashed capacity entries)
    (hole : (geometry capacity).Hole
      (update (view entries) ((geometry capacity).slot q 1) none) q d)
    (inside : m + 1 < capacity) (enough : m < rounds)
    (free : (entries ((geometry capacity).slot q (m + 2))).key = none) :
    ∃ result, shiftLoop (slotMask capacity) rounds entries ((geometry capacity).slot q 1)
        ((geometry capacity).slot q 2) = some result ∧
      (geometry capacity).Placed (view result) ∧ Hashed capacity result ∧
      items capacity result ~ (geometry capacity).contents Entry.item
        (update (view entries) ((geometry capacity).slot q 1) none) := by
  have two := shape.two_le
  have positive : 0 < capacity := by omega
  have emptyLt := fun q => (geometry capacity).slot_lt positive q 1
  induction rounds generalizing entries q d m with
  | zero => omega
  | succ rounds ih =>
    rw [shiftLoop]
    split
    · rename_i shifts
      obtain ⟨isKey, away⟩ := shifts
      obtain ⟨key, taken⟩ := Option.ne_none_iff_exists'.mp isKey
      have notLast : m ≠ 0 := by
        rintro rfl
        exact isKey free
      obtain ⟨hole', hashed', perm⟩ := shift_round two hq hashed hole taken away rfl
      have stays : (geometry capacity).slot q (m + 2) ≠ (geometry capacity).slot q 1 := by
        rw [show m + 2 = 1 + (m + 1) by omega, ← Probing.slot_slot]
        exact Probing.slot_ne (emptyLt q) (by omega) inside
      obtain ⟨result, done, placed, hashedResult, permResult⟩ := ih _
        ((geometry capacity).slot q 1) _ (m - 1) (emptyLt q) hashed' hole' (by omega) (by omega)
        (by
          rw [Probing.slot_slot, show 1 + (m - 1 + 2) = m + 2 by omega,
            update_of_ne stays]
          exact free)
      refine ⟨result, ?_, placed, hashedResult, permResult.trans perm⟩
      rw [Probing.slot_slot, Probing.slot_slot] at done
      rw [nextSlot_eq shape.power shape.small]
      exact done
    · rename_i stops
      refine ⟨_, rfl, ?_, hashed.update (fun _ no => (nomatch no)), ?_⟩
      · rw [view_clear]
        apply hole.close
        intro entry occupied
        have apart : (geometry capacity).slot q 2 ≠ (geometry capacity).slot q 1 := by
          rw [← Probing.slot_slot _ q 1 1]
          exact Probing.slot_one_ne two (emptyLt q)
        rw [update_of_ne apart] at occupied
        obtain ⟨rfl, isKey⟩ := view_eq_some.mp occupied
        exact Nat.eq_zero_of_not_pos fun away => stops ⟨isKey, away⟩
      · rw [items, view_clear]

/-- A key that stands in slot `i` is removed, and nothing else is. -/
theorem remove_spec (shape : Shape capacity exponent)
    (few : (items capacity entries).length < capacity) (inside : i < capacity)
    (found : (entries i).key = some key) :
    ∃ result, shiftLoop (slotMask capacity) capacity entries i (nextSlot (slotMask capacity) i) =
        some result ∧ Table capacity result ∧
      (key, (entries i).value) :: items capacity result ~ items capacity entries := by
  have positive : 0 < capacity := Nat.zero_lt_of_lt inside
  obtain ⟨q, hq, rfl⟩ := Probing.exists_slot_one_eq (P := geometry capacity) inside
  obtain ⟨k, hk, free⟩ := exists_free_offset ((geometry capacity).slot q 2) few
  have offset : k + 1 < capacity := by
    refine Nat.lt_of_le_of_ne hk fun last => ?_
    rw [Probing.slot_slot, show 2 + k = 1 + (k + 1) by omega, last, ← Probing.slot_slot] at free
    rw [show (geometry capacity).slot ((geometry capacity).slot q 1) capacity =
      (geometry capacity).slot q 1 by simp [Probing.slot], found] at free
    cases free
  have hole := h.placed.vacate shape.two_le hq (view_of_key found)
  obtain ⟨result, done, placed, hashed, perm⟩ := shiftLoop_spec shape capacity entries q _ k hq
    h.hashed hole offset (by omega) (by rw [Probing.slot_slot, Nat.add_comm] at free; exact free)
  have removed : (key, (entries ((geometry capacity).slot q 1)).value) :: items capacity result ~
      items capacity entries := by
    have leave := Probing.contents_update (P := geometry capacity) (T := view entries) Entry.item
      inside none
    rw [view_of_key found] at leave
    rw [← item_of_key found]
    exact (perm.cons _).trans leave
  refine ⟨result, ?_, ⟨placed, hashed, ?_⟩, removed⟩
  · rw [nextSlot_eq shape.power shape.small]
    exact done
  · have chars := (removed.map fun item => item.1.chars).nodup_iff.mpr h.distinct
    exact (List.nodup_cons.mp chars).2

end

/-! ### Growing -/

@[simp] theorem items_succ (n : Nat) :
    items (n + 1) entries = items n entries ++ ((view entries n).map Entry.item).toList := by
  simp only [items, Probing.contents, geometry, List.range_succ, List.filterMap_append,
    List.filterMap_cons, List.filterMap_nil]
  cases view entries n <;> rfl

theorem table_empty (capacity : Nat) : Table capacity fun _ => .empty := by
  have free : ∀ i, view (fun _ => .empty) i = none := fun i => rfl
  refine ⟨⟨fun i x _ found => ?_, fun q x _ found => ?_⟩, fun i key _ found => (nomatch found), ?_⟩
  · rw [free] at found
    cases found
  · rw [free] at found
    cases found
  · have : items capacity (fun _ => .empty) = [] := by
      simp [items, Probing.contents, free]
    rw [this]
    exact .nil

@[simp] theorem mem_items {item : Key × Nat} :
    item ∈ items capacity entries ↔
      ∃ i key, i < capacity ∧ (entries i).key = some key ∧ (key, (entries i).value) = item := by
  rw [items, Probing.mem_contents]
  constructor
  · rintro ⟨i, entry, hi, occupied, rfl⟩
    obtain ⟨rfl, isKey⟩ := view_eq_some.mp occupied
    obtain ⟨key, taken⟩ := Option.ne_none_iff_exists'.mp isKey
    exact ⟨i, key, hi, taken, (item_of_key taken).symm⟩
  · rintro ⟨i, key, hi, taken, rfl⟩
    exact ⟨i, entries i, hi, view_of_key taken, item_of_key taken⟩

theorem length_items_mono {n : Nat} (h : n ≤ m) :
    (items n entries).length ≤ (items m entries).length :=
  ((List.range_sublist.mpr h).filterMap _).length_le

/-- The loop of `hashmap_grow`: the new table ends up with the items of the old. -/
theorem reinsert_spec {old : Entries} {newCap : Nat} (h : Table capacity old)
    (shape : Shape newCap exponent) (room : (items capacity old).length < newCap) (left i : Nat)
    (entries : Entries) (freed : List Nat) (rounds : i + left = capacity)
    (table : Table newCap entries) (perm : items newCap entries ~ items i old) :
    ∃ result, reinsert old newCap left i entries freed = some (result, freed) ∧
      Table newCap result ∧ items newCap result ~ items capacity old := by
  induction left generalizing i entries with
  | zero =>
    rw [← rounds, Nat.add_zero]
    exact ⟨entries, rfl, table, perm⟩
  | succ left ih =>
    rw [reinsert]
    cases taken : (old i).key with
    | none =>
      refine ih (i + 1) entries (by omega) table ?_
      rw [items_succ, view_eq_none.mpr taken]
      simpa using perm
    | some key =>
      have few : (items newCap entries).length < newCap := by
        rw [perm.length_eq]
        exact Nat.lt_of_le_of_lt (length_items_mono (by omega)) room
      have absent : ∀ k other, k < newCap → (entries k).key = some other →
          other.chars ≠ key.chars := by
        intro k other hk found same
        have member := perm.mem_iff.mp (mem_items.mpr ⟨k, other, hk, found, rfl⟩)
        obtain ⟨k', other', hk', found', equal⟩ := mem_items.mp member
        cases (Prod.mk.inj equal).1
        have := h.slot_unique (by omega) (by omega) found' taken same
        omega
      obtain ⟨next, inserted, table', perm'⟩ :=
        hashmapInsertEntry_fresh table shape few key (old i).value absent
      rw [← h.hashed i key (by omega) taken] at inserted
      simp only [inserted, List.nil_append]
      refine ih (i + 1) next (by omega) table' (perm'.trans ?_)
      rw [items_succ, view_of_key taken, Option.map_some, item_of_key taken]
      exact (perm.cons _).trans (List.perm_append_singleton _ _).symm

end Lightc.Data.Hashmap
