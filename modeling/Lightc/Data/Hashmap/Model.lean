import Lightc.Machine.Word
import Lightc.Verification.Transition

/-!
# The hash map as the source computes it

A flat table of entries with 32-bit hashes, indices and probe distances. Keys are
copied into allocations of their own; a `Key` is such a copy, with the number of
its allocation beside its characters, and a `NULL` key is `none`. Freeing a copy
is recorded. The `while (true)` loops get as many rounds as the table has slots
and have no result when these run out.

The environment decides, call by call, whether the table allocation of
`hashmap_grow` and the copy of `hashmap_copy_key` succeed. `map->entries` is
`NULL` exactly while `capacity` is 0, so the two tests of it in the source are
tests of the capacity here.
-/

namespace Lightc.Data.Hashmap

open Machine Verification Function

structure Key where
  id : Nat
  chars : List UInt8
  deriving DecidableEq, Repr

structure Entry where
  key : Option Key
  value : Nat
  hash : Nat
  distance : Nat
  deriving DecidableEq, Repr

def Entry.empty : Entry := ⟨none, 0, 0, 0⟩

abbrev Entries := Nat → Entry

structure LcHashmap where
  entries : Entries
  capacity : Nat
  count : Nat

structure State where
  map : LcHashmap
  /-- The number of key copies made so far; also the next one's number. -/
  copied : Nat
  /-- The key copies freed so far. -/
  freed : List Nat

def hashmapInitialCapacity : Nat := 16

def hashmapLoadPercent : Nat := 75

def fnv1a (key : List UInt8) : Nat :=
  key.foldl (fun hash c => mul32 (hash ^^^ c.toNat) 16777619) 2166136261

/-- `memcmp`, up to the length of the shorter range. -/
def memcmp : List UInt8 → List UInt8 → Int
  | a :: as, b :: bs => if a ≠ b then (a.toNat : Int) - b.toNat else memcmp as bs
  | _, _ => 0

def lcStringEqual (a b : List UInt8) : Bool :=
  if a.length ≠ b.length then false else memcmp a b == 0

/-- `(uint32_t)(capacity - 1)`. -/
def slotMask (capacity : Nat) : Nat := sub64 capacity 1 % 2 ^ 32

/-- The slot after `idx`. -/
def nextSlot (mask idx : Nat) : Nat := add32 idx 1 &&& mask

/-- The test both insertion and lookup make: same hash, then same string. -/
def matchesKey (entry : Entry) (present : Key) (hash : Nat) (chars : List UInt8) : Bool :=
  entry.hash == hash && lcStringEqual present.chars chars

/-- The loop of `hashmap_insert_entry`. The result is the table, whether a slot was
filled, and the key copies freed. The comparison is always with the key the call
was made with, also after `incoming` has been swapped. -/
def insertLoop (mask : Nat) (key : Key) (value hash : Nat) :
    Nat → Entries → Entry → Nat → Nat → Option (Entries × Bool × List Nat)
  | 0, _, _, _, _ => none
  | rounds + 1, entries, incoming, distance, idx =>
    match (entries idx).key with
    | none => some (update entries idx { incoming with distance := distance }, true, [])
    | some present =>
      if matchesKey (entries idx) present hash key.chars then
        some (update entries idx { entries idx with value := value }, false, [key.id])
      else if distance > (entries idx).distance then
        insertLoop mask key value hash rounds
          (update entries idx { incoming with distance := distance })
          (entries idx) (add32 (entries idx).distance 1) (nextSlot mask idx)
      else
        insertLoop mask key value hash rounds entries incoming (add32 distance 1)
          (nextSlot mask idx)

def hashmapInsertEntry (entries : Entries) (capacity : Nat) (key : Key) (value hash : Nat) :
    Option (Entries × Bool × List Nat) :=
  insertLoop (slotMask capacity) key value hash capacity entries ⟨some key, value, hash, 0⟩ 0
    (hash &&& slotMask capacity)

/-- The loop of `hashmap_grow` over the old slots from `i` on. -/
def reinsert (old : Entries) (newCap : Nat) : Nat → Nat → Entries → List Nat →
    Option (Entries × List Nat)
  | 0, _, entries, freed => some (entries, freed)
  | left + 1, i, entries, freed =>
    match (old i).key with
    | none => reinsert old newCap left (i + 1) entries freed
    | some key =>
      match hashmapInsertEntry entries newCap key (old i).value (old i).hash with
      | none => none
      | some (entries, _, more) => reinsert old newCap left (i + 1) entries (more ++ freed)

def grownCapacity (capacity : Nat) : Nat :=
  if capacity ≠ 0 then mul64 capacity 2 else hashmapInitialCapacity

/-- `hashmap_grow`; `allocates` is whether `lc_heap_allocate_zeroed` succeeds. -/
def hashmapGrow (s : State) (allocates : Bool) : Option (State × Bool) :=
  if !allocates then some (s, false)
  else
    match reinsert s.map.entries (grownCapacity s.map.capacity) s.map.capacity 0
        (fun _ => .empty) s.freed with
    | none => none
    | some (entries, freed) =>
      some ({ s with
        map := ⟨entries, grownCapacity s.map.capacity, s.map.count⟩
        freed := freed }, true)

/-- The load test of `lc_hashmap_set`. -/
def needsGrowth (map : LcHashmap) : Bool :=
  map.capacity == 0 ||
    mul64 (add64 map.count 1) 100 > mul64 map.capacity hashmapLoadPercent

/-- `lc_hashmap_set` from the hash of the key on; `copies` is whether
`hashmap_copy_key` succeeds, and the answer whether the call does. -/
def insertCopy (s : State) (key : List UInt8) (value : Nat) (copies : Bool) :
    Option (State × Bool) :=
  if !copies then some (s, false)
  else
    let copy : Key := ⟨s.copied, key⟩
    match hashmapInsertEntry s.map.entries s.map.capacity copy value (fnv1a key) with
    | none => none
    | some (entries, inserted, freed) =>
      some ({ map :=
                { s.map with
                  entries := entries
                  count := if inserted then add64 s.map.count 1 else s.map.count }
              copied := s.copied + 1
              freed := freed ++ s.freed }, true)

/-- `lc_hashmap_set`; `false` is `LC_ERR_NOMEM`. -/
def lcHashmapSet (s : State) (key : List UInt8) (value : Nat) (allocates copies : Bool) :
    Option (State × Bool) :=
  if needsGrowth s.map then
    match hashmapGrow s allocates with
    | none => none
    | some (s, false) => some (s, false)
    | some (s, true) => insertCopy s key value copies
  else insertCopy s key value copies

/-- The search loop of `lc_hashmap_get`, `lc_hashmap_contains` and
`lc_hashmap_remove`: the slot of the key, if there is one. -/
def findLoop (entries : Entries) (mask hash : Nat) (key : List UInt8) :
    Nat → Nat → Nat → Option (Option Nat)
  | 0, _, _ => none
  | rounds + 1, distance, idx =>
    match (entries idx).key with
    | none => some none
    | some present =>
      if distance > (entries idx).distance then some none
      else if matchesKey (entries idx) present hash key then some (some idx)
      else findLoop entries mask hash key rounds (add32 distance 1) (nextSlot mask idx)

def findSlot (map : LcHashmap) (key : List UInt8) : Option (Option Nat) :=
  findLoop map.entries (slotMask map.capacity) (fnv1a key) key map.capacity 0
    (fnv1a key &&& slotMask map.capacity)

def lcHashmapGet (map : LcHashmap) (key : List UInt8) : Option Nat :=
  if map.capacity = 0 then some 0
  else
    match findSlot map key with
    | none => none
    | some none => some 0
    | some (some idx) => some (map.entries idx).value

def lcHashmapContains (map : LcHashmap) (key : List UInt8) : Option Bool :=
  if map.capacity = 0 then some false
  else
    match findSlot map key with
    | none => none
    | some none => some false
    | some (some _) => some true

/-- Backward-shift deletion: the loop, then the clearing of the last slot. -/
def shiftLoop (mask : Nat) : Nat → Entries → Nat → Nat → Option Entries
  | 0, _, _, _ => none
  | rounds + 1, entries, empty, next =>
    if (entries next).key ≠ none ∧ (entries next).distance > 0 then
      shiftLoop mask rounds
        (update entries empty
          { entries next with distance := (entries next).distance - 1 })
        next (nextSlot mask next)
    else some (update entries empty .empty)

def lcHashmapRemove (s : State) (key : List UInt8) : Option (State × Nat) :=
  if s.map.capacity = 0 then some (s, 0)
  else
    match findSlot s.map key with
    | none => none
    | some none => some (s, 0)
    | some (some idx) =>
      let entry := s.map.entries idx
      let mask := slotMask s.map.capacity
      match shiftLoop mask s.map.capacity s.map.entries idx (nextSlot mask idx) with
      | none => none
      | some entries =>
        some ({ s with
          map := { s.map with entries := entries, count := sub64 s.map.count 1 }
          freed := (entry.key.map Key.id).toList ++ s.freed }, entry.value)

def lcHashmapCount (map : LcHashmap) : Nat := map.count

/-- `lc_hashmap_iterate` over the slots from `i` on: the calls made to `func`. -/
def iterateFrom (entries : Entries) (func : List UInt8 → Nat → Bool) :
    Nat → Nat → List (List UInt8 × Nat)
  | 0, _ => []
  | left + 1, i =>
    match (entries i).key with
    | none => iterateFrom entries func left (i + 1)
    | some key =>
      (key.chars, (entries i).value) ::
        if func key.chars (entries i).value then iterateFrom entries func left (i + 1) else []

def lcHashmapIterate (map : LcHashmap) (func : List UInt8 → Nat → Bool) :
    List (List UInt8 × Nat) :=
  iterateFrom map.entries func map.capacity 0

def lcHashmapCreate : LcHashmap := ⟨fun _ => .empty, 0, 0⟩

/-! ### Calls -/

inductive Call
  | set (key : List UInt8) (value : Nat) (allocates copies : Bool)
  | remove (key : List UInt8)
  | get (key : List UInt8)
  | contains (key : List UInt8)
  | count
  | iterate
  deriving DecidableEq, Repr

inductive Reply
  | ok
  | nomem
  | value (v : Nat)
  | bool (b : Bool)
  | count (n : Nat)
  | visited (calls : List (List UInt8 × Nat))
  deriving DecidableEq, Repr

def exec (s : State) : Call → Option (State × Reply)
  | .set key value allocates copies =>
    (lcHashmapSet s key value allocates copies).map fun r => (r.1, if r.2 then .ok else .nomem)
  | .remove key => (lcHashmapRemove s key).map fun r => (r.1, .value r.2)
  | .get key => (lcHashmapGet s.map key).map fun v => (s, .value v)
  | .contains key => (lcHashmapContains s.map key).map fun b => (s, .bool b)
  | .count => some (s, .count (lcHashmapCount s.map))
  | .iterate => some (s, .visited (lcHashmapIterate s.map fun _ _ => true))

/-- The capacity stays at most `2 ^ 32`: a larger table is never allocated. -/
def allowed (s : State) : Call → Prop
  | .set _ _ allocates _ =>
    needsGrowth s.map = true → allocates = true → grownCapacity s.map.capacity ≤ 2 ^ 32
  | _ => True

def machine : Machine State Call Reply where
  init := ⟨lcHashmapCreate, 0, []⟩
  allowed := allowed
  exec := exec

end Lightc.Data.Hashmap
