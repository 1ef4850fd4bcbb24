import Lightc.Heap.Client
import Lightc.Machine.Slots
import Lightc.Verification.Transition

/-!
# Dynamic arrays refine lists

`lc_array` is a pointer, an element size, a count and a capacity over one block of
the heap. The operations below are the source's, on bytes and with 64-bit
arithmetic. The list a client has in mind is `elements`: the first `count` slots
of the block. `Valid` is what every operation keeps, and the simulation says that
each call answers and acts as the list does.

A call carries its environment: the allocator it may use, and the bytes found
where an element pointer points.
-/

namespace Lightc.Data.Array

open Machine Heap Heap.Client Verification

structure LcArray where
  data : Nat
  elementSize : Nat
  count : Nat
  capacity : Nat
  deriving DecidableEq, Repr

inductive Error
  | nomem
  | inval
  deriving DecidableEq, Repr

def arrayInitialCapacity : Nat := 8

structure State where
  arr : LcArray
  heap : View
  /-- The size of the last successful allocation for `arr`. -/
  allocated : Nat

/-- A new count and new bytes; the block stays. -/
def State.store (s : State) (count : Nat) (memory : Memory) : State where
  arr := { s.arr with count := count }
  heap := { s.heap with memory := memory }
  allocated := s.allocated

def lcArrayCreate (elementSize : Nat) : LcArray := ⟨0, elementSize, 0, 0⟩

/-- The `while` loop of `lc_array_reserve`; `none` when the rounds run out. -/
def growCapacity (minCapacity : Nat) : Nat → Nat → Option Nat
  | 0, _ => none
  | rounds + 1, newCap =>
    if newCap < minCapacity then
      if newCap > sizeMax / 2 then some minCapacity
      else growCapacity minCapacity rounds (mul64 newCap 2)
    else some newCap

def lcArrayReserve (allocator : Allocator) (s : State) (minCapacity : Nat) :
    Option (State × Except Error Unit) :=
  if minCapacity ≤ s.arr.capacity then some (s, .ok ())
  else
    let start := if s.arr.capacity ≠ 0 then s.arr.capacity else arrayInitialCapacity
    match growCapacity minCapacity 65 start with
    | none => none
    | some newCap =>
      if newCap * s.arr.elementSize ≥ 2 ^ 64 then some (s, .error .nomem)
      else
        let newSize := newCap * s.arr.elementSize
        match lcHeapReallocate allocator s.heap s.arr.data newSize with
        | none => some (s, .error .nomem)
        | some (data, heap) =>
          some (⟨{ s.arr with data := data, capacity := newCap }, heap, newSize⟩, .ok ())

/-- The common start of `lc_array_push` and `lc_array_insert`. -/
def ensureRoom (allocator : Allocator) (s : State) : Option (State × Except Error Unit) :=
  if s.arr.count = s.arr.capacity then lcArrayReserve allocator s (add64 s.arr.count 1)
  else some (s, .ok ())

/-- The address of a slot. -/
def slotOf (arr : LcArray) (index : Nat) : Nat :=
  add64 arr.data (mul64 index arr.elementSize)

def lcArrayPush (allocator : Allocator) (s : State) (element : Nat) :
    Option (State × Except Error Nat) :=
  match ensureRoom allocator s with
  | none => none
  | some (s, .error _) => some (s, .error .nomem)
  | some (s, .ok _) =>
    let dst := slotOf s.arr s.arr.count
    some (s.store (add64 s.arr.count 1) (memcpy s.heap.memory dst element s.arr.elementSize),
      .ok dst)

def lcArrayPop (s : State) (out : Nat) : State × Bool :=
  if s.arr.count = 0 then (s, false)
  else
    let count := sub64 s.arr.count 1
    let src := slotOf s.arr count
    (s.store count (memcpy s.heap.memory out src s.arr.elementSize), true)

/-- The pointer returned by `lc_array_get`; `0` is `NULL`. -/
def lcArrayGet (arr : LcArray) (index : Nat) : Nat :=
  if index ≥ arr.count then 0 else slotOf arr index

def lcArrayClear (s : State) : State := s.store 0 s.heap.memory

def lcArrayInsert (allocator : Allocator) (s : State) (index element : Nat) :
    Option (State × Except Error Nat) :=
  if index > s.arr.count then some (s, .error .inval)
  else
    match ensureRoom allocator s with
    | none => none
    | some (s, .error _) => some (s, .error .nomem)
    | some (s, .ok _) =>
      let slot := slotOf s.arr index
      let tailBytes := mul64 (sub64 s.arr.count index) s.arr.elementSize
      let memory :=
        if tailBytes > 0 then memmove s.heap.memory (add64 slot s.arr.elementSize) slot tailBytes
        else s.heap.memory
      some (s.store (add64 s.arr.count 1) (memcpy memory slot element s.arr.elementSize),
        .ok slot)

def lcArrayRemove (s : State) (index : Nat) : State :=
  if index ≥ s.arr.count then s
  else
    let slot := slotOf s.arr index
    let tailBytes := mul64 (sub64 (sub64 s.arr.count index) 1) s.arr.elementSize
    let memory :=
      if tailBytes > 0 then memmove s.heap.memory slot (add64 slot s.arr.elementSize) tailBytes
      else s.heap.memory
    s.store (sub64 s.arr.count 1) memory

/-! ### Calls -/

inductive Call
  /-- `value` is what `element` points to. -/
  | push (element : Nat) (value : List UInt8) (allocator : Allocator)
  | pop (out : Nat)
  | insert (index element : Nat) (value : List UInt8) (allocator : Allocator)
  | remove (index : Nat)
  | clear
  | reserve (minCapacity : Nat) (allocator : Allocator)
  | get (index : Nat)
  /-- The caller writes to its own memory. -/
  | touch (memory : Memory)

inductive Reply
  | stored (slot : Nat)
  | error (reason : Error)
  /-- The bytes `lc_array_pop` left at `out`, if it returned `true`. -/
  | popped (value : Option (List UInt8))
  /-- The bytes behind the pointer `lc_array_get` returned, unless that is `NULL`. -/
  | element (value : Option (List UInt8))
  | done
  deriving DecidableEq, Repr

/-- What `lc_array_get` lets the caller see. -/
def lookup (s : State) (index : Nat) : Option (List UInt8) :=
  if lcArrayGet s.arr index = 0 then none
  else some (loadBytes s.heap.memory (lcArrayGet s.arr index) s.arr.elementSize)

def Reply.ofStored : Except Error Nat → Reply
  | .ok slot => .stored slot
  | .error reason => .error reason

def exec (s : State) : Call → Option (State × Reply)
  | .push element _ allocator =>
    (lcArrayPush allocator s element).map fun r => (r.1, .ofStored r.2)
  | .pop out =>
    let r := lcArrayPop s out
    some (r.1, .popped
      (if r.2 then some (loadBytes r.1.heap.memory out s.arr.elementSize) else none))
  | .insert index element _ allocator =>
    (lcArrayInsert allocator s index element).map fun r => (r.1, .ofStored r.2)
  | .remove index => some (lcArrayRemove s index, .done)
  | .clear => some (lcArrayClear s, .done)
  | .reserve minCapacity allocator =>
    (lcArrayReserve allocator s minCapacity).map fun r =>
      (r.1, match r.2 with
        | .ok _ => .done
        | .error reason => .error reason)
  | .get index => some (s, .element (lookup s index))
  | .touch memory => some (s.store s.arr.count memory, .done)

/-- The addresses of the array's own block. -/
def InBlock (s : State) (x : Nat) : Prop :=
  s.arr.data ≠ 0 ∧ Within s.arr.data (s.heap.headers s.arr.data).extent x

/-- An element pointer the caller may pass: it does not alias the array's block. -/
def Foreign (s : State) (element : Nat) : Prop :=
  ∀ x, Within element s.arr.elementSize x → ¬ InBlock s x

/-- What the caller and the allocator promise. -/
def allowed (s : State) : Call → Prop
  | .push element value allocator | .insert _ element value allocator =>
    Foreign s element ∧ loadBytes s.heap.memory element s.arr.elementSize = value ∧
      ∀ size, allocator.Honest (Within element s.arr.elementSize) s.heap s.arr.data size
  | .pop out => Foreign s out
  | .reserve _ allocator => ∀ size, allocator.Honest (fun _ => False) s.heap s.arr.data size
  | .touch memory => ∀ x, InBlock s x → memory x = s.heap.memory x
  | .remove _ | .clear | .get _ => True

def machine (elementSize : Nat) (heap : View) : Machine State Call Reply where
  init := ⟨lcArrayCreate elementSize, heap, 0⟩
  allowed := allowed
  exec := exec

/-- The same calls on a plain list. -/
def listCall (xs : List (List UInt8)) : Call → Reply → List (List UInt8) → Prop
  | .push _ value _, .stored _, ys => ys = xs ++ [value]
  | .push _ _ _, .error reason, ys => reason = .nomem ∧ ys = xs
  | .pop _, .popped value, ys => value = xs.getLast? ∧ ys = xs.dropLast
  | .insert index _ value _, .stored _, ys => index ≤ xs.length ∧ ys = xs.insertIdx index value
  | .insert index _ _ _, .error reason, ys =>
    (reason = .inval ↔ xs.length < index) ∧ ys = xs
  | .remove index, .done, ys => ys = xs.eraseIdx index
  | .clear, .done, ys => ys = []
  | .reserve _ _, .done, ys => ys = xs
  | .reserve _ _, .error reason, ys => reason = .nomem ∧ ys = xs
  | .get index, .element value, ys => value = xs[index]? ∧ ys = xs
  | .touch _, .done, ys => ys = xs
  | _, _, _ => False

def listSpec : Spec (List (List UInt8)) Call Reply where
  init := []
  call := listCall

/-! ### What every operation keeps -/

/-- The first `count` slots of the block. -/
def elements (s : State) : List (List UInt8) :=
  slots s.heap.memory s.arr.data s.arr.elementSize s.arr.count

structure Valid (s : State) : Prop where
  positive : 1 ≤ s.arr.elementSize
  count_le : s.arr.count ≤ s.arr.capacity
  allocated_eq : s.allocated = s.arr.capacity * s.arr.elementSize
  held : s.arr.data = 0 ∧ s.allocated = 0 ∨ Block s.heap s.arr.data s.allocated

variable {s t : State} {allocator : Allocator} {keep : Nat → Prop}

@[simp] theorem store_elementSize (s : State) (count : Nat) (memory : Memory) :
    (s.store count memory).arr.elementSize = s.arr.elementSize := rfl

@[simp] theorem elements_store (s : State) (count : Nat) (memory : Memory) :
    elements (s.store count memory) = slots memory s.arr.data s.arr.elementSize count := rfl

@[simp] theorem length_elements : (elements s).length = s.arr.count := length_slots

namespace Valid

variable (h : Valid s)
include h

/-- Before the first allocation there is nothing to point to. -/
theorem capacity_eq_zero (null : s.arr.data = 0) : s.arr.capacity = 0 := by
  have allocated := h.held.resolve_right fun block => block.nonnull null
  rw [h.allocated_eq] at allocated
  exact (Nat.mul_eq_zero.mp allocated.2).resolve_right (Nat.ne_of_gt h.positive)

theorem block (room : 0 < s.arr.capacity) : Block s.heap s.arr.data s.allocated := by
  apply h.held.resolve_left
  intro null
  have := h.capacity_eq_zero null.1
  omega

/-- Nothing is ever as large as the address space. -/
theorem capacity_lt : s.arr.capacity < 2 ^ 64 - 1 := by
  by_cases room : 0 < s.arr.capacity
  · have limit := (h.block room).limit
    rw [h.allocated_eq] at limit
    have : s.arr.capacity * 1 ≤ s.arr.capacity * s.arr.elementSize :=
      Nat.mul_le_mul_left _ h.positive
    have : largeSizeLimit < 2 ^ 64 - 1 := by decide
    omega
  · omega

/-- The bytes of a slot lie in the block. -/
theorem slot_inside {index : Nat} (room : index < s.arr.capacity) :
    index * s.arr.elementSize + s.arr.elementSize ≤ (s.heap.headers s.arr.data).extent := by
  have size := (h.block (Nat.zero_lt_of_lt room)).size_le
  rw [h.allocated_eq] at size
  exact Nat.le_trans (slot_le _ room) size

/-- Slot addresses do not wrap. -/
theorem slotOf_eq {index : Nat} (room : index < s.arr.capacity) :
    slotOf s.arr index = s.arr.data + index * s.arr.elementSize := by
  have inside := h.slot_inside room
  have fits := (h.block (Nat.zero_lt_of_lt room)).fits
  have := h.positive
  rw [slotOf, mul64_of_lt (by omega), add64_of_lt (by omega)]

theorem inBlock {index x : Nat} (room : index < s.arr.capacity)
    (inside : Within (s.arr.data + index * s.arr.elementSize) s.arr.elementSize x) :
    InBlock s x := by
  have := h.slot_inside room
  obtain ⟨low, high⟩ := inside
  exact ⟨(h.block (Nat.zero_lt_of_lt room)).nonnull, by omega, by omega⟩

/-- A pointer that may be passed does not meet any slot. -/
theorem foreign_apart {element index : Nat} (foreign : Foreign s element)
    (room : index < s.arr.capacity) :
    element + s.arr.elementSize ≤ s.arr.data + index * s.arr.elementSize ∨
      s.arr.data + index * s.arr.elementSize + s.arr.elementSize ≤ element := by
  have positive := h.positive
  by_contra overlap
  -- The larger of the two starts lies in both ranges.
  rcases Nat.le_total element (s.arr.data + index * s.arr.elementSize) with below | above
  · exact foreign (s.arr.data + index * s.arr.elementSize) ⟨below, by omega⟩
      (h.inBlock room ⟨Nat.le_refl _, by omega⟩)
  · exact foreign element ⟨Nat.le_refl _, by omega⟩ (h.inBlock room ⟨above, by omega⟩)

/-- Memory may change outside the block. -/
theorem elements_congr {memory : Memory} (same : ∀ x, InBlock s x → memory x = s.heap.memory x) :
    slots memory s.arr.data s.arr.elementSize s.arr.count = elements s := by
  apply slots_congr
  intro i hi
  apply same
  have size := Nat.mul_le_mul_right s.arr.elementSize h.count_le
  have room : 0 < s.arr.capacity := by
    by_contra none
    rw [Nat.eq_zero_of_not_pos none, Nat.zero_mul] at size
    omega
  have block := h.block room
  have extent := block.size_le
  rw [h.allocated_eq] at extent
  exact ⟨block.nonnull, Nat.le_add_right _ _, by omega⟩

/-- `lc_array_get` sees exactly the elements. -/
theorem lookup_eq (index : Nat) : lookup s index = (elements s)[index]? := by
  rw [elements, getElem?_slots, lookup, lcArrayGet]
  by_cases inside : index < s.arr.count
  · have room := Nat.lt_of_lt_of_le inside h.count_le
    have nonnull : s.arr.data + index * s.arr.elementSize ≠ 0 := by
      have := (h.block (Nat.zero_lt_of_lt room)).nonnull
      omega
    rw [if_neg (Nat.not_le_of_lt inside), h.slotOf_eq room, if_neg nonnull, if_pos inside]
  · rw [if_pos (Nat.le_of_not_lt inside), if_pos rfl, if_neg inside]

/-- The block, its size and the element size are as before: only the count and
the bytes have changed. -/
theorem store {count : Nat} (fits : count ≤ s.arr.capacity) (memory : Memory) :
    Valid (s.store count memory) := by
  refine ⟨h.positive, fits, h.allocated_eq, ?_⟩
  exact h.held.imp id fun block =>
    { block with }

end Valid

/-! ### Growing -/

/-- The loop ends with enough capacity. -/
theorem growCapacity_spec (minCapacity rounds newCap : Nat) (positive : 0 < newCap)
    (enough : 2 ^ 64 ≤ newCap * 2 ^ rounds) :
    ∃ capacity, growCapacity minCapacity (rounds + 1) newCap = some capacity ∧
      minCapacity ≤ capacity := by
  induction rounds generalizing newCap with
  | zero =>
    rw [growCapacity]
    by_cases short : newCap < minCapacity
    · rw [if_pos short, if_pos (by simp only [sizeMax]; omega)]
      exact ⟨_, rfl, Nat.le_refl _⟩
    · rw [if_neg short]
      exact ⟨_, rfl, Nat.le_of_not_lt short⟩
  | succ rounds ih =>
    rw [growCapacity]
    split
    · next short =>
      by_cases clamp : newCap > sizeMax / 2
      · rw [if_pos clamp]
        exact ⟨_, rfl, Nat.le_refl _⟩
      · rw [if_neg clamp, mul64_of_lt (by simp only [sizeMax] at clamp; omega)]
        apply ih _ (by omega)
        rw [Nat.mul_assoc, ← Nat.pow_succ']
        exact enough
    · next short => exact ⟨_, rfl, Nat.le_of_not_lt short⟩

/-- What a call that made room leaves behind. -/
structure Room (keep : Nat → Prop) (s t : State) : Prop where
  valid : Valid t
  size_eq : t.arr.elementSize = s.arr.elementSize
  count_eq : t.arr.count = s.arr.count
  elements_eq : elements t = elements s
  keeps : ∀ x, keep x → t.heap.memory x = s.heap.memory x
  apart : ∀ x, keep x → ¬ InBlock t x

section

variable (h : Valid s)
include h

theorem Room.refl (foreign : ∀ x, keep x → ¬ InBlock s x) : Room keep s s :=
  ⟨h, rfl, rfl, rfl, fun _ _ => rfl, foreign⟩

/-- A larger block with the old contents is room. -/
theorem Room.of_grown {newCap data : Nat} {heap : View} (larger : s.arr.capacity ≤ newCap)
    (grown : Grown keep s.heap s.arr.data (min s.allocated (newCap * s.arr.elementSize))
      (newCap * s.arr.elementSize) data heap) :
    Room keep s ⟨{ s.arr with data := data, capacity := newCap }, heap,
      newCap * s.arr.elementSize⟩ := by
  refine ⟨⟨h.positive, Nat.le_trans h.count_le larger, rfl, .inr grown.block⟩, rfl, rfl, ?_,
    grown.keeps, fun x kept inside => grown.apart x kept inside.2⟩
  apply slots_congr
  intro i hi
  change i < s.arr.count * s.arr.elementSize at hi
  apply grown.contents
  have := Nat.mul_le_mul_right s.arr.elementSize h.count_le
  have := Nat.mul_le_mul_right s.arr.elementSize larger
  rw [h.allocated_eq]
  omega

/-- `lc_array_reserve` fails and changes nothing, or makes the room asked for. -/
theorem lcArrayReserve_spec (foreign : ∀ x, keep x → ¬ InBlock s x)
    (honest : ∀ size, allocator.Honest keep s.heap s.arr.data size) (minCapacity : Nat) :
    lcArrayReserve allocator s minCapacity = some (s, .error .nomem) ∨
      ∃ t, lcArrayReserve allocator s minCapacity = some (t, .ok ()) ∧ Room keep s t ∧
        minCapacity ≤ t.arr.capacity := by
  rw [lcArrayReserve]
  by_cases enough : minCapacity ≤ s.arr.capacity
  · rw [if_pos enough]
    exact .inr ⟨s, rfl, .refl h foreign, enough⟩
  rw [if_neg enough]
  obtain ⟨newCap, grow, least⟩ := growCapacity_spec minCapacity 64
    (if s.arr.capacity ≠ 0 then s.arr.capacity else arrayInitialCapacity)
    (by rw [arrayInitialCapacity]; split <;> omega)
    (by rw [arrayInitialCapacity]; split <;> omega)
  simp only [grow]
  by_cases overflow : newCap * s.arr.elementSize ≥ 2 ^ 64
  · rw [if_pos overflow]
    exact .inl rfl
  rw [if_neg overflow]
  cases moved : lcHeapReallocate allocator s.heap s.arr.data (newCap * s.arr.elementSize) with
  | none => exact .inl rfl
  | some result =>
    obtain ⟨data, heap⟩ := result
    have positive : 0 < newCap * s.arr.elementSize :=
      Nat.mul_pos (by omega) (Nat.lt_of_lt_of_le Nat.zero_lt_one h.positive)
    have grown := lcHeapReallocate_grown (honest _) h.held
      (fun nonnull x kept inside => foreign x kept ⟨nonnull, inside⟩) positive moved
    exact .inr ⟨_, rfl, .of_grown h (by omega) grown, least⟩

/-- After `ensureRoom` there is a free slot, or nothing has changed. -/
theorem ensureRoom_spec (foreign : ∀ x, keep x → ¬ InBlock s x)
    (honest : ∀ size, allocator.Honest keep s.heap s.arr.data size) :
    ensureRoom allocator s = some (s, .error .nomem) ∨
      ∃ t, ensureRoom allocator s = some (t, .ok ()) ∧ Room keep s t ∧
        t.arr.count < t.arr.capacity := by
  rw [ensureRoom]
  by_cases full : s.arr.count = s.arr.capacity
  · rw [if_pos full, add64_of_lt (by have := h.capacity_lt; omega)]
    rcases lcArrayReserve_spec h foreign honest (s.arr.count + 1) with failed | ⟨t, ok, room, least⟩
    · exact .inl failed
    · exact .inr ⟨t, ok, room, by rw [room.count_eq]; omega⟩
  · rw [if_neg full]
    exact .inr ⟨s, rfl, .refl h foreign, Nat.lt_of_le_of_ne h.count_le full⟩

/-! ### The operations -/

variable {element index : Nat} {value : List UInt8}

omit h in
/-- Copying an element into a free slot. -/
theorem copy_element (room : Room keep s t)
    (kept : ∀ x, Within element s.arr.elementSize x → keep x)
    (found : loadBytes s.heap.memory element s.arr.elementSize = value)
    (free : index < t.arr.capacity) {memory : Memory}
    (moved : ∀ x, ¬ InBlock t x → memory x = t.heap.memory x) :
    memcpy memory (slotOf t.arr index) element t.arr.elementSize =
      storeBytes memory (t.arr.data + index * t.arr.elementSize) value := by
  have foreign : Foreign t element := by
    intro x inside
    rw [room.size_eq] at inside
    exact room.apart x (kept x inside)
  have bytes : loadBytes memory element t.arr.elementSize = value := by
    rw [← found, room.size_eq]
    apply loadBytes_congr
    intro i hi
    have inside : Within element s.arr.elementSize (element + i) := ⟨by omega, by omega⟩
    rw [moved _ (room.apart _ (kept _ inside)), room.keeps _ (kept _ inside)]
  rw [room.valid.slotOf_eq free, memcpy_eq, bytes]
  have := room.valid.foreign_apart foreign free
  omega

theorem push_spec (legal : allowed s (.push element value allocator)) :
    lcArrayPush allocator s element = some (s, .error .nomem) ∨
      ∃ t slot, lcArrayPush allocator s element = some (t, .ok slot) ∧ Valid t ∧
        t.arr.elementSize = s.arr.elementSize ∧ elements t = elements s ++ [value] := by
  obtain ⟨foreign, found, honest⟩ := legal
  rcases ensureRoom_spec h foreign honest with failed | ⟨t, ok, room, free⟩
  · exact .inl (by rw [lcArrayPush, failed])
  refine .inr ⟨_, slotOf t.arr t.arr.count, by rw [lcArrayPush, ok], ?_, ?_, ?_⟩
  · have := room.valid.capacity_lt
    exact room.valid.store (by rw [add64_of_lt (by omega)]; omega) _
  · exact room.size_eq
  · have copied := copy_element room (fun x inside => inside) found free (fun _ _ => rfl)
    have length : value.length = t.arr.elementSize := by
      rw [← found, length_loadBytes, room.size_eq]
    have := room.valid.capacity_lt
    rw [elements_store, copied, add64_of_lt (by omega), slots_append length, ← room.elements_eq]
    rfl

theorem pop_spec {out : Nat} (foreign : Foreign s out) :
    ∃ t taken, lcArrayPop s out = (t, taken) ∧ Valid t ∧
      t.arr.elementSize = s.arr.elementSize ∧ elements t = (elements s).dropLast ∧
      (if taken then some (loadBytes t.heap.memory out s.arr.elementSize) else none) =
        (elements s).getLast? := by
  by_cases empty : s.arr.count = 0
  · refine ⟨s, false, by rw [lcArrayPop, if_pos empty], h, rfl, ?_, ?_⟩
    all_goals simp [elements, empty, slots]
  have last : s.arr.count - 1 < s.arr.capacity := by
    have := h.count_le
    omega
  have count : sub64 s.arr.count 1 = s.arr.count - 1 := by
    have := h.capacity_lt
    exact sub64_of_le (by omega) (by omega)
  have apart := h.foreign_apart foreign last
  have copied : memcpy s.heap.memory out (slotOf s.arr (sub64 s.arr.count 1)) s.arr.elementSize =
      storeBytes s.heap.memory out
        (loadBytes s.heap.memory (s.arr.data + (s.arr.count - 1) * s.arr.elementSize)
          s.arr.elementSize) := by
    rw [count, h.slotOf_eq last]
    exact memcpy_eq (by omega)
  have whole : elements s = slots s.heap.memory s.arr.data s.arr.elementSize (s.arr.count - 1) ++
      [loadBytes s.heap.memory (s.arr.data + (s.arr.count - 1) * s.arr.elementSize)
        s.arr.elementSize] := by
    rw [← slots_succ, Nat.sub_add_cancel (Nat.pos_of_ne_zero empty)]
    rfl
  refine ⟨_, true, by rw [lcArrayPop, if_neg empty], ?_, ?_, ?_, ?_⟩
  · exact h.store (by rw [count]; omega) _
  · exact store_elementSize ..
  · rw [whole, List.dropLast_concat, elements_store, copied, count]
    apply slots_congr
    intro i hi
    apply storeBytes_outside
    rw [length_loadBytes]
    by_contra inside
    -- The byte would belong to the caller and to a slot at once.
    have range : (s.arr.count - 1) * s.arr.elementSize + s.arr.elementSize ≤
        (s.heap.headers s.arr.data).extent := h.slot_inside last
    exact foreign (s.arr.data + i) ⟨by omega, by omega⟩
      ⟨(h.block (Nat.zero_lt_of_lt last)).nonnull, by omega, by omega⟩
  · rw [whole, List.getLast?_concat]
    rw [if_pos rfl, State.store, copied, loadBytes_storeBytes_same length_loadBytes]

/-- The address behind a slot, when there is a tail to move. -/
theorem next_slot (next : index + 1 < s.arr.capacity) :
    add64 (slotOf s.arr index) s.arr.elementSize =
      s.arr.data + index * s.arr.elementSize + s.arr.elementSize := by
  have inside := h.slot_inside next
  have fits := (h.block (Nat.zero_lt_of_lt next)).fits
  have := h.positive
  rw [Nat.succ_mul] at inside
  rw [h.slotOf_eq (by omega), add64_of_lt (by omega)]

/-- The tail length does not wrap, and a zero length moves nothing. -/
theorem tail_eq {n : Nat} (inside : n < s.arr.capacity) :
    mul64 n s.arr.elementSize = n * s.arr.elementSize := by
  have := h.slot_inside inside
  have := (h.block (Nat.zero_lt_of_lt inside)).fits
  have := h.positive
  exact mul64_of_lt (by omega)

theorem insert_spec (legal : allowed s (.insert index element value allocator))
    (inside : index ≤ s.arr.count) :
    lcArrayInsert allocator s index element = some (s, .error .nomem) ∨
      ∃ t slot, lcArrayInsert allocator s index element = some (t, .ok slot) ∧ Valid t ∧
        t.arr.elementSize = s.arr.elementSize ∧
        elements t = (elements s).insertIdx index value := by
  obtain ⟨foreign, found, honest⟩ := legal
  rcases ensureRoom_spec h foreign honest with failed | ⟨t, ok, room, free⟩
  · exact .inl (by rw [lcArrayInsert, if_neg (Nat.not_lt_of_le inside), failed])
  have inside' : index ≤ t.arr.count := by
    rw [room.count_eq]
    exact inside
  have bound := room.valid.capacity_lt
  have count : add64 t.arr.count 1 = t.arr.count + 1 := add64_of_lt (by omega)
  have length : value.length = t.arr.elementSize := by
    rw [← found, length_loadBytes, room.size_eq]
  refine .inr ⟨_, slotOf t.arr index, by
    rw [lcArrayInsert, if_neg (Nat.not_lt_of_le inside), ok], ?_, ?_, ?_⟩
  · exact room.valid.store (by rw [count]; omega) _
  · exact room.size_eq
  · have tail : mul64 (sub64 t.arr.count index) t.arr.elementSize =
        (t.arr.count - index) * t.arr.elementSize := by
      rw [sub64_of_le (by omega) inside']
      exact tail_eq room.valid (by omega)
    have moved : (if mul64 (sub64 t.arr.count index) t.arr.elementSize > 0 then
        memmove t.heap.memory (add64 (slotOf t.arr index) t.arr.elementSize) (slotOf t.arr index)
          (mul64 (sub64 t.arr.count index) t.arr.elementSize)
        else t.heap.memory) =
        storeBytes t.heap.memory (t.arr.data + index * t.arr.elementSize + t.arr.elementSize)
          (loadBytes t.heap.memory (t.arr.data + index * t.arr.elementSize)
            ((t.arr.count - index) * t.arr.elementSize)) := by
      rw [tail]
      split
      · rename_i some_
        have : index < t.arr.count := by
          by_contra none
          rw [Nat.sub_eq_zero_of_le (Nat.le_of_not_lt none), Nat.zero_mul] at some_
          exact Nat.lt_irrefl 0 some_
        rw [memmove_eq, next_slot room.valid (by omega), room.valid.slotOf_eq (by omega)]
      · rename_i none
        rw [Nat.eq_zero_of_not_pos none, loadBytes_zero, storeBytes_nil]
    have outside : ∀ x, ¬ InBlock t x →
        storeBytes t.heap.memory (t.arr.data + index * t.arr.elementSize + t.arr.elementSize)
          (loadBytes t.heap.memory (t.arr.data + index * t.arr.elementSize)
            ((t.arr.count - index) * t.arr.elementSize)) x = t.heap.memory x := by
      intro x foreign
      apply storeBytes_outside
      rw [length_loadBytes]
      by_contra within
      have last := room.valid.slot_inside free
      have split : t.arr.count * t.arr.elementSize =
          index * t.arr.elementSize + (t.arr.count - index) * t.arr.elementSize := by
        rw [← Nat.add_mul, Nat.add_sub_of_le inside']
      exact foreign ⟨(room.valid.block (Nat.zero_lt_of_lt free)).nonnull, by omega, by omega⟩
    have copied := copy_element room (fun x inside => inside) found
      (Nat.lt_of_le_of_lt inside' free) outside
    rw [elements_store, moved, copied, count, slots_insert inside' length, ← room.elements_eq]
    rfl

theorem remove_spec (index : Nat) :
    Valid (lcArrayRemove s index) ∧
      (lcArrayRemove s index).arr.elementSize = s.arr.elementSize ∧
      elements (lcArrayRemove s index) = (elements s).eraseIdx index := by
  rw [lcArrayRemove]
  by_cases outside : index ≥ s.arr.count
  · rw [if_pos outside, List.eraseIdx_of_length_le (by rw [length_elements]; exact outside)]
    exact ⟨h, rfl, rfl⟩
  rw [if_neg outside]
  have bound := h.capacity_lt
  have order := h.count_le
  have count : sub64 s.arr.count 1 = s.arr.count - 1 := sub64_of_le (by omega) (by omega)
  refine ⟨h.store (by rw [count]; omega) _, store_elementSize .., ?_⟩
  have tail : mul64 (sub64 (sub64 s.arr.count index) 1) s.arr.elementSize =
      (s.arr.count - index - 1) * s.arr.elementSize := by
    rw [sub64_of_le (a := s.arr.count) (by omega) (by omega), sub64_of_le (by omega) (by omega)]
    exact tail_eq h (by omega)
  have moved : (if mul64 (sub64 (sub64 s.arr.count index) 1) s.arr.elementSize > 0 then
      memmove s.heap.memory (slotOf s.arr index) (add64 (slotOf s.arr index) s.arr.elementSize)
        (mul64 (sub64 (sub64 s.arr.count index) 1) s.arr.elementSize)
      else s.heap.memory) =
      storeBytes s.heap.memory (s.arr.data + index * s.arr.elementSize)
        (loadBytes s.heap.memory (s.arr.data + index * s.arr.elementSize + s.arr.elementSize)
          ((s.arr.count - index - 1) * s.arr.elementSize)) := by
    rw [tail]
    split
    · rename_i some_
      have : index + 1 < s.arr.count := by
        by_contra none
        rw [Nat.sub_sub, Nat.sub_eq_zero_of_le (Nat.le_of_not_lt none), Nat.zero_mul] at some_
        exact Nat.lt_irrefl 0 some_
      rw [memmove_eq, next_slot h (by omega), h.slotOf_eq (by omega)]
    · rename_i none
      rw [Nat.eq_zero_of_not_pos none, loadBytes_zero, storeBytes_nil]
  rw [elements_store, moved, count, slots_erase (Nat.lt_of_not_le outside)]
  rfl

/-! ### The simulation -/

/-- One call: it comes back, answers and acts as the list does, and an error
leaves the whole state as it was. -/
theorem call_spec {call : Call} (legal : allowed s call) :
    ∃ t reply, exec s call = some (t, reply) ∧
      listCall (elements s) call reply (elements t) ∧ Valid t ∧
      t.arr.elementSize = s.arr.elementSize ∧ ∀ reason, reply = .error reason → t = s := by
  cases call with
  | push element value allocator =>
    rcases push_spec h legal with failed | ⟨t, slot, ok, valid, size, pushed⟩
    · exact ⟨s, .error .nomem, by rw [exec, failed]; rfl, ⟨rfl, rfl⟩, h, rfl, fun _ _ => rfl⟩
    · exact ⟨t, .stored slot, by rw [exec, ok]; rfl, pushed, valid, size, fun _ no => nomatch no⟩
  | pop out =>
    obtain ⟨t, taken, ok, valid, size, popped, value⟩ := pop_spec h legal
    exact ⟨t, .popped _, by rw [exec, ok], ⟨value, popped⟩, valid, size,
      fun _ no => nomatch no⟩
  | insert index element value allocator =>
    by_cases inside : index ≤ s.arr.count
    · rcases insert_spec h legal inside with failed | ⟨t, slot, ok, valid, size, inserted⟩
      · refine ⟨s, .error .nomem, by rw [exec, failed]; rfl, ⟨?_, rfl⟩, h, rfl, fun _ _ => rfl⟩
        rw [length_elements]
        exact ⟨fun no => (nomatch no), fun beyond => absurd inside (Nat.not_le_of_lt beyond)⟩
      · refine ⟨t, .stored slot, by rw [exec, ok]; rfl, ⟨?_, inserted⟩, valid, size,
          fun _ no => nomatch no⟩
        rw [length_elements]
        exact inside
    · have refused : lcArrayInsert allocator s index element = some (s, .error .inval) := by
        rw [lcArrayInsert, if_pos (Nat.lt_of_not_le inside)]
      refine ⟨s, .error .inval, by rw [exec, refused]; rfl, ⟨?_, rfl⟩, h, rfl, fun _ _ => rfl⟩
      rw [length_elements]
      exact ⟨fun _ => Nat.lt_of_not_le inside, fun _ => rfl⟩
  | remove index =>
    obtain ⟨valid, size, removed⟩ := remove_spec h index
    exact ⟨_, .done, rfl, removed, valid, size, fun _ no => nomatch no⟩
  | clear =>
    exact ⟨_, .done, rfl, rfl, h.store (Nat.zero_le _) _, rfl, fun _ no => nomatch no⟩
  | reserve minCapacity allocator =>
    rcases lcArrayReserve_spec h (fun _ no => no.elim) legal minCapacity with
      failed | ⟨t, ok, room, -⟩
    · exact ⟨s, .error .nomem, by rw [exec, failed]; rfl, ⟨rfl, rfl⟩, h, rfl, fun _ _ => rfl⟩
    · exact ⟨t, .done, by rw [exec, ok]; rfl, room.elements_eq, room.valid, room.size_eq,
        fun _ no => nomatch no⟩
  | get index =>
    exact ⟨s, .element _, rfl, ⟨h.lookup_eq index, rfl⟩, h, rfl, fun _ no => nomatch no⟩
  | touch memory =>
    refine ⟨_, .done, rfl, ?_, h.store h.count_le memory, rfl, fun _ no => nomatch no⟩
    exact h.elements_congr legal

end

/-- The array in state `s` stands for the list `xs`. -/
structure Represents (elementSize : Nat) (s : State) (xs : List (List UInt8)) : Prop where
  valid : Valid s
  size_eq : s.arr.elementSize = elementSize
  elements_eq : elements s = xs

theorem array_simulation {elementSize : Nat} (positive : 1 ≤ elementSize) (heap : View) :
    Simulation (machine elementSize heap) listSpec (Represents elementSize) where
  init := by
    refine ⟨⟨positive, Nat.le_refl _, ?_, .inl ⟨rfl, rfl⟩⟩, rfl, rfl⟩
    exact (Nat.zero_mul _).symm
  call := by
    rintro s _ call ⟨valid, size, rfl⟩ legal
    obtain ⟨t, reply, executed, answer, valid', size', -⟩ := call_spec valid legal
    exact ⟨t, reply, _, executed, answer, valid', size'.trans size, rfl⟩

/-- Every history of calls is a history of the plain list `xs` it leads to. In the
state reached, `lc_array_get` sees exactly `xs`, the count is its length and at most
the capacity, and the capacity in bytes is, without wrapping, the size last
allocated. Every further call comes back, and one that reports an error has
changed nothing. -/
theorem array_refines_list {elementSize : Nat} (positive : 1 ≤ elementSize) {heap : View}
    {history : List (Call × Reply)} (run : (machine elementSize heap).Run history s) :
    ∃ xs, listSpec.Run history xs ∧
      (∀ index, lookup s index = xs[index]?) ∧
      s.arr.count = xs.length ∧ s.arr.count ≤ s.arr.capacity ∧
      s.arr.capacity * elementSize = s.allocated ∧ s.allocated < 2 ^ 64 ∧
      (∀ call, allowed s call → ∃ t reply, exec s call = some (t, reply)) ∧
      ∀ call t reason, allowed s call → exec s call = some (t, .error reason) →
        t.arr = s.arr ∧ t.allocated = s.allocated ∧ ∀ index, lookup t index = lookup s index := by
  obtain ⟨xs, abstract, ⟨valid, rfl, rfl⟩⟩ := (array_simulation positive heap).of_run run
  refine ⟨_, abstract, valid.lookup_eq, length_elements.symm, valid.count_le,
    valid.allocated_eq.symm, ?_, ?_, ?_⟩
  · rcases valid.held with null | block
    · rw [null.2]
      exact Nat.two_pow_pos 64
    · have : largeSizeLimit < 2 ^ 64 := by decide
      exact Nat.lt_of_le_of_lt block.limit this
  · intro call legal
    obtain ⟨t, reply, executed, -⟩ := call_spec valid legal
    exact ⟨t, reply, executed⟩
  · intro call t reason legal executed
    obtain ⟨t', reply, executed', -, -, -, unchanged⟩ := call_spec valid legal
    rw [executed] at executed'
    cases executed'
    cases unchanged reason rfl
    exact ⟨rfl, rfl, fun _ => rfl⟩

/-- An allocator with nothing left. -/
def exhausted : Allocator := ⟨fun _ => none, fun _ memory => memory, fun _ memory => memory⟩

/-- An allocator that has one block of the smallest class to give, at 4096. -/
def oneBlock : Allocator :=
  { exhausted with block := fun size => if size = 16 then some 4096 else none }

theorem exhausted_honest (keep : Nat → Prop) (h : View) (ptr size : Nat) :
    exhausted.Honest keep h ptr size where
  nonnull := nofun
  fits := nofun
  apart := nofun
  claims _ _ _ := rfl
  releases _ _ _ := rfl

theorem oneBlock_honest (h : View) (size : Nat) : oneBlock.Honest (Within 5 2) h 0 size := by
  have only : ∀ fresh, oneBlock.block size = some fresh → size = 16 ∧ fresh = 4096 := by
    intro fresh answer
    simp only [oneBlock] at answer
    split at answer
    · exact ⟨‹_›, (Option.some.inj answer).symm⟩
    · cases answer
  refine ⟨?_, ?_, ?_, fun _ _ _ => rfl, fun _ _ _ => rfl⟩
  · intro fresh answer
    rw [(only fresh answer).2]
    decide
  · intro fresh answer
    obtain ⟨rfl, rfl⟩ := only fresh answer
    decide
  · intro fresh answer x inside
    obtain ⟨rfl, rfl⟩ := only fresh answer
    have := inside.1
    exact ⟨fun own => absurd own.2 (by omega), fun nonnull => absurd rfl nonnull⟩

/-- Where each byte holds its own address, and nothing is allocated. -/
def bareHeap : View := ⟨UInt8.ofNat, fun _ => ⟨0, 0, 0⟩⟩

/-- A first push, an insertion in front of it and a reservation that fails, on
two-byte elements the caller has at the addresses 5 and 9. -/
theorem array_refines_list_inserted :
    ∃ s, (machine 2 bareHeap).Run
        [(.push 5 [5, 6] oneBlock, .stored 4096), (.insert 0 9 [9, 10] exhausted, .stored 4096),
          (.reserve 100 exhausted, .error .nomem)] s ∧
      lookup s 0 = some [9, 10] ∧ lookup s 1 = some [5, 6] ∧ lookup s 2 = none ∧
      s.arr.capacity = 8 ∧ s.arr.capacity * 2 = s.allocated := by
  have pushed : (machine 2 bareHeap).Run [(.push 5 [5, 6] oneBlock, .stored 4096)]
      ⟨⟨4096, 2, 1, 8⟩, ⟨memcpy UInt8.ofNat 4096 5 2,
        Function.update bareHeap.headers 4096 (newHeader 16)⟩, 16⟩ :=
    .snoc .nil ⟨fun _ _ inside => inside.1 rfl, rfl, oneBlock_honest _⟩ rfl
  have foreign : Foreign ⟨⟨4096, 2, 1, 8⟩, ⟨memcpy UInt8.ofNat 4096 5 2,
      Function.update bareHeap.headers 4096 (newHeader 16)⟩, 16⟩ 9 := by
    intro x own inside
    have low : 4096 ≤ x := inside.2.1
    have high : x < 9 + 2 := own.2
    omega
  have inserted := pushed.call (.insert 0 9 [9, 10] exhausted)
    ⟨foreign, rfl, exhausted_honest _ _ _⟩ rfl
  have refused := inserted.call (.reserve 100 exhausted) (exhausted_honest _ _ _) rfl
  obtain ⟨xs, _, _, _, _, size, _⟩ := array_refines_list (by decide) refused
  exact ⟨_, refused, rfl, rfl, rfl, rfl, size⟩

end Lightc.Data.Array
