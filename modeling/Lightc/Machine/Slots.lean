import Lightc.Machine.Bytes

/-!
# A memory interval as a list of equal slots

`slots` observes `count` consecutive slots of `size` bytes as a list of byte
lists. Appending, inserting and erasing in that list are the byte moves a
contiguous container makes: a store behind the last slot, a move of the tail by
one slot up followed by a store, and a move of the tail by one slot down.
-/

namespace Lightc.Machine

/-- The slots from `base` on. -/
def slots (memory : Memory) (base size count : Nat) : List (List UInt8) :=
  (List.range count).map fun i => loadBytes memory (base + i * size) size

variable {memory other : Memory} {base base' size count index : Nat} {value : List UInt8}

@[simp] theorem length_slots : (slots memory base size count).length = count := by
  simp [slots]

@[simp] theorem getElem?_slots (i : Nat) : (slots memory base size count)[i]? =
    if i < count then some (loadBytes memory (base + i * size) size) else none := by
  by_cases h : i < count
  · simp [slots, h]
  · simp [slots, h]

theorem slot_le (size : Nat) {i n : Nat} (h : i < n) : i * size + size ≤ n * size := by
  rw [← Nat.succ_mul]
  exact Nat.mul_le_mul_right size h

/-- Only the bytes of the slots matter. -/
theorem slots_congr (h : ∀ i, i < count * size → memory (base + i) = other (base' + i)) :
    slots memory base size count = slots other base' size count := by
  apply List.ext_getElem?
  intro i
  rw [getElem?_slots, getElem?_slots]
  split
  · rename_i hi
    rw [loadBytes_congr]
    intro j hj
    have := slot_le size hi
    rw [Nat.add_assoc, Nat.add_assoc]
    exact h _ (by omega)
  · rfl

@[simp] theorem slots_succ : slots memory base size (count + 1) =
    slots memory base size count ++ [loadBytes memory (base + count * size) size] := by
  simp [slots, List.range_succ]

/-- A store behind the last slot appends. -/
theorem slots_append (length : value.length = size) :
    slots (storeBytes memory (base + count * size) value) base size (count + 1) =
      slots memory base size count ++ [value] := by
  rw [slots_succ, loadBytes_storeBytes_same length]
  congr 1
  apply slots_congr
  intro i hi
  exact storeBytes_outside (by omega)

/-- Moving the tail up by one slot and storing into the gap inserts. -/
theorem slots_insert (inside : index ≤ count) (length : value.length = size) :
    slots (storeBytes (storeBytes memory (base + index * size + size)
        (loadBytes memory (base + index * size) ((count - index) * size)))
        (base + index * size) value) base size (count + 1) =
      (slots memory base size count).insertIdx index value := by
  apply List.ext_getElem?
  intro j
  rw [List.getElem?_insertIdx, getElem?_slots, getElem?_slots, getElem?_slots]
  rcases Nat.lt_trichotomy j index with below | rfl | above
  · -- Slots below the gap are not touched.
    have := slot_le size below
    rw [if_pos below, if_pos (by omega), if_pos (by omega),
      loadBytes_storeBytes_disjoint (by omega),
      loadBytes_storeBytes_disjoint (by omega)]
  · rw [if_neg (Nat.lt_irrefl j), if_pos rfl, if_pos (by omega), length_slots,
      if_pos inside, loadBytes_storeBytes_same length]
  · rw [if_neg (Nat.lt_asymm above), if_neg (Nat.ne_of_gt above)]
    obtain ⟨k, rfl⟩ := Nat.exists_eq_add_of_lt above
    by_cases last : index + k + 1 < count + 1
    · have offset : k * size + size ≤ (count - index) * size := slot_le size (by omega)
      have target : base + (index + k + 1) * size = base + index * size + size + k * size := by
        rw [Nat.succ_mul, Nat.add_mul]
        omega
      rw [if_pos last, if_pos (by omega), loadBytes_storeBytes_disjoint (by omega), target,
        loadBytes_copied offset, Nat.add_sub_cancel, Nat.add_mul, Nat.add_assoc]
    · rw [if_neg last, if_neg (by omega)]

/-- Moving the tail behind a slot down by one erases the slot. -/
theorem slots_erase (inside : index < count) :
    slots (storeBytes memory (base + index * size)
        (loadBytes memory (base + index * size + size) ((count - index - 1) * size)))
        base size (count - 1) =
      (slots memory base size count).eraseIdx index := by
  apply List.ext_getElem?
  intro j
  rw [List.getElem?_eraseIdx, getElem?_slots, getElem?_slots, getElem?_slots]
  by_cases below : j < index
  · have := slot_le size below
    rw [if_pos below, if_pos (by omega), if_pos (by omega),
      loadBytes_storeBytes_disjoint (by omega)]
  · rw [if_neg below]
    obtain ⟨k, rfl⟩ := Nat.exists_eq_add_of_le (Nat.le_of_not_lt below)
    by_cases last : index + k < count - 1
    · have offset : k * size + size ≤ (count - index - 1) * size := slot_le size (by omega)
      have source : base + (index + k + 1) * size = base + index * size + size + k * size := by
        rw [Nat.succ_mul, Nat.add_mul]
        omega
      rw [if_pos last, if_pos (by omega), Nat.add_mul, ← Nat.add_assoc, loadBytes_copied offset,
        source]
    · rw [if_neg last, if_neg (by omega)]

end Lightc.Machine
