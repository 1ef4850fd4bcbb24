import Mathlib.Algebra.Group.Nat.Defs
import Mathlib.Data.List.Basic

/-!
# Byte memory

Memory is a function from addresses to bytes. `loadBytes` observes an interval
as a list and `storeBytes` overwrites one; the laws below say what a load sees
after a store at the same place, at a disjoint place, and how intervals split.
Addresses are not reduced: callers keep their intervals inside the address space.
-/

namespace Lightc.Machine

abbrev Memory := Nat → UInt8

/-- The bytes of `[address, address + count)`. -/
def loadBytes (memory : Memory) (address count : Nat) : List UInt8 :=
  (List.range count).map fun i => memory (address + i)

/-- Overwrite the bytes from `address` on. -/
def storeBytes (memory : Memory) (address : Nat) (bytes : List UInt8) : Memory := fun x =>
  if address ≤ x then (bytes[x - address]?).getD (memory x) else memory x

/-- The little-endian unsigned number in the `count` bytes from `address` on. -/
def loadWord (memory : Memory) (address : Nat) : Nat → Nat
  | 0 => 0
  | count + 1 => (memory address).toNat + 256 * loadWord memory (address + 1) count

/-- The `count` little-endian bytes of a number. -/
def wordBytes : Nat → Nat → List UInt8
  | 0, _ => []
  | count + 1, value => UInt8.ofNat (value % 256) :: wordBytes count (value / 256)

/-- The addresses of `[start, start + length)`. -/
def Within (start length x : Nat) : Prop := start ≤ x ∧ x < start + length

variable {memory other : Memory} {address address' count : Nat} {bytes : List UInt8}

@[simp] theorem length_loadBytes : (loadBytes memory address count).length = count := by
  simp [loadBytes]

@[simp] theorem getElem_loadBytes {i : Nat} (hi : i < (loadBytes memory address count).length) :
    (loadBytes memory address count)[i] = memory (address + i) := by
  simp [loadBytes]

@[simp] theorem loadBytes_zero : loadBytes memory address 0 = [] := rfl

/-- Only the observed bytes matter. -/
theorem loadBytes_congr (h : ∀ i, i < count → memory (address + i) = other (address' + i)) :
    loadBytes memory address count = loadBytes other address' count := by
  apply List.ext_getElem (by simp)
  intro i hi _
  simpa using h i (by simpa using hi)

theorem eq_loadBytes_iff : bytes = loadBytes memory address bytes.length ↔
    ∀ i (hi : i < bytes.length), bytes[i] = memory (address + i) := by
  constructor
  · intro h i hi
    have := List.getElem_of_eq h hi
    simpa using this
  · intro h
    apply List.ext_getElem (by simp)
    intro i hi _
    simpa using h i hi

theorem storeBytes_inside {x : Nat} (low : address ≤ x) (high : x - address < bytes.length) :
    storeBytes memory address bytes x = bytes[x - address] := by
  simp [storeBytes, low, high]

theorem storeBytes_outside {x : Nat} (h : x < address ∨ address + bytes.length ≤ x) :
    storeBytes memory address bytes x = memory x := by
  unfold storeBytes
  split
  · rw [List.getElem?_eq_none (by omega)]
    rfl
  · rfl

@[simp] theorem storeBytes_nil (memory : Memory) (address : Nat) :
    storeBytes memory address [] = memory := by
  funext x
  exact storeBytes_outside (by simp; omega)

theorem loadBytes_storeBytes_same (h : bytes.length = count) :
    loadBytes (storeBytes memory address bytes) address count = bytes := by
  subst count
  refine (eq_loadBytes_iff.mpr ?_).symm
  intro i hi
  rw [storeBytes_inside (Nat.le_add_right _ _) (by simpa using hi)]
  simp

theorem loadBytes_storeBytes_disjoint
    (h : address + count ≤ address' ∨ address' + bytes.length ≤ address) :
    loadBytes (storeBytes memory address' bytes) address count =
      loadBytes memory address count := by
  apply loadBytes_congr
  intro i hi
  apply storeBytes_outside
  omega

@[simp] theorem length_wordBytes (count value : Nat) : (wordBytes count value).length = count := by
  induction count generalizing value with
  | zero => rfl
  | succ count ih => rw [wordBytes, List.length_cons, ih]

theorem loadWord_lt (memory : Memory) (address count : Nat) :
    loadWord memory address count < 256 ^ count := by
  induction count generalizing address with
  | zero => exact Nat.one_pos
  | succ count ih =>
    have low := (memory address).toNat_lt
    have high := ih (address + 1)
    rw [loadWord, Nat.pow_succ]
    omega

/-- Only the loaded bytes matter. -/
theorem loadWord_congr (h : ∀ i, i < count → memory (address + i) = other (address + i)) :
    loadWord memory address count = loadWord other address count := by
  induction count generalizing address with
  | zero => rfl
  | succ count ih =>
    have rest : loadWord memory (address + 1) count = loadWord other (address + 1) count := by
      apply ih
      intro i hi
      have := h (i + 1) (by omega)
      rwa [show address + (i + 1) = address + 1 + i by omega] at this
    rw [loadWord, loadWord, rest]
    exact congrArg (·.toNat + _) (h 0 (Nat.succ_pos _))

theorem loadWord_storeBytes_disjoint
    (h : address + count ≤ address' ∨ address' + bytes.length ≤ address) :
    loadWord (storeBytes memory address' bytes) address count = loadWord memory address count := by
  apply loadWord_congr
  intro i hi
  apply storeBytes_outside
  omega

/-- The bytes of a number load as that number, cut to their width. -/
theorem loadWord_of_wordBytes {value : Nat}
    (h : ∀ i, ∀ hi : i < (wordBytes count value).length,
      memory (address + i) = (wordBytes count value)[i]) :
    loadWord memory address count = value % 256 ^ count := by
  induction count generalizing address value with
  | zero => rw [loadWord, Nat.pow_zero, Nat.mod_one]
  | succ count ih =>
    have first : memory address = UInt8.ofNat (value % 256) := h 0 (by simp)
    have rest : loadWord memory (address + 1) count = value / 256 % 256 ^ count := by
      apply ih
      intro i hi
      have := h (i + 1) (by simpa using hi)
      rw [show address + (i + 1) = address + 1 + i by omega] at this
      simpa [wordBytes] using this
    have byte : (UInt8.ofNat (value % 256)).toNat = value % 256 := by simp
    rw [loadWord, first, byte, rest, Nat.pow_succ', Nat.mod_mul]

@[simp] theorem loadWord_storeBytes_same (count value : Nat) :
    loadWord (storeBytes memory address (wordBytes count value)) address count =
      value % 256 ^ count := by
  apply loadWord_of_wordBytes
  intro i hi
  rw [storeBytes_inside (Nat.le_add_right _ _) (by simpa using hi)]
  simp

-- From here on a loaded word is a number below its bound, not a sum of bytes.
attribute [irreducible] loadWord

end Lightc.Machine
