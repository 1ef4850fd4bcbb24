import Lightc.Library.Symbols
import Lightc.Verification.Chain
import Mathlib.Tactic.IntervalCases

/-!
# The tables of symbols

The symbol table, the string table and the two kinds of hash tables, described as the
formats have them: by what memory holds at which address, and with hash functions of
their own. The hash functions of the loader and its look at a single symbol agree with
this description.
-/

namespace Lightc.Library

open Machine Verification
open Program (bind_done pure_apply)

variable {m : Mapping} {lib : LcLibrary} {s : State} {name : List UInt8} {count i : Nat}

/-! ### The tables -/

/-- The bytes before the terminator, if one of the `room` bytes is a terminator. -/
def stringAt (memory : Memory) : Nat → Nat → Option (List UInt8)
  | _, 0 => none
  | address, room + 1 =>
    if memory address = 0 then some []
    else (stringAt memory (address + 1) room).map (memory address :: ·)

def stName (lib : LcLibrary) (s : State) (i : Nat) : Nat :=
  loadWord s.memory (lib.symtab + 24 * i) 4

def stShndx (lib : LcLibrary) (s : State) (i : Nat) : Nat :=
  loadWord s.memory (lib.symtab + 24 * i + 6) 2

def symbolValue (lib : LcLibrary) (s : State) (i : Nat) : Nat :=
  loadWord s.memory (lib.symtab + 24 * i + 8) 8

/-- The name of a symbol, if it starts and ends in the string table. -/
def symbolName (lib : LcLibrary) (s : State) (i : Nat) : Option (List UInt8) :=
  if stName lib s i < lib.strtabSize then
    stringAt s.memory (lib.strtab + stName lib s i) (lib.strtabSize - stName lib s i)
  else none

/-- The symbol has the name and is defined. -/
def Defines (lib : LcLibrary) (s : State) (name : List UInt8) (i : Nat) : Prop :=
  symbolName lib s i = some name ∧ stShndx lib s i ≠ 0

instance (lib : LcLibrary) (s : State) (name : List UInt8) (i : Nat) :
    Decidable (Defines lib s name i) :=
  inferInstanceAs (Decidable (_ ∧ _))

/-- The tables of `count` symbols and of their names lie in the mapping, which does not
reach the end of the address space. -/
structure SymbolTables (lib : LcLibrary) (count : Nat) : Prop where
  below : lib.base + lib.totalSize < 2 ^ 64
  symbols : lib.toMapping.Holds lib.symtab (24 * count)
  strings : StringsInside lib
  indices : count ≤ 2 ^ 32

/-- The hash function of `DT_GNU_HASH`. -/
def gnuHashOf (name : List UInt8) : Nat :=
  name.foldl (fun h c => (33 * h + c.toNat) % 2 ^ 32) 5381

/-- The hash function of `DT_HASH`: what is shifted out above 28 bits is folded in
again. -/
def elfHashOf (name : List UInt8) : Nat :=
  name.foldl (fun h c =>
    let t := (16 * h + c.toNat) % 2 ^ 32
    t % 2 ^ 28 ^^^ 16 * (t / 2 ^ 28)) 0

namespace Gnu

def nbuckets (lib : LcLibrary) (s : State) : Nat := loadWord s.memory lib.gnuHash 4

def symndx (lib : LcLibrary) (s : State) : Nat := loadWord s.memory (lib.gnuHash + 4) 4

def maskwords (lib : LcLibrary) (s : State) : Nat := loadWord s.memory (lib.gnuHash + 8) 4

/-- The buckets follow the header and the Bloom filter. -/
def buckets (lib : LcLibrary) (s : State) : Nat := lib.gnuHash + 16 + 8 * maskwords lib s

def chains (lib : LcLibrary) (s : State) : Nat := buckets lib s + 4 * nbuckets lib s

def bucket (lib : LcLibrary) (s : State) (b : Nat) : Nat :=
  loadWord s.memory (buckets lib s + 4 * b) 4

/-- The chain word of a symbol. -/
def chain (lib : LcLibrary) (s : State) (i : Nat) : Nat :=
  loadWord s.memory (chains lib s + 4 * (i - symndx lib s)) 4

/-- The table is about the symbols from `symndx` on. -/
def Indexed (lib : LcLibrary) (s : State) (count i : Nat) : Prop := symndx lib s ≤ i ∧ i < count

instance (lib : LcLibrary) (s : State) (count i : Nat) : Decidable (Indexed lib s count i) :=
  inferInstanceAs (Decidable (_ ∧ _))

/-- The bucket a symbol belongs to. -/
def bucketOf (lib : LcLibrary) (s : State) (i : Nat) : Option Nat :=
  (symbolName lib s i).map fun name => gnuHashOf name % nbuckets lib s

/-- A `DT_GNU_HASH` table over `count` symbols: those of a bucket follow one another, the
bucket holds the first of them, and their chain words are their hashes with the lowest
bit set in the last. -/
structure WellFormed (lib : LcLibrary) (s : State) (count : Nat) : Prop where
  tables : SymbolTables lib count
  inside : lib.toMapping.Holds lib.gnuHash
    (16 + 8 * maskwords lib s + 4 * nbuckets lib s + 4 * (count - symndx lib s))
  positive : 0 < nbuckets lib s
  first : 0 < symndx lib s
  named : ∀ i, Indexed lib s count i → (symbolName lib s i).isSome
  together : ∀ i j k, Indexed lib s count i → i ≤ j → j ≤ k → Indexed lib s count k →
    bucketOf lib s i = bucketOf lib s k → bucketOf lib s j = bucketOf lib s i
  head : ∀ b < nbuckets lib s,
    (bucket lib s b = 0 ∧ ∀ i, Indexed lib s count i → bucketOf lib s i ≠ some b) ∨
      (Indexed lib s count (bucket lib s b) ∧ bucketOf lib s (bucket lib s b) = some b ∧
        ∀ i, Indexed lib s count i → bucketOf lib s i = some b → bucket lib s b ≤ i)
  hash : ∀ i name, Indexed lib s count i → symbolName lib s i = some name →
    chain lib s i / 2 = gnuHashOf name / 2
  last : ∀ i, Indexed lib s count i → (chain lib s i % 2 = 1 ↔
    ¬ (Indexed lib s count (i + 1) ∧ bucketOf lib s (i + 1) = bucketOf lib s i))

end Gnu

namespace Elf

def nbucket (lib : LcLibrary) (s : State) : Nat := loadWord s.memory lib.elfHash 4

def nchain (lib : LcLibrary) (s : State) : Nat := loadWord s.memory (lib.elfHash + 4) 4

def bucket (lib : LcLibrary) (s : State) (b : Nat) : Nat :=
  loadWord s.memory (lib.elfHash + 8 + 4 * b) 4

/-- The symbol after `i` on its chain. -/
def chain (lib : LcLibrary) (s : State) (i : Nat) : Nat :=
  loadWord s.memory (lib.elfHash + 8 + 4 * nbucket lib s + 4 * i) 4

/-- The symbol is on the chain of some bucket. -/
def Indexed (lib : LcLibrary) (s : State) (i : Nat) : Prop :=
  ∃ b < nbucket lib s, Linked (chain lib s) 0 (bucket lib s b) i

/-- A `DT_HASH` table over its `nchain` symbols: every chain ends, and the symbols on it
have names that belong to its bucket. -/
structure WellFormed (lib : LcLibrary) (s : State) : Prop where
  tables : SymbolTables lib (nchain lib s)
  inside : lib.toMapping.Holds lib.elfHash (8 + 4 * nbucket lib s + 4 * nchain lib s)
  positive : 0 < nbucket lib s
  chains : ∀ b < nbucket lib s, ∃ nodes, Chain (chain lib s) 0 (bucket lib s b) nodes ∧
    ∀ i ∈ nodes, i < nchain lib s
  placed : ∀ b < nbucket lib s, ∀ i name, Linked (chain lib s) 0 (bucket lib s b) i →
    symbolName lib s i = some name → elfHashOf name % nbucket lib s = b

end Elf

/-! ### The hash functions -/

@[simp] theorem gnuHashFunction_toNat (name : List UInt8) :
    (gnuHashFunction name).toNat = gnuHashOf name := by
  refine (List.foldl_hom UInt32.toNat fun h c => ?_).symm
  have shift : (h <<< 5).toNat = 32 * h.toNat % 2 ^ 32 := by
    rw [UInt32.toNat_shiftLeft, Nat.shiftLeft_eq, Nat.mul_comm]
    rfl
  rw [UInt32.toNat_add, UInt32.toNat_add, shift, UInt8.toNat_toUInt32]
  omega

/-- The top four bits are cleared and move down to the bits 4 to 7. -/
theorem fold_bits (x : BitVec 32) :
    (x ^^^ ((x &&& 0xf0000000#32) >>> 24)) &&& ~~~(x &&& 0xf0000000#32) =
      (x &&& 0x0fffffff#32) ^^^ ((x >>> 28) <<< 4) := by
  apply BitVec.eq_of_getLsbD_eq
  intro i hi
  interval_cases i <;> simp

theorem fold_top_bits (h : UInt32) :
    ((if h &&& 0xf0000000 ≠ 0 then h ^^^ ((h &&& 0xf0000000) >>> 24) else h) &&&
      ~~~(h &&& 0xf0000000)).toNat = h.toNat % 2 ^ 28 ^^^ 16 * (h.toNat / 2 ^ 28) := by
  have small := h.toNat_lt
  have plain : (if h &&& 0xf0000000 ≠ 0 then h ^^^ ((h &&& 0xf0000000) >>> 24) else h) =
      h ^^^ ((h &&& 0xf0000000) >>> 24) := by
    split
    · rfl
    · next none =>
      rw [not_not.mp none]
      simp
  have low : h.toNat &&& (0x0fffffff#32).toNat = h.toNat % 2 ^ 28 :=
    Nat.and_two_pow_sub_one_eq_mod h.toNat 28
  have high : h.toNat >>> 28 <<< 4 % 2 ^ 32 = 16 * (h.toNat / 2 ^ 28) := by
    rw [Nat.shiftRight_eq_div_pow, Nat.shiftLeft_eq]
    omega
  rw [plain]
  refine (congrArg BitVec.toNat (fold_bits h.toBitVec)).trans ?_
  rw [BitVec.toNat_xor, BitVec.toNat_and, BitVec.toNat_shiftLeft, BitVec.toNat_ushiftRight,
    UInt32.toNat_toBitVec, low, high]

@[simp] theorem elfHashFunction_toNat (name : List UInt8) :
    (elfHashFunction name).toNat = elfHashOf name := by
  refine (List.foldl_hom UInt32.toNat fun h c => ?_).symm
  have shifted : ((h <<< 4) + c.toUInt32).toNat = (16 * h.toNat + c.toNat) % 2 ^ 32 := by
    have shift : (h <<< 4).toNat = 16 * h.toNat % 2 ^ 32 := by
      rw [UInt32.toNat_shiftLeft, Nat.shiftLeft_eq, Nat.mul_comm]
      rfl
    rw [UInt32.toNat_add, shift, UInt8.toNat_toUInt32]
    omega
  dsimp only
  rw [fold_top_bits, shifted]

/-! ### One symbol -/

theorem regionInBounds_of_holds (below : m.base + m.totalSize < 2 ^ 64) {p len : Nat}
    (inside : m.Holds p len) : regionInBounds m p len = true := by
  obtain ⟨low, high⟩ := inside
  rw [regionInBounds, add64_of_lt below, if_neg (by omega), sub64_of_le below (by omega)]
  exact decide_eq_true (by omega)

/-- The comparison is with the string that starts at `a`; one that is longer, shorter
or without an end is another string. -/
theorem strEqualBounded_eq (s : State) (name : List UInt8) {a room : Nat}
    (inside : m.Holds a room) : strEqualBounded m a (a + room) name s =
      .done (decide (stringAt s.memory a room = some name)) s := by
  have byte : ∀ {a room}, m.Holds a (room + 1) → load m a 1 s = .done (s.memory a).toNat s := by
    intro a room inside
    have one : m.Holds a 1 := inside.part (Nat.le_refl a) (by omega)
    rw [load_done one, loadWord, loadWord, Nat.mul_zero, Nat.add_zero]
  induction name generalizing a room with
  | nil =>
    rw [strEqualBounded]
    cases room with
    | zero => simp [stringAt]
    | succ room =>
      rw [if_pos (by omega), bind_done (byte inside), pure_apply, stringAt]
      by_cases null : s.memory a = 0
      · simp [null]
      · have : (s.memory a).toNat ≠ 0 := fun zero => null (UInt8.toNat_inj.mp zero)
        simp [null, this]
  | cons b rest ih =>
    rw [strEqualBounded]
    cases room with
    | zero => simp [stringAt]
    | succ room =>
      rw [if_pos (by omega), bind_done (byte inside), stringAt]
      by_cases null : s.memory a = 0
      · simp [null]
      · have : (s.memory a).toNat ≠ 0 := fun zero => null (UInt8.toNat_inj.mp zero)
        rw [if_neg this, if_neg null]
        by_cases same : s.memory a = b
        · have later : m.Holds (a + 1) room := inside.part (by omega) (by omega)
          have next := ih later
          rw [Nat.add_assoc, Nat.add_comm 1] at next
          rw [if_neg (by simp [same]), next, same]
          simp
        · have other : (s.memory a).toNat ≠ b.toNat := fun h => same (UInt8.toNat_inj.mp h)
          rw [if_pos other, pure_apply]
          simp [same]

namespace SymbolTables

variable (tables : SymbolTables lib count)

include tables

theorem symbolAt_eq (inside : i < count) : symbolAt lib i = lib.symtab + 24 * i :=
  tables.symbols.wrap (by omega)

theorem symbol_holds (inside : i < count) : lib.toMapping.Holds (lib.symtab + 24 * i) 24 :=
  tables.symbols.part (by omega) (by omega)

theorem definedAs_eq (s : State) (name : List UInt8) (inside : i < count) :
    definedAs lib (symbolAt lib i) name s = .done (decide (Defines lib s name i)) s := by
  have whole := tables.symbol_holds inside
  have stName_eq : load lib.toMapping (lib.symtab + 24 * i) 4 s = .done (stName lib s i) s :=
    load_done (whole.part (by omega) (by omega)) s
  have stShndx_eq : load lib.toMapping (lib.symtab + 24 * i + 6) 2 s =
      .done (stShndx lib s i) s := load_done (whole.part (by omega) (by omega)) s
  obtain ⟨low, high⟩ := tables.strings
  have below := tables.below
  have end_eq : strEnd lib = lib.strtab + lib.strtabSize := add64_of_lt (by omega)
  rw [tables.symbolAt_eq inside, definedAs, bind_done stName_eq]
  by_cases starts : stName lib s i < lib.strtabSize
  · have rest : lib.strtab + lib.strtabSize =
        lib.strtab + stName lib s i + (lib.strtabSize - stName lib s i) := by omega
    have there : lib.toMapping.Holds (lib.strtab + stName lib s i)
        (lib.strtabSize - stName lib s i) := ⟨by omega, by omega⟩
    have compared := strEqualBounded_eq s name there
    rw [if_pos starts, end_eq, rest, add64_of_lt (by omega), bind_done compared]
    by_cases named : stringAt s.memory (lib.strtab + stName lib s i)
        (lib.strtabSize - stName lib s i) = some name
    · simp only [named, decide_true, if_true]
      rw [bind_done stShndx_eq, pure_apply]
      simp [Defines, symbolName, starts, named]
      rfl
    · simp [Defines, symbolName, starts, named]
  · rw [if_neg starts, pure_apply]
    simp [Defines, symbolName, starts]

/-- The address that is formed in the end. -/
theorem symbolAddress_eq (s : State) {found : Option Nat} (inside : ∀ i ∈ found, i < count) :
    symbolAddress lib (found.map (symbolAt lib)) s =
      .done (found.elim 0 fun i => add64 lib.base (symbolValue lib s i)) s := by
  cases found with
  | none => rfl
  | some i =>
    have small := inside i rfl
    have whole := tables.symbol_holds small
    rw [Option.map_some, symbolAddress, tables.symbolAt_eq small,
      bind_done (load_done (whole.part (by omega) (by omega)) s)]
    rfl

end SymbolTables

end Lightc.Library
