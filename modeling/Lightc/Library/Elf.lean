import Lightc.Machine.Memory
import Lightc.Machine.Word
import Lightc.Verification.Guarded

/-!
# Shared objects, the mapping they are loaded into, and the loader's surroundings

A loaded object is one anonymous mapping. Everything the loader reads or writes
through a pointer it took from the file goes through `load` and `store`, which
fault as soon as one byte lies outside the mapping. The pointers themselves are
64-bit words and wrap.

The kernel and the allocator are a `Kernel`. It hands over the file in pieces of
its own choice, may refuse any request, and runs the constructors of the object,
which may do anything to memory. The only promise it makes is about where a
mapping may lie. The state records what the loader gives back and, as
a ghost, every virtual address of the file that it turned into an address.
-/

namespace Lightc.Library

open Machine Verification

/-- The error codes of the loader. -/
inductive Error where
  | noent
  | io
  | nomem
  | badElfMagic
  | not64Bit
  | badMachine
  | noLoadSeg
  | noDynamic
  | relocFailed
  | malformedElf
  deriving DecidableEq

inductive Arch where
  | x86_64
  | aarch64
  deriving DecidableEq

/-- `EM_X86_64` and `EM_AARCH64`. -/
def Arch.machine : Arch → Nat
  | .x86_64 => 62
  | .aarch64 => 183

/-- What the loader does with a relocation entry. -/
inductive RelocationKind where
  | relative
  | symbol
  | ignored
  deriving DecidableEq

/-- The `switch` of `process_relocations`: `R_*_RELATIVE`, the three kinds that
name a symbol (`GLOB_DAT`, `JUMP_SLOT` and the absolute one), and the rest. -/
def Arch.relocationKind : Arch → Nat → RelocationKind
  | .x86_64, 8 => .relative
  | .x86_64, 6 => .symbol
  | .x86_64, 7 => .symbol
  | .x86_64, 1 => .symbol
  | .x86_64, _ => .ignored
  | .aarch64, 1027 => .relative
  | .aarch64, 1025 => .symbol
  | .aarch64, 1026 => .symbol
  | .aarch64, 257 => .symbol
  | .aarch64, _ => .ignored

/-- A field of a structure that was read into a buffer. -/
def field (buffer : List UInt8) (offset width : Nat) : Nat :=
  loadWord (fun i => buffer.getD i 0) offset width

/-- `Elf64_Ehdr`, as far as the loader looks at it. -/
structure Elf64Ehdr where
  ident : List Nat
  type : Nat
  machine : Nat
  phoff : Nat
  phentsize : Nat
  phnum : Nat

def Elf64Ehdr.ofBytes (buffer : List UInt8) : Elf64Ehdr where
  ident := (List.range 6).map fun i => field buffer i 1
  type := field buffer 16 2
  machine := field buffer 18 2
  phoff := field buffer 32 8
  phentsize := field buffer 54 2
  phnum := field buffer 56 2

/-- `Elf64_Phdr`, as far as the loader looks at it. -/
structure Elf64Phdr where
  type : Nat
  flags : Nat
  offset : Nat
  vaddr : Nat
  filesz : Nat
  memsz : Nat

/-- `phdrs[i]` of the program-header buffer. -/
def Elf64Phdr.ofBytes (buffer : List UInt8) (i : Nat) : Elf64Phdr where
  type := field buffer (56 * i) 4
  flags := field buffer (56 * i + 4) 4
  offset := field buffer (56 * i + 8) 8
  vaddr := field buffer (56 * i + 16) 8
  filesz := field buffer (56 * i + 32) 8
  memsz := field buffer (56 * i + 40) 8

/-- The region the object is loaded into. -/
structure Mapping where
  base : Nat
  totalSize : Nat
  positive : 0 < base
  aligned : base % 4096 = 0
  fits : base + totalSize ≤ 2 ^ 64

/-- All bytes of `[address, address + count)` are bytes of the mapping. -/
def Mapping.Holds (m : Mapping) (address count : Nat) : Prop :=
  m.base ≤ address ∧ address + count ≤ m.base + m.totalSize

instance (m : Mapping) (address count : Nat) : Decidable (m.Holds address count) :=
  inferInstanceAs (Decidable (_ ∧ _))

/-- `struct lc_library`. The fields beyond the mapping start out zero. -/
structure LcLibrary extends Mapping where
  symtab : Nat := 0
  strtab : Nat := 0
  strtabSize : Nat := 0
  rela : Nat := 0
  relaCount : Nat := 0
  elfHash : Nat := 0
  gnuHash : Nat := 0
  initArray : Nat := 0
  initArrayCount : Nat := 0
  finiArray : Nat := 0
  finiArrayCount : Nat := 0
  initFunc : Nat := 0
  finiFunc : Nat := 0

/-- What the loader gives back, protects or runs, in the order of the calls. -/
inductive Call where
  | closeFile
  | unmapMemory (address size : Nat)
  | freeProgramHeaders
  | freeLibrary
  | protectMemory (address size prot : Nat)
  | run (function : Nat)
  deriving DecidableEq

structure State where
  memory : Memory
  /-- File offset of the next read. -/
  position : Nat := 0
  /-- Reads, seeks and protection changes requested so far. -/
  reads : Nat := 0
  seeks : Nat := 0
  protects : Nat := 0
  /-- Most recent call first. -/
  calls : List Call := []
  /-- Virtual addresses of the file with the addresses made from them. -/
  translated : List (Nat × Nat) := []

structure Kernel where
  file : List UInt8
  /-- `lc_kernel_open_file` returned a descriptor. -/
  opens : Bool
  /-- `lc_heap_allocate` had room for the program headers. -/
  allocatesHeaders : Bool
  /-- `lc_heap_allocate_zeroed` had room for the library. -/
  allocatesLibrary : Bool
  /-- How many bytes the kernel is willing to hand over at each read; zero for an
  error. It never hands over more than was asked for or than the file has left. -/
  read : Nat → Nat
  /-- Whether each seek succeeds. -/
  seek : Nat → Bool
  /-- `lc_kernel_map_memory`, `none` for `MAP_FAILED`. -/
  mapMemory : Nat → Option Nat
  /-- Whether each protection change succeeds. -/
  protect : Nat → Bool
  /-- What the code at an address of the object does to memory. -/
  construct : Nat → Memory → Memory
  /-- The kernel places a mapping on a page boundary, not at address zero, and in
  the address space. -/
  maps : ∀ size base, mapMemory size = some base →
    0 < base ∧ base % 4096 = 0 ∧ base + size ≤ 2 ^ 64

/-- A read of `count` bytes through a pointer taken from the file. -/
def load (m : Mapping) (address count : Nat) : Program Error State Nat := fun s =>
  if m.Holds address count then .done (loadWord s.memory address count) s else .fault

/-- A write through a pointer taken from the file. -/
def store (m : Mapping) (address : Nat) (bytes : List UInt8) : Program Error State Unit := fun s =>
  if m.Holds address bytes.length then
    .done () { s with memory := storeBytes s.memory address bytes }
  else .fault

/-- `a % b` in C. -/
def modulo (a b : Nat) : Program Error State Nat := fun s =>
  if b = 0 then .fault else .done (a % b) s

/-- Ghost: the virtual address `v` became `address`. -/
def translate (v address : Nat) : Program Error State Unit :=
  Program.modify fun s => { s with translated := (v, address) :: s.translated }

def call (c : Call) : Program Error State Unit :=
  Program.modify fun s => { s with calls := c :: s.calls }

/-- The clean-up of an error exit. -/
def abandon {α : Type} (calls : List Call) (e : Error) : Program Error State α := do
  Program.modify fun s => { s with calls := calls.reverse ++ s.calls }
  Program.fail e

/-- `region_in_bounds`. -/
def regionInBounds (m : Mapping) (p len : Nat) : Bool :=
  if p < m.base ∨ p > add64 m.base m.totalSize then false
  else len ≤ sub64 (add64 m.base m.totalSize) p

variable {m : Mapping} {address count : Nat}

/-- Whatever passes the check lies in the mapping. -/
theorem holds_of_regionInBounds {p len : Nat} (h : regionInBounds m p len = true) :
    m.Holds p len := by
  have fits := m.fits
  unfold regionInBounds add64 sub64 at h
  unfold Mapping.Holds
  split at h
  · cases h
  · have := of_decide_eq_true h
    omega

theorem load_done (inside : m.Holds address count) (s : State) :
    load m address count s = .done (loadWord s.memory address count) s := if_pos inside

theorem store_done {bytes : List UInt8} (inside : m.Holds address bytes.length) (s : State) :
    store m address bytes s = .done () { s with memory := storeBytes s.memory address bytes } :=
  if_pos inside

@[simp] theorem translate_done (v address : Nat) (s : State) :
    translate v address s = .done () { s with translated := (v, address) :: s.translated } := rfl

/-- Part of a range that lies in the mapping. -/
theorem Mapping.Holds.part {inner length : Nat} (h : m.Holds address count) (low : address ≤ inner)
    (high : inner + length ≤ address + count) :
    m.Holds inner length :=
  ⟨Nat.le_trans h.1 low, Nat.le_trans high h.2⟩

/-- An address of the mapping is not changed by wrapping, save at its very end. -/
theorem Mapping.Holds.wrap {offset : Nat} (h : m.Holds address count) (low : offset < count) :
    add64 address offset = address + offset := by
  have := m.fits
  have := h.2
  exact add64_of_lt (by omega)

end Lightc.Library
