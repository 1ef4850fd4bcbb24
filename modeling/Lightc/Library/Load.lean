import Lightc.Library.Symbols

/-!
# Loading a shared object

`lc_library_open` stage by stage: headers, span of the loadable segments,
mapping, segment copies, dynamic table, table checks, relocations, protection and
constructors. Each error exit names what it gives back.

All numbers that come from the file are arbitrary. Sums and products of them
wrap as in the source, including the product of a relocation count and an entry
size in the last table check.
-/

namespace Lightc.Library

open Machine Verification

/-! ### Reading the file -/

/-- `lc_kernel_read_bytes`. -/
def readBytes (k : Kernel) (count : Nat) : Program Error State (List UInt8) := fun s =>
  let bytes := (k.file.drop s.position).take (min (k.read s.reads) count)
  .done bytes { s with position := s.position + bytes.length, reads := s.reads + 1 }

/-- `lc_kernel_seek_position`. -/
def seekPosition (k : Kernel) (offset : Nat) : Program Error State Bool := fun s =>
  .done (k.seek s.seeks) { s with position := offset, seeks := s.seeks + 1 }

/-- `read_all`, with the bytes that have arrived. `deliver` is what the kernel does
with a piece, given the number of bytes before it. Every round brings at least
one byte, so `count` rounds are enough. -/
def readAll (k : Kernel) (deliver : Nat → List UInt8 → Program Error State Unit) :
    (rounds : Nat) → List UInt8 → (count : Nat) → Program Error State (Option (List UInt8))
  | 0, arrived, count => pure (if count = 0 then some arrived else none)
  | rounds + 1, arrived, count =>
    if count = 0 then pure (some arrived)
    else do
      let bytes ← readBytes k count
      if bytes.length = 0 then pure none
      else do
        deliver arrived.length bytes
        readAll k deliver rounds (arrived ++ bytes) (count - bytes.length)

/-- `validate_elf_header`; `none` is `LC_OK`. -/
def validateElfHeader (arch : Arch) (ehdr : Elf64Ehdr) : Option Error :=
  if ehdr.ident.take 4 ≠ [0x7f, 0x45, 0x4c, 0x46] then some .badElfMagic
  else if ehdr.ident[4]? ≠ some 2 then some .not64Bit
  else if ehdr.ident[5]? ≠ some 1 then some .badElfMagic
  else if ehdr.type ≠ 3 then some .badElfMagic
  else if ehdr.machine ≠ arch.machine then some .badMachine
  else if ehdr.phentsize ≠ 56 then some .malformedElf
  else if ehdr.phnum = 0 then some .noLoadSeg
  else none

/-- Step 3: the program headers. -/
def readProgramHeaders (k : Kernel) (ehdr : Elf64Ehdr) :
    Program Error State (List Elf64Phdr) :=
  if k.allocatesHeaders then do
    if ← seekPosition k ehdr.phoff then do
      let size := ehdr.phnum * ehdr.phentsize
      match ← readAll k (fun _ _ => pure ()) size [] size with
      | none => abandon [.freeProgramHeaders, .closeFile] .io
      | some buffer => pure ((List.range ehdr.phnum).map (Elf64Phdr.ofBytes buffer))
    else abandon [.freeProgramHeaders, .closeFile] .io
  else abandon [.closeFile] .nomem

/-- Steps 1 to 3. -/
def readHeaders (arch : Arch) (k : Kernel) : Program Error State (List Elf64Phdr) :=
  if k.opens then do
    match ← readAll k (fun _ _ => pure ()) 64 [] 64 with
    | none => abandon [.closeFile] .io
    | some buffer =>
      let ehdr := Elf64Ehdr.ofBytes buffer
      match validateElfHeader arch ehdr with
      | some e => abandon [.closeFile] e
      | none => readProgramHeaders k ehdr
  else Program.fail .noent

/-! ### The mapping -/

/-- `PAGE_ALIGN_DOWN`. -/
def pageAlignDown (x : Nat) : Nat := x &&& (2 ^ 64 - 4096)

/-- `PAGE_ALIGN_UP`. -/
def pageAlignUp (x : Nat) : Nat := add64 x 4095 &&& (2 ^ 64 - 4096)

/-- The loop variables of step 4. -/
structure Span where
  minVaddr : Nat := 2 ^ 64 - 1
  maxVaddr : Nat := 0
  foundLoad : Bool := false

def Span.extend (span : Span) (phdr : Elf64Phdr) : Except Error Span :=
  if phdr.type ≠ 1 then .ok span
  else if phdr.filesz > phdr.memsz then .error .malformedElf
  -- `__builtin_add_overflow`
  else if phdr.vaddr + phdr.memsz ≥ 2 ^ 64 then .error .malformedElf
  else .ok {
    minVaddr := if phdr.vaddr < span.minVaddr then phdr.vaddr else span.minVaddr
    maxVaddr := if phdr.vaddr + phdr.memsz > span.maxVaddr then phdr.vaddr + phdr.memsz
      else span.maxVaddr
    foundLoad := true }

/-- Step 4 before the alignment. -/
def loadSpan (phdrs : List Elf64Phdr) : Except Error Span :=
  match phdrs.foldlM Span.extend {} with
  | .error e => .error e
  | .ok span => if span.foundLoad then .ok span else .error .noLoadSeg

/-- The lowest loadable address, aligned down. -/
def Span.lowest (span : Span) : Nat := pageAlignDown span.minVaddr

theorem Span.lowest_lt (span : Span) : span.lowest < 2 ^ 64 :=
  Nat.lt_of_le_of_lt Nat.and_le_right (by decide)

/-- The size of the mapping. -/
def Span.totalSize (span : Span) : Nat := pageAlignUp (sub64 span.maxVaddr span.lowest)

/-- The mapping, with the address that its first byte stands for. -/
structure Image extends Mapping where
  minVaddr : Nat
  word : minVaddr < 2 ^ 64

/-- Step 5. An anonymous mapping is filled with zeros. -/
def mapImage (k : Kernel) (span : Span) : Program Error State Image :=
  match h : k.mapMemory span.totalSize with
  | none => abandon [.freeProgramHeaders, .closeFile] .nomem
  | some base => do
    Program.modify fun s => { s with memory := fun x =>
      if base ≤ x ∧ x < base + span.totalSize then 0 else s.memory x }
    have placed := k.maps _ _ h
    pure { base, totalSize := span.totalSize, positive := placed.1, aligned := placed.2.1,
           fits := placed.2.2, minVaddr := span.lowest, word := span.lowest_lt }

/-- The error exits after the mapping while the file is open. -/
def abandonCopy (image : Image) (e : Error) : Program Error State Unit :=
  abandon [.unmapMemory image.base image.totalSize, .freeProgramHeaders, .closeFile] e

/-- One round of step 6. -/
def copySegment (k : Kernel) (image : Image) (phdr : Elf64Phdr) : Program Error State Unit :=
  if phdr.type ≠ 1 then pure ()
  else if phdr.filesz = 0 then pure ()
  else
    let offsetInMap := sub64 phdr.vaddr image.minVaddr
    if offsetInMap > image.totalSize ∨ phdr.filesz > image.totalSize - offsetInMap then
      abandonCopy image .malformedElf
    else do
      if ← seekPosition k phdr.offset then do
        let destination := add64 image.base offsetInMap
        translate phdr.vaddr destination
        match ← readAll k (fun sofar bytes => store image.toMapping (destination + sofar) bytes)
            phdr.filesz [] phdr.filesz with
        | none => abandonCopy image .io
        | some _ => pure ()
      else abandonCopy image .io

/-- Step 6. -/
def copySegments (k : Kernel) (image : Image) : List Elf64Phdr → Program Error State Unit
  | [] => pure ()
  | phdr :: rest => do
    copySegment k image phdr
    copySegments k image rest

/-! ### The dynamic table -/

/-- The entries of the dynamic table that the loader looks at. -/
inductive DynField where
  | symtab
  | strtab
  | strsz
  | rela
  | relasz
  | relaent
  | hash
  | gnuHash
  | init
  | fini
  | initArray
  | initArraysz
  | finiArray
  | finiArraysz
  deriving DecidableEq

/-- The tags of the `switch`. -/
def DynField.ofTag : Nat → Option DynField
  | 6 => some .symtab
  | 5 => some .strtab
  | 10 => some .strsz
  | 7 => some .rela
  | 8 => some .relasz
  | 9 => some .relaent
  | 4 => some .hash
  | 0x6ffffef5 => some .gnuHash
  | 12 => some .init
  | 13 => some .fini
  | 25 => some .initArray
  | 27 => some .initArraysz
  | 26 => some .finiArray
  | 28 => some .finiArraysz
  | _ => none

/-- The entry holds a virtual address, not a size. -/
def DynField.isPointer : DynField → Bool
  | .strsz | .relasz | .relaent | .initArraysz | .finiArraysz => false
  | _ => true

/-- The library while the table is walked, with `rela_total_size` and
`rela_entry_size`. -/
structure Tables where
  lib : LcLibrary
  relaTotalSize : Nat := 0
  relaEntrySize : Nat := 0

/-- The assignments of the `switch`. -/
def Tables.set (t : Tables) (field : DynField) (value : Nat) : Tables :=
  match field with
  | .symtab => { t with lib := { t.lib with symtab := value } }
  | .strtab => { t with lib := { t.lib with strtab := value } }
  | .strsz => { t with lib := { t.lib with strtabSize := value } }
  | .rela => { t with lib := { t.lib with rela := value } }
  | .relasz => { t with relaTotalSize := value }
  | .relaent => { t with relaEntrySize := value }
  | .hash => { t with lib := { t.lib with elfHash := value } }
  | .gnuHash => { t with lib := { t.lib with gnuHash := value } }
  | .init => { t with lib := { t.lib with initFunc := value } }
  | .fini => { t with lib := { t.lib with finiFunc := value } }
  | .initArray => { t with lib := { t.lib with initArray := value } }
  | .initArraysz => { t with lib := { t.lib with initArrayCount := value / 8 } }
  | .finiArray => { t with lib := { t.lib with finiArray := value } }
  | .finiArraysz => { t with lib := { t.lib with finiArrayCount := value / 8 } }

/-- `base + v - min_vaddr`. -/
def Image.pointer (image : Image) (v : Nat) : Nat := sub64 (add64 image.base v) image.minVaddr

/-- One round of the walk over the dynamic table. -/
def dynamicRound (image : Image) (dynamic di : Nat) (t : Tables) :
    Program Error State (Step Tables Tables) := do
  let entry := add64 dynamic (16 * di)
  let tag ← load image.toMapping entry 8
  if tag = 0 then pure (.leave t)
  else match DynField.ofTag tag with
    | none => pure (.next t)
    | some field => do
      let value ← load image.toMapping (entry + 8) 8
      if field.isPointer then do
        translate value (image.pointer value)
        pure (.next (t.set field (image.pointer value)))
      else pure (.next (t.set field value))

/-- The entries of a dynamic table before `DT_NULL`, as memory holds them. -/
def dynamicEntries (memory : Memory) (dynamic : Nat) : (rounds di : Nat) → List (Nat × Nat)
  | 0, _ => []
  | rounds + 1, di =>
    let entry := add64 dynamic (16 * di)
    if loadWord memory entry 8 = 0 then []
    else (loadWord memory entry 8, loadWord memory (entry + 8) 8) ::
      dynamicEntries memory dynamic rounds (di + 1)

/-- What an entry does to the tables. -/
def Tables.add (image : Image) (t : Tables) (entry : Nat × Nat) : Tables :=
  match DynField.ofTag entry.1 with
  | none => t
  | some field => t.set field (if field.isPointer then image.pointer entry.2 else entry.2)

/-- The value of the last entry of a kind, zero if there is none. -/
def lastEntry (field : DynField) (entries : List (Nat × Nat)) : Nat :=
  entries.foldl (fun value entry =>
    if DynField.ofTag entry.1 = some field then entry.2 else value) 0

/-- However the walk ended. -/
def walkedTables : Step Tables Tables → Tables
  | .next t => t
  | .leave t => t

/-- The library after the walk, with the relocation count. -/
def Tables.finish (t : Tables) : LcLibrary :=
  if t.relaEntrySize > 0 ∧ t.relaTotalSize > 0 then
    { t.lib with relaCount := t.relaTotalSize / t.relaEntrySize }
  else t.lib

/-- A table that is present lies in the mapping. -/
def tableOk (m : Mapping) (p len : Nat) : Bool := p = 0 || regionInBounds m p len

/-- `tables_ok`. -/
def tablesOk (lib : LcLibrary) : Bool :=
  tableOk lib.toMapping lib.symtab 24 &&
  tableOk lib.toMapping lib.strtab lib.strtabSize &&
  tableOk lib.toMapping lib.elfHash 8 &&
  tableOk lib.toMapping lib.gnuHash 16 &&
  tableOk lib.toMapping lib.initFunc 1 &&
  tableOk lib.toMapping lib.finiFunc 1 &&
  tableOk lib.toMapping lib.rela (mul64 lib.relaCount 24) &&
  tableOk lib.toMapping lib.initArray (mul64 lib.initArrayCount 8) &&
  tableOk lib.toMapping lib.finiArray (mul64 lib.finiArrayCount 8)

/-- The error exits once the library has been allocated. -/
def abandonLibrary {α : Type} (m : Mapping) (e : Error) : Program Error State α :=
  abandon [.unmapMemory m.base m.totalSize, .freeProgramHeaders, .freeLibrary] e

/-- `PT_DYNAMIC` and what step 8 does with it. -/
def parseDynamic (image : Image) (phdrs : List Elf64Phdr) : Program Error State LcLibrary :=
  match phdrs.find? (·.type = 2) with
  | none => abandonLibrary image.toMapping .noDynamic
  | some phdr => do
    let dynamic := image.pointer phdr.vaddr
    translate phdr.vaddr dynamic
    if dynamic = 0 then abandonLibrary image.toMapping .noDynamic
    else if regionInBounds image.toMapping dynamic phdr.filesz then do
      let walked ← Program.upTo (dynamicRound image dynamic) (phdr.filesz / 16) 0
        { lib := { toMapping := image.toMapping } }
      let lib := (walkedTables walked).finish
      if tablesOk lib then pure lib else abandonLibrary image.toMapping .malformedElf
    else abandonLibrary image.toMapping .malformedElf

/-! ### Relocations -/

/-- `reloc_symbol`; `none` is `NULL`. -/
def relocSymbol (lib : LcLibrary) (symIdx symCount : Nat) : Option Nat :=
  if symIdx = 0 then none
  else if symCount > 0 ∧ symIdx ≥ symCount then none
  else if regionInBounds lib.toMapping (symbolAt lib symIdx) 24 then some (symbolAt lib symIdx)
  else none

/-- `*target = value` where `value` stands for the virtual address `v`. -/
def relocate (lib : LcLibrary) (target v value : Nat) : Program Error State Unit := do
  translate v value
  store lib.toMapping target (wordBytes 8 value)

/-- `*target = base + sym->st_value + rela->r_addend` for a defined symbol. -/
def relocateSymbol (lib : LcLibrary) (rela target sym : Nat) : Program Error State Unit := do
  let stShndx ← load lib.toMapping (sym + 6) 2
  if stShndx ≠ 0 then do
    let stValue ← load lib.toMapping (sym + 8) 8
    let rAddend ← load lib.toMapping (rela + 16) 8
    relocate lib target (add64 stValue rAddend) (add64 (add64 lib.base stValue) rAddend)
  else pure ()

/-- The `switch` on the type of an entry. -/
def applyRelocation (arch : Arch) (lib : LcLibrary) (symCount rela target rInfo : Nat) :
    Program Error State Unit :=
  match arch.relocationKind (rInfo % 2 ^ 32) with
  | .ignored => pure ()
  | .relative => do
    let rAddend ← load lib.toMapping (rela + 16) 8
    relocate lib target rAddend (add64 lib.base rAddend)
  | .symbol =>
    match relocSymbol lib (rInfo / 2 ^ 32) symCount with
    | none => pure ()
    | some sym => relocateSymbol lib rela target sym

/-- A round of `process_relocations` once the target is known. -/
def relocationAt (arch : Arch) (lib : LcLibrary) (symCount rela target : Nat) :
    Program Error State (Step Unit Empty) := do
  let rInfo ← load lib.toMapping (rela + 8) 8
  if regionInBounds lib.toMapping target 8 then do
    applyRelocation arch lib symCount rela target rInfo
    pure (.next ())
  else pure (.next ())

/-- One round of `process_relocations`. -/
def relocationRound (arch : Arch) (lib : LcLibrary) (symCount i : Nat) (_ : Unit) :
    Program Error State (Step Unit Empty) := do
  let rOffset ← load lib.toMapping (add64 lib.rela (24 * i)) 8
  translate rOffset (add64 lib.base rOffset)
  relocationAt arch lib symCount (add64 lib.rela (24 * i)) (add64 lib.base rOffset)

/-- `process_relocations`, which always returns `true`. -/
def processRelocations (fuel : Nat) (arch : Arch) (lib : LcLibrary) :
    Program Error State Bool := do
  let symCount ← getSymbolCount fuel lib
  let _ ← Program.upTo (relocationRound arch lib symCount) lib.relaCount 0 ()
  pure true

/-- Step 9. -/
def relocateLibrary (fuel : Nat) (arch : Arch) (lib : LcLibrary) : Program Error State Unit :=
  if lib.rela ≠ 0 ∧ lib.relaCount > 0 then do
    if ← processRelocations fuel arch lib then pure ()
    else abandonLibrary lib.toMapping .relocFailed
  else pure ()

/-! ### Protection and constructors -/

/-- `prot_from_elf_flags`: read, write and execute are 1, 2 and 4. -/
def protFromElfFlags (flags : Nat) : Nat :=
  (if flags &&& 4 ≠ 0 then 1 else 0) ||| (if flags &&& 2 ≠ 0 then 2 else 0) |||
    (if flags &&& 1 ≠ 0 then 4 else 0)

/-- `lc_kernel_protect_memory`. -/
def protectMemory (k : Kernel) (address size prot : Nat) : Program Error State Bool := fun s =>
  .done (k.protect s.protects)
    { s with protects := s.protects + 1, calls := .protectMemory address size prot :: s.calls }

/-- Step 10. -/
def protectSegments (k : Kernel) (image : Image) : List Elf64Phdr → Program Error State Unit
  | [] => pure ()
  | phdr :: rest =>
    if phdr.type ≠ 1 then protectSegments k image rest
    else do
      let segStart := sub64 phdr.vaddr image.minVaddr
      let segEnd := add64 segStart phdr.memsz
      let pageStart := pageAlignDown segStart
      let pageEnd := pageAlignUp segEnd
      if ← protectMemory k (add64 image.base pageStart) (sub64 pageEnd pageStart)
          (protFromElfFlags phdr.flags) then
        protectSegments k image rest
      else abandonLibrary image.toMapping .io

/-- Calling a function of the object. -/
def runFunction (k : Kernel) (function : Nat) : Program Error State Unit :=
  Program.modify fun s =>
    { s with memory := k.construct function s.memory, calls := .run function :: s.calls }

/-- One round over `init_array`. -/
def constructorRound (k : Kernel) (lib : LcLibrary) (i : Nat) (_ : Unit) :
    Program Error State (Step Unit Empty) := do
  let function ← load lib.toMapping (add64 lib.initArray (8 * i)) 8
  if function ≠ 0 then do
    runFunction k function
    pure (.next ())
  else pure (.next ())

/-- The array half of step 11. -/
def runConstructorArray (k : Kernel) (lib : LcLibrary) : Program Error State Unit :=
  if lib.initArray ≠ 0 then do
    let _ ← Program.upTo (constructorRound k lib) lib.initArrayCount 0 ()
    pure ()
  else pure ()

/-- Step 11. -/
def runConstructors (k : Kernel) (lib : LcLibrary) : Program Error State Unit :=
  if lib.initFunc ≠ 0 then do
    runFunction k lib.initFunc
    runConstructorArray k lib
  else runConstructorArray k lib

/-! ### The whole load -/

/-- Steps 1 to 6, after which the file is closed. -/
def loadImage (arch : Arch) (k : Kernel) : Program Error State (Image × List Elf64Phdr) := do
  let phdrs ← readHeaders arch k
  match loadSpan phdrs with
  | .error e => abandon [.freeProgramHeaders, .closeFile] e
  | .ok span => do
    let image ← mapImage k span
    copySegments k image phdrs
    call .closeFile
    pure (image, phdrs)

/-- Steps 7 and 8. -/
def makeLibrary (k : Kernel) (image : Image) (phdrs : List Elf64Phdr) :
    Program Error State LcLibrary :=
  if k.allocatesLibrary then parseDynamic image phdrs
  else abandon [.unmapMemory image.base image.totalSize, .freeProgramHeaders] .nomem

/-- Steps 9 to 11. -/
def finishLibrary (fuel : Nat) (arch : Arch) (k : Kernel) (image : Image)
    (phdrs : List Elf64Phdr) (lib : LcLibrary) : Program Error State LcLibrary := do
  relocateLibrary fuel arch lib
  protectSegments k image phdrs
  call .freeProgramHeaders
  runConstructors k lib
  pure lib

/-- `lc_library_open`. -/
def lcLibraryOpen (fuel : Nat) (arch : Arch) (k : Kernel) : Program Error State LcLibrary := do
  let (image, phdrs) ← loadImage arch k
  let lib ← makeLibrary k image phdrs
  finishLibrary fuel arch k image phdrs lib

/-! ### What a load that returned has gone through -/

variable {arch : Arch} {k : Kernel} {image : Image} {phdrs : List Elf64Phdr} {lib : LcLibrary}
variable {fuel : Nat} {s t : State}

theorem abandon_ne_done {α : Type} {calls : List Call} {e : Error} {a : α} :
    abandon calls e s ≠ .done a t := by
  intro run
  cases run

theorem finishLibrary_done {lib' : LcLibrary}
    (finished : finishLibrary fuel arch k image phdrs lib s = .done lib' t) : lib' = lib := by
  obtain ⟨_, _, _, finished⟩ := Program.bind_eq_done finished
  obtain ⟨_, _, _, finished⟩ := Program.bind_eq_done finished
  obtain ⟨_, _, _, finished⟩ := Program.bind_eq_done finished
  obtain ⟨_, _, _, finished⟩ := Program.bind_eq_done finished
  cases finished
  rfl

/-- The kernel refuses the mapping, or grants it. -/
theorem mapImage_cases (k : Kernel) (span : Span) :
    (k.mapMemory span.totalSize = none ∧
      mapImage k span = abandon [.freeProgramHeaders, .closeFile] .nomem) ∨
    ∃ image : Image, k.mapMemory span.totalSize = some image.base ∧
      image.totalSize = span.totalSize ∧ image.minVaddr = span.lowest ∧
      mapImage k span = (do
        Program.modify fun s => { s with memory := fun x =>
          if image.base ≤ x ∧ x < image.base + image.totalSize then 0 else s.memory x }
        pure image) := by
  unfold mapImage
  split
  · next refused => exact .inl ⟨refused, rfl⟩
  · next base granted => exact .inr ⟨_, granted, rfl, rfl, rfl⟩

/-- The parts of steps 1 to 6. -/
theorem loadImage_stages (loaded : loadImage arch k s = .done (image, phdrs) t) :
    ∃ span s₁ s₂ s₃, readHeaders arch k s = .done phdrs s₁ ∧ loadSpan phdrs = .ok span ∧
      mapImage k span s₁ = .done image s₂ ∧ copySegments k image phdrs s₂ = .done () s₃ ∧
      t = { s₃ with calls := .closeFile :: s₃.calls } := by
  obtain ⟨found, s₁, headers, loaded⟩ := Program.bind_eq_done loaded
  cases computed : loadSpan found with
  | error e =>
    simp only [computed] at loaded
    exact absurd loaded abandon_ne_done
  | ok span =>
    simp only [computed] at loaded
    obtain ⟨made, s₂, mapped, loaded⟩ := Program.bind_eq_done loaded
    obtain ⟨_, s₃, copied, loaded⟩ := Program.bind_eq_done loaded
    obtain ⟨_, s₄, closed, loaded⟩ := Program.bind_eq_done loaded
    cases closed
    cases loaded
    exact ⟨span, s₁, s₂, s₃, headers, computed, mapped, copied, rfl⟩

/-- The three parts of a load that returned. -/
theorem opened_stages (opened : lcLibraryOpen fuel arch k s = .done lib t) :
    ∃ image phdrs s₁ s₂, loadImage arch k s = .done (image, phdrs) s₁ ∧
      makeLibrary k image phdrs s₁ = .done lib s₂ ∧
      finishLibrary fuel arch k image phdrs lib s₂ = .done lib t := by
  obtain ⟨⟨image, phdrs⟩, s₁, loaded, opened⟩ := Program.bind_eq_done opened
  obtain ⟨made, s₂, parsed, finished⟩ := Program.bind_eq_done opened
  obtain rfl := finishLibrary_done finished
  exact ⟨image, phdrs, s₁, s₂, loaded, parsed, finished⟩

/-- The walk that a parsed dynamic table comes from. -/
theorem makeLibrary_done (made : makeLibrary k image phdrs s = .done lib t) :
    tablesOk lib = true ∧ ∃ phdr walked s₁, phdrs.find? (·.type = 2) = some phdr ∧
      regionInBounds image.toMapping (image.pointer phdr.vaddr) phdr.filesz = true ∧
      translate phdr.vaddr (image.pointer phdr.vaddr) s = .done () s₁ ∧
      Program.upTo (dynamicRound image (image.pointer phdr.vaddr)) (phdr.filesz / 16) 0
        { lib := { toMapping := image.toMapping } } s₁ = .done walked t ∧
      lib = (walkedTables walked).finish := by
  unfold makeLibrary at made
  split at made
  · rw [parseDynamic] at made
    cases found : phdrs.find? (·.type = 2) with
    | none =>
      rw [found] at made
      exact absurd made abandon_ne_done
    | some phdr =>
      rw [found] at made
      obtain ⟨_, s₁, translated, made⟩ := Program.bind_eq_done made
      split at made
      · exact absurd made abandon_ne_done
      · split at made
        · next inside =>
          obtain ⟨walked, s₂, walk, made⟩ := Program.bind_eq_done made
          dsimp only at made
          split at made
          · next ok =>
            cases made
            exact ⟨ok, phdr, walked, s₁, rfl, inside, translated, walk, rfl⟩
          · exact absurd made abandon_ne_done
        · exact absurd made abandon_ne_done
  · exact absurd made abandon_ne_done

theorem tableOk_holds {m : Mapping} {p len : Nat} (h : tableOk m p len = true) (present : p ≠ 0) :
    m.Holds p len := by
  unfold tableOk at h
  rw [decide_eq_false present, Bool.false_or] at h
  exact holds_of_regionInBounds h

/-- What the table checks leave for the lookups to rely on. -/
theorem opened_strings (opened : lcLibraryOpen fuel arch k s = .done lib t)
    (present : lib.strtab ≠ 0) : StringsInside lib := by
  obtain ⟨image, phdrs, s₁, s₂, _, made, _⟩ := opened_stages opened
  have ok := (makeLibrary_done made).1
  simp only [tablesOk, Bool.and_eq_true] at ok
  exact tableOk_holds ok.1.1.1.1.1.1.1.2 present

/-! ### Small objects

One loadable segment that holds the whole file, and a dynamic table right behind
the program headers, at offset 176. -/

/-- `Elf64_Ehdr` of an x86-64 shared object with two program headers. -/
def objectHeader : List UInt8 :=
  [0x7f, 0x45, 0x4c, 0x46, 2, 1] ++ wordBytes 10 0 ++ wordBytes 2 3 ++ wordBytes 2 62 ++
    wordBytes 12 0 ++ wordBytes 8 64 ++ wordBytes 14 0 ++ wordBytes 2 56 ++ wordBytes 2 2 ++
    wordBytes 6 0

/-- `Elf64_Phdr` of a readable and writable segment. -/
def segmentHeader (type offset vaddr filesz memsz : Nat) : List UInt8 :=
  wordBytes 4 type ++ wordBytes 4 6 ++ wordBytes 8 offset ++ wordBytes 8 vaddr ++ wordBytes 8 0 ++
    wordBytes 8 filesz ++ wordBytes 8 memsz ++ wordBytes 8 4096

/-- An object loaded at `lowest`, with its dynamic table and what follows it. -/
def objectFile (lowest : Nat) (dynamic : List (Nat × Nat)) (rest : List UInt8) : List UInt8 :=
  objectHeader ++
    segmentHeader 1 0 lowest (176 + 16 * dynamic.length + rest.length) 4096 ++
    segmentHeader 2 176 (lowest + 176) (16 * dynamic.length) (16 * dynamic.length) ++
    dynamic.flatMap (fun entry => wordBytes 8 entry.1 ++ wordBytes 8 entry.2) ++ rest

/-- A kernel that grants everything and has nothing mapped yet. -/
def obliging (file : List UInt8) : Kernel where
  file
  opens := true
  allocatesHeaders := true
  allocatesLibrary := true
  read _ := file.length
  seek _ := true
  mapMemory size := if size ≤ 2 ^ 46 then some (2 ^ 46) else none
  protect _ := true
  construct _ memory := memory
  maps := by
    intro size base h
    split at h
    · cases h
      omega
    · cases h

/-- The state before the first call. -/
def State.fresh : State := { memory := fun _ => 0 }

end Lightc.Library
