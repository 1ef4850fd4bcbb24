import Lightc.Library.Elf

/-!
# Looking up symbols

The two hash functions, the bounded string comparison, the three searches and
the symbol count, as the loader computes them. The chain walks follow indices
that come from the file, so they take fuel. A search returns the address of the
symbol-table entry it stops at, and the address of the symbol is formed from the
entry at the end, where all three searches do the same.

None of these functions writes. Each is shown to read inside the mapping only,
whatever memory holds, as long as the string table does.
-/

namespace Lightc.Library

open Machine Verification
open Program (bind_done)

/-- `str_equal_bounded`. The name is the bytes before its terminator. -/
def strEqualBounded (m : Mapping) (a aEnd : Nat) : List UInt8 → Program Error State Bool
  | [] =>
    if a < aEnd then do
      let c ← load m a 1
      pure (c == 0)
    else pure false
  | b :: rest =>
    if a < aEnd then do
      let c ← load m a 1
      -- On its terminator `a` has ended before `b` has.
      if c = 0 then pure false
      else if c ≠ b.toNat then pure false
      else strEqualBounded m (a + 1) aEnd rest
    else pure false

/-- `elf_hash_function`. -/
def elfHashFunction (name : List UInt8) : UInt32 :=
  name.foldl (fun h c =>
    let h := (h <<< 4) + c.toUInt32
    let g := h &&& 0xf0000000
    let h := if g ≠ 0 then h ^^^ (g >>> 24) else h
    h &&& ~~~g) 0

/-- `gnu_hash_function`. -/
def gnuHashFunction (name : List UInt8) : UInt32 :=
  name.foldl (fun h c => (h <<< 5) + h + c.toUInt32) 5381

/-- `&lib->symtab[index]`. -/
def symbolAt (lib : LcLibrary) (index : Nat) : Nat := add64 lib.symtab (24 * index)

/-- `lib->strtab + lib->strtab_size`. -/
def strEnd (lib : LcLibrary) : Nat := add64 lib.strtab lib.strtabSize

/-- `sym->st_name < lib->strtab_size && str_equal_bounded(..)`, then
`sym->st_shndx != SHN_UNDEF`. -/
def definedAs (lib : LcLibrary) (sym : Nat) (name : List UInt8) : Program Error State Bool := do
  let stName ← load lib.toMapping sym 4
  if stName < lib.strtabSize then
    if ← strEqualBounded lib.toMapping (add64 lib.strtab stName) (strEnd lib) name then
      let stShndx ← load lib.toMapping (sym + 6) 2
      pure (stShndx != 0)
    else pure false
  else pure false

/-- The header of a GNU hash table and where its two arrays are. -/
structure GnuTable where
  nbuckets : Nat
  symndx : Nat
  buckets : Nat
  chains : Nat

/-- The checks on the header that the lookup and the symbol count both start
with; `none` if one of them fails. -/
def gnuTable (lib : LcLibrary) : Program Error State (Option GnuTable) :=
  if regionInBounds lib.toMapping lib.gnuHash 16 then do
    let nbuckets ← load lib.toMapping lib.gnuHash 4
    let symndx ← load lib.toMapping (lib.gnuHash + 4) 4
    let maskwords ← load lib.toMapping (lib.gnuHash + 8) 4
    if nbuckets = 0 then pure none
    else if maskwords * 8 > lib.totalSize then pure none
    else if nbuckets * 4 > lib.totalSize then pure none
    else
      let buckets := add64 (add64 lib.gnuHash 16) (8 * maskwords)
      if regionInBounds lib.toMapping buckets (nbuckets * 4) then
        pure (some ⟨nbuckets, symndx, buckets, add64 buckets (4 * nbuckets)⟩)
      else pure none
  else pure none

/-- `&chains[chain_idx]`. -/
def GnuTable.chainSlot (table : GnuTable) (chainIdx : Nat) : Nat :=
  add64 table.chains (4 * chainIdx)

/-- The candidate at `chain_idx` has the name and is defined. -/
def gnuCandidate (lib : LcLibrary) (table : GnuTable) (name : List UInt8) (chainIdx : Nat) :
    Program Error State Bool :=
  let sym := symbolAt lib (add32 table.symndx chainIdx)
  if regionInBounds lib.toMapping sym 24 then definedAs lib sym name else pure false

/-- The hash first, ignoring the end-of-chain bit, then the candidate. -/
def gnuMatches (lib : LcLibrary) (table : GnuTable) (name : List UInt8) (chainIdx chainVal : Nat) :
    Program Error State Bool :=
  if chainVal ||| 1 = (gnuHashFunction name).toNat ||| 1 then gnuCandidate lib table name chainIdx
  else pure false

/-- One round of the chain walk of `find_symbol_with_gnu_hash`. -/
def gnuChainRound (lib : LcLibrary) (table : GnuTable) (name : List UInt8) (chainIdx : Nat) :
    Program Error State (Step Nat (Option Nat)) :=
  if regionInBounds lib.toMapping (table.chainSlot chainIdx) 4 then do
    let chainVal ← load lib.toMapping (table.chainSlot chainIdx) 4
    if ← gnuMatches lib table name chainIdx chainVal then
      pure (.leave (some (symbolAt lib (add32 table.symndx chainIdx))))
    else if chainVal % 2 = 1 then pure (.leave none)
    else pure (.next (add32 chainIdx 1))
  else pure (.leave none)

/-- The search of `find_symbol_with_gnu_hash`. -/
def gnuSearch (fuel : Nat) (lib : LcLibrary) (name : List UInt8) :
    Program Error State (Option Nat) := do
  match ← gnuTable lib with
  | none => pure none
  | some table =>
    let bucketIdx ← modulo (gnuHashFunction name).toNat table.nbuckets
    let symIdx ← load lib.toMapping (add64 table.buckets (4 * bucketIdx)) 4
    if symIdx = 0 then pure none
    else if symIdx < table.symndx then pure none
    else Program.loop (gnuChainRound lib table name) fuel (symIdx - table.symndx)

/-- The header of an ELF hash table and where its two arrays are. -/
structure ElfTable where
  nbucket : Nat
  nchain : Nat
  buckets : Nat
  chains : Nat

/-- The checks `find_symbol_with_elf_hash` starts with. -/
def elfTable (lib : LcLibrary) : Program Error State (Option ElfTable) :=
  if regionInBounds lib.toMapping lib.elfHash 8 then do
    let nbucket ← load lib.toMapping lib.elfHash 4
    let nchain ← load lib.toMapping (lib.elfHash + 4) 4
    if nbucket = 0 then pure none
    else if nbucket * 4 > lib.totalSize then pure none
    else
      let buckets := add64 lib.elfHash 8
      if regionInBounds lib.toMapping buckets (nbucket * 4) then
        -- `&hash_table[2 + nbucket]` with a 32-bit index.
        pure (some ⟨nbucket, nchain, buckets, add64 lib.elfHash (4 * add32 2 nbucket)⟩)
      else pure none
  else pure none

/-- One round of the chain walk of `find_symbol_with_elf_hash`. -/
def elfChainRound (lib : LcLibrary) (table : ElfTable) (name : List UInt8) (idx : Nat) :
    Program Error State (Step Nat (Option Nat)) :=
  if idx ≠ 0 ∧ idx < table.nchain then
    if regionInBounds lib.toMapping (symbolAt lib idx) 24 then do
      if ← definedAs lib (symbolAt lib idx) name then pure (.leave (some (symbolAt lib idx)))
      else if regionInBounds lib.toMapping (add64 table.chains (4 * idx)) 4 then
        let following ← load lib.toMapping (add64 table.chains (4 * idx)) 4
        pure (.next following)
      else pure (.leave none)
    else pure (.leave none)
  else pure (.leave none)

/-- The search of `find_symbol_with_elf_hash`. -/
def elfSearch (fuel : Nat) (lib : LcLibrary) (name : List UInt8) :
    Program Error State (Option Nat) := do
  match ← elfTable lib with
  | none => pure none
  | some table =>
    let bucketIdx ← modulo (elfHashFunction name).toNat table.nbucket
    let idx ← load lib.toMapping (add64 table.buckets (4 * bucketIdx)) 4
    Program.loop (elfChainRound lib table name) fuel idx

/-- The largest bucket start, at least `max_sym`. -/
def gnuMaxSymbol (lib : LcLibrary) (table : GnuTable) : Program Error State (Step Nat Empty) :=
  Program.upTo (fun i maxSym => do
    let bucket ← load lib.toMapping (add64 table.buckets (4 * i)) 4
    pure (.next (if bucket > maxSym then bucket else maxSym))) table.nbuckets 0 table.symndx

/-- One round of the chain walk of `get_symbol_count`. -/
def countRound (lib : LcLibrary) (table : GnuTable) (chainIdx : Nat) :
    Program Error State (Step Nat Nat) :=
  if regionInBounds lib.toMapping (table.chainSlot chainIdx) 4 then do
    let chainVal ← load lib.toMapping (table.chainSlot chainIdx) 4
    if chainVal % 2 = 1 then pure (.leave chainIdx) else pure (.next (add32 chainIdx 1))
  else pure (.leave chainIdx)

/-- `get_symbol_count`. -/
def getSymbolCount (fuel : Nat) (lib : LcLibrary) : Program Error State Nat :=
  if lib.elfHash ≠ 0 then
    if regionInBounds lib.toMapping lib.elfHash 8 then load lib.toMapping (lib.elfHash + 4) 4
    else pure 0
  else if lib.gnuHash ≠ 0 then do
    match ← gnuTable lib with
    | none => pure 0
    | some table =>
      match ← gnuMaxSymbol lib table with
      | .leave never => nomatch never
      | .next maxSym =>
        if maxSym < table.symndx then pure table.symndx
        else do
          let chainIdx ← Program.loop (countRound lib table) fuel (maxSym - table.symndx)
          pure (add32 (add32 table.symndx chainIdx) 1)
  else pure 0

/-- One round of `find_symbol_linear_scan`. -/
def scanRound (lib : LcLibrary) (name : List UInt8) (i : Nat) (_ : Unit) :
    Program Error State (Step Unit (Option Nat)) :=
  let sym := symbolAt lib i
  if regionInBounds lib.toMapping sym 24 then do
    let stInfo ← load lib.toMapping (sym + 4) 1
    if stInfo / 16 ≠ 1 ∧ stInfo / 16 ≠ 2 then pure (.next ())
    else do
      let stShndx ← load lib.toMapping (sym + 6) 2
      if stShndx = 0 then pure (.next ())
      else do
        let stName ← load lib.toMapping sym 4
        if stName ≥ lib.strtabSize then pure (.next ())
        else do
          if ← strEqualBounded lib.toMapping (add64 lib.strtab stName) (strEnd lib) name then
            pure (.leave (some sym))
          else pure (.next ())
  else pure (.leave none)

/-- The search of `find_symbol_linear_scan`; index 0 is `STN_UNDEF`. -/
def linearSearch (fuel : Nat) (lib : LcLibrary) (name : List UInt8) :
    Program Error State (Option Nat) := do
  let symCount ← getSymbolCount fuel lib
  match ← Program.upTo (scanRound lib name) (symCount - 1) 1 () with
  | .next () => pure none
  | .leave found => pure found

/-- The pointer a search returns: `lib->base + sym->st_value`, or `NULL`. -/
def symbolAddress (lib : LcLibrary) : Option Nat → Program Error State Nat
  | none => pure 0
  | some sym => do
    let stValue ← load lib.toMapping (sym + 8) 8
    pure (add64 lib.base stValue)

def findSymbolWithGnuHash (fuel : Nat) (lib : LcLibrary) (name : List UInt8) :
    Program Error State Nat := do
  symbolAddress lib (← gnuSearch fuel lib name)

def findSymbolWithElfHash (fuel : Nat) (lib : LcLibrary) (name : List UInt8) :
    Program Error State Nat := do
  symbolAddress lib (← elfSearch fuel lib name)

def findSymbolLinearScan (fuel : Nat) (lib : LcLibrary) (name : List UInt8) :
    Program Error State Nat := do
  symbolAddress lib (← linearSearch fuel lib name)

/-- The search `lc_library_find_symbol` chooses. -/
def findSymbol (fuel : Nat) (lib : LcLibrary) (name : List UInt8) : Program Error State Nat :=
  if lib.gnuHash ≠ 0 then findSymbolWithGnuHash fuel lib name
  else if lib.elfHash ≠ 0 then findSymbolWithElfHash fuel lib name
  else findSymbolLinearScan fuel lib name

/-- `lc_library_find_symbol`. -/
def lcLibraryFindSymbol (fuel : Nat) (lib : LcLibrary) (name : List UInt8) :
    Program Error State Nat :=
  if lib.symtab = 0 ∨ lib.strtab = 0 then Program.fail .noent
  else do
    let sym ← findSymbol fuel lib name
    if sym = 0 then Program.fail .noent else pure sym

/-! ### Reads stay inside the mapping -/

variable {m : Mapping} {lib : LcLibrary} {name : List UInt8}

theorem load_quiet {address count : Nat} (inside : m.Holds address count) :
    Quiet (load m address count) fun s v => v = loadWord s.memory address count :=
  fun s => ⟨_, load_done inside s, rfl⟩

theorem load_word_quiet {address : Nat} (inside : m.Holds address 4) :
    Quiet (load m address 4) fun _ v => v < 2 ^ 32 := by
  apply (load_quiet inside).mono
  rintro s _ rfl
  exact loadWord_lt s.memory address 4

theorem modulo_quiet {a b : Nat} (nonzero : b ≠ 0) :
    Quiet (modulo a b) fun _ r => r < b :=
  fun _ => ⟨a % b, if_neg nonzero, Nat.mod_lt a (Nat.pos_of_ne_zero nonzero)⟩

/-- The comparison never reads at or past the end it is given. -/
theorem strEqualBounded_quiet {aEnd : Nat} (high : aEnd ≤ m.base + m.totalSize)
    (name : List UInt8) (a : Nat) (low : m.base ≤ a) :
    Quiet (strEqualBounded m a aEnd name) fun _ _ => True := by
  induction name generalizing a with
  | nil =>
    rw [strEqualBounded]
    apply Quiet.guarded (fun _ => trivial)
    intro before
    apply Quiet.bind_at (load_quiet ⟨low, by omega⟩)
    exact fun _ _ _ => ⟨_, rfl, trivial⟩
  | cons b rest ih =>
    rw [strEqualBounded]
    apply Quiet.guarded (fun _ => trivial)
    intro before
    apply Quiet.bind ((load_quiet ⟨low, by omega⟩).forget)
    intro c _
    apply Quiet.early (fun _ => trivial)
    intro _
    apply Quiet.ite
    · exact fun _ => Quiet.any
    · exact fun _ => ih (a + 1) (by omega)

/-- The string table lies in the mapping; `lc_library_open` has checked it. -/
def StringsInside (lib : LcLibrary) : Prop := lib.toMapping.Holds lib.strtab lib.strtabSize

/-- A name that starts in the string table is compared inside it. -/
theorem name_quiet (strings : StringsInside lib) {stName : Nat} (starts : stName < lib.strtabSize) :
    Quiet (strEqualBounded lib.toMapping (add64 lib.strtab stName) (strEnd lib) name)
      fun _ _ => True := by
  apply strEqualBounded_quiet
  · exact Nat.le_trans (Nat.mod_le _ _) strings.2
  · rw [strings.wrap starts]
    exact Nat.le_add_right_of_le strings.1

theorem definedAs_quiet (strings : StringsInside lib) {sym : Nat}
    (inside : lib.toMapping.Holds sym 24) (name : List UInt8) :
    Quiet (definedAs lib sym name) fun _ _ => True := by
  apply Quiet.bind ((load_quiet (inside.part (by omega) (by omega))).forget)
  intro stName _
  apply Quiet.guarded (fun _ => trivial)
  intro starts
  apply Quiet.bind (name_quiet strings starts)
  intro same _
  cases same with
  | false => exact Quiet.any
  | true =>
    apply Quiet.bind ((load_quiet (inside.part (by omega) (by omega))).forget)
    exact fun _ _ => Quiet.any

/-- A table that passed the checks has buckets, all of them in the mapping. -/
theorem gnuTable_quiet (lib : LcLibrary) : Quiet (gnuTable lib) fun _ r => ∀ table, r = some table →
    table.nbuckets ≠ 0 ∧ table.symndx < 2 ^ 32 ∧
      lib.toMapping.Holds table.buckets (table.nbuckets * 4) := by
  apply Quiet.guarded fun _ => nofun
  intro header
  have inside := holds_of_regionInBounds header
  apply Quiet.bind (load_word_quiet (inside.part (by omega) (by omega)))
  intro nbuckets _
  apply Quiet.bind (load_word_quiet (inside.part (by omega) (by omega)))
  intro symndx small
  apply Quiet.bind (load_word_quiet (inside.part (by omega) (by omega)))
  intro maskwords _
  apply Quiet.early fun _ => nofun
  intro nonzero
  apply Quiet.early fun _ => nofun
  intro _
  apply Quiet.early fun _ => nofun
  intro _
  apply Quiet.guarded fun _ => nofun
  intro buckets
  apply Quiet.ret
  rintro _ _ ⟨⟩
  exact ⟨nonzero, small, holds_of_regionInBounds buckets⟩

theorem elfTable_quiet (lib : LcLibrary) : Quiet (elfTable lib) fun _ r => ∀ table, r = some table →
    table.nbucket ≠ 0 ∧ lib.toMapping.Holds table.buckets (table.nbucket * 4) := by
  apply Quiet.guarded fun _ => nofun
  intro header
  have inside := holds_of_regionInBounds header
  apply Quiet.bind (load_word_quiet (inside.part (by omega) (by omega)))
  intro nbucket _
  apply Quiet.bind (load_word_quiet (inside.part (by omega) (by omega)))
  intro nchain _
  apply Quiet.early fun _ => nofun
  intro nonzero
  apply Quiet.early fun _ => nofun
  intro _
  apply Quiet.guarded fun _ => nofun
  intro buckets
  apply Quiet.ret
  rintro _ _ ⟨⟩
  exact ⟨nonzero, holds_of_regionInBounds buckets⟩

/-- An element of an array of 32-bit words that lies in the mapping. -/
theorem element_holds {array length i : Nat} (inside : m.Holds array (length * 4))
    (h : i < length) :
    m.Holds (add64 array (4 * i)) 4 := by
  rw [inside.wrap (by omega)]
  exact inside.part (by omega) (by omega)

theorem gnuMatches_quiet (strings : StringsInside lib) (table : GnuTable)
    (chainIdx chainVal : Nat) :
    Quiet (gnuMatches lib table name chainIdx chainVal) fun _ found => found = true →
      lib.toMapping.Holds (symbolAt lib (add32 table.symndx chainIdx)) 24 := by
  apply Quiet.guarded fun _ => nofun
  intro _
  apply Quiet.guarded fun _ => nofun
  intro inside
  apply (definedAs_quiet strings (holds_of_regionInBounds inside) name).mono
  exact fun _ _ _ _ => holds_of_regionInBounds inside

/-- The walk ends at `chain_idx`: its slot is out of reach, closes the chain, or
belongs to the symbol that is looked for. -/
def GnuStops (lib : LcLibrary) (table : GnuTable) (name : List UInt8) (s : State)
    (chainIdx : Nat) : Prop :=
  regionInBounds lib.toMapping (table.chainSlot chainIdx) 4 = false ∨
    loadWord s.memory (table.chainSlot chainIdx) 4 % 2 = 1 ∨
    gnuMatches lib table name chainIdx (loadWord s.memory (table.chainSlot chainIdx) 4) s =
      .done true s

/-- What one round of the GNU chain walk may do. -/
structure GnuRound (lib : LcLibrary) (table : GnuTable) (name : List UInt8) (chainIdx : Nat)
    (s : State) (r : Step Nat (Option Nat)) : Prop where
  found : ∀ sym, r = .leave (some sym) → lib.toMapping.Holds sym 24
  next : ∀ j, r = .next j → j = add32 chainIdx 1
  stops : (∃ result, r = .leave result) ↔ GnuStops lib table name s chainIdx

theorem gnuChainRound_quiet (strings : StringsInside lib) (table : GnuTable) (name : List UInt8)
    (chainIdx : Nat) :
    Quiet (gnuChainRound lib table name chainIdx) (GnuRound lib table name chainIdx) := by
  apply Quiet.ite
  · intro readable
    apply Quiet.bind_at (load_quiet (holds_of_regionInBounds readable))
    rintro s _ rfl
    obtain ⟨found, run, inside⟩ := gnuMatches_quiet strings table chainIdx
      (loadWord s.memory (table.chainSlot chainIdx) 4) s
    rw [bind_done run]
    cases found with
    | true =>
      refine ⟨_, rfl, ⟨?_, ?_, ?_⟩⟩
      · rintro sym ⟨⟩
        exact inside rfl
      · rintro j ⟨⟩
      · exact iff_of_true ⟨_, rfl⟩ (.inr (.inr run))
    | false =>
      by_cases last : loadWord s.memory (table.chainSlot chainIdx) 4 % 2 = 1
      · refine ⟨.leave none, by simp [last], ⟨?_, ?_, ?_⟩⟩
        · rintro sym ⟨⟩
        · rintro j ⟨⟩
        · exact iff_of_true ⟨_, rfl⟩ (.inr (.inl last))
      · refine ⟨.next (add32 chainIdx 1), by simp [last], ⟨?_, ?_, ?_⟩⟩
        · rintro sym ⟨⟩
        · rintro j ⟨⟩
          rfl
        · apply iff_of_false
          · rintro ⟨_, ⟨⟩⟩
          · rintro (unreadable | odd | hit)
            · rw [readable] at unreadable
              cases unreadable
            · exact last odd
            · rw [run] at hit
              cases hit
  · intro unreadable
    refine Quiet.ret fun s => ⟨?_, ?_, ?_⟩
    · rintro sym ⟨⟩
    · rintro j ⟨⟩
    · exact iff_of_true ⟨_, rfl⟩ (.inl (Bool.eq_false_of_not_eq_true unreadable))

/-- The walk ends at `idx`: it is no index of the table, its symbol or its slot
is out of reach, or its symbol is the one that is looked for. -/
def ElfStops (lib : LcLibrary) (table : ElfTable) (name : List UInt8) (s : State) (idx : Nat) :
    Prop :=
  ¬ (idx ≠ 0 ∧ idx < table.nchain) ∨
    regionInBounds lib.toMapping (symbolAt lib idx) 24 = false ∨
    definedAs lib (symbolAt lib idx) name s = .done true s ∨
    regionInBounds lib.toMapping (add64 table.chains (4 * idx)) 4 = false

/-- What one round of the ELF chain walk may do. -/
structure ElfRound (lib : LcLibrary) (table : ElfTable) (name : List UInt8) (idx : Nat)
    (s : State) (r : Step Nat (Option Nat)) : Prop where
  found : ∀ sym, r = .leave (some sym) → lib.toMapping.Holds sym 24
  next : ∀ j, r = .next j → j = loadWord s.memory (add64 table.chains (4 * idx)) 4
  stops : (∃ result, r = .leave result) ↔ ElfStops lib table name s idx

/-- A round that leaves without a symbol. -/
private theorem ElfRound.none {table : ElfTable} {idx : Nat} {s : State}
    (stops : ElfStops lib table name s idx) : ElfRound lib table name idx s (.leave none) := by
  refine ⟨?_, ?_, iff_of_true ⟨_, rfl⟩ stops⟩
  · rintro sym ⟨⟩
  · rintro j ⟨⟩

theorem elfChainRound_quiet (strings : StringsInside lib) (table : ElfTable) (name : List UInt8)
    (idx : Nat) :
    Quiet (elfChainRound lib table name idx) (ElfRound lib table name idx) := by
  apply Quiet.ite
  · intro index
    apply Quiet.ite
    · intro symbol
      have inside := holds_of_regionInBounds symbol
      intro s
      obtain ⟨hit, run, _⟩ := definedAs_quiet strings inside name s
      rw [bind_done run]
      cases hit with
      | true =>
        refine ⟨_, rfl, ⟨?_, ?_, iff_of_true ⟨_, rfl⟩ (.inr (.inr (.inl run)))⟩⟩
        · rintro sym ⟨⟩
          exact inside
        · rintro j ⟨⟩
      | false =>
        rw [if_neg Bool.false_ne_true]
        by_cases slot : regionInBounds lib.toMapping (add64 table.chains (4 * idx)) 4 = true
        · rw [if_pos slot, bind_done (load_done (holds_of_regionInBounds slot) s)]
          refine ⟨_, rfl, ⟨?_, ?_, ?_⟩⟩
          · rintro sym ⟨⟩
          · rintro j ⟨⟩
            rfl
          · apply iff_of_false
            · rintro ⟨_, ⟨⟩⟩
            · rintro (noIndex | noSymbol | isHit | noSlot)
              · exact noIndex index
              · rw [symbol] at noSymbol
                cases noSymbol
              · rw [run] at isHit
                cases isHit
              · rw [slot] at noSlot
                cases noSlot
        · rw [if_neg slot]
          exact ⟨_, rfl, .none (.inr (.inr (.inr (Bool.eq_false_of_not_eq_true slot))))⟩
    · intro symbol
      exact Quiet.ret fun s => .none (.inr (.inl (Bool.eq_false_of_not_eq_true symbol)))
  · intro index
    exact Quiet.ret fun s => .none (.inl index)

/-- The count's walk ends at `chain_idx`. -/
def CountStops (lib : LcLibrary) (table : GnuTable) (s : State) (chainIdx : Nat) : Prop :=
  regionInBounds lib.toMapping (table.chainSlot chainIdx) 4 = false ∨
    loadWord s.memory (table.chainSlot chainIdx) 4 % 2 = 1

/-- What one round of the symbol count's walk may do. -/
structure CountRound (lib : LcLibrary) (table : GnuTable) (chainIdx : Nat) (s : State)
    (r : Step Nat Nat) : Prop where
  next : ∀ j, r = .next j → j = add32 chainIdx 1
  stops : (∃ result, r = .leave result) ↔ CountStops lib table s chainIdx

theorem countRound_quiet (lib : LcLibrary) (table : GnuTable) (chainIdx : Nat) :
    Quiet (countRound lib table chainIdx) (CountRound lib table chainIdx) := by
  apply Quiet.ite
  · intro readable
    apply Quiet.bind_at (load_quiet (holds_of_regionInBounds readable))
    rintro s _ rfl
    split
    · next last =>
      refine ⟨_, rfl, ⟨?_, iff_of_true ⟨_, rfl⟩ (.inr last)⟩⟩
      rintro j ⟨⟩
    · next last =>
      refine ⟨_, rfl, ⟨?_, ?_⟩⟩
      · rintro j ⟨⟩
        rfl
      · apply iff_of_false
        · rintro ⟨_, ⟨⟩⟩
        · rintro (unreadable | odd)
          · rw [readable] at unreadable
            cases unreadable
          · exact last odd
  · intro unreadable
    refine Quiet.ret fun s => ⟨?_, iff_of_true ⟨_, rfl⟩ (.inl ?_)⟩
    · rintro j ⟨⟩
    · exact Bool.eq_false_of_not_eq_true unreadable

/-- The loop over the buckets ends with some 32-bit index, not below `symndx`. -/
theorem gnuMaxSymbol_quiet {table : GnuTable} (small : table.symndx < 2 ^ 32)
    (inside : lib.toMapping.Holds table.buckets (table.nbuckets * 4)) :
    Quiet (gnuMaxSymbol lib table) fun _ r =>
      ∃ maxSym, r = .next maxSym ∧ table.symndx ≤ maxSym ∧ maxSym < 2 ^ 32 := by
  apply (Quiet.upTo (I := fun maxSym => table.symndx ≤ maxSym ∧ maxSym < 2 ^ 32)
    (T := fun _ => True) ?_ table.nbuckets 0 _ (Nat.zero_add _) ⟨Nat.le_refl _, small⟩).mono
  · intro s r met
    cases r with
    | next maxSym => exact ⟨maxSym, rfl, met⟩
    | leave never => exact never.elim
  · intro i maxSym before range
    apply Quiet.bind (load_word_quiet (element_holds inside before))
    intro bucket word
    apply Quiet.ret
    intro _
    split
    · next larger => exact ⟨by omega, word⟩
    · exact range

/-! ### The searches as a whole -/

section Searches

variable {P : State → Prop} {E : Error → State → Prop}

/-- A search leaves the state as it was, and what it finds is a symbol-table
entry inside the mapping. -/
def Finds (lib : LcLibrary) (P : State → Prop) (found : Option Nat) (s : State) : Prop :=
  P s ∧ ∀ sym, found = some sym → lib.toMapping.Holds sym 24

theorem Finds.none {s : State} (h : P s) : Finds lib P none s := ⟨h, fun _ no => nomatch no⟩

theorem gnuSearch_safe (strings : StringsInside lib) (fuel : Nat) :
    Triple P (gnuSearch fuel lib name) (Finds lib P) E := by
  apply Triple.bind (gnuTable_quiet lib).triple
  intro r
  cases r with
  | none => exact Triple.ret fun _ h => .none h.1
  | some table =>
    intro s h
    obtain ⟨nonzero, _, inside⟩ := h.2 table rfl
    obtain ⟨bucketIdx, divided, small⟩ :=
      modulo_quiet (a := (gnuHashFunction name).toNat) nonzero s
    change ((modulo _ _ >>= _) s).Meets _ _
    rw [bind_done divided, bind_done (load_done (element_holds inside small) s)]
    suffices Triple P _ (Finds lib P) E from this s h.1
    apply Triple.ite
    · exact fun _ => Triple.ret fun _ h => .none h
    · intro _
      apply Triple.ite
      · exact fun _ => Triple.ret fun _ h => .none h
      · intro _
        apply Triple.loop (I := fun _ => P)
        intro chainIdx
        apply (gnuChainRound_quiet strings table name chainIdx).triple.consequence fun _ h => h
        intro r s h
        cases r with
        | next => exact h.1
        | leave found => exact ⟨h.1, fun sym same => h.2.found sym (congrArg _ same)⟩

theorem elfSearch_safe (strings : StringsInside lib) (fuel : Nat) :
    Triple P (elfSearch fuel lib name) (Finds lib P) E := by
  apply Triple.bind (elfTable_quiet lib).triple
  intro r
  cases r with
  | none => exact Triple.ret fun _ h => .none h.1
  | some table =>
    intro s h
    obtain ⟨nonzero, inside⟩ := h.2 table rfl
    obtain ⟨bucketIdx, divided, small⟩ :=
      modulo_quiet (a := (elfHashFunction name).toNat) nonzero s
    change ((modulo _ _ >>= _) s).Meets _ _
    rw [bind_done divided, bind_done (load_done (element_holds inside small) s)]
    suffices Triple P _ (Finds lib P) E from this s h.1
    apply Triple.loop (I := fun _ => P)
    intro idx
    apply (elfChainRound_quiet strings table name idx).triple.consequence fun _ h => h
    intro r s h
    cases r with
    | next => exact h.1
    | leave found => exact ⟨h.1, fun sym same => h.2.found sym (congrArg _ same)⟩

/-- The symbol count needs nothing of the library. -/
theorem getSymbolCount_safe (lib : LcLibrary) (fuel : Nat) :
    Triple P (getSymbolCount fuel lib) (fun _ => P) E := by
  apply Triple.ite
  · intro _
    apply Triple.ite
    · intro header
      have inside := holds_of_regionInBounds header
      exact (load_quiet (inside.part (by omega) (by omega))).triple.consequence (fun _ h => h)
        fun _ _ h => h.1
    · exact fun _ => Triple.ret fun _ h => h
  · intro _
    apply Triple.ite
    · intro _
      apply Triple.bind (gnuTable_quiet lib).triple
      intro r
      cases r with
      | none => exact Triple.ret fun _ h => h.1
      | some table =>
        intro s h
        obtain ⟨_, small, inside⟩ := h.2 table rfl
        obtain ⟨_, run, maxSym, rfl, _⟩ := gnuMaxSymbol_quiet small inside s
        change ((gnuMaxSymbol lib table >>= _) s).Meets _ _
        rw [bind_done run]
        suffices Triple P _ (fun _ => P) E from this s h.1
        apply Triple.ite
        · exact fun _ => Triple.ret fun _ h => h
        · intro _
          apply Triple.bind (Triple.loop (I := fun _ => P) (Q := fun _ => P) ?_ fuel _)
          · exact fun _ => Triple.ret fun _ h => h
          · intro chainIdx
            apply (countRound_quiet lib table chainIdx).triple.consequence fun _ h => h
            intro r s h
            cases r with
            | next | leave => exact h.1
    · exact fun _ => Triple.ret fun _ h => h

/-- One round of the scan reads one symbol, and that symbol is in the mapping. -/
theorem scanRound_quiet (strings : StringsInside lib) (i : Nat) :
    Quiet (scanRound lib name i ()) fun _ r => r.Meets (fun _ => True)
      fun found => ∀ sym, found = some sym → lib.toMapping.Holds sym 24 := by
  apply Quiet.guarded fun _ => nofun
  intro symbol
  have inside := holds_of_regionInBounds symbol
  apply Quiet.bind (load_quiet (inside.part (by omega) (by omega))).forget
  intro stInfo _
  apply Quiet.early (fun _ => trivial)
  intro _
  apply Quiet.bind (load_quiet (inside.part (by omega) (by omega))).forget
  intro stShndx _
  apply Quiet.early (fun _ => trivial)
  intro _
  apply Quiet.bind (load_quiet (inside.part (by omega) (by omega))).forget
  intro stName _
  apply Quiet.early (fun _ => trivial)
  intro starts
  apply Quiet.bind (name_quiet strings (by omega))
  intro same _
  cases same with
  | false => exact Quiet.ret fun _ => trivial
  | true =>
    apply Quiet.ret
    rintro _ _ ⟨⟩
    exact inside

theorem linearSearch_safe (strings : StringsInside lib) (fuel : Nat) :
    Triple P (linearSearch fuel lib name) (Finds lib P) E := by
  apply Triple.bind (getSymbolCount_safe lib fuel)
  intro symCount
  apply Triple.bind ((Quiet.upTo (I := fun _ => True)
    (T := fun found => ∀ sym, found = some sym → lib.toMapping.Holds sym 24)
    (fun i _ _ _ => scanRound_quiet strings i) (symCount - 1) 1 () rfl trivial).triple)
  intro r
  cases r with
  | next => exact Triple.ret fun _ h => .none h.1
  | leave found => exact Triple.ret fun _ h => h

/-- The address is formed from a field of the entry that was found. -/
theorem symbolAddress_safe (found : Option Nat) :
    Triple (Finds lib P found) (symbolAddress lib found) (fun _ _ => True) (fun _ _ => True) := by
  cases found with
  | none => exact Triple.ret fun _ _ => trivial
  | some sym =>
    intro s h
    have inside := h.2 sym rfl
    change ((load lib.toMapping (sym + 8) 8 >>= _) s).Meets _ _
    rw [bind_done (load_done (inside.part (by omega) (by omega)) s)]
    trivial

/-- `lc_library_find_symbol` does not fault, whatever memory holds. -/
theorem lcLibraryFindSymbol_safe (strings : lib.strtab ≠ 0 → StringsInside lib) (fuel : Nat) :
    Triple (fun _ => True) (lcLibraryFindSymbol fuel lib name) (fun _ _ => True)
      (fun _ _ => True) := by
  apply Triple.ite
  · exact fun _ => Triple.fail fun _ _ => trivial
  · intro tables
    have strings := strings fun none => tables (.inr none)
    apply Triple.bind (Q := fun _ _ => True)
    · apply Triple.ite
      · exact fun _ => Triple.bind (gnuSearch_safe strings fuel) symbolAddress_safe
      · intro _
        apply Triple.ite
        · exact fun _ => Triple.bind (elfSearch_safe strings fuel) symbolAddress_safe
        · exact fun _ => Triple.bind (linearSearch_safe strings fuel) symbolAddress_safe
    · intro sym
      apply Triple.ite
      · exact fun _ => Triple.fail fun _ _ => trivial
      · exact fun _ => Triple.ret fun _ _ => trivial

end Searches

end Lightc.Library
