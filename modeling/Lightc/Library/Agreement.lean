import Lightc.Library.Crowded

/-!
# Three ways to look up a symbol

A library exports its defined symbols that are global or weak. Which of the three lookups
`lc_library_find_symbol` uses is decided by the hash tables that are present. The two hash
lookups find what their table holds, without a look at the binding. The scan checks the
binding, but the number of symbols it goes through comes from a hash table, and it is only
used when there is none: it finds nothing.
-/

namespace Lightc.Library

open Machine Verification

variable {lib : LcLibrary} {s : State} {name : List UInt8} {count i : Nat}

/-- `ELF64_ST_BIND(sym->st_info)`. -/
def stBind (lib : LcLibrary) (s : State) (i : Nat) : Nat :=
  loadWord s.memory (lib.symtab + 24 * i + 4) 1 / 16

/-- The symbol is global or weak. -/
def Public (lib : LcLibrary) (s : State) (i : Nat) : Prop := stBind lib s i = 1 ∨ stBind lib s i = 2

instance (lib : LcLibrary) (s : State) (i : Nat) : Decidable (Public lib s i) :=
  inferInstanceAs (Decidable (_ ∨ _))

/-- The library exports the symbol under the name; index 0 is `STN_UNDEF`. -/
structure Exports (lib : LcLibrary) (s : State) (count : Nat) (name : List UInt8) (i : Nat) :
    Prop where
  nonzero : i ≠ 0
  inside : i < count
  defines : Defines lib s name i
  visible : Public lib s i

/-- The symbols on the chain of a name, in the order in which the lookup visits them. -/
def ChainOf (lib : LcLibrary) (s : State) (count : Nat) (name : List UInt8) (nodes : List Nat) :
    Prop :=
  if lib.gnuHash ≠ 0 then
    nodes = Gnu.ahead lib s count (gnuHashOf name % Gnu.nbuckets lib s) (Gnu.symndx lib s)
  else lib.elfHash ≠ 0 ∧ Chain (Elf.chain lib s) 0
    (Elf.bucket lib s (elfHashOf name % Elf.nbucket lib s)) nodes

/-- The first symbol on the chain of a name that defines it. -/
def First (lib : LcLibrary) (s : State) (count : Nat) (name : List UInt8) (i : Nat) : Prop :=
  ∃ nodes, ChainOf lib s count name nodes ∧ nodes.find? (defines lib s name) = some i

/-- An image with `count` symbols. Those that it exports have names of their own, the hash
table that is used, if there is one, is well formed, and it has them on the chains of these. -/
structure Exporting (lib : LcLibrary) (s : State) (count : Nat) : Prop where
  tables : SymbolTables lib count
  unique : ∀ name i j, Exports lib s count name i → Exports lib s count name j → i = j
  gnu : lib.gnuHash ≠ 0 → Gnu.WellFormed lib s count
  elf : lib.gnuHash = 0 → lib.elfHash ≠ 0 → Elf.WellFormed lib s ∧ Elf.nchain lib s = count
  complete : lib.gnuHash ≠ 0 ∨ lib.elfHash ≠ 0 → ∀ name i, Exports lib s count name i →
    ∃ nodes, ChainOf lib s count name nodes ∧ i ∈ nodes

/-- Every exported symbol is found under its name, at its address, and nothing else. -/
def FindsExports (lib : LcLibrary) (s : State) (count : Nat) : Prop :=
  ∀ name, ∃ enough, ∀ fuel, enough ≤ fuel →
    (∃ i, Exports lib s count name i ∧ lcLibraryFindSymbol fuel lib name s =
      .done (add64 lib.base (symbolValue lib s i)) s) ∨
    ((∀ i, ¬ Exports lib s count name i) ∧
      lcLibraryFindSymbol fuel lib name s = .failed .noent s)

/-- The address stands for what is exported under the name, and zero for nothing. -/
def StandsFor (lib : LcLibrary) (s : State) (count : Nat) (name : List UInt8) (address : Nat) :
    Prop :=
  address ≠ 0 ∧ (∃ i, Exports lib s count name i ∧ address = add64 lib.base (symbolValue lib s i)) ∨
    address = 0 ∧ ∀ i, ¬ Exports lib s count name i

/-- Without a hash table the scan goes through no symbol. -/
theorem findSymbol_scans_nothing (gnu : lib.gnuHash = 0) (elf : lib.elfHash = 0) (fuel : Nat) :
    findSymbol fuel lib name s = .done 0 s := by
  have counted : getSymbolCount fuel lib s = .done 0 s := by
    rw [getSymbolCount, if_neg (not_not.mpr elf), if_neg (not_not.mpr gnu)]
    rfl
  have scanned : linearSearch fuel lib name s = .done none s := by
    rw [linearSearch, Program.bind_done counted]
    rfl
  rw [findSymbol, if_neg (not_not.mpr gnu), if_neg (not_not.mpr elf), findSymbolLinearScan,
    Program.bind_done scanned]
  rfl

namespace Exporting

variable (exporting : Exporting lib s count)

include exporting

theorem present : ¬ (lib.symtab = 0 ∨ lib.strtab = 0) := by
  have symbols := exporting.tables.symbols.1
  have strings := exporting.tables.strings.1
  have := lib.positive
  omega

/-- `lc_library_find_symbol` reports a null pointer as an error. -/
theorem lcLibraryFindSymbol_eq {fuel result : Nat} (found : findSymbol fuel lib name s =
    .done result s) : lcLibraryFindSymbol fuel lib name s =
      if result = 0 then .failed .noent s else .done result s := by
  rw [lcLibraryFindSymbol, if_neg exporting.present, Program.bind_done found]
  split
  · rfl
  · rfl

/-- What is found is right if it stands for what is exported. -/
theorem finds_iff {fuel result : Nat} (found : findSymbol fuel lib name s = .done result s) :
    (∃ i, Exports lib s count name i ∧ lcLibraryFindSymbol fuel lib name s =
      .done (add64 lib.base (symbolValue lib s i)) s) ∨
    ((∀ i, ¬ Exports lib s count name i) ∧
      lcLibraryFindSymbol fuel lib name s = .failed .noent s) ↔
      StandsFor lib s count name result := by
  rw [exporting.lcLibraryFindSymbol_eq found]
  by_cases null : result = 0
  · simp [StandsFor, null]
  · simp [StandsFor, null]

/-- A name has one chain, and with a bucket count that leaves room the lookup answers with the
first symbol on it. -/
theorem exists_chain (hashes : lib.gnuHash ≠ 0 ∨ lib.elfHash ≠ 0) (name : List UInt8) :
    ∃ chain, (∀ nodes, ChainOf lib s count name nodes ↔ nodes = chain) ∧
      ((lib.gnuHash = 0 → lib.elfHash ≠ 0 → Elf.nbucket lib s + 2 < 2 ^ 32) →
        Answers (findSymbol · lib name) lib s
          (fun i => chain.find? (defines lib s name) = some i) name) := by
  by_cases gnu : lib.gnuHash ≠ 0
  · simp only [ChainOf, findSymbol, if_pos gnu]
    exact ⟨_, fun _ => Iff.rfl, fun _ => Gnu.answers_lookup (exporting.gnu gnu) name⟩
  · have elf := hashes.resolve_left gnu
    obtain ⟨formed, -⟩ := exporting.elf (not_not.mp gnu) elf
    have chain := (Elf.nodes_spec formed ((Elf.index formed).home_lt name)).1
    simp only [ChainOf, findSymbol, if_neg gnu, if_pos elf]
    refine ⟨_, fun nodes => ⟨fun other => chain.unique other.2, ?_⟩,
      fun few => Elf.answers_lookup formed (few (not_not.mp gnu) elf) name⟩
    rintro rfl
    exact ⟨elf, chain⟩

/-- The lookup in a hash table finds the exported symbols exactly if the first symbol of a
name is at the address of the exported one, or at address zero if there is none. -/
theorem findsExports_iff_hashed
    (few : lib.gnuHash = 0 → lib.elfHash ≠ 0 → Elf.nbucket lib s + 2 < 2 ^ 32)
    (hashes : lib.gnuHash ≠ 0 ∨ lib.elfHash ≠ 0) :
    FindsExports lib s count ↔ ∀ name i, First lib s count name i →
      StandsFor lib s count name (add64 lib.base (symbolValue lib s i)) := by
  constructor
  · rintro finds name i ⟨nodes, chain, found⟩
    obtain ⟨chain', only, answers⟩ := exporting.exists_chain hashes name
    rw [(only nodes).mp chain] at found
    obtain ⟨enough, finds⟩ := finds name
    obtain ⟨enough', answers⟩ := answers few
    obtain ⟨result, run, right⟩ := answers (max enough enough') (Nat.le_max_right _ _)
    have stands := (exporting.finds_iff run).mp (finds _ (Nat.le_max_left _ _))
    rcases right with ⟨j, found', -, rfl⟩ | ⟨none, -⟩
    · cases found.symm.trans found'
      exact stands
    · have passed := List.find?_some found
      exact absurd (of_decide_eq_true passed) (none i found)
  · intro stands name
    obtain ⟨chain, only, answers⟩ := exporting.exists_chain hashes name
    obtain ⟨enough, answers⟩ := answers few
    refine ⟨enough, fun fuel covered => ?_⟩
    obtain ⟨result, run, right⟩ := answers fuel covered
    refine (exporting.finds_iff run).mpr ?_
    rcases right with ⟨i, found, -, rfl⟩ | ⟨none, rfl⟩
    · exact stands name i ⟨chain, (only chain).mpr rfl, found⟩
    · refine .inr ⟨rfl, fun i exported => ?_⟩
      obtain ⟨nodes, same, member⟩ := exporting.complete hashes name i exported
      obtain rfl := (only nodes).mp same
      have defined : defines lib s name i = true := decide_eq_true exported.defines
      obtain ⟨j, found⟩ := Option.isSome_iff_exists.mp (List.find?_isSome.mpr ⟨i, member, defined⟩)
      have passed := List.find?_some found
      exact none j found (of_decide_eq_true passed)

theorem findsExports_iff_scanned (gnu : lib.gnuHash = 0) (elf : lib.elfHash = 0) :
    FindsExports lib s count ↔ ∀ name i, ¬ Exports lib s count name i := by
  have stands : ∀ {name}, StandsFor lib s count name 0 ↔ ∀ i, ¬ Exports lib s count name i := by
    simp [StandsFor]
  have finds := fun fuel name =>
    (exporting.finds_iff (@findSymbol_scans_nothing lib s name gnu elf fuel)).trans stands
  refine forall_congr' fun name => ⟨fun ⟨enough, found⟩ => ?_, fun none => ⟨0, fun fuel _ => ?_⟩⟩
  · exact (finds enough name).mp (found enough (Nat.le_refl _))
  · exact (finds fuel name).mpr none

end Exporting

section

variable {n gnuHash elfHash : Nat} (positive : 0 < n) (word : n < 2 ^ 32)
include positive word

/-- The second symbol of `crowded` is the exported one, whatever hash tables are used. -/
theorem crowded_exports : SymbolTables { crowdedLibrary with gnuHash, elfHash } 3 ∧
    Exports { crowdedLibrary with gnuHash, elfHash } (crowded n) 3 [97] 2 ∧
      ∀ name i, Exports { crowdedLibrary with gnuHash, elfHash } (crowded n) 3 name i → i = 2 := by
  have visible : Public crowdedLibrary (crowded n) 2 := by
    rw [Public, stBind, crowded_word (by decide)]
    decide +kernel
  obtain ⟨below, symbols, strings, indices⟩ := crowded_tables
  refine ⟨⟨below, symbols, strings, indices⟩,
    ⟨by decide, by decide, (crowded_answer positive word).2, visible⟩, ?_⟩
  rintro name i ⟨nonzero, inside, defined, -⟩
  exact crowded_defines defined (by omega)

/-- With the ELF hash table the image is as it should be, and the chain of a name leads to the
exported symbol. -/
theorem crowded_exporting : Exporting { crowdedLibrary with gnuHash := 0 } (crowded n) 3 ∧
    ∀ name i, First { crowdedLibrary with gnuHash := 0 } (crowded n) 3 name i →
      StandsFor { crowdedLibrary with gnuHash := 0 } (crowded n) 3 name
        (add64 crowdedLibrary.base (symbolValue crowdedLibrary (crowded n) i)) := by
  obtain ⟨tables, exported, only⟩ := @crowded_exports n 0 crowdedLibrary.elfHash positive word
  constructor
  · refine ⟨tables, fun name i j first second => ?_, fun some => absurd rfl some,
      fun _ _ => ⟨?_, crowded_nchain⟩, fun _ name i exported => ?_⟩
    · rw [only name i first, only name j second]
    · have formed := crowded_elf_formed positive word
      exact ⟨⟨formed.tables.below, formed.tables.symbols, formed.tables.strings,
        formed.tables.indices⟩, formed.inside, formed.positive, formed.chains, formed.placed⟩
    · obtain rfl := only name i exported
      obtain rfl : [97] = name := Option.some.inj
        ((crowded_symbolName (.inr rfl)).symm.trans exported.defines.1)
      refine ⟨[1, 2], ⟨by decide, ?_⟩, by decide⟩
      show Chain _ 0 (Elf.bucket _ _ (97 % Elf.nbucket crowdedLibrary (crowded n))) _
      rw [crowded_nbucket word]
      exact crowded_linked positive word
  · rintro name i ⟨nodes, ⟨-, chain⟩, found⟩
    have passed := List.find?_some found
    have defined : Defines crowdedLibrary (crowded n) name i := of_decide_eq_true passed
    have home : elfHashOf name % Elf.nbucket crowdedLibrary (crowded n) < n := by
      rw [crowded_nbucket word]
      exact Nat.mod_lt _ positive
    have linked := chain.linked_of_mem (List.mem_of_find?_eq_some found)
    obtain rfl := crowded_defines defined (crowded_on_chain positive word home linked).2
    refine .inl ⟨?_, 2, ⟨exported.nonzero, exported.inside, defined, exported.visible⟩, rfl⟩
    rw [symbolValue, crowded_word (by decide)]
    decide +kernel

end

/-- For every number of buckets: in all images whose `DT_HASH` table, if it is the one that is
used, has so many, the exported symbols and nothing else are found exactly if there is a hash
table or nothing to find, and the first symbol on the chain of a name stands for what is
exported under it. That is so unless the count does not leave room in a 32-bit index. -/
theorem lookups_agree_iff (n : Nat) (word : n < 2 ^ 32) :
    (∀ lib s count, Exporting lib s count →
      (lib.gnuHash = 0 → lib.elfHash ≠ 0 → Elf.nbucket lib s = n) →
      (FindsExports lib s count ↔
        (∀ name i, First lib s count name i →
          StandsFor lib s count name (add64 lib.base (symbolValue lib s i))) ∧
        (lib.gnuHash = 0 → lib.elfHash = 0 → ∀ name i, ¬ Exports lib s count name i))) ↔
      n + 2 < 2 ^ 32 := by
  constructor
  · intro all
    by_contra large
    have positive : 0 < n := by omega
    obtain ⟨exporting, stands⟩ := crowded_exporting positive word
    obtain ⟨enough, finds⟩ := ((all _ _ 3 exporting fun _ _ => crowded_nbucket word).mpr
      ⟨stands, fun _ none => nomatch none⟩) [97]
    have missed : findSymbol (max enough 2) { crowdedLibrary with gnuHash := 0 } [97] (crowded n) =
        .done 0 (crowded n) := crowded_missed (by omega) word (Nat.le_max_right _ _)
    have nothing := (exporting.finds_iff missed).mp (finds _ (Nat.le_max_left _ _))
    rcases nothing with ⟨somewhere, -⟩ | ⟨-, none⟩
    · exact somewhere rfl
    · exact none 2 (crowded_exports positive word).2.1
  · intro few lib s count exporting buckets
    by_cases hashes : lib.gnuHash ≠ 0 ∨ lib.elfHash ≠ 0
    · rw [exporting.findsExports_iff_hashed (fun gnu elf => buckets gnu elf ▸ few) hashes]
      refine (and_iff_left fun gnu elf => ?_).symm
      exact absurd hashes (by simp [gnu, elf])
    · obtain ⟨gnu, elf⟩ := not_or.mp hashes
      rw [not_not] at gnu elf
      rw [exporting.findsExports_iff_scanned gnu elf]
      refine ⟨fun none => ⟨?_, fun _ _ => none⟩, fun cond => cond.2 gnu elf⟩
      rintro name i ⟨nodes, chain, -⟩
      rw [ChainOf, if_neg (not_not.mpr gnu)] at chain
      exact absurd elf chain.1

/-- With an ELF hash table of one bucket, the one exported symbol is found. -/
theorem lookups_agree_iff_hashed :
    Exporting { crowdedLibrary with gnuHash := 0 } (crowded 1) 3 ∧
      FindsExports { crowdedLibrary with gnuHash := 0 } (crowded 1) 3 := by
  obtain ⟨exporting, stands⟩ := crowded_exporting (show 0 < 1 by decide) (by decide)
  refine ⟨exporting, ((lookups_agree_iff 1 (by decide)).mpr (by decide) _ _ 3 exporting
    fun _ _ => crowded_nbucket (by decide)).mpr ⟨stands, fun _ none => nomatch none⟩⟩

/-- The same symbols without a hash table: the exported one is not found. -/
theorem unhashed_symbol_not_found :
    Exporting { crowdedLibrary with gnuHash := 0, elfHash := 0 } (crowded 1) 3 ∧
      Exports { crowdedLibrary with gnuHash := 0, elfHash := 0 } (crowded 1) 3 [97] 2 ∧
      ∀ fuel, lcLibraryFindSymbol fuel { crowdedLibrary with gnuHash := 0, elfHash := 0 } [97]
        (crowded 1) = .failed .noent (crowded 1) := by
  obtain ⟨tables, exported, only⟩ := @crowded_exports 1 0 0 (by decide) (by decide)
  have exporting : Exporting { crowdedLibrary with gnuHash := 0, elfHash := 0 } (crowded 1) 3 := by
    refine ⟨tables, fun name i j first second => ?_, fun some => absurd rfl some,
      fun _ some => absurd rfl some, ?_⟩
    · rw [only name i first, only name j second]
    · rintro (some | some)
      all_goals exact absurd rfl some
  refine ⟨exporting, exported, fun fuel => ?_⟩
  exact exporting.lcLibraryFindSymbol_eq (findSymbol_scans_nothing rfl rfl fuel)

end Lightc.Library
