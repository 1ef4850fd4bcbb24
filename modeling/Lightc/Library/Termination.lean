import Lightc.Library.Load

/-!
# When a symbol lookup comes back

The chain walks follow indices read from the file. The GNU walks count upwards
in 32 bits and wrap, so they come back exactly if some slot among all 2^32 stops
them, which is certain unless the mapping holds that many. The ELF walk jumps to
wherever a chain word points, so it comes back exactly if it does not run into a
cycle, and nothing in the loader rules a cycle out. One chain word that points
to its own index is enough.
-/

namespace Lightc.Library

open Machine Verification
open Program (bind_done)

variable {lib : LcLibrary} {name : List UInt8} {s : State}

/-! ### The conditions -/

/-- The walk of `get_symbol_count` meets a slot that ends it. -/
def CountEnds (lib : LcLibrary) (s : State) : Prop :=
  lib.elfHash ≠ 0 ∨ lib.gnuHash = 0 ∨ ∀ table, gnuTable lib s = .done (some table) s →
    ∃ i, i < 2 ^ 32 ∧ CountStops lib table s i

/-- The word of the bucket that a hash selects. -/
def bucketWord (s : State) (buckets count hash : Nat) : Nat :=
  loadWord s.memory (add64 buckets (4 * (hash % count))) 4

/-- The bucket is empty, or the GNU walk meets a slot that ends it. -/
def GnuEnds (lib : LcLibrary) (name : List UInt8) (s : State) : Prop :=
  ∀ table, gnuTable lib s = .done (some table) s →
    let bucket := bucketWord s table.buckets table.nbuckets (gnuHashFunction name).toNat
    bucket = 0 ∨ bucket < table.symndx ∨ ∃ i, i < 2 ^ 32 ∧ GnuStops lib table name s i

/-- The chain leads from `i` to `j`. -/
def ElfLink (lib : LcLibrary) (table : ElfTable) (name : List UInt8) (s : State) (i j : Nat) :
    Prop :=
  ¬ ElfStops lib table name s i ∧ j = loadWord s.memory (add64 table.chains (4 * i)) 4

/-- The chain of the bucket does not run into a cycle. -/
def ElfEnds (lib : LcLibrary) (name : List UInt8) (s : State) : Prop :=
  ∀ table, elfTable lib s = .done (some table) s →
    let bucket := bucketWord s table.buckets table.nbucket (elfHashFunction name).toNat
    ∀ i, Relation.ReflTransGen (ElfLink lib table name s) bucket i →
      ¬ Relation.TransGen (ElfLink lib table name s) i i

/-- The condition of the search that is chosen; the scan needs none. -/
def LookupEnds (lib : LcLibrary) (name : List UInt8) (s : State) : Prop :=
  lib.symtab = 0 ∨ lib.strtab = 0 ∨
    ((lib.gnuHash ≠ 0 → GnuEnds lib name s) ∧
      (lib.gnuHash = 0 → lib.elfHash ≠ 0 → ElfEnds lib name s))

/-! ### The walks -/

theorem countLoop_cameBack_iff (table : GnuTable) {start : Nat} (small : start < 2 ^ 32) :
    (∃ fuel, (Program.loop (countRound lib table) fuel start s).CameBack) ↔
      ∃ i, i < 2 ^ 32 ∧ CountStops lib table s i := by
  obtain ⟨next, decides, back⟩ := exists_walk (countRound_quiet lib table) s
  rw [back, halts_iff_counter small fun i j step => (decides i).next j step]
  exact exists_congr fun i => and_congr_right fun _ => (decides i).stops

theorem gnuLoop_cameBack_iff (strings : StringsInside lib) (table : GnuTable) {start : Nat}
    (small : start < 2 ^ 32) :
    (∃ fuel, (Program.loop (gnuChainRound lib table name) fuel start s).CameBack) ↔
      ∃ i, i < 2 ^ 32 ∧ GnuStops lib table name s i := by
  obtain ⟨next, decides, back⟩ := exists_walk (gnuChainRound_quiet strings table name) s
  rw [back, halts_iff_counter small fun i j step => (decides i).next j step]
  exact exists_congr fun i => and_congr_right fun _ => (decides i).stops

theorem elfLoop_cameBack_iff (strings : StringsInside lib) (table : ElfTable) (start : Nat) :
    (∃ fuel, (Program.loop (elfChainRound lib table name) fuel start s).CameBack) ↔
      ∀ i, Relation.ReflTransGen (ElfLink lib table name s) start i →
        ¬ Relation.TransGen (ElfLink lib table name s) i i := by
  obtain ⟨next, decides, back⟩ := exists_walk (elfChainRound_quiet strings table name) s
  have links : Link next = ElfLink lib table name s := by
    funext i j
    apply propext
    constructor
    · intro step
      refine ⟨fun stops => ?_, (decides i).next j step⟩
      obtain ⟨result, leaves⟩ := (decides i).stops.mpr stops
      rw [show next i = .next j from step] at leaves
      cases leaves
    · rintro ⟨goes, rfl⟩
      cases step : next i with
      | leave result => exact absurd ((decides i).stops.mp ⟨result, step⟩) goes
      | next j => rw [Link, step, (decides i).next j step]
  rw [back, halts_iff_acyclic (2 ^ 32), links]
  intro i j step
  rw [(decides i).next j step]
  exact loadWord_lt _ _ 4

/-! ### The functions -/

theorem getSymbolCount_cameBack_iff :
    (∃ fuel, (getSymbolCount fuel lib s).CameBack) ↔ CountEnds lib s := by
  by_cases elf : lib.elfHash ≠ 0
  · refine iff_of_true ⟨0, ?_⟩ (.inl elf)
    rw [getSymbolCount, if_pos elf]
    by_cases header : regionInBounds lib.toMapping lib.elfHash 8 = true
    · have inside := holds_of_regionInBounds header
      rw [if_pos header, load_done (inside.part (by omega) (by omega))]
      trivial
    · rw [if_neg header]
      trivial
  · by_cases gnu : lib.gnuHash ≠ 0
    · obtain ⟨r, run, facts⟩ := gnuTable_quiet lib s
      simp only [getSymbolCount, if_neg elf, if_pos gnu, bind_done run]
      cases r with
      | none =>
        refine iff_of_true ⟨0, trivial⟩ (.inr (.inr ?_))
        intro table other
        rw [run] at other
        cases other
      | some table =>
        obtain ⟨_, small, inside⟩ := facts table rfl
        obtain ⟨_, found, maxSym, rfl, low, high⟩ := gnuMaxSymbol_quiet small inside s
        simp only [bind_done found, if_neg (Nat.not_lt.mpr low)]
        have onward : ∀ fuel, _ ↔ _ := fun fuel => cameBack_bind
          (c := Program.loop (countRound lib table) fuel (maxSym - table.symndx)) (s := s)
          (f := fun chainIdx => pure (add32 (add32 table.symndx chainIdx) 1))
          fun _ _ _ => trivial
        rw [exists_congr onward, countLoop_cameBack_iff table (by omega)]
        constructor
        · intro stops
          refine .inr (.inr fun other same => ?_)
          rw [run] at same
          cases same
          exact stops
        · rintro (has | lacks | ends)
          · exact absurd has elf
          · exact absurd lacks gnu
          · exact ends table run
    · refine iff_of_true ⟨0, ?_⟩ (.inr (.inl (not_not.mp gnu)))
      rw [getSymbolCount, if_neg elf, if_neg gnu]
      trivial

theorem modulo_done {a b : Nat} (nonzero : b ≠ 0) (s : State) :
    modulo a b s = .done (a % b) s := if_neg nonzero

theorem gnuSearch_cameBack_iff (strings : StringsInside lib) :
    (∃ fuel, (gnuSearch fuel lib name s).CameBack) ↔ GnuEnds lib name s := by
  obtain ⟨r, run, facts⟩ := gnuTable_quiet lib s
  have only : ∀ table, gnuTable lib s = .done (some table) s → r = some table := by
    intro table same
    cases run.symm.trans same
    rfl
  simp only [gnuSearch, bind_done run]
  cases r with
  | none => exact iff_of_true ⟨0, trivial⟩ fun table same => nomatch only table same
  | some table =>
    obtain ⟨nonzero, _, inside⟩ := facts table rfl
    have slot := element_holds inside
      (Nat.mod_lt (gnuHashFunction name).toNat (Nat.pos_of_ne_zero nonzero))
    simp only [bind_done (modulo_done nonzero s), bind_done (load_done slot s)]
    have ends : GnuEnds lib name s ↔
        let bucket := bucketWord s table.buckets table.nbuckets (gnuHashFunction name).toNat
        bucket = 0 ∨ bucket < table.symndx ∨ ∃ i, i < 2 ^ 32 ∧ GnuStops lib table name s i := by
      constructor
      · exact fun ends => ends table run
      · intro ends other same
        cases only other same
        exact ends
    rw [ends]
    unfold bucketWord
    generalize word : loadWord s.memory (add64 table.buckets
      (4 * ((gnuHashFunction name).toNat % table.nbuckets))) 4 = bucket
    have small : bucket < 2 ^ 32 := word ▸ loadWord_lt _ _ 4
    by_cases empty : bucket = 0
    · exact iff_of_true ⟨0, by rw [if_pos empty]; trivial⟩ (.inl empty)
    · by_cases below : bucket < table.symndx
      · refine iff_of_true ⟨0, ?_⟩ (.inr (.inl below))
        rw [if_neg empty, if_pos below]
        trivial
      · have start : bucket - table.symndx < 2 ^ 32 := by omega
        rw [or_iff_right empty, or_iff_right below, ← gnuLoop_cameBack_iff strings table start]
        refine exists_congr fun fuel => ?_
        rw [if_neg empty, if_neg below]

theorem elfSearch_cameBack_iff (strings : StringsInside lib) :
    (∃ fuel, (elfSearch fuel lib name s).CameBack) ↔ ElfEnds lib name s := by
  obtain ⟨r, run, facts⟩ := elfTable_quiet lib s
  have only : ∀ table, elfTable lib s = .done (some table) s → r = some table := by
    intro table same
    cases run.symm.trans same
    rfl
  simp only [elfSearch, bind_done run]
  cases r with
  | none => exact iff_of_true ⟨0, trivial⟩ fun table same => nomatch only table same
  | some table =>
    obtain ⟨nonzero, inside⟩ := facts table rfl
    have slot := element_holds inside
      (Nat.mod_lt (elfHashFunction name).toNat (Nat.pos_of_ne_zero nonzero))
    simp only [bind_done (modulo_done nonzero s), bind_done (load_done slot s)]
    rw [elfLoop_cameBack_iff strings table]
    constructor
    · intro acyclic other same
      cases only other same
      exact acyclic
    · exact fun ends => ends table run

/-- Forming the address adds nothing to the question. -/
theorem address_cameBack {search : Nat → Program Error State (Option Nat)}
    (safe : ∀ fuel, Triple (· = s) (search fuel) (Finds lib (· = s)) fun _ _ => True) :
    (∃ fuel, ((search fuel >>= symbolAddress lib) s).CameBack) ↔
      ∃ fuel, (search fuel s).CameBack := by
  refine exists_congr fun fuel => cameBack_bind fun found t run => ?_
  have finds := (safe fuel).of_done rfl run
  cases found with
  | none => trivial
  | some sym =>
    have inside := finds.2 sym rfl
    change ((load lib.toMapping (sym + 8) 8 >>= _) t).CameBack
    rw [bind_done (load_done (inside.part (by omega) (by omega)) t)]
    trivial

/-- Without a hash table the scan has no symbols to look at. -/
theorem linearSearch_cameBack (gnu : lib.gnuHash = 0) (elf : lib.elfHash = 0) :
    (linearSearch 0 lib name s).CameBack := by
  have count : getSymbolCount 0 lib s = .done 0 s := by
    rw [getSymbolCount, if_neg (not_not.mpr elf), if_neg (not_not.mpr gnu)]
    rfl
  rw [linearSearch, bind_done count]
  trivial

theorem findSymbol_cameBack_iff (strings : StringsInside lib) :
    (∃ fuel, (findSymbol fuel lib name s).CameBack) ↔
      (lib.gnuHash ≠ 0 → GnuEnds lib name s) ∧
        (lib.gnuHash = 0 → lib.elfHash ≠ 0 → ElfEnds lib name s) := by
  by_cases gnu : lib.gnuHash ≠ 0
  · simp only [findSymbol, if_pos gnu, findSymbolWithGnuHash]
    rw [address_cameBack fun fuel => gnuSearch_safe strings fuel, gnuSearch_cameBack_iff strings]
    exact ⟨fun ends => ⟨fun _ => ends, fun none => absurd none gnu⟩, fun both => both.1 gnu⟩
  · by_cases elf : lib.elfHash ≠ 0
    · simp only [findSymbol, if_neg gnu, if_pos elf, findSymbolWithElfHash]
      rw [address_cameBack fun fuel => elfSearch_safe strings fuel, elfSearch_cameBack_iff strings]
      exact ⟨fun ends => ⟨fun some => absurd some gnu, fun _ _ => ends⟩,
        fun both => both.2 (not_not.mp gnu) elf⟩
    · simp only [findSymbol, if_neg gnu, if_neg elf, findSymbolLinearScan]
      rw [address_cameBack fun fuel => linearSearch_safe strings fuel]
      exact iff_of_true ⟨0, linearSearch_cameBack (not_not.mp gnu) (not_not.mp elf)⟩
        ⟨fun some => absurd some gnu, fun _ some => absurd some elf⟩

theorem lcLibraryFindSymbol_cameBack_iff (strings : lib.strtab ≠ 0 → StringsInside lib) :
    (∃ fuel, (lcLibraryFindSymbol fuel lib name s).CameBack) ↔ LookupEnds lib name s := by
  by_cases absent : lib.symtab = 0 ∨ lib.strtab = 0
  · refine iff_of_true ⟨0, ?_⟩ ?_
    · rw [lcLibraryFindSymbol, if_pos absent]
      trivial
    · exact absent.elim .inl fun none => .inr (.inl none)
  · obtain ⟨symtab, strtab⟩ := not_or.mp absent
    simp only [lcLibraryFindSymbol, if_neg absent]
    rw [LookupEnds, or_iff_right symtab, or_iff_right strtab,
      ← findSymbol_cameBack_iff (strings strtab)]
    refine exists_congr fun fuel => cameBack_bind fun sym t _ => ?_
    split
    · trivial
    · trivial

/-- For every library the loader has returned, whatever has become of memory since,
and every name: the lookup and the symbol count come back exactly if the walk of
the chosen search and that of the count end. -/
theorem lookup_comes_back_iff {fuel : Nat} {arch : Arch} {k : Kernel} {start after : State}
    (opened : lcLibraryOpen fuel arch k start = .done lib after) (s : State) (name : List UInt8) :
    ((∃ fuel, (lcLibraryFindSymbol fuel lib name s).CameBack) ∧
        ∃ fuel, (getSymbolCount fuel lib s).CameBack) ↔
      LookupEnds lib name s ∧ CountEnds lib s :=
  and_congr (lcLibraryFindSymbol_cameBack_iff (opened_strings opened)) getSymbolCount_cameBack_iff

/-- An ELF hash table with one bucket and two chain words. The bucket starts at
symbol 1, and the chain word of symbol 1 is `link`. -/
def chainedObject (link : Nat) : Kernel :=
  obliging (objectFile 0 [(6, 512), (5, 1024), (10, 1), (4, 256), (0, 0)]
    ((wordBytes 4 1 ++ wordBytes 4 2) ++ (wordBytes 4 1 ++ wordBytes 4 0 ++ wordBytes 4 link)))

/-- With a chain that ends, the lookup of `a` and the symbol count come back. -/
theorem lookup_comes_back_iff_chained : ∃ lib after,
    lcLibraryOpen 0 .x86_64 (chainedObject 0) .fresh = .done lib after ∧
      (∃ fuel, (lcLibraryFindSymbol fuel lib [97] after).CameBack) ∧
        ∃ fuel, (getSymbolCount fuel lib after).CameBack := by
  have loads : (lcLibraryOpen 0 .x86_64 (chainedObject 0) .fresh).returns (fun lib after =>
      lib.gnuHash == 0 && lib.elfHash != 0 && (elfTable lib after).returns fun r _ =>
        r.all fun table => table.nchain == 2 &&
          loadWord after.memory (add64 table.chains 4) 4 == 0) = true := by decide +kernel
  obtain ⟨lib, after, opened, facts⟩ := Outcome.returns_eq_true loads
  simp only [Bool.and_eq_true, bne_iff_ne, beq_iff_eq] at facts
  obtain ⟨⟨gnu, elf⟩, read⟩ := facts
  refine ⟨lib, after, opened, (lookup_comes_back_iff opened after [97]).mpr ⟨.inr (.inr
    ⟨fun some => absurd gnu some, fun _ _ table found i _ cycle => ?_⟩), .inl elf⟩⟩
  simp only [found, Outcome.returns, Option.all_some, Bool.and_eq_true, beq_iff_eq] at read
  have link : ∀ {i j}, ElfLink lib table [97] after i j → i = 1 ∧ j = 0 := by
    rintro i j ⟨goes, rfl⟩
    have inside := not_not.mp (not_or.mp goes).1
    obtain rfl : i = 1 := by omega
    exact ⟨rfl, read.2⟩
  obtain ⟨_, first, -⟩ := Relation.TransGen.head'_iff.mp cycle
  obtain ⟨_, -, last⟩ := Relation.TransGen.tail'_iff.mp cycle
  exact absurd ((link first).1.symm.trans (link last).2) (by decide)

/-- One link of the chain as an executable check. -/
def linked (lib : LcLibrary) (name : List UInt8) (s : State) (i j : Nat) : Bool :=
  (elfTable lib s).returns fun r _ => match r with
    | none => false
    | some table =>
      bucketWord s table.buckets table.nbucket (elfHashFunction name).toNat == i &&
        (elfChainRound lib table name i s).returns fun r _ => match r with
          | .next following => following == j
          | .leave _ => false

theorem not_elfEnds_of_linked (strings : StringsInside lib) {i : Nat}
    (self : linked lib name s i i = true) : ¬ ElfEnds lib name s := by
  intro ends
  obtain ⟨r, t, table, self⟩ := Outcome.returns_eq_true self
  obtain ⟨r', run, _⟩ := elfTable_quiet lib s
  rw [run] at table
  cases table
  cases r with
  | none => cases self
  | some table =>
    obtain ⟨bucket, self⟩ := Bool.and_eq_true_iff.mp self
    obtain ⟨step, t, round, self⟩ := Outcome.returns_eq_true self
    obtain ⟨step', decided, rounds⟩ := elfChainRound_quiet strings table name i s
    rw [decided] at round
    cases round
    cases step with
    | leave => cases self
    | next j =>
      obtain rfl : j = i := beq_iff_eq.mp self
      have link : ElfLink lib table name s j j := by
        refine ⟨fun stops => ?_, rounds.next j rfl⟩
        obtain ⟨_, leaves⟩ := rounds.stops.mpr stops
        cases leaves
      apply ends table run j _ (.single link)
      rw [beq_iff_eq.mp bucket]

/-- A chain word that points to its own index: the object is loaded, and looking
up `a` in it does not come back. -/
theorem self_linked_chain_hangs : ∃ lib after,
    lcLibraryOpen 0 .x86_64 (chainedObject 1) .fresh = .done lib after ∧
      ¬ ∃ fuel, (lcLibraryFindSymbol fuel lib [97] after).CameBack := by
  have loads : (lcLibraryOpen 0 .x86_64 (chainedObject 1) .fresh).returns (fun lib after =>
      lib.symtab != 0 && lib.strtab != 0 && lib.gnuHash == 0 && lib.elfHash != 0 &&
        linked lib [97] after 1 1) = true := by decide +kernel
  obtain ⟨lib, after, opened, facts⟩ := Outcome.returns_eq_true loads
  refine ⟨lib, after, opened, ?_⟩
  simp only [Bool.and_eq_true, bne_iff_ne, beq_iff_eq] at facts
  obtain ⟨⟨⟨⟨symtab, strtab⟩, gnu⟩, elf⟩, self⟩ := facts
  have strings := opened_strings opened
  rw [lcLibraryFindSymbol_cameBack_iff strings, LookupEnds, or_iff_right symtab,
    or_iff_right strtab]
  intro ends
  exact not_elfEnds_of_linked (strings strtab) self (ends.2 gnu elf)

end Lightc.Library
