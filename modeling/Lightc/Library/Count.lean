import Lightc.Library.Crowded
import Lightc.Library.Termination
import Lightc.Verification.Total

/-!
# The symbol count of a GNU hash table

Without `DT_HASH` the loader counts the symbols by walking from the largest bucket start to
the end of its chain. The symbols of the table are grouped by their buckets, so this chain
is the one of the last group, and its end is the last symbol. A table that hashes no symbol
has no such chain. The walk then starts at the first word behind the table, and the count
is whatever the words there make of it.
-/

namespace Lightc.Library

open Machine Verification
open Program (bind_done)

variable {lib : LcLibrary} {s : State} {count i : Nat}

/-! ### The walk -/

theorem countRound_leaves {table : GnuTable} (stops : CountStops lib table s i) :
    countRound lib table i s = .done (.leave i) s := by
  rw [countRound]
  by_cases readable : regionInBounds lib.toMapping (table.chainSlot i) 4 = true
  · rcases stops with unreadable | odd
    · rw [readable] at unreadable
      cases unreadable
    · rw [if_pos readable, bind_done (load_done (holds_of_regionInBounds readable) s),
        if_pos odd]
      rfl
  · rw [if_neg readable]
    rfl

theorem countRound_goes {table : GnuTable} (goes : ¬ CountStops lib table s i) :
    countRound lib table i s = .done (.next (add32 i 1)) s := by
  obtain ⟨unread, even⟩ := not_or.mp goes
  have readable := Bool.eq_true_of_not_eq_false unread
  rw [countRound, if_pos readable,
    bind_done (load_done (holds_of_regionInBounds readable) s), if_neg even]
  rfl

/-- The walk ends at the first slot that stops it. -/
theorem countLoop_eq {table : GnuTable} {first last fuel : Nat} (order : first ≤ last)
    (word : last < 2 ^ 32) (goes : ∀ j, first ≤ j → j < last → ¬ CountStops lib table s j)
    (stops : CountStops lib table s last) (enough : last - first < fuel) :
    Program.loop (countRound lib table) fuel first s = .done last s := by
  induction fuel generalizing first with
  | zero => omega
  | succ fuel ih =>
    rw [Program.loop]
    rcases Nat.eq_or_lt_of_le order with rfl | before
    · rw [bind_done (countRound_leaves stops)]
      rfl
    · rw [bind_done (countRound_goes (goes first (Nat.le_refl _) before)),
        add32_of_lt (by omega)]
      exact ih before (fun j low => goes j (by omega)) (by omega)

namespace Gnu

/-- What the loop over the buckets has in `max_sym` after the first `n` of them. -/
structure Largest (lib : LcLibrary) (s : State) (n maxSym : Nat) : Prop where
  low : symndx lib s ≤ maxSym
  reached : maxSym = symndx lib s ∨ ∃ b < nbuckets lib s, maxSym = bucket lib s b
  largest : ∀ b < n, bucket lib s b ≤ maxSym

theorem Largest.step {n maxSym : Nat} (h : Largest lib s n maxSym) (before : n < nbuckets lib s) :
    Largest lib s (n + 1) (if bucket lib s n > maxSym then bucket lib s n else maxSym) := by
  have earlier : ∀ b < n + 1, b = n ∨ bucket lib s b ≤ maxSym := by
    intro b below
    rcases Nat.eq_or_lt_of_le (Nat.lt_succ_iff.mp below) with rfl | earlier
    · exact .inl rfl
    · exact .inr (h.largest b earlier)
  have low := h.low
  split
  · refine ⟨by omega, .inr ⟨n, before, rfl⟩, fun b below => ?_⟩
    rcases earlier b below with rfl | small
    · exact Nat.le_refl _
    · omega
  · refine ⟨low, h.reached, fun b below => ?_⟩
    rcases earlier b below with rfl | small
    · omega
    · exact small

namespace WellFormed

variable (formed : Gnu.WellFormed lib s count)

include formed

/-- The walk at a symbol of the table. -/
theorem countStops_iff (indexed : Indexed lib s count i) :
    CountStops lib (table lib s) s (i - symndx lib s) ↔ chain lib s i % 2 = 1 := by
  have holds := formed.chain_holds indexed
  have slot : (table lib s).chainSlot (i - symndx lib s) =
      chains lib s + 4 * (i - symndx lib s) := by
    have := holds.2
    have := formed.tables.below
    exact add64_of_lt (by dsimp only [table]; omega)
  rw [CountStops, slot, regionInBounds_of_holds formed.tables.below holds, ← chain]
  simp

/-- The loop over the buckets finds the largest bucket start, or `symndx` if all buckets
are empty. -/
theorem gnuMaxSymbol_eq : ∃ maxSym, gnuMaxSymbol lib (table lib s) s = .done (.next maxSym) s ∧
    Largest lib s (nbuckets lib s) maxSym := by
  have below := formed.tables.below
  have round : ∀ i maxSym, i < nbuckets lib s →
      Total (fun t => t = s ∧ Largest lib s i maxSym) (do
        let bucket ← load lib.toMapping (add64 (table lib s).buckets (4 * i)) 4
        pure (.next (if bucket > maxSym then bucket else maxSym) : Step Nat Empty))
        fun r t => r.Meets (fun m => t = s ∧ Largest lib s (i + 1) m) fun _ => False := by
    rintro i maxSym before t ⟨rfl, seen⟩
    have there : lib.toMapping.Holds (buckets lib t + 4 * i) 4 :=
      formed.inside.part (by rw [buckets]; omega) (by rw [buckets]; omega)
    have slot : add64 (table lib t).buckets (4 * i) = buckets lib t + 4 * i := by
      have := there.2
      exact add64_of_lt (by dsimp only [table]; omega)
    rw [slot, bind_done (load_done there t)]
    exact ⟨_, t, rfl, rfl, seen.step before⟩
  have start : Largest lib s 0 (symndx lib s) := ⟨Nat.le_refl _, .inl rfl, fun b no => by omega⟩
  obtain ⟨r, t, run, met⟩ := Total.upTo round (nbuckets lib s) 0 (symndx lib s) (Nat.zero_add _)
    s ⟨rfl, start⟩
  cases r with
  | leave never => exact never.elim
  | next maxSym =>
    obtain ⟨rfl, found⟩ := met
    exact ⟨maxSym, run, found⟩

/-- The chain that the count follows. -/
theorem getSymbolCount_eq (none : lib.elfHash = 0) : ∃ maxSym,
    Largest lib s (nbuckets lib s) maxSym ∧ ∀ fuel last,
      Program.loop (countRound lib (table lib s)) fuel (maxSym - symndx lib s) s = .done last s →
      getSymbolCount fuel lib s = .done (add32 (add32 (symndx lib s) last) 1) s := by
  obtain ⟨maxSym, loop, found⟩ := formed.gnuMaxSymbol_eq
  refine ⟨maxSym, found, fun fuel last walked => ?_⟩
  have present : lib.gnuHash ≠ 0 := by
    have := formed.inside.1
    have := lib.positive
    omega
  rw [getSymbolCount, if_neg (not_not.mpr none), if_pos present,
    bind_done formed.gnuTable_eq]
  dsimp only
  rw [bind_done loop]
  dsimp only
  have reached : ¬ maxSym < (table lib s).symndx := Nat.not_lt.mpr found.low
  rw [if_neg reached]
  exact bind_done walked

/-- The largest bucket start begins the last group of symbols. -/
theorem last_group (hashes : symndx lib s < count) {maxSym : Nat}
    (found : Largest lib s (nbuckets lib s) maxSym) :
    Indexed lib s count maxSym ∧ ∀ j, Indexed lib s count j → maxSym ≤ j →
      bucketOf lib s j = bucketOf lib s maxSym := by
  obtain ⟨low, reached, largest⟩ := found
  have first := formed.first
  have here : Indexed lib s count maxSym := by
    rcases reached with rfl | ⟨b, inside, rfl⟩
    · exact ⟨Nat.le_refl _, hashes⟩
    · rcases formed.head b inside with ⟨zero, -⟩ | ⟨indexed, -⟩
      · omega
      · exact indexed
  refine ⟨here, fun j indexed after => ?_⟩
  obtain ⟨name, named⟩ := Option.isSome_iff_exists.mp (formed.named j indexed)
  have home : bucketOf lib s j = some (gnuHashOf name % nbuckets lib s) := by
    rw [bucketOf, named, Option.map_some]
  have inside : gnuHashOf name % nbuckets lib s < nbuckets lib s := Nat.mod_lt _ formed.positive
  -- The bucket of `j` starts at or before `max_sym`, which is then between two of its symbols.
  rcases formed.head _ inside with ⟨-, empty⟩ | ⟨start, same, -⟩
  · exact absurd home (empty j indexed)
  · have between := formed.together _ maxSym j start (largest _ inside) after indexed
      (same.trans home.symm)
    rw [between, same, home]

/-- A table that hashes a symbol gives the number of symbols, in 32 bits. -/
theorem getSymbolCount_hashed (none : lib.elfHash = 0) (hashes : symndx lib s < count) {fuel : Nat}
    (enough : count ≤ fuel) : getSymbolCount fuel lib s = .done (count % 2 ^ 32) s := by
  obtain ⟨maxSym, found, counts⟩ := formed.getSymbolCount_eq none
  obtain ⟨here, group⟩ := formed.last_group hashes found
  have low := found.low
  have small := formed.tables.indices
  have high := here.2
  have walked : Program.loop (countRound lib (table lib s)) fuel (maxSym - symndx lib s) s =
      .done (count - 1 - symndx lib s) s := by
    refine countLoop_eq (by omega) (by omega) (fun j after before => ?_) ?_ (by omega)
    · have indexed : Indexed lib s count (j + symndx lib s) := ⟨by omega, by omega⟩
      have next : Indexed lib s count (j + symndx lib s + 1) := ⟨by omega, by omega⟩
      have slot := formed.countStops_iff indexed
      rw [Nat.add_sub_cancel] at slot
      rw [slot, formed.last _ indexed, not_not, group _ next (by omega),
        group _ indexed (by omega)]
      exact ⟨next, rfl⟩
    · have indexed : Indexed lib s count (count - 1) := ⟨by omega, by omega⟩
      rw [formed.countStops_iff indexed, formed.last _ indexed]
      rintro ⟨⟨-, beyond⟩, -⟩
      omega
  rw [counts fuel _ walked, add32, add32]
  congr 1
  omega

end WellFormed

end Gnu

/-! ### The empty table -/

/-- The walk that starts at the first word behind the buckets ends at the word `last`. -/
structure StraysTo (lib : LcLibrary) (s : State) (last : Nat) : Prop where
  word : last < 2 ^ 32
  goes : ∀ j < last, ¬ CountStops lib (Gnu.table lib s) s j
  stops : CountStops lib (Gnu.table lib s) s last

namespace Gnu.WellFormed

variable (formed : Gnu.WellFormed lib s count)

include formed

/-- A table that hashes no symbol gives what the words behind it make of it. -/
theorem getSymbolCount_stray (none : lib.elfHash = 0) (empty : count ≤ symndx lib s)
    {last fuel : Nat} (strays : StraysTo lib s last) (enough : last < fuel) :
    getSymbolCount fuel lib s = .done ((symndx lib s + last + 1) % 2 ^ 32) s := by
  obtain ⟨maxSym, ⟨low, reached, -⟩, counts⟩ := formed.getSymbolCount_eq none
  have start : maxSym = symndx lib s := by
    rcases reached with rfl | ⟨b, inside, rfl⟩
    · rfl
    · rcases formed.head b inside with ⟨zero, -⟩ | ⟨indexed, -⟩
      · omega
      · have := indexed.1
        have := indexed.2
        omega
  have walked : Program.loop (countRound lib (table lib s)) fuel (maxSym - symndx lib s) s =
      .done last s := by
    rw [start, Nat.sub_self]
    exact countLoop_eq (Nat.zero_le _) strays.word (fun j _ => strays.goes j) strays.stops enough
  rw [counts fuel _ walked, add32, add32]
  congr 1
  omega

/-- A count that comes back has come to a word that ends its walk. -/
theorem exists_straysTo (none : lib.elfHash = 0) {fuel : Nat}
    (back : (getSymbolCount fuel lib s).CameBack) : ∃ last, StraysTo lib s last := by
  classical
  have present : lib.gnuHash ≠ 0 := by
    have := formed.inside.1
    have := lib.positive
    omega
  have ends : ∃ i, i < 2 ^ 32 ∧ CountStops lib (table lib s) s i := by
    rcases getSymbolCount_cameBack_iff.mp ⟨fuel, back⟩ with has | lacks | ends
    · exact absurd none has
    · exact absurd lacks present
    · exact ends _ formed.gnuTable_eq
  obtain ⟨word, stops⟩ := Nat.find_spec ends
  refine ⟨Nat.find ends, word, fun j before stops => ?_, stops⟩
  exact Nat.find_min ends before ⟨by omega, stops⟩

end Gnu.WellFormed

/-- The count is exact exactly if the table hashes a symbol and the number of symbols has
32 bits; or, for a table that hashes none, if the walk behind it ends where the sum wraps
around to the right number. With `symndx` the number of symbols, as it has to be in such a
table, that is after 16 GiB of even words. -/
theorem symbol_count_exact_iff (formed : Gnu.WellFormed lib s count) (none : lib.elfHash = 0) :
    (∃ enough, ∀ fuel, enough ≤ fuel → getSymbolCount fuel lib s = .done count s) ↔
      (Gnu.symndx lib s < count ∧ count < 2 ^ 32) ∨
        (count ≤ Gnu.symndx lib s ∧
          ∃ last, StraysTo lib s last ∧ Gnu.symndx lib s + last + 1 = count + 2 ^ 32) := by
  have word : Gnu.symndx lib s < 2 ^ 32 := loadWord_lt _ _ 4
  rcases Nat.lt_or_ge (Gnu.symndx lib s) count with hashes | empty
  · constructor
    · rintro ⟨enough, exact_⟩
      have given := exact_ (max enough count) (Nat.le_max_left _ _)
      rw [formed.getSymbolCount_hashed none hashes (Nat.le_max_right _ _)] at given
      injection given with same
      exact .inl ⟨hashes, by omega⟩
    · rintro (⟨-, small⟩ | ⟨empty, -⟩)
      · refine ⟨count, fun fuel enough => ?_⟩
        rw [formed.getSymbolCount_hashed none hashes enough, Nat.mod_eq_of_lt small]
      · omega
  · constructor
    · rintro ⟨enough, exact_⟩
      have back : (getSymbolCount enough lib s).CameBack := by
        rw [exact_ enough (Nat.le_refl _)]
        trivial
      obtain ⟨last, strays⟩ := formed.exists_straysTo none back
      have given := exact_ (max enough (last + 1)) (Nat.le_max_left _ _)
      rw [formed.getSymbolCount_stray none empty strays (Nat.le_max_right _ _)] at given
      injection given with same
      have := strays.word
      exact .inr ⟨empty, last, strays, by omega⟩
    · rintro (⟨hashes, -⟩ | ⟨-, last, strays, sum⟩)
      · omega
      · refine ⟨last + 1, fun fuel enough => ?_⟩
        rw [formed.getSymbolCount_stray none empty strays enough, sum, Nat.add_mod_right,
          Nat.mod_eq_of_lt (by omega)]

/-- Two symbols that are hashed, in a library without `DT_HASH`. -/
theorem symbol_count_exact_iff_hashed :
    Gnu.WellFormed { crowdedLibrary with elfHash := 0 } (crowded 1) 3 ∧
      ∃ enough, ∀ fuel, enough ≤ fuel →
        getSymbolCount fuel { crowdedLibrary with elfHash := 0 } (crowded 1) =
          .done 3 (crowded 1) := by
  have tables : SymbolTables { crowdedLibrary with elfHash := 0 } 3 :=
    { crowded_tables with }
  have old : Gnu.WellFormed crowdedLibrary (crowded 1) 3 := crowded_gnu_formed
  have formed : Gnu.WellFormed { crowdedLibrary with elfHash := 0 } (crowded 1) 3 :=
    ⟨tables, old.inside, old.positive, old.first, old.named, old.together, old.head, old.hash,
      old.last⟩
  have symndx : Gnu.symndx { crowdedLibrary with elfHash := 0 } (crowded 1) = 1 := by
    decide +kernel
  refine ⟨formed, (symbol_count_exact_iff formed rfl).mpr (.inl ⟨?_, by decide⟩)⟩
  rw [symndx]
  decide

/-- A GNU hash table with one empty bucket, and behind it the symbol table with the undefined
symbol `a` and its string. -/
def emptyTable : State where
  memory := storeBytes (fun _ => 0) 4096 (wordBytes 4 1 ++ wordBytes 4 2 ++ wordBytes 4 1 ++
    wordBytes 4 0 ++ wordBytes 8 0 ++ wordBytes 4 0 ++ wordBytes 4 0 ++ wordBytes 24 0 ++
    symbolBytes 0 0 ++ [0, 97, 0])

def emptyLibrary : LcLibrary where
  toMapping := onePage
  symtab := 4128
  strtab := 4176
  strtabSize := 3
  gnuHash := 4096

/-- The walk runs into the symbol table and ends at the name of symbol 1: two symbols are
counted as ten. -/
theorem empty_table_miscounted :
    Gnu.WellFormed emptyLibrary emptyTable 2 ∧ emptyLibrary.elfHash = 0 ∧
      ∀ fuel, 8 ≤ fuel → getSymbolCount fuel emptyLibrary emptyTable = .done 10 emptyTable := by
  have symndx : Gnu.symndx emptyLibrary emptyTable = 2 := by decide +kernel
  have nbuckets : Gnu.nbuckets emptyLibrary emptyTable = 1 := by decide +kernel
  have bucket : Gnu.bucket emptyLibrary emptyTable 0 = 0 := by decide +kernel
  have nothing : ∀ i, ¬ Gnu.Indexed emptyLibrary emptyTable 2 i := by
    rintro i ⟨low, high⟩
    omega
  have formed : Gnu.WellFormed emptyLibrary emptyTable 2 := by
    refine ⟨⟨by decide, by decide, ⟨by decide, by decide⟩, by decide⟩, by decide +kernel, by omega,
      by omega, ?_, ?_, ?_, ?_, ?_⟩
    · exact fun i indexed => absurd indexed (nothing i)
    · exact fun i _ _ indexed => absurd indexed (nothing i)
    · intro b inside
      obtain rfl : b = 0 := by omega
      exact .inl ⟨bucket, fun i indexed => absurd indexed (nothing i)⟩
    · exact fun i _ indexed => absurd indexed (nothing i)
    · exact fun i indexed => absurd indexed (nothing i)
  have goes : ∀ j < 7, ¬ (regionInBounds emptyLibrary.toMapping
      ((Gnu.table emptyLibrary emptyTable).chainSlot j) 4 = false ∨
      loadWord emptyTable.memory ((Gnu.table emptyLibrary emptyTable).chainSlot j) 4 % 2 = 1) := by
    decide +kernel
  have stops : loadWord emptyTable.memory
      ((Gnu.table emptyLibrary emptyTable).chainSlot 7) 4 % 2 = 1 := by decide +kernel
  refine ⟨formed, rfl, fun fuel enough => ?_⟩
  have strays : StraysTo emptyLibrary emptyTable 7 := ⟨by decide, goes, .inr stops⟩
  have counted := formed.getSymbolCount_stray rfl (by omega) strays enough
  rwa [symndx] at counted

end Lightc.Library
