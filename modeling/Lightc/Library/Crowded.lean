import Lightc.Library.Lookup

/-!
# How many buckets a hash table may have

The ELF lookup finds the chains behind the buckets with the 32-bit index
`2 + nbucket`, which wraps for the two largest bucket counts. The chain words are then
read from the header and the buckets. A table with any number of buckets is built here
in which the symbol that is looked for comes second on its chain; with these two counts
it is not found.
-/

namespace Lightc.Library

open Machine Verification

variable {name : List UInt8} {n i : Nat}

/-- A symbol named `a`. -/
def symbolBytes (stShndx stValue : Nat) : List UInt8 :=
  wordBytes 4 1 ++ [18, 0] ++ wordBytes 2 stShndx ++ wordBytes 8 stValue ++ wordBytes 8 0

/-- Two symbols named `a`, the first of them undefined, their string table and a GNU
hash table with one bucket. -/
def lowMemory : Memory := storeBytes (fun _ => 0) 4120
  (symbolBytes 0 0 ++ symbolBytes 1 16 ++ [0, 97, 0, 0] ++ wordBytes 4 1 ++ wordBytes 4 1 ++
    wordBytes 4 0 ++ wordBytes 4 0 ++ wordBytes 4 1 ++ wordBytes 4 177670 ++ wordBytes 4 177671)

/-- An ELF hash table with `n` buckets for the same symbols, both on one chain. -/
def crowded (n : Nat) : State where
  memory := storeBytes (storeBytes (storeBytes (storeBytes lowMemory 8192 (wordBytes 4 n))
    8196 (wordBytes 4 3)) (8200 + 4 * (97 % n)) (wordBytes 4 1)) (8204 + 4 * n) (wordBytes 4 2)

def crowdedLibrary : LcLibrary where
  base := 4096
  totalSize := 2 ^ 35
  positive := by decide
  aligned := by decide
  fits := by decide
  symtab := 4096
  strtab := 4168
  strtabSize := 3
  elfHash := 8192
  gnuHash := 4172

/-- The second page of the address space. -/
def onePage : Mapping := ⟨4096, 4096, by decide, by decide, by decide⟩

variable {a b : Nat}

/-- The ELF hash table is behind everything else. -/
theorem crowded_low (low : a < 8192) : (crowded n).memory a = lowMemory a := by
  rw [crowded]
  dsimp only
  rw [storeBytes_outside (.inl (by omega)), storeBytes_outside (.inl (by omega)),
    storeBytes_outside (.inl (by omega)), storeBytes_outside (.inl low)]

theorem crowded_word {k : Nat} (low : a + k ≤ 8192) :
    loadWord (crowded n).memory a k = loadWord lowMemory a k :=
  loadWord_congr fun _ _ => crowded_low (by omega)

theorem crowded_symbolName (positive : i = 1 ∨ i = 2) :
    symbolName crowdedLibrary (crowded n) i = some [97] := by
  have start : stName crowdedLibrary (crowded n) i = 1 := by
    rw [stName, crowded_word (by dsimp only [crowdedLibrary]; omega)]
    rcases positive with rfl | rfl <;> decide +kernel
  have byte : lowMemory 4169 = 97 := by decide +kernel
  have zero : lowMemory 4170 = 0 := by decide +kernel
  rw [symbolName, start]
  simp [crowdedLibrary, stringAt, crowded_low, byte, zero]

theorem crowded_defines : Defines crowdedLibrary (crowded n) name i → (i = 1 ∨ i = 2) → i = 2 := by
  rintro ⟨-, defined⟩ (rfl | rfl)
  · rw [stShndx, crowded_word (by decide)] at defined
    exact absurd (by decide +kernel) defined
  · rfl

theorem crowded_tables : SymbolTables crowdedLibrary 3 :=
  ⟨by decide, by decide, ⟨by decide, by decide⟩, by decide⟩

/-- Where nothing is stored there are zeros. -/
theorem lowMemory_word (high : 4200 ≤ a) : loadWord lowMemory a 4 = 0 := by
  have zero : ∀ x, 4200 ≤ x → lowMemory x = 0 := fun x high => storeBytes_outside (.inr high)
  rw [loadWord, loadWord, loadWord, loadWord, loadWord, zero a high, zero _ (by omega),
    zero _ (by omega), zero _ (by omega)]
  rfl

theorem crowded_gnu_formed : Gnu.WellFormed crowdedLibrary (crowded n) 3 := by
  have nbuckets : Gnu.nbuckets crowdedLibrary (crowded n) = 1 := by
    rw [Gnu.nbuckets, crowded_word (by decide)]
    decide +kernel
  have symndx : Gnu.symndx crowdedLibrary (crowded n) = 1 := by
    rw [Gnu.symndx, crowded_word (by decide)]
    decide +kernel
  have maskwords : Gnu.maskwords crowdedLibrary (crowded n) = 0 := by
    rw [Gnu.maskwords, crowded_word (by decide)]
    decide +kernel
  have buckets : Gnu.buckets crowdedLibrary (crowded n) = 4188 := by
    rw [Gnu.buckets, maskwords]
    rfl
  have chain : ∀ i, i = 1 ∨ i = 2 →
      Gnu.chain crowdedLibrary (crowded n) i = loadWord lowMemory (4192 + 4 * (i - 1)) 4 := by
    intro i here
    rw [Gnu.chain, Gnu.chains, buckets, nbuckets, symndx, crowded_word (by omega)]
  have indexed : ∀ i, Gnu.Indexed crowdedLibrary (crowded n) 3 i ↔ i = 1 ∨ i = 2 := by
    intro i
    rw [Gnu.Indexed, symndx]
    omega
  have bucketOf : ∀ i, i = 1 ∨ i = 2 → Gnu.bucketOf crowdedLibrary (crowded n) i = some 0 := by
    intro i here
    rw [Gnu.bucketOf, crowded_symbolName here, nbuckets, Option.map_some, Nat.mod_one]
  have bucket : Gnu.bucket crowdedLibrary (crowded n) 0 = 1 := by
    rw [Gnu.bucket, buckets, crowded_word (by decide)]
    decide +kernel
  refine ⟨crowded_tables, ?_, by omega, by omega, ?_, ?_, ?_, ?_, ?_⟩
  · rw [nbuckets, symndx, maskwords]
    decide
  · intro i here
    rw [crowded_symbolName ((indexed i).mp here)]
    rfl
  · intro i j k first low high last _
    have := (indexed i).mp first
    have := (indexed k).mp last
    rw [bucketOf i (by omega), bucketOf j (by omega)]
  · intro b inside
    obtain rfl : b = 0 := by omega
    rw [bucket]
    refine .inr ⟨(indexed 1).mpr (.inl rfl), bucketOf 1 (.inl rfl), fun i here _ => ?_⟩
    have := (indexed i).mp here
    omega
  · intro i name here named
    have here := (indexed i).mp here
    obtain rfl : [97] = name := Option.some.inj ((crowded_symbolName here).symm.trans named)
    rw [chain i here]
    rcases here with rfl | rfl <;> decide +kernel
  · intro i here
    have here := (indexed i).mp here
    rw [chain i here, indexed, bucketOf i here]
    rcases here with rfl | rfl
    · refine iff_of_false (by decide +kernel) (not_not.mpr ⟨.inr rfl, bucketOf 2 (.inr rfl)⟩)
    · exact iff_of_true (by decide +kernel) fun next => absurd next.1 (by decide)

theorem crowded_nbucket (word : n < 2 ^ 32) :
    Elf.nbucket crowdedLibrary (crowded n) = n := by
  rw [Elf.nbucket, crowded]
  dsimp only [crowdedLibrary]
  rw [loadWord_storeBytes_disjoint (.inl (by omega)),
    loadWord_storeBytes_disjoint (.inl (by omega)), loadWord_storeBytes_disjoint (.inl (by omega)),
    loadWord_storeBytes_same]
  exact Nat.mod_eq_of_lt word

@[simp] theorem crowded_nchain : Elf.nchain crowdedLibrary (crowded n) = 3 := by
  rw [Elf.nchain, crowded]
  dsimp only [crowdedLibrary]
  rw [loadWord_storeBytes_disjoint (.inl (by omega)),
    loadWord_storeBytes_disjoint (.inl (by omega))]
  exact loadWord_storeBytes_same 4 3

/-- Only the bucket of `a` and the chain word of the first symbol are not zero. -/
theorem crowded_zero (behind : 8200 ≤ a)
    (bucket : a + 4 ≤ 8200 + 4 * (97 % n) ∨ 8204 + 4 * (97 % n) ≤ a)
    (chain : a + 4 ≤ 8204 + 4 * n ∨ 8208 + 4 * n ≤ a) :
    loadWord (crowded n).memory a 4 = 0 := by
  have length : ∀ v, (wordBytes 4 v).length = 4 := length_wordBytes 4
  rw [crowded, loadWord_storeBytes_disjoint (by rw [length]; omega),
    loadWord_storeBytes_disjoint (by rw [length]; omega),
    loadWord_storeBytes_disjoint (by rw [length]; omega),
    loadWord_storeBytes_disjoint (by rw [length]; omega), lowMemory_word (by omega)]

theorem crowded_bucket (inside : b < n) :
    Elf.bucket crowdedLibrary (crowded n) b = if b = 97 % n then 1 else 0 := by
  rw [Elf.bucket]
  dsimp only [crowdedLibrary]
  split
  · next home =>
    rw [home, crowded, loadWord_storeBytes_disjoint (.inl (by omega))]
    exact loadWord_storeBytes_same 4 1
  · next other => exact crowded_zero (by omega) (by omega) (by omega)

section

variable (positive : 0 < n) (word : n < 2 ^ 32)
include positive word

theorem crowded_chain (small : i < 3) :
    Elf.chain crowdedLibrary (crowded n) i = if i = 1 then 2 else 0 := by
  rw [Elf.chain, crowded_nbucket word]
  dsimp only [crowdedLibrary]
  split
  · next first =>
    have at_ : 8192 + 8 + 4 * n + 4 * i = 8204 + 4 * n := by omega
    rw [at_, crowded]
    exact loadWord_storeBytes_same 4 2
  · next other =>
    have := Nat.mod_lt 97 positive
    exact crowded_zero (by omega) (by omega) (by omega)

/-- The chain of the one bucket that has symbols. -/
theorem crowded_linked :
    Chain (Elf.chain crowdedLibrary (crowded n)) 0
      (Elf.bucket crowdedLibrary (crowded n) (97 % n)) [1, 2] := by
  have first := crowded_chain positive word (show 1 < 3 by decide)
  have second := crowded_chain positive word (show 2 < 3 by decide)
  rw [if_pos rfl] at first
  rw [if_neg (by decide)] at second
  rw [crowded_bucket (Nat.mod_lt 97 positive), if_pos rfl]
  refine .cons (by decide) ?_
  rw [first]
  refine .cons (by decide) ?_
  rw [second]
  exact .nil

theorem crowded_chains (inside : b < n) :
    Chain (Elf.chain crowdedLibrary (crowded n)) 0 (Elf.bucket crowdedLibrary (crowded n) b)
      (if b = 97 % n then [1, 2] else []) := by
  split
  · next home =>
    rw [home]
    exact crowded_linked positive word
  · next other =>
    rw [crowded_bucket inside, if_neg other]
    exact .nil

/-- Only the two symbols are on chains, on that of their bucket. -/
theorem crowded_on_chain (inside : b < n)
    (linked : Linked (Elf.chain crowdedLibrary (crowded n)) 0 (Elf.bucket crowdedLibrary (crowded
      n) b) i) : b = 97 % n ∧ (i = 1 ∨ i = 2) := by
  have member := (crowded_chains positive word inside).mem_of_linked linked
  split at member
  · next home => exact ⟨home, by simpa using member⟩
  · exact absurd member List.not_mem_nil

theorem crowded_elf_formed : Elf.WellFormed crowdedLibrary (crowded n) := by
  have nbucket := crowded_nbucket word
  refine ⟨?_, ?_, ?_, ?_, ?_⟩
  · rw [crowded_nchain]
    exact crowded_tables
  · rw [nbucket, crowded_nchain]
    exact ⟨by decide, by dsimp only [crowdedLibrary]; omega⟩
  · rwa [nbucket]
  · rw [nbucket, crowded_nchain]
    intro b inside
    have chain := crowded_chains positive word inside
    refine ⟨_, chain, fun i member => ?_⟩
    obtain ⟨-, here⟩ := crowded_on_chain positive word inside (chain.linked_of_mem member)
    omega
  · rw [nbucket]
    intro b inside i name linked named
    obtain ⟨home, here⟩ := crowded_on_chain positive word inside linked
    obtain rfl : [97] = name := Option.some.inj ((crowded_symbolName here).symm.trans named)
    exact home.symm

/-- The second symbol is in the table and defines the name. -/
theorem crowded_answer :
    Elf.Indexed crowdedLibrary (crowded n) 2 ∧ Defines crowdedLibrary (crowded n) [97] 2 := by
  constructor
  · refine ⟨97 % n, ?_, (crowded_linked positive word).linked_of_mem (by decide)⟩
    rw [crowded_nbucket word]
    exact Nat.mod_lt 97 positive
  · refine ⟨crowded_symbolName (.inr rfl), ?_⟩
    rw [stShndx, crowded_word (by decide)]
    decide +kernel

end

/-- With so many buckets that the index wraps, the chain word of the first symbol is read
from the header or from the first bucket, and either ends the walk. -/
theorem crowded_astray (large : 2 ^ 32 ≤ n + 2) (word : n < 2 ^ 32) :
    elfChainRound crowdedLibrary (Elf.table crowdedLibrary (crowded n)) [97] 1 (crowded n) =
        .done (.next 3) (crowded n) ∨
      elfChainRound crowdedLibrary (Elf.table crowdedLibrary (crowded n)) [97] 1 (crowded n) =
        .done (.next 0) (crowded n) := by
  have formed := crowded_elf_formed (by omega : 0 < n) word
  have home : 97 % n = 97 := Nat.mod_eq_of_lt (by omega)
  have undefined : defines crowdedLibrary (crowded n) [97] 1 = false :=
    decide_eq_false fun defined => absurd (crowded_defines defined (.inl rfl)) (by decide)
  have slot : add64 (Elf.table crowdedLibrary (crowded n)).chains (4 * 1) =
      8196 + 4 * (n + 2 - 2 ^ 32) := by
    rw [Elf.table, crowded_nbucket word]
    dsimp only [crowdedLibrary]
    rw [add32, add64, add64]
    omega
  have readable : crowdedLibrary.toMapping.Holds
      (add64 (Elf.table crowdedLibrary (crowded n)).chains (4 * 1)) 4 := by
    rw [slot]
    constructor <;> dsimp only [crowdedLibrary] <;> omega
  have round := formed.elfChainRound_eq [97] (show 1 ≠ 0 by decide)
    (by rw [crowded_nchain]; decide) readable
  rw [undefined, if_neg Bool.false_ne_true, slot] at round
  rw [round]
  obtain few | many : n + 2 - 2 ^ 32 = 0 ∨ n + 2 - 2 ^ 32 = 1 := by omega
  · have header : loadWord (crowded n).memory (8196 + 4 * 0) 4 = 3 := crowded_nchain
    rw [few, header]
    exact .inl rfl
  · have bucket : loadWord (crowded n).memory (8196 + 4 * 1) 4 = 0 :=
      crowded_zero (by decide) (.inl (by rw [home]; decide)) (.inl (by omega))
    rw [many, bucket]
    exact .inr rfl

theorem crowded_missed (large : 2 ^ 32 ≤ n + 2) (word : n < 2 ^ 32) {fuel : Nat}
    (enough : 2 ≤ fuel) :
    findSymbolWithElfHash fuel crowdedLibrary [97] (crowded n) = .done 0 (crowded n) := by
  have positive : 0 < n := by omega
  have formed := crowded_elf_formed positive word
  have start : Elf.bucket crowdedLibrary (crowded n)
      (elfHashOf [97] % Elf.nbucket crowdedLibrary (crowded n)) = 1 := by
    rw [crowded_nbucket word]
    exact (crowded_bucket (Nat.mod_lt 97 positive)).trans (if_pos rfl)
  have leaves : ∀ i, i = 3 ∨ i = 0 → elfChainRound crowdedLibrary
      (Elf.table crowdedLibrary (crowded n)) [97] i (crowded n) =
        .done (.leave none) (crowded n) := by
    intro i outside
    rw [elfChainRound, Elf.table, crowded_nchain, if_neg (by dsimp only; omega)]
    rfl
  obtain ⟨fuel, rfl⟩ := Nat.exists_eq_add_of_le' enough
  have search : elfSearch (fuel + 2) crowdedLibrary [97] (crowded n) = .done none (crowded n) := by
    rw [formed.elfSearch_eq, start, Program.loop]
    rcases crowded_astray large word with first | first
    · rw [Program.bind_done first]
      dsimp only
      rw [Program.loop, Program.bind_done (leaves 3 (.inl rfl))]
      rfl
    · rw [Program.bind_done first]
      dsimp only
      rw [Program.loop, Program.bind_done (leaves 0 (.inr rfl))]
      rfl
  rw [findSymbolWithElfHash, Program.bind_done search]
  rfl

/-- For every number of buckets of an ELF hash table: all lookups in all well-formed
tables with that many buckets are right exactly if the index of the chains does not
wrap. GNU hash tables need no such condition. -/
theorem hash_lookup_right_iff (n : Nat) (word : n < 2 ^ 32) :
    ((∀ lib s count, Gnu.WellFormed lib s count → ∀ name,
        Answers (findSymbolWithGnuHash · lib name) lib s (Gnu.Indexed lib s count) name) ∧
      ∀ lib s, Elf.WellFormed lib s → Elf.nbucket lib s = n → ∀ name,
        Answers (findSymbolWithElfHash · lib name) lib s (Elf.Indexed lib s) name) ↔
      n + 2 < 2 ^ 32 := by
  constructor
  · rintro ⟨-, right⟩
    by_contra large
    have positive : 0 < n := by omega
    obtain ⟨indexed, defined⟩ := crowded_answer positive word
    obtain ⟨enough, answers⟩ := right crowdedLibrary (crowded n) (crowded_elf_formed positive word)
      (crowded_nbucket word) [97]
    obtain ⟨result, found, right⟩ := answers (enough + 2) (Nat.le_add_right _ _)
    obtain rfl : 0 = result := by
      have missed := crowded_missed (by omega) word (Nat.le_add_left 2 enough)
      dsimp only at found
      rw [missed] at found
      cases found
      rfl
    rcases right with ⟨i, ⟨b, inside, linked⟩, defines, zero⟩ | ⟨none, -⟩
    · rw [crowded_nbucket word] at inside
      obtain ⟨-, here⟩ := crowded_on_chain positive word inside linked
      obtain rfl := crowded_defines defines here
      rw [symbolValue, crowded_word (by decide)] at zero
      exact absurd zero (by decide +kernel)
    · exact none 2 indexed defined
  · intro few
    refine ⟨fun lib s count formed => Gnu.answers formed, ?_⟩
    rintro lib s formed rfl
    exact Elf.answers formed few

/-- The table with one bucket is well formed for either lookup, and the defined symbol
is found behind the undefined one. -/
theorem hash_lookup_right_iff_crowded :
    Gnu.WellFormed crowdedLibrary (crowded 1) 3 ∧ Elf.WellFormed crowdedLibrary (crowded 1) ∧
      Answers (findSymbolWithGnuHash · crowdedLibrary [97]) crowdedLibrary (crowded 1)
        (Gnu.Indexed crowdedLibrary (crowded 1) 3) [97] ∧
      Answers (findSymbolWithElfHash · crowdedLibrary [97]) crowdedLibrary (crowded 1)
        (Elf.Indexed crowdedLibrary (crowded 1)) [97] := by
  have formed := crowded_elf_formed (show 0 < 1 by decide) (by decide)
  obtain ⟨gnu, elf⟩ := (hash_lookup_right_iff 1 (by decide)).mpr (by decide)
  exact ⟨crowded_gnu_formed, formed, gnu _ _ _ crowded_gnu_formed _,
    elf _ _ formed (crowded_nbucket (by decide)) _⟩

/-- The same tables with 4294967294 buckets: the defined symbol is in the ELF hash
table and is not found. -/
theorem elf_lookup_misses_crowded :
    Elf.WellFormed crowdedLibrary (crowded 4294967294) ∧
      Elf.Indexed crowdedLibrary (crowded 4294967294) 2 ∧
      Defines crowdedLibrary (crowded 4294967294) [97] 2 ∧
      ∀ fuel, 2 ≤ fuel → findSymbolWithElfHash fuel crowdedLibrary [97] (crowded 4294967294) =
        .done 0 (crowded 4294967294) :=
  ⟨crowded_elf_formed (by decide) (by decide), (crowded_answer (by decide) (by decide)).1,
    (crowded_answer (by decide) (by decide)).2, fun _ => crowded_missed (by decide) (by decide)⟩

end Lightc.Library
