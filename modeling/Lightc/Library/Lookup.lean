import Lightc.Library.HashTable
import Lightc.Verification.Buckets

/-!
# What a symbol lookup finds

Over tables of the right form, a lookup returns the address of a defined symbol with the
name if the hash table has one, and `NULL` otherwise. The chain walks are searches of an
index of the symbols by their names. The ELF walk is one only as long as the lookup
finds the chains, for which the bucket count has to leave room in a 32-bit index.
-/

namespace Lightc.Library

open Machine Verification
open Program (bind_done)

variable {lib : LcLibrary} {s : State} {name : List UInt8} {count i : Nat}

/-! ### The search of an index -/

/-- The address of an indexed symbol that defines the name, or `NULL` if there is none. -/
def Right (lib : LcLibrary) (s : State) (Indexed : Nat → Prop) (name : List UInt8)
    (result : Nat) : Prop :=
  (∃ i, Indexed i ∧ Defines lib s name i ∧ result = add64 lib.base (symbolValue lib s i)) ∨
    ((∀ i, Indexed i → ¬ Defines lib s name i) ∧ result = 0)

/-- The lookup comes back with the right address and leaves everything as it is. -/
def Answers (find : Nat → Program Error State Nat) (lib : LcLibrary) (s : State)
    (Indexed : Nat → Prop) (name : List UInt8) : Prop :=
  ∃ enough, ∀ fuel, enough ≤ fuel →
    ∃ result, find fuel s = .done result s ∧ Right lib s Indexed name result

/-- The test of a candidate. -/
def defines (lib : LcLibrary) (s : State) (name : List UInt8) (i : Nat) : Bool :=
  decide (Defines lib s name i)

/-- A search that is a lookup in an index of the symbols answers with the first match. -/
theorem answers_of_lookup {search : Nat → Program Error State (Option Nat)} (enough : Nat)
    (tables : SymbolTables lib count) (index : Buckets (List UInt8) Nat)
    (inside : ∀ i, index.Mem i → i < count)
    (searches : ∀ fuel, enough ≤ fuel → search fuel s =
      .done ((index.lookup (defines lib s name) name).map (symbolAt lib)) s) :
    Answers (fun fuel => search fuel >>= symbolAddress lib) lib s
      (fun i => index.lookup (defines lib s name) name = some i) name := by
  refine ⟨enough, fun fuel covered => ?_⟩
  dsimp only
  rw [bind_done (searches fuel covered)]
  cases lookup : index.lookup (defines lib s name) name with
  | none =>
    exact ⟨_, tables.symbolAddress_eq s (fun _ no => nomatch no),
      .inr ⟨fun _ no => (nomatch no), rfl⟩⟩
  | some i =>
    obtain ⟨member, passed⟩ := Buckets.mem_of_lookup lookup
    refine ⟨_, tables.symbolAddress_eq s ?_, .inl ⟨i, rfl, of_decide_eq_true passed, rfl⟩⟩
    rintro _ ⟨⟩
    exact inside i member

/-- The first match is an indexed symbol that defines the name, if there is one. -/
theorem Answers.of_lookup {find : Nat → Program Error State Nat} {Indexed : Nat → Prop}
    {index : Buckets (List UInt8) Nat} (key : index.key = symbolName lib s)
    (mem : ∀ i, index.Mem i ↔ Indexed i) (h : Answers find lib s
      (fun i => index.lookup (defines lib s name) name = some i) name) :
    Answers find lib s Indexed name := by
  obtain ⟨enough, answers⟩ := h
  refine ⟨enough, fun fuel covered => ?_⟩
  obtain ⟨result, run, right⟩ := answers fuel covered
  have keyed : ∀ i, defines lib s name i = true → index.key i = some name := by
    intro i defined
    rw [key]
    exact (of_decide_eq_true defined).1
  refine ⟨result, run, right.imp ?_ ?_⟩
  · rintro ⟨i, found, rest⟩
    exact ⟨i, (mem i).mp (Buckets.mem_of_lookup found).1, rest⟩
  · rintro ⟨none, rest⟩
    have lookup : index.lookup (defines lib s name) name = Option.none :=
      Option.eq_none_iff_forall_ne_some.mpr fun i found =>
        none i found (of_decide_eq_true (Buckets.mem_of_lookup found).2)
    refine ⟨fun i indexed => ?_, rest⟩
    have failed := Buckets.not_test_of_lookup keyed lookup ((mem i).mpr indexed)
    exact of_decide_eq_false failed

/-! ### The GNU lookup -/

theorem or_one_eq_iff (a b : Nat) : a ||| 1 = b ||| 1 ↔ a / 2 = b / 2 := by
  have half : ∀ n, (n ||| 1) / 2 = n / 2 := fun n => by simp [Nat.or_div_two]
  have odd : ∀ n, (n ||| 1) % 2 = 1 := fun n => by simp [Nat.or_mod_two_eq_one]
  have := half a
  have := half b
  have := odd a
  have := odd b
  omega

namespace Gnu

/-- The table as the lookup sees it. -/
def table (lib : LcLibrary) (s : State) : GnuTable :=
  ⟨nbuckets lib s, symndx lib s, buckets lib s, chains lib s⟩

/-- The symbols of a bucket from `i` on. -/
def ahead (lib : LcLibrary) (s : State) (count b i : Nat) : List Nat :=
  (List.range' i (count - i)).filter fun j => bucketOf lib s j = some b

variable {b : Nat}

theorem ahead_of_mem (inside : i < count) (here : bucketOf lib s i = some b) :
    ahead lib s count b i = i :: ahead lib s count b (i + 1) := by
  have more : count - i = count - (i + 1) + 1 := by omega
  rw [ahead, more, List.range'_succ, List.filter_cons_of_pos (by simpa using here), ahead]

theorem ahead_of_not_mem (other : bucketOf lib s i ≠ some b) :
    ahead lib s count b i = ahead lib s count b (i + 1) := by
  by_cases inside : i < count
  · have more : count - i = count - (i + 1) + 1 := by omega
    rw [ahead, more, List.range'_succ, List.filter_cons_of_neg (by simpa using other), ahead]
  · rw [ahead, ahead, Nat.sub_eq_zero_of_le (by omega), Nat.sub_eq_zero_of_le (by omega)]
    rfl

@[simp] theorem mem_ahead {j : Nat} :
    j ∈ ahead lib s count b i ↔ (i ≤ j ∧ j < count) ∧ bucketOf lib s j = some b := by
  rw [ahead, List.mem_filter, List.mem_range'_1]
  simp only [decide_eq_true_eq]
  constructor
  all_goals
    rintro ⟨⟨low, high⟩, here⟩
    exact ⟨⟨low, by omega⟩, here⟩

/-- Symbols of other buckets may be skipped. -/
theorem ahead_skip {j : Nat} (order : i ≤ j)
    (others : ∀ k, i ≤ k → k < j → bucketOf lib s k ≠ some b) :
    ahead lib s count b i = ahead lib s count b j := by
  induction order with
  | refl => rfl
  | @step j order ih =>
    rw [ih fun k low high => others k low (by omega),
      ahead_of_not_mem (others j order (Nat.lt_succ_self j))]

namespace WellFormed

variable (formed : WellFormed lib s count)

include formed

theorem gnuTable_eq : gnuTable lib s = .done (some (table lib s)) s := by
  have below := formed.tables.below
  have inside := formed.inside
  have positive := formed.positive
  obtain ⟨low, high⟩ := formed.inside
  have header : lib.toMapping.Holds lib.gnuHash 16 := inside.part (Nat.le_refl _) (by omega)
  have nbuckets_eq : load lib.toMapping lib.gnuHash 4 s = .done (nbuckets lib s) s :=
    load_done (header.part (Nat.le_refl _) (by omega)) s
  have symndx_eq : load lib.toMapping (lib.gnuHash + 4) 4 s = .done (symndx lib s) s :=
    load_done (header.part (by omega) (by omega)) s
  have maskwords_eq : load lib.toMapping (lib.gnuHash + 8) 4 s = .done (maskwords lib s) s :=
    load_done (header.part (by omega) (by omega)) s
  have buckets_eq : add64 (add64 lib.gnuHash 16) (8 * maskwords lib s) = buckets lib s := by
    have header_end : add64 lib.gnuHash 16 = lib.gnuHash + 16 := add64_of_lt (by omega)
    rw [header_end, add64_of_lt (by omega), buckets]
  have there : lib.toMapping.Holds (buckets lib s) (nbuckets lib s * 4) :=
    inside.part (by rw [buckets]; omega) (by rw [buckets]; omega)
  have chains_eq : add64 (buckets lib s) (4 * nbuckets lib s) = chains lib s :=
    add64_of_lt (by rw [buckets]; omega)
  rw [gnuTable, if_pos (regionInBounds_of_holds below header), bind_done nbuckets_eq,
    bind_done symndx_eq, bind_done maskwords_eq, if_neg (by omega),
    if_neg (by omega), if_neg (by omega), buckets_eq,
    if_pos (regionInBounds_of_holds below there), chains_eq]
  rfl

theorem chain_holds (indexed : Indexed lib s count i) :
    lib.toMapping.Holds (chains lib s + 4 * (i - symndx lib s)) 4 := by
  obtain ⟨low, high⟩ := indexed
  refine formed.inside.part ?_ ?_
  all_goals
    rw [chains, buckets]
    omega

theorem gnuMatches_eq (name : List UInt8) (indexed : Indexed lib s count i) :
    gnuMatches lib (table lib s) name (i - symndx lib s) (chain lib s i) s =
      .done (defines lib s name i) s := by
  have tables := formed.tables
  have small := tables.indices
  have index : add32 (symndx lib s) (i - symndx lib s) = i := by
    obtain ⟨low, high⟩ := indexed
    rw [add32_of_lt (by omega)]
    omega
  have inside := regionInBounds_of_holds tables.below (tables.symbol_holds indexed.2)
  rw [← tables.symbolAt_eq indexed.2] at inside
  have candidate : gnuCandidate lib (table lib s) name (i - symndx lib s) s =
      .done (defines lib s name i) s := by
    rw [gnuCandidate, table]
    dsimp only
    rw [index, if_pos inside]
    exact tables.definedAs_eq s name indexed.2
  rw [gnuMatches, gnuHashFunction_toNat]
  by_cases same : chain lib s i ||| 1 = gnuHashOf name ||| 1
  · rw [if_pos same, candidate]
  · have other : ¬ Defines lib s name i := fun h =>
      same ((or_one_eq_iff _ _).mpr (formed.hash i name indexed h.1))
    rw [if_neg same, Program.pure_apply, defines, decide_eq_false other]

/-- What a round does at a symbol. -/
theorem gnuChainRound_eq (name : List UInt8) (indexed : Indexed lib s count i) :
    gnuChainRound lib (table lib s) name (i - symndx lib s) s =
      .done (if defines lib s name i then .leave (some (symbolAt lib i))
        else if chain lib s i % 2 = 1 then .leave none else .next (i + 1 - symndx lib s)) s := by
  have below := formed.tables.below
  have small := formed.tables.indices
  have first := formed.first
  have holds := formed.chain_holds indexed
  obtain ⟨low, high⟩ := indexed
  have slot : (table lib s).chainSlot (i - symndx lib s) =
      chains lib s + 4 * (i - symndx lib s) := by
    have := holds.2
    exact add64_of_lt (by dsimp only [table]; omega)
  have index : add32 (table lib s).symndx (i - symndx lib s) = i := by
    rw [add32_of_lt (by dsimp only [table]; omega)]
    dsimp only [table]
    omega
  have following : add32 (i - symndx lib s) 1 = i + 1 - symndx lib s := by
    rw [add32_of_lt (by omega)]
    omega
  rw [gnuChainRound, slot, if_pos (regionInBounds_of_holds below holds),
    bind_done (load_done holds s), ← chain,
    bind_done (formed.gnuMatches_eq name ⟨low, high⟩), index, following]
  split
  · rfl
  · split
    · rfl
    · rfl

/-- A round visits the symbols of its bucket one after the other. -/
theorem visits (name : List UInt8) (b : Nat) :
    Visits (gnuChainRound lib (table lib s) name)
      (fun c rest => ∃ i, Indexed lib s count i ∧ bucketOf lib s i = some b ∧
        c = i - symndx lib s ∧ rest = ahead lib s count b i)
      (defines lib s name) (symbolAt lib) s := by
  rintro c rest ⟨i, indexed, here, rfl, rfl⟩
  rw [ahead_of_mem indexed.2 here]
  dsimp only
  rw [formed.gnuChainRound_eq name indexed]
  split
  · rfl
  · split
    · next closing =>
      refine .inl ⟨?_, rfl⟩
      -- A later symbol of the bucket would put the next one into it.
      apply List.eq_nil_iff_forall_not_mem.mpr
      intro k member
      obtain ⟨⟨low, high⟩, there⟩ := mem_ahead.mp member
      have later : Indexed lib s count k := ⟨by have := indexed.1; omega, high⟩
      have next : Indexed lib s count (i + 1) := ⟨by have := indexed.1; omega, by omega⟩
      refine (formed.last i indexed).mp closing ⟨next, ?_⟩
      exact formed.together i (i + 1) k indexed (by omega) low later (here.trans there.symm)
    · next closing =>
      obtain ⟨next, same⟩ := not_not.mp fun no => closing ((formed.last i indexed).mpr no)
      exact .inr ⟨_, rfl, i + 1, next, same.trans here, rfl, rfl⟩

end WellFormed

/-- The table as an index of the symbols by their names. -/
def index (formed : WellFormed lib s count) : Buckets (List UInt8) Nat where
  size := nbuckets lib s
  key := symbolName lib s
  home name := gnuHashOf name % nbuckets lib s
  chain b := ahead lib s count b (symndx lib s)
  home_lt _ := Nat.mod_lt _ formed.positive
  placed := by
    intro b _ i on name named
    refine mem_ahead.mpr ⟨(mem_ahead.mp on).1, ?_⟩
    rw [bucketOf, named, Option.map_some]

theorem mem_index (formed : WellFormed lib s count) (i : Nat) :
    (index formed).Mem i ↔ Indexed lib s count i := by
  constructor
  · rintro ⟨b, _, on⟩
    exact (mem_ahead.mp on).1
  · intro indexed
    obtain ⟨name, named⟩ := Option.isSome_iff_exists.mp (formed.named i indexed)
    refine ⟨gnuHashOf name % nbuckets lib s, Nat.mod_lt _ formed.positive, ?_⟩
    exact mem_ahead.mpr ⟨indexed, by rw [bucketOf, named, Option.map_some]⟩

theorem gnuSearch_eq (formed : WellFormed lib s count) (name : List UInt8) {fuel : Nat}
    (enough : count < fuel) : gnuSearch fuel lib name s =
      .done (((index formed).lookup (defines lib s name) name).map (symbolAt lib)) s := by
  have below := formed.tables.below
  have first := formed.first
  have home : gnuHashOf name % nbuckets lib s < nbuckets lib s := Nat.mod_lt _ formed.positive
  have there : lib.toMapping.Holds (buckets lib s + 4 * (gnuHashOf name % nbuckets lib s)) 4 :=
    formed.inside.part (by rw [buckets]; omega) (by rw [buckets]; omega)
  have slot : add64 (buckets lib s) (4 * (gnuHashOf name % nbuckets lib s)) =
      buckets lib s + 4 * (gnuHashOf name % nbuckets lib s) := by
    have := there.2
    exact add64_of_lt (by omega)
  have divides : modulo (gnuHashFunction name).toNat (table lib s).nbuckets s =
      .done (gnuHashOf name % nbuckets lib s) s := by
    rw [gnuHashFunction_toNat]
    exact if_neg (Nat.ne_of_gt formed.positive)
  have bucket_eq : load lib.toMapping
      (add64 (table lib s).buckets (4 * (gnuHashOf name % nbuckets lib s))) 4 s =
      .done (bucket lib s (gnuHashOf name % nbuckets lib s)) s := by
    dsimp only [table]
    rw [slot]
    exact load_done there s
  rw [gnuSearch, bind_done formed.gnuTable_eq]
  dsimp only
  rw [bind_done divides, bind_done bucket_eq, Buckets.lookup]
  rcases formed.head _ home with ⟨zero, empty⟩ | ⟨indexed, here, least⟩
  · have nothing : (index formed).chain ((index formed).home name) = [] := by
      apply List.eq_nil_iff_forall_not_mem.mpr
      intro i on
      exact empty i (mem_ahead.mp on).1 (mem_ahead.mp on).2
    rw [if_pos zero, nothing]
    rfl
  · have low := indexed.1
    have whole : (index formed).chain ((index formed).home name) =
        ahead lib s count (gnuHashOf name % nbuckets lib s)
          (bucket lib s (gnuHashOf name % nbuckets lib s)) := by
      refine ahead_skip low fun k after before inside => ?_
      have := least k ⟨after, by have := indexed.2; omega⟩ inside
      omega
    rw [if_neg (by omega), if_neg (by dsimp only [table]; omega), whole]
    refine Program.loop_find (formed.visits name _) ⟨_, indexed, here, rfl, rfl⟩ ?_
    refine Nat.lt_of_le_of_lt (List.length_filter_le _ _) ?_
    rw [List.length_range']
    omega

end Gnu

/-! ### The ELF lookup -/

namespace Elf

/-- The table as the lookup sees it, with a 32-bit index for the chains. -/
def table (lib : LcLibrary) (s : State) : ElfTable :=
  ⟨nbucket lib s, nchain lib s, lib.elfHash + 8, add64 lib.elfHash (4 * add32 2 (nbucket lib s))⟩

namespace WellFormed

variable (formed : WellFormed lib s)

include formed

theorem elfTable_eq : elfTable lib s = .done (some (table lib s)) s := by
  have below := formed.tables.below
  have inside := formed.inside
  have positive := formed.positive
  obtain ⟨low, high⟩ := formed.inside
  have header : lib.toMapping.Holds lib.elfHash 8 := inside.part (Nat.le_refl _) (by omega)
  have nbucket_eq : load lib.toMapping lib.elfHash 4 s = .done (nbucket lib s) s :=
    load_done (header.part (Nat.le_refl _) (by omega)) s
  have nchain_eq : load lib.toMapping (lib.elfHash + 4) 4 s = .done (nchain lib s) s :=
    load_done (header.part (by omega) (by omega)) s
  have buckets_eq : add64 lib.elfHash 8 = lib.elfHash + 8 := add64_of_lt (by omega)
  have there : lib.toMapping.Holds (lib.elfHash + 8) (nbucket lib s * 4) :=
    inside.part (by omega) (by omega)
  rw [elfTable, if_pos (regionInBounds_of_holds below header), bind_done nbucket_eq,
    bind_done nchain_eq, if_neg (by omega), if_neg (by omega), buckets_eq,
    if_pos (regionInBounds_of_holds below there)]
  rfl

/-- What a round does at a symbol, wherever the chains are read. -/
theorem elfChainRound_eq (name : List UInt8) (nonzero : i ≠ 0) (inside : i < nchain lib s)
    (readable : lib.toMapping.Holds (add64 (table lib s).chains (4 * i)) 4) :
    elfChainRound lib (table lib s) name i s =
      .done (if defines lib s name i then .leave (some (symbolAt lib i))
        else .next (loadWord s.memory (add64 (table lib s).chains (4 * i)) 4)) s := by
  have tables := formed.tables
  have symbol := regionInBounds_of_holds tables.below (tables.symbol_holds inside)
  rw [← tables.symbolAt_eq inside] at symbol
  rw [elfChainRound, if_pos ⟨nonzero, inside⟩, if_pos symbol,
    bind_done (tables.definedAs_eq s name inside), ← defines]
  split
  · rfl
  · rw [if_pos (regionInBounds_of_holds tables.below readable),
      bind_done (load_done readable s)]
    rfl

/-- The search, as far as it does not depend on the chains. -/
theorem elfSearch_eq (name : List UInt8) (fuel : Nat) :
    elfSearch fuel lib name s = Program.loop (elfChainRound lib (table lib s) name) fuel
      (bucket lib s (elfHashOf name % nbucket lib s)) s := by
  have below := formed.tables.below
  have home : elfHashOf name % nbucket lib s < nbucket lib s := Nat.mod_lt _ formed.positive
  have there : lib.toMapping.Holds (lib.elfHash + 8 + 4 * (elfHashOf name % nbucket lib s)) 4 :=
    formed.inside.part (by omega) (by omega)
  have slot : add64 (table lib s).buckets (4 * (elfHashOf name % nbucket lib s)) =
      lib.elfHash + 8 + 4 * (elfHashOf name % nbucket lib s) := by
    have := there.2
    exact add64_of_lt (by dsimp only [table]; omega)
  have divides : modulo (elfHashFunction name).toNat (table lib s).nbucket s =
      .done (elfHashOf name % nbucket lib s) s := by
    rw [elfHashFunction_toNat]
    exact if_neg (Nat.ne_of_gt formed.positive)
  rw [elfSearch, bind_done formed.elfTable_eq]
  dsimp only
  rw [bind_done divides, slot, bind_done (load_done there s)]
  rfl

/-- With a bucket count that leaves the index its 32 bits, the chains are where they
belong. -/
theorem slot_eq (few : nbucket lib s + 2 < 2 ^ 32) (inside : i < nchain lib s) :
    add64 (table lib s).chains (4 * i) = lib.elfHash + 8 + 4 * nbucket lib s + 4 * i := by
  have below := formed.tables.below
  obtain ⟨low, high⟩ := formed.inside
  have chains_eq : (table lib s).chains = lib.elfHash + 8 + 4 * nbucket lib s := by
    dsimp only [table]
    rw [add32_of_lt (by omega), add64_of_lt (by omega)]
    omega
  rw [chains_eq, add64_of_lt (by omega)]

theorem visits (few : nbucket lib s + 2 < 2 ^ 32) (name : List UInt8) :
    Visits (elfChainRound lib (table lib s) name)
      (fun i rest => Chain (chain lib s) 0 i rest ∧ ∀ j ∈ rest, j < nchain lib s)
      (defines lib s name) (symbolAt lib) s := by
  rintro i rest ⟨linked, small⟩
  cases linked with
  | nil => rfl
  | @cons _ rest node tail =>
    have inside := small i List.mem_cons_self
    have slot := formed.slot_eq few inside
    have readable : lib.toMapping.Holds (add64 (table lib s).chains (4 * i)) 4 := by
      rw [slot]
      exact formed.inside.part (by omega) (by omega)
    dsimp only
    rw [formed.elfChainRound_eq name node inside readable, slot]
    split
    · rfl
    · exact .inr ⟨_, rfl, tail, fun j member => small j (List.mem_cons_of_mem _ member)⟩

end WellFormed

/-- The symbols on the chain of a bucket. -/
noncomputable def nodes (formed : WellFormed lib s) (b : Nat) : List Nat :=
  if inside : b < nbucket lib s then (formed.chains b inside).choose else []

theorem nodes_spec (formed : WellFormed lib s) {b : Nat} (inside : b < nbucket lib s) :
    Chain (chain lib s) 0 (bucket lib s b) (nodes formed b) ∧
      ∀ i ∈ nodes formed b, i < nchain lib s := by
  rw [nodes, dif_pos inside]
  exact (formed.chains b inside).choose_spec

/-- The table as an index of the symbols by their names. -/
noncomputable def index (formed : WellFormed lib s) : Buckets (List UInt8) Nat where
  size := nbucket lib s
  key := symbolName lib s
  home name := elfHashOf name % nbucket lib s
  chain := nodes formed
  home_lt _ := Nat.mod_lt _ formed.positive
  placed := by
    intro b inside i on name named
    have linked := (nodes_spec formed inside).1.linked_of_mem on
    rw [formed.placed b inside i name linked named]
    exact on

theorem mem_index (formed : WellFormed lib s) (i : Nat) :
    (index formed).Mem i ↔ Indexed lib s i := by
  refine exists_congr fun b => and_congr_right fun inside => ?_
  have chain := (nodes_spec formed inside).1
  exact ⟨chain.linked_of_mem, chain.mem_of_linked⟩

theorem answers_lookup (formed : WellFormed lib s) (few : nbucket lib s + 2 < 2 ^ 32)
    (name : List UInt8) : Answers (findSymbolWithElfHash · lib name) lib s
      (fun i => (index formed).lookup (defines lib s name) name = some i) name := by
  have home : elfHashOf name % nbucket lib s < nbucket lib s := Nat.mod_lt _ formed.positive
  have start := nodes_spec formed home
  refine answers_of_lookup ((nodes formed (elfHashOf name % nbucket lib s)).length + 1)
    formed.tables _ ?_ fun fuel enough => ?_
  · rintro i ⟨b, inside, on⟩
    exact (nodes_spec formed inside).2 i on
  · rw [formed.elfSearch_eq]
    exact Program.loop_find (formed.visits few name) start enough

/-- The lookup is right if the index of the chains has room for the bucket count. -/
theorem answers (formed : WellFormed lib s) (few : nbucket lib s + 2 < 2 ^ 32)
    (name : List UInt8) :
    Answers (findSymbolWithElfHash · lib name) lib s (Indexed lib s) name :=
  (answers_lookup formed few name).of_lookup rfl (mem_index formed)

end Elf

theorem Gnu.answers_lookup (formed : Gnu.WellFormed lib s count) (name : List UInt8) :
    Answers (findSymbolWithGnuHash · lib name) lib s
      (fun i => (Gnu.index formed).lookup (defines lib s name) name = some i) name :=
  answers_of_lookup (count + 1) formed.tables _ (fun i on => ((Gnu.mem_index formed i).mp on).2)
    fun _ enough => Gnu.gnuSearch_eq formed name enough

theorem Gnu.answers (formed : Gnu.WellFormed lib s count) (name : List UInt8) :
    Answers (findSymbolWithGnuHash · lib name) lib s (Gnu.Indexed lib s count) name :=
  (Gnu.answers_lookup formed name).of_lookup rfl (Gnu.mem_index formed)

end Lightc.Library
