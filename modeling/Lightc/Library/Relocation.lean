import Lightc.Library.Bounds
import Lightc.Library.Crowded
import Lightc.Machine.Stores

/-!
# What the relocations do to memory

A relocation entry is applied by one store, or not at all: its target may lie outside the
mapping, its type may be unknown, its symbol may be missing or undefined. As long as no
store touches the entries or the symbols they name, what an entry stores is settled before
the loop starts. Stores to windows that have no byte in common commute, so the order of the
entries does not matter, and every byte outside the windows stays as it is.
-/

namespace Lightc.Library

open Machine Verification
open Program (bind_done)

variable {arch : Arch} {lib : LcLibrary} {symCount : Nat} {s t u : State}

/-! ### Entries and what they store -/

/-- `Elf64_Rela`. -/
structure Elf64Rela where
  rOffset : Nat
  rInfo : Nat
  rAddend : Nat

/-- `lib->rela[i]`. -/
def relaAt (lib : LcLibrary) (memory : Memory) (i : Nat) : Elf64Rela where
  rOffset := loadWord memory (lib.rela + 24 * i) 8
  rInfo := loadWord memory (lib.rela + 24 * i + 8) 8
  rAddend := loadWord memory (lib.rela + 24 * i + 16) 8

/-- The relocation entries. -/
def relas (lib : LcLibrary) (memory : Memory) : List Elf64Rela :=
  (List.range lib.relaCount).map (relaAt lib memory)

namespace Elf64Rela

/-- Where the entry stores its eight bytes. -/
def target (lib : LcLibrary) (e : Elf64Rela) : Nat := add64 lib.base e.rOffset

/-- The symbol-table entry that the loader looks at for the entry. -/
def symbol (arch : Arch) (lib : LcLibrary) (symCount : Nat) (e : Elf64Rela) : Option Nat :=
  match arch.relocationKind (e.rInfo % 2 ^ 32) with
  | .symbol => relocSymbol lib (e.rInfo / 2 ^ 32) symCount
  | _ => none

/-- The value that the entry stores, if its type is handled and its symbol usable. -/
def value (arch : Arch) (lib : LcLibrary) (symCount : Nat) (memory : Memory) (e : Elf64Rela) :
    Option Nat :=
  match arch.relocationKind (e.rInfo % 2 ^ 32) with
  | .ignored => none
  | .relative => some (add64 lib.base e.rAddend)
  | .symbol =>
    match relocSymbol lib (e.rInfo / 2 ^ 32) symCount with
    | none => none
    | some sym =>
      if loadWord memory (sym + 6) 2 ≠ 0 then
        some (add64 (add64 lib.base (loadWord memory (sym + 8) 8)) e.rAddend)
      else none

/-- The store of a value at the target. -/
def store (lib : LcLibrary) (e : Elf64Rela) (value : Nat) : Write :=
  ⟨e.target lib, wordBytes 8 value⟩

/-- The store that the entry makes, if its target lies in the mapping. -/
def write (arch : Arch) (lib : LcLibrary) (symCount : Nat) (memory : Memory) (e : Elf64Rela) :
    Option Write :=
  if regionInBounds lib.toMapping (e.target lib) 8 then
    (e.value arch lib symCount memory).map (e.store lib)
  else none

end Elf64Rela

/-- A relocation changes nothing of the state but memory and the record of addresses. -/
theorem relocate_done {target v value : Nat} (inside : lib.toMapping.Holds target 8) (s : State) :
    ∃ t, relocate lib target v value s = .done () t ∧
      t.memory = storeBytes s.memory target (wordBytes 8 value) := by
  have whole : lib.toMapping.Holds target (wordBytes 8 value).length := by
    rwa [length_wordBytes]
  exact ⟨_, (bind_done (translate_done v value s)).trans (store_done whole _), rfl⟩

variable {e : Elf64Rela} {i : Nat} {memory : Memory}

theorem applyRelocation_done (arch : Arch) (s : State) {rela : Nat}
    (entry : lib.toMapping.Holds rela 24) (addend : loadWord s.memory (rela + 16) 8 = e.rAddend)
    (inside : lib.toMapping.Holds (e.target lib) 8) :
    ∃ t, applyRelocation arch lib symCount rela (e.target lib) e.rInfo s = .done () t ∧
      t.memory = performAll ((e.value arch lib symCount s.memory).map (e.store lib)).toList
        s.memory := by
  have addend_eq : load lib.toMapping (rela + 16) 8 s = .done e.rAddend s := by
    rw [load_done (entry.part (by omega) (by omega)), addend]
  rw [applyRelocation, Elf64Rela.value]
  cases arch.relocationKind (e.rInfo % 2 ^ 32) with
  | ignored => exact ⟨s, rfl, rfl⟩
  | relative =>
    dsimp only
    rw [bind_done addend_eq]
    exact relocate_done inside s
  | symbol =>
    cases found : relocSymbol lib (e.rInfo / 2 ^ 32) symCount with
    | none =>
      simp only
      exact ⟨s, rfl, rfl⟩
    | some sym =>
      simp only
      have whole := relocSymbol_holds found
      rw [relocateSymbol, bind_done (load_done (whole.part (by omega) (by omega)) s)]
      by_cases defined : loadWord s.memory (sym + 6) 2 ≠ 0
      · rw [if_pos defined, if_pos defined,
          bind_done (load_done (whole.part (by omega) (by omega)) s),
          bind_done addend_eq]
        exact relocate_done inside s
      · rw [if_neg defined, if_neg defined]
        exact ⟨s, rfl, rfl⟩

/-- One round applies the entry it finds. -/
theorem relocationRound_done (arch : Arch) (symCount : Nat)
    (table : lib.toMapping.Holds lib.rela (24 * lib.relaCount)) (before : i < lib.relaCount)
    (s : State) :
    ∃ t, relocationRound arch lib symCount i () s = .done (.next ()) t ∧
      t.memory = performAll ((relaAt lib s.memory i).write arch lib symCount s.memory).toList
        s.memory := by
  have place : add64 lib.rela (24 * i) = lib.rela + 24 * i := table.wrap (by omega)
  have entry : lib.toMapping.Holds (lib.rela + 24 * i) 24 := table.part (by omega) (by omega)
  let s₁ : State := { s with translated := ((relaAt lib s.memory i).rOffset,
    (relaAt lib s.memory i).target lib) :: s.translated }
  have offset : load lib.toMapping (lib.rela + 24 * i) 8 s =
      .done (relaAt lib s.memory i).rOffset s := load_done (entry.part (by omega) (by omega)) s
  have info : load lib.toMapping (lib.rela + 24 * i + 8) 8 s₁ =
      .done (relaAt lib s.memory i).rInfo s₁ := load_done (entry.part (by omega) (by omega)) s₁
  have logged : translate (relaAt lib s.memory i).rOffset ((relaAt lib s.memory i).target lib) s =
      .done () s₁ := rfl
  rw [relocationRound, place, bind_done offset, ← Elf64Rela.target,
    bind_done logged, relocationAt, bind_done info, Elf64Rela.write]
  by_cases inside : regionInBounds lib.toMapping ((relaAt lib s.memory i).target lib) 8 = true
  · rw [if_pos inside, if_pos inside]
    obtain ⟨t, run, memory⟩ := applyRelocation_done arch s₁ entry rfl
      (holds_of_regionInBounds inside)
    rw [bind_done run]
    exact ⟨t, rfl, memory⟩
  · rw [if_neg inside, if_neg inside]
    exact ⟨s₁, rfl, rfl⟩

/-! ### The loop in any order -/

/-- The loop of `process_relocations` over the entries in a given order. -/
def relocateInOrder (arch : Arch) (lib : LcLibrary) (symCount : Nat) :
    List Nat → Program Error State Unit
  | [] => pure ()
  | i :: rest => do
    let _ ← relocationRound arch lib symCount i ()
    relocateInOrder arch lib symCount rest

/-- The loop of the loader goes through the entries in the order of the table. -/
theorem upTo_of_relocateInOrder {rounds : Nat}
    (run : relocateInOrder arch lib symCount (List.range' i rounds) s = .done () t) :
    Program.upTo (relocationRound arch lib symCount) rounds i () s = .done (.next ()) t := by
  induction rounds generalizing i s with
  | zero =>
    cases run
    rfl
  | succ rounds ih =>
    rw [List.range'_succ] at run
    obtain ⟨r, u, round, run⟩ := Program.bind_eq_done run
    rw [Program.upTo, bind_done round]
    cases r with
    | next => exact ih run
    | leave never => exact never.elim

/-- The target windows of the entries have no byte in common with one another, with the
entries, and with the symbols that the entries name. -/
structure Separate (arch : Arch) (lib : LcLibrary) (symCount : Nat) (entries : List Elf64Rela) :
    Prop where
  windows : entries.Pairwise fun e e' =>
    ∀ x, ¬ (Within (e.target lib) 8 x ∧ Within (e'.target lib) 8 x)
  table : ∀ e ∈ entries, ∀ x, Within (e.target lib) 8 x → ¬ Within lib.rela (24 * lib.relaCount) x
  symbols : ∀ e ∈ entries, ∀ e' ∈ entries, ∀ sym, e'.symbol arch lib symCount = some sym →
    ∀ x, Within (e.target lib) 8 x → ¬ Within sym 24 x

/-- The entries, and the symbols that they name, are the same in both memories. -/
structure SameTables (arch : Arch) (lib : LcLibrary) (symCount : Nat) (memory other : Memory) :
    Prop where
  entries : ∀ x, Within lib.rela (24 * lib.relaCount) x → other x = memory x
  symbols : ∀ e ∈ relas lib memory, ∀ sym, e.symbol arch lib symCount = some sym →
    ∀ x, Within sym 24 x → other x = memory x

theorem SameTables.refl (memory : Memory) : SameTables arch lib symCount memory memory :=
  ⟨fun _ _ => rfl, fun _ _ _ _ _ _ => rfl⟩

theorem relaAt_congr {other : Memory} (before : i < lib.relaCount)
    (same : ∀ x, Within lib.rela (24 * lib.relaCount) x → other x = memory x) :
    relaAt lib other i = relaAt lib memory i := by
  have word : ∀ offset, offset + 8 ≤ 24 → loadWord other (lib.rela + 24 * i + offset) 8 =
      loadWord memory (lib.rela + 24 * i + offset) 8 := by
    intro offset inside
    apply loadWord_congr
    intro k low
    exact same _ ⟨by omega, by omega⟩
  have first := word 0 (by decide)
  rw [Nat.add_zero] at first
  rw [relaAt, relaAt, first, word 8 (by decide), word 16 (by decide)]

/-- What an entry stores depends on memory only through the symbol it names. -/
theorem write_congr {other : Memory}
    (same : ∀ sym, e.symbol arch lib symCount = some sym → ∀ x, Within sym 24 x → other x = memory
      x) :
    e.write arch lib symCount other = e.write arch lib symCount memory := by
  have value : e.value arch lib symCount other = e.value arch lib symCount memory := by
    rw [Elf64Rela.value, Elf64Rela.value]
    cases kind : arch.relocationKind (e.rInfo % 2 ^ 32) with
    | ignored | relative => rfl
    | symbol =>
      cases found : relocSymbol lib (e.rInfo / 2 ^ 32) symCount with
      | none => rfl
      | some sym =>
        have unchanged := same sym (by rw [Elf64Rela.symbol, kind]; exact found)
        have shndx : loadWord other (sym + 6) 2 = loadWord memory (sym + 6) 2 := by
          apply loadWord_congr
          intro k low
          exact unchanged _ ⟨by omega, by omega⟩
        have stValue : loadWord other (sym + 8) 8 = loadWord memory (sym + 8) 8 := by
          apply loadWord_congr
          intro k low
          exact unchanged _ ⟨by omega, by omega⟩
        dsimp only
        rw [shndx, stValue]
  rw [Elf64Rela.write, Elf64Rela.write, value]

/-- The store of an entry stays in its window. -/
theorem write_window {w : Write} (stores : e.write arch lib symCount memory = some w) {x : Nat}
    (hit : w.Hits x) :
    Within (e.target lib) 8 x := by
  rw [Elf64Rela.write] at stores
  split at stores
  · obtain ⟨value, -, rfl⟩ := Option.map_eq_some_iff.mp stores
    unfold Write.Hits at hit
    rwa [Elf64Rela.store, length_wordBytes] at hit
  · cases stores

/-- The stores of the entries in a given order. -/
def stores (arch : Arch) (lib : LcLibrary) (symCount : Nat) (memory : Memory)
    (entries : List Elf64Rela) : List Write :=
  entries.filterMap fun e => e.write arch lib symCount memory

theorem stores_apart {entries : List Elf64Rela} (separate : Separate arch lib symCount entries) :
    (stores arch lib symCount memory entries).Pairwise Write.Apart := by
  refine separate.windows.filterMap _ fun e e' apart w given w' given' x both => ?_
  exact apart x ⟨write_window given both.1, write_window given' both.2⟩

/-- The loop performs the stores that its entries stand for before it starts, in whatever
order it takes the entries. -/
theorem relocateInOrder_done (table : lib.toMapping.Holds lib.rela (24 * lib.relaCount))
    (separate : Separate arch lib symCount (relas lib memory)) {order : List Nat}
    (inside : ∀ i ∈ order, i < lib.relaCount)
    (same : SameTables arch lib symCount memory s.memory) :
    ∃ t, relocateInOrder arch lib symCount order s = .done () t ∧ t.memory =
      performAll (stores arch lib symCount memory (order.map (relaAt lib memory))) s.memory := by
  induction order generalizing s with
  | nil => exact ⟨s, rfl, rfl⟩
  | cons i rest ih =>
    have before := inside i List.mem_cons_self
    have among : relaAt lib memory i ∈ relas lib memory :=
      List.mem_map.mpr ⟨i, List.mem_range.mpr before, rfl⟩
    obtain ⟨u, round, stored⟩ := relocationRound_done arch symCount table before s
    rw [relaAt_congr before same.entries, write_congr (same.symbols _ among)] at stored
    have kept : ∀ x, ¬ Within ((relaAt lib memory i).target lib) 8 x →
        u.memory x = s.memory x := by
      intro x outside
      rw [stored]
      refine performAll_outside fun w given hit => outside ?_
      exact write_window (Option.mem_toList.mp given) hit
    have same' : SameTables arch lib symCount memory u.memory := by
      constructor
      · intro x inside
        rw [kept x fun hit => separate.table _ among x hit inside]
        exact same.entries x inside
      · intro e member sym found x inside
        rw [kept x fun hit => separate.symbols _ among e member sym found x hit inside]
        exact same.symbols e member sym found x inside
    obtain ⟨t, run, memory_eq⟩ := ih (fun j member => inside j (List.mem_cons_of_mem _ member))
      same'
    refine ⟨t, (bind_done round).trans run, ?_⟩
    have split : stores arch lib symCount memory ((i :: rest).map (relaAt lib memory)) =
        ((relaAt lib memory i).write arch lib symCount memory).toList ++
          stores arch lib symCount memory (rest.map (relaAt lib memory)) := by
      rw [stores, List.map_cons, List.filterMap_cons]
      cases (relaAt lib memory i).write arch lib symCount memory with
      | none => rfl
      | some w => rfl
    rw [split, performAll_append, memory_eq, stored]

/-- `process_relocations` performs the stores of its entries. -/
theorem processRelocations_done {fuel : Nat}
    (counted : getSymbolCount fuel lib s = .done symCount s)
    (table : lib.toMapping.Holds lib.rela (24 * lib.relaCount))
    (separate : Separate arch lib symCount (relas lib s.memory)) :
    ∃ t, processRelocations fuel arch lib s = .done true t ∧ t.memory =
      performAll (stores arch lib symCount s.memory (relas lib s.memory)) s.memory := by
  have inside : ∀ i ∈ List.range' 0 lib.relaCount, i < lib.relaCount := by
    intro i member
    have := List.mem_range'_1.mp member
    omega
  obtain ⟨t, run, memory⟩ := relocateInOrder_done table separate inside (.refl s.memory)
  refine ⟨t, ?_, ?_⟩
  · rw [processRelocations, bind_done counted,
      bind_done (upTo_of_relocateInOrder run)]
    rfl
  · rw [memory, ← List.range_eq_range', ← relas]

theorem Separate.perm {entries entries' : List Elf64Rela} (perm : entries'.Perm entries)
    (separate : Separate arch lib symCount entries) : Separate arch lib symCount entries' := by
  have symm : ∀ {e e' : Elf64Rela},
      (∀ x, ¬ (Within (e.target lib) 8 x ∧ Within (e'.target lib) 8 x)) →
      ∀ x, ¬ (Within (e'.target lib) 8 x ∧ Within (e.target lib) 8 x) :=
    fun apart x both => apart x both.symm
  refine ⟨(perm.pairwise_iff symm).mpr separate.windows, ?_, ?_⟩
  · exact fun e member => separate.table e (perm.mem_iff.mp member)
  · exact fun e member e' member' =>
      separate.symbols e (perm.mem_iff.mp member) e' (perm.mem_iff.mp member')

/-- Relocation does not depend on the order in which the entries are taken, nor on the order
in which the table has them, and changes only what the entries store. The symbol count is
made before the loop, so whatever it is, it is the same for every order of the loop. -/
theorem relocation_order_irrelevant {fuel : Nat}
    (counted : getSymbolCount fuel lib s = .done symCount s)
    (table : lib.toMapping.Holds lib.rela (24 * lib.relaCount))
    (separate : Separate arch lib symCount (relas lib s.memory)) :
    ∃ t, processRelocations fuel arch lib s = .done true t ∧
      (∀ order : List Nat, order.Perm (List.range lib.relaCount) → ∃ u,
        relocateInOrder arch lib symCount order s = .done () u ∧ u.memory = t.memory) ∧
      (∀ s', getSymbolCount fuel lib s' = .done symCount s' →
        (∀ x, ¬ Within lib.rela (24 * lib.relaCount) x → s'.memory x = s.memory x) →
        (relas lib s'.memory).Perm (relas lib s.memory) →
        (∀ e ∈ relas lib s.memory, ∀ sym, e.symbol arch lib symCount = some sym →
          ∀ x, Within sym 24 x → ¬ Within lib.rela (24 * lib.relaCount) x) →
        ∃ u, processRelocations fuel arch lib s' = .done true u ∧
          ∀ x, ¬ Within lib.rela (24 * lib.relaCount) x → u.memory x = t.memory x) ∧
      ∀ x, (∀ e ∈ relas lib s.memory, (e.write arch lib symCount s.memory).isSome →
        ¬ Within (e.target lib) 8 x) → t.memory x = s.memory x := by
  obtain ⟨t, run, memory⟩ := processRelocations_done counted table separate
  refine ⟨t, run, ?_, ?_, ?_⟩
  · intro order perm
    have inside : ∀ i ∈ order, i < lib.relaCount :=
      fun i member => List.mem_range.mp (perm.mem_iff.mp member)
    obtain ⟨u, run', memory'⟩ := relocateInOrder_done table separate inside (.refl s.memory)
    refine ⟨u, run', ?_⟩
    rw [memory', memory]
    have reordered := (perm.map (relaAt lib s.memory)).filterMap
      fun e => e.write arch lib symCount s.memory
    exact (performAll_perm reordered.symm (stores_apart separate) s.memory).symm
  · intro s' counted' elsewhere perm tables
    obtain ⟨u, run', memory'⟩ := processRelocations_done counted' table (separate.perm perm)
    refine ⟨u, run', fun x outside => ?_⟩
    have settled : stores arch lib symCount s'.memory (relas lib s'.memory) =
        stores arch lib symCount s.memory (relas lib s'.memory) := by
      apply List.filterMap_congr
      intro e member
      apply write_congr
      intro sym found x inside
      exact elsewhere x (tables e (perm.mem_iff.mp member) sym found x inside)
    have reordered := perm.filterMap fun e => e.write arch lib symCount s.memory
    rw [memory', memory, settled, performAll_congr _ (elsewhere x outside)]
    exact (congrFun (performAll_perm reordered.symm (stores_apart separate) s.memory) x).symm
  · intro x outside
    rw [memory]
    refine performAll_outside fun w given hit => ?_
    obtain ⟨e, member, writes⟩ := List.mem_filterMap.mp given
    exact outside e member (by rw [writes]; rfl) (write_window writes hit)

/-- Two entries: the object's own address 5, and the symbol `a`, which is at 16. -/
def relocated : State where
  memory := storeBytes (fun _ => 0) 4120 (symbolBytes 1 16 ++ wordBytes 8 1000 ++ wordBytes 8 8 ++
    wordBytes 8 5 ++ wordBytes 8 1008 ++ wordBytes 8 (2 ^ 32 + 6) ++ wordBytes 8 0)

def relocatedLibrary : LcLibrary where
  toMapping := onePage
  symtab := 4096
  rela := 4144
  relaCount := 2

/-- The entries in the reverse order, and a byte between their windows and the table. -/
theorem relocation_order_irrelevant_reversed : ∃ t,
    processRelocations 0 .x86_64 relocatedLibrary relocated = .done true t ∧
      (∃ u, relocateInOrder .x86_64 relocatedLibrary 0 [1, 0] relocated = .done () u ∧
        u.memory = t.memory) ∧ t.memory 5095 = 0 := by
  have windows : (relas relocatedLibrary relocated.memory).Pairwise fun e e' =>
      e.target relocatedLibrary + 8 ≤ e'.target relocatedLibrary := by decide +kernel
  have high : ∀ e ∈ relas relocatedLibrary relocated.memory,
      5096 ≤ e.target relocatedLibrary := by decide +kernel
  have low : ∀ e ∈ relas relocatedLibrary relocated.memory,
      ∀ sym ∈ e.symbol .x86_64 relocatedLibrary 0, sym = 4120 := by decide +kernel
  have separate : Separate .x86_64 relocatedLibrary 0
      (relas relocatedLibrary relocated.memory) := by
    refine ⟨windows.imp fun order x both => ?_, fun e member x hit inside => ?_,
      fun e member e' member' sym found x hit inside => ?_⟩
    · have := both.1.2
      have := both.2.1
      omega
    · have := high e member
      have := hit.1
      have end_ : x < 4144 + 24 * 2 := inside.2
      omega
    · have := high e member
      have := hit.1
      have := low e' member' sym found
      have := inside.2
      omega
  have table : relocatedLibrary.toMapping.Holds relocatedLibrary.rela
      (24 * relocatedLibrary.relaCount) := by decide
  have counted : getSymbolCount 0 relocatedLibrary relocated = .done 0 relocated := rfl
  obtain ⟨t, run, orders, -, frame⟩ := relocation_order_irrelevant counted table separate
  refine ⟨t, run, orders [1, 0] (by decide), frame 5095 fun e member _ hit => ?_⟩
  have := high e member
  have := hit.1
  omega

end Lightc.Library
