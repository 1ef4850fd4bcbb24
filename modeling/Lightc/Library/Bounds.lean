import Lightc.Library.Termination
import Lightc.Library.Work

/-!
# The loader and its mapping

Every access of the load is guarded by a check on the very range it uses, with
one exception. The relocation entries are checked as one table whose size is the
product of the count and the entry size, and the count is a quotient of two
numbers of the file. The product wraps, so a count can pass the check that no
table in the mapping has. The loop over the entries then runs out of the mapping.

This is the only way out. The load stays in its mapping exactly if the announced
entries, counted without wrapping, fit in the address space, or if the loader
never gets to them because the symbol count before the loop does not come back.
-/

namespace Lightc.Library

open Machine Verification
open Program (bind_done pure_apply)

variable {arch : Arch} {k : Kernel} {image : Image} {phdrs : List Elf64Phdr} {lib : LcLibrary}
variable {fuel : Nat} {s t : State}

/-! ### Reading the file into the mapping -/

theorem abandon_safe {α : Type} {T : α → Prop} (calls : List Call) (e : Error) :
    Safe (abandon calls e : Program Error State α) T :=
  Safe.bind Safe.modify fun _ _ => Safe.fail

theorem readBytes_safe (count : Nat) :
    Safe (readBytes k count) fun bytes => bytes.length ≤ count := by
  intro s _
  change (List.take _ _).length ≤ count
  rw [List.length_take]
  omega

/-- The pieces of a read are delivered inside the range that was asked for. -/
theorem readAll_safe {deliver : Nat → List UInt8 → Program Error State Unit} {total : Nat}
    (delivers : ∀ sofar bytes, sofar + bytes.length ≤ total →
      Safe (deliver sofar bytes) fun _ => True)
    (rounds : Nat) (arrived : List UInt8) (count : Nat) (inside : arrived.length + count = total) :
    Safe (readAll k deliver rounds arrived count) fun _ => True := by
  induction rounds generalizing arrived count with
  | zero => exact Safe.ret trivial
  | succ rounds ih =>
    apply Safe.ite
    · exact fun _ => Safe.ret trivial
    · intro _
      apply Safe.bind (readBytes_safe count)
      intro bytes few
      apply Safe.ite
      · exact fun _ => Safe.ret trivial
      · intro _
        apply Safe.bind (delivers _ _ (by omega))
        intro _ _
        apply ih
        rw [List.length_append]
        omega

theorem readAll_buffer_safe (size : Nat) :
    Safe (readAll k (fun _ _ => pure ()) size [] size) fun _ => True :=
  readAll_safe (fun _ _ _ => Safe.ret trivial) size [] size (Nat.zero_add _)

theorem seekPosition_safe (offset : Nat) : Safe (seekPosition k offset) fun _ => True :=
  fun _ _ => trivial

theorem readProgramHeaders_safe (ehdr : Elf64Ehdr) :
    Safe (readProgramHeaders k ehdr) fun _ => True := by
  apply Safe.ite
  · intro _
    apply Safe.bind (seekPosition_safe _)
    intro found _
    apply Safe.ite
    · intro _
      apply Safe.bind (readAll_buffer_safe _)
      intro buffer _
      cases buffer with
      | none => exact abandon_safe _ _
      | some buffer => exact Safe.ret trivial
    · exact fun _ => abandon_safe _ _
  · exact fun _ => abandon_safe _ _

theorem readHeaders_safe : Safe (readHeaders arch k) fun _ => True := by
  apply Safe.ite
  · intro _
    apply Safe.bind (readAll_buffer_safe _)
    intro buffer _
    cases buffer with
    | none => exact abandon_safe _ _
    | some buffer =>
      cases valid : validateElfHeader arch (Elf64Ehdr.ofBytes buffer) with
      | none =>
        simp only [valid]
        exact readProgramHeaders_safe _
      | some e =>
        simp only [valid]
        exact abandon_safe _ _
  · exact fun _ => Safe.fail

theorem mapImage_safe (span : Span) : Safe (mapImage k span) fun _ => True := by
  unfold mapImage
  split
  · exact abandon_safe _ _
  · exact Safe.bind Safe.modify fun _ _ => Safe.ret trivial

/-- The destination check covers every byte that is copied. -/
theorem copySegment_safe (phdr : Elf64Phdr) : Safe (copySegment k image phdr) fun _ => True := by
  apply Safe.ite
  · exact fun _ => Safe.ret trivial
  · intro _
    apply Safe.ite
    · exact fun _ => Safe.ret trivial
    · intro nonempty
      apply Safe.ite
      · exact fun _ => abandon_safe _ _
      · intro fits
        apply Safe.bind (seekPosition_safe _)
        intro found _
        apply Safe.ite
        · intro _
          apply Safe.bind Safe.modify
          intro _ _
          apply Safe.bind (readAll_safe ?_ _ _ _ (Nat.zero_add _))
          · intro arrived _
            cases arrived with
            | none => exact abandon_safe _ _
            | some _ => exact Safe.ret trivial
          · intro sofar bytes inside s _
            have whole := image.fits
            have start : add64 image.base (sub64 phdr.vaddr image.minVaddr) =
                image.base + sub64 phdr.vaddr image.minVaddr := add64_of_lt (by omega)
            rw [store_done ⟨by omega, by omega⟩]
            trivial
        · exact fun _ => abandon_safe _ _

theorem copySegments_safe (phdrs : List Elf64Phdr) :
    Safe (copySegments k image phdrs) fun _ => True := by
  induction phdrs with
  | nil => exact Safe.ret trivial
  | cons phdr rest ih => exact Safe.bind (copySegment_safe phdr) fun _ _ => ih

theorem loadImage_safe : Safe (loadImage arch k) fun _ => True := by
  apply Safe.bind readHeaders_safe
  intro phdrs _
  cases computed : loadSpan phdrs with
  | error e =>
    simp only
    exact abandon_safe _ _
  | ok span =>
    simp only
    apply Safe.bind (mapImage_safe span)
    intro image _
    apply Safe.bind (copySegments_safe phdrs)
    exact fun _ _ => Safe.bind Safe.modify fun _ _ => Safe.ret trivial

/-! ### The dynamic table -/

section DynamicRound

variable {dynamic di bytes : Nat} {t : Tables} (inside : image.toMapping.Holds dynamic bytes)
include inside

/-- Both words of an entry lie in the mapping. -/
theorem dynamicEntry_holds (before : di < bytes / 16) :
    image.toMapping.Holds (add64 dynamic (16 * di)) 16 := by
  rw [inside.wrap (by omega)]
  exact inside.part (by omega) (by omega)

theorem dynamicRound_last (before : di < bytes / 16) {s : State}
    (last : loadWord s.memory (add64 dynamic (16 * di)) 8 = 0) :
    dynamicRound image dynamic di t s = .done (.leave t) s := by
  have tag : image.toMapping.Holds (add64 dynamic (16 * di)) 8 :=
    (dynamicEntry_holds inside before).part (by omega) (by omega)
  simp only [dynamicRound, bind_done (load_done tag s)]
  rw [if_pos last]
  rfl

/-- A round that is not the last adds its entry. -/
theorem dynamicRound_next (before : di < bytes / 16) {s : State}
    (more : loadWord s.memory (add64 dynamic (16 * di)) 8 ≠ 0) :
    ∃ s', s'.memory = s.memory ∧ dynamicRound image dynamic di t s = .done (.next (t.add image
      (loadWord s.memory (add64 dynamic (16 * di)) 8,
        loadWord s.memory (add64 dynamic (16 * di) + 8) 8))) s' := by
  have entry := dynamicEntry_holds inside before
  have tag : image.toMapping.Holds (add64 dynamic (16 * di)) 8 :=
    entry.part (by omega) (by omega)
  have value : image.toMapping.Holds (add64 dynamic (16 * di) + 8) 8 :=
    entry.part (by omega) (by omega)
  simp only [dynamicRound, bind_done (load_done tag s)]
  rw [if_neg more]
  cases kind : DynField.ofTag (loadWord s.memory (add64 dynamic (16 * di)) 8) with
  | none =>
    simp only [Tables.add, kind]
    exact ⟨s, rfl, pure_apply⟩
  | some field =>
    simp only [Tables.add, kind, bind_done (load_done value s)]
    cases pointer : field.isPointer with
    | false =>
      simp only [Bool.false_eq_true, if_false]
      exact ⟨s, rfl, pure_apply⟩
    | true =>
      simp only [if_true, bind_done (translate_done _ _ _)]
      refine ⟨_, ?_, pure_apply⟩
      rfl

/-- The walk over the dynamic table adds its entries in order. -/
theorem dynamicWalk_done (rounds di : Nat) (t : Tables) (s : State)
    (reaches : di + rounds = bytes / 16) :
    ∃ walked s', Program.upTo (dynamicRound image dynamic) rounds di t s = .done walked s' ∧
      s'.memory = s.memory ∧
      walkedTables walked =
        (dynamicEntries s.memory dynamic rounds di).foldl (Tables.add image) t := by
  induction rounds generalizing di t s with
  | zero => exact ⟨_, s, rfl, rfl, rfl⟩
  | succ rounds ih =>
    have before : di < bytes / 16 := by omega
    rw [Program.upTo, dynamicEntries]
    by_cases last : loadWord s.memory (add64 dynamic (16 * di)) 8 = 0
    · rw [bind_done (dynamicRound_last inside before last)]
      simp only [last, if_true, List.foldl_nil]
      exact ⟨.leave t, s, rfl, rfl, rfl⟩
    · obtain ⟨s', same, round⟩ := dynamicRound_next (t := t) inside before last
      rw [bind_done round]
      simp only [last, if_false, List.foldl_cons]
      obtain ⟨walked, t', run, kept, tables⟩ := ih (di + 1) _ s' (by omega)
      refine ⟨walked, t', run, kept.trans same, ?_⟩
      rw [tables, same]

end DynamicRound

theorem parseDynamic_safe : Safe (parseDynamic image phdrs) fun _ => True := by
  rw [parseDynamic]
  cases found : phdrs.find? (·.type = 2) with
  | none => exact abandon_safe _ _
  | some phdr =>
    apply Safe.bind Safe.modify
    intro _ _
    apply Safe.ite
    · exact fun _ => abandon_safe _ _
    · intro _
      apply Safe.ite
      · intro inside s _
        obtain ⟨walked, s', run, _⟩ := dynamicWalk_done (holds_of_regionInBounds inside)
          (phdr.filesz / 16) 0 { lib := { toMapping := image.toMapping } } s (Nat.zero_add _)
        rw [bind_done run]
        suffices Safe _ fun _ => True from this s' trivial
        apply Safe.ite
        · exact fun _ => Safe.ret trivial
        · exact fun _ => abandon_safe _ _
      · exact fun _ => abandon_safe _ _

theorem makeLibrary_safe : Safe (makeLibrary k image phdrs) fun _ => True :=
  Safe.ite (fun _ => parseDynamic_safe) fun _ => abandon_safe _ _

@[simp] theorem set_toMapping (t : Tables) (field : DynField) (value : Nat) :
    (t.set field value).lib.toMapping = t.lib.toMapping := by
  cases field <;> rfl

@[simp] theorem set_relaCount (t : Tables) (field : DynField) (value : Nat) :
    (t.set field value).lib.relaCount = t.lib.relaCount := by
  cases field <;> rfl

@[simp] theorem set_relaTotalSize (t : Tables) (field : DynField) (value : Nat) :
    (t.set field value).relaTotalSize = if field = .relasz then value else t.relaTotalSize := by
  cases field <;> rfl

@[simp] theorem set_relaEntrySize (t : Tables) (field : DynField) (value : Nat) :
    (t.set field value).relaEntrySize = if field = .relaent then value else t.relaEntrySize := by
  cases field <;> rfl

@[simp] theorem set_initArrayCount (t : Tables) (field : DynField) (value : Nat) :
    (t.set field value).lib.initArrayCount =
      if field = .initArraysz then value / 8 else t.lib.initArrayCount := by
  cases field <;> rfl

/-- What the entries of a dynamic table leave behind. -/
structure Parsed (image : Image) (entries : List (Nat × Nat)) (t : Tables) : Prop where
  mapping : t.lib.toMapping = image.toMapping
  uncounted : t.lib.relaCount = 0
  total : t.relaTotalSize = lastEntry .relasz entries
  entry : t.relaEntrySize = lastEntry .relaent entries
  constructors : t.lib.initArrayCount < 2 ^ 61

@[simp]
theorem lastEntry_concat (field : DynField) (entries : List (Nat × Nat)) (entry : Nat × Nat) :
    lastEntry field (entries ++ [entry]) =
      if DynField.ofTag entry.1 = some field then entry.2 else lastEntry field entries := by
  rw [lastEntry, List.foldl_append]
  rfl

theorem Parsed.add {entries : List (Nat × Nat)} {t : Tables} (h : Parsed image entries t)
    {entry : Nat × Nat} (word : entry.2 < 2 ^ 64) :
    Parsed image (entries ++ [entry]) (t.add image entry) := by
  cases kind : DynField.ofTag entry.1 with
  | none =>
    have same : t.add image entry = t := by rw [Tables.add, kind]
    rw [same]
    refine ⟨h.mapping, h.uncounted, ?_, ?_, h.constructors⟩
    · rw [lastEntry_concat, kind, h.total, if_neg nofun]
    · rw [lastEntry_concat, kind, h.entry, if_neg nofun]
  | some field =>
    have same : t.add image entry =
        t.set field (if field.isPointer then image.pointer entry.2 else entry.2) := by
      rw [Tables.add, kind]
    rw [same]
    refine ⟨by rw [set_toMapping, h.mapping], by rw [set_relaCount, h.uncounted], ?_, ?_, ?_⟩
    · rw [set_relaTotalSize, lastEntry_concat, kind, h.total]
      by_cases size : field = .relasz
      · subst size
        rfl
      · rw [if_neg size, if_neg fun other => size (Option.some.inj other)]
    · rw [set_relaEntrySize, lastEntry_concat, kind, h.entry]
      by_cases size : field = .relaent
      · subst size
        rfl
      · rw [if_neg size, if_neg fun other => size (Option.some.inj other)]
    · rw [set_initArrayCount]
      by_cases size : field = .initArraysz
      · subst size
        change entry.2 / 8 < 2 ^ 61
        omega
      · rw [if_neg size]
        exact h.constructors

theorem Parsed.fold {start rest : List (Nat × Nat)} {t : Tables} (h : Parsed image start t)
    (words : ∀ entry ∈ rest, entry.2 < 2 ^ 64) :
    Parsed image (start ++ rest) (rest.foldl (Tables.add image) t) := by
  induction rest generalizing start t with
  | nil => rwa [List.append_nil]
  | cons entry rest ih =>
    have next := h.add (words entry List.mem_cons_self)
    have := ih next fun other mem => words other (List.mem_cons_of_mem _ mem)
    rwa [List.append_assoc] at this

theorem dynamicEntries_word (memory : Memory) (dynamic rounds di : Nat) :
    ∀ entry ∈ dynamicEntries memory dynamic rounds di, entry.2 < 2 ^ 64 := by
  induction rounds generalizing di with
  | zero => exact fun _ none => nomatch none
  | succ rounds ih =>
    intro entry mem
    rw [dynamicEntries] at mem
    split at mem
    · cases mem
    · rcases List.mem_cons.mp mem with rfl | later
      · exact loadWord_lt _ _ 8
      · exact ih (di + 1) entry later

/-- The dynamic table that the first `PT_DYNAMIC` header points to. -/
def dynamicTable (image : Image) (phdrs : List Elf64Phdr) (memory : Memory) : List (Nat × Nat) :=
  match phdrs.find? (·.type = 2) with
  | none => []
  | some phdr => dynamicEntries memory (image.pointer phdr.vaddr) (phdr.filesz / 16) 0

/-- The number of relocation entries that a dynamic table announces. -/
def announcedRelocations (entries : List (Nat × Nat)) : Nat :=
  lastEntry .relasz entries / lastEntry .relaent entries

/-- What is known of a library that has passed the table checks. -/
theorem makeLibrary_facts (made : makeLibrary k image phdrs s = .done lib t) :
    tablesOk lib = true ∧ lib.toMapping = image.toMapping ∧ lib.initArrayCount < 2 ^ 61 ∧
      lib.relaCount = announcedRelocations (dynamicTable image phdrs s.memory) := by
  obtain ⟨ok, phdr, walked, s₁, found, inside, translated, walk, rfl⟩ := makeLibrary_done made
  have memory : s₁.memory = s.memory := by
    cases translated
    rfl
  obtain ⟨walked', t', run, _, tables⟩ := dynamicWalk_done (holds_of_regionInBounds inside)
    (phdr.filesz / 16) 0 { lib := { toMapping := image.toMapping } } s₁ (Nat.zero_add _)
  rw [walk] at run
  cases run
  have table : dynamicTable image phdrs s.memory =
      dynamicEntries s₁.memory (image.pointer phdr.vaddr) (phdr.filesz / 16) 0 := by
    rw [dynamicTable, found, memory]
  have start : Parsed image [] { lib := { toMapping := image.toMapping } } :=
    ⟨rfl, rfl, rfl, rfl, Nat.two_pow_pos 61⟩
  have parsed := start.fold
    (dynamicEntries_word s₁.memory (image.pointer phdr.vaddr) (phdr.filesz / 16) 0)
  rw [← tables, List.nil_append, ← table] at parsed
  refine ⟨ok, ?_, ?_, ?_⟩
  · rw [Tables.finish]
    split
    all_goals exact parsed.mapping
  · rw [Tables.finish]
    split
    all_goals exact parsed.constructors
  · rw [Tables.finish, announcedRelocations, ← parsed.total, ← parsed.entry]
    split
    · rfl
    · next absent =>
      rw [parsed.uncounted]
      by_cases empty : (walkedTables walked).relaEntrySize = 0
      · rw [empty, Nat.div_zero]
      · rw [show (walkedTables walked).relaTotalSize = 0 by omega, Nat.zero_div]

/-! ### Relocations -/

theorem relocSymbol_holds {symIdx symCount sym : Nat}
    (found : relocSymbol lib symIdx symCount = some sym) : lib.toMapping.Holds sym 24 := by
  unfold relocSymbol at found
  split at found
  · cases found
  · split at found
    · cases found
    · split at found
      · next inside =>
        cases found
        exact holds_of_regionInBounds inside
      · cases found

theorem load_safe {m : Mapping} {address count : Nat} (inside : m.Holds address count) :
    Safe (load m address count) fun _ => True :=
  (load_quiet inside).forget.safe

theorem relocate_safe {target v value : Nat} (inside : lib.toMapping.Holds target 8) :
    Safe (relocate lib target v value) fun _ => True := by
  apply Safe.bind Safe.modify
  intro _ _ s _
  rw [store_done (by rwa [length_wordBytes])]
  trivial

/-- An entry whose target and symbol are checked can only touch itself, the symbol
and the target. -/
theorem applyRelocation_safe {symCount rela target rInfo : Nat}
    (entry : lib.toMapping.Holds rela 24) (inside : lib.toMapping.Holds target 8) :
    Safe (applyRelocation arch lib symCount rela target rInfo) fun _ => True := by
  have addend := load_safe (entry.part (show rela ≤ rela + 16 by omega)
    (show rela + 16 + 8 ≤ rela + 24 by omega))
  rw [applyRelocation]
  cases arch.relocationKind (rInfo % 2 ^ 32) with
  | ignored => exact Safe.ret trivial
  | relative => exact Safe.bind addend fun _ _ => relocate_safe inside
  | symbol =>
    cases found : relocSymbol lib (rInfo / 2 ^ 32) symCount with
    | none =>
      simp only
      exact Safe.ret trivial
    | some sym =>
      simp only
      have symbol := relocSymbol_holds found
      apply Safe.bind (load_safe (symbol.part (by omega) (by omega)))
      intro _ _
      apply Safe.ite
      · intro _
        apply Safe.bind (load_safe (symbol.part (by omega) (by omega)))
        exact fun _ _ => Safe.bind addend fun _ _ => relocate_safe inside
      · exact fun _ => Safe.ret trivial

theorem relocationRound_safe {symCount i : Nat}
    (entry : lib.toMapping.Holds (add64 lib.rela (24 * i)) 24) :
    Safe (relocationRound arch lib symCount i ()) fun r =>
      r.Meets (fun _ => True) fun _ => True := by
  apply Safe.bind (load_safe (entry.part (by omega) (by omega)))
  intro rOffset _
  apply Safe.bind Safe.modify
  intro _ _
  apply Safe.bind (load_safe (entry.part (by omega) (by omega)))
  intro rInfo _
  apply Safe.ite
  · intro target
    apply Safe.bind (applyRelocation_safe entry (holds_of_regionInBounds target))
    exact fun _ _ => Safe.ret trivial
  · exact fun _ => Safe.ret trivial

/-- A table that really fits is relocated inside the mapping. -/
theorem processRelocations_safe
    (table : lib.toMapping.Holds lib.rela (lib.relaCount * 24)) :
    Safe (processRelocations fuel arch lib) fun _ => True := by
  apply Safe.bind (T := fun _ => True) (getSymbolCount_safe lib fuel)
  intro symCount _
  apply Safe.bind (Safe.upTo (I := fun _ => True) (T := fun _ => True) ?_ lib.relaCount 0 ()
    (Nat.zero_add _) trivial)
  · exact fun _ _ => Safe.ret trivial
  · intro i _ before _
    apply relocationRound_safe
    rw [table.wrap (by omega)]
    exact table.part (by omega) (by omega)

/-- The first two words of an entry are read in any case. -/
theorem relocationRound_cases (arch : Arch) (lib : LcLibrary) (symCount i : Nat) (s : State) :
    relocationRound arch lib symCount i () s = .fault ∨
      (lib.toMapping.Holds (add64 lib.rela (24 * i)) 8 ∧
        lib.toMapping.Holds (add64 lib.rela (24 * i) + 8) 8 ∧
        ∃ t, relocationRound arch lib symCount i () s = .done (.next ()) t) := by
  by_cases first : lib.toMapping.Holds (add64 lib.rela (24 * i)) 8
  · by_cases second : lib.toMapping.Holds (add64 lib.rela (24 * i) + 8) 8
    · have works : Works (Unbiased lib.base) (relocationRound arch lib symCount i ()) :=
        works_relocationRound
      cases works s with
      | inl faulted => exact .inl faulted
      | inr returned =>
        obtain ⟨r, t, run, -⟩ := returned
        cases r with
        | next => exact .inr ⟨first, second, t, run⟩
        | leave never => exact never.elim
    · refine .inl ?_
      rw [relocationRound, bind_done (load_done first s),
        bind_done (translate_done _ _ _)]
      exact Program.bind_fault (if_neg second)
  · exact .inl (Program.bind_fault (if_neg first))

/-- Entries that take up the whole address space leave the mapping at some point. -/
theorem relocations_fault {symCount : Nat} (low : lib.base ≤ lib.rela)
    (many : 2 ^ 64 ≤ lib.relaCount * 24) (rounds i : Nat) (s : State)
    (reaches : i + rounds = lib.relaCount)
    (near : lib.rela + 24 * i ≤ lib.base + lib.totalSize + 8) :
    Program.upTo (relocationRound arch lib symCount) rounds i () s = .fault := by
  have positive := lib.positive
  have aligned := lib.aligned
  have fits := lib.fits
  induction rounds generalizing i s with
  | zero => omega
  | succ rounds ih =>
    rw [Program.upTo]
    cases relocationRound_cases arch lib symCount i s with
    | inl faulted => exact Program.bind_fault faulted
    | inr inside =>
      obtain ⟨first, second, t, run⟩ := inside
      rw [bind_done run]
      apply ih (i + 1) t (by omega)
      -- Past the end of the address space an entry would lie below the mapping.
      have here : add64 lib.rela (24 * i) = lib.rela + 24 * i := by
        apply add64_of_lt
        by_contra past
        have := first.1
        have wrapped : add64 lib.rela (24 * i) = lib.rela + 24 * i - 2 ^ 64 := by
          unfold add64
          omega
        omega
      rw [here] at second
      have := second.2
      omega

/-! ### Protection and constructors -/

theorem protectMemory_safe {address size prot : Nat} :
    Safe (protectMemory k address size prot) fun _ => True :=
  fun _ _ => trivial

theorem protectSegments_safe (phdrs : List Elf64Phdr) :
    Safe (protectSegments k image phdrs) fun _ => True := by
  induction phdrs with
  | nil => exact Safe.ret trivial
  | cons phdr rest ih =>
    apply Safe.ite
    · exact fun _ => ih
    · intro _
      apply Safe.bind protectMemory_safe
      intro granted _
      apply Safe.ite
      · exact fun _ => ih
      · exact fun _ => abandon_safe _ _

theorem runConstructorArray_safe (ok : tablesOk lib = true) (few : lib.initArrayCount < 2 ^ 61) :
    Safe (runConstructorArray k lib) fun _ => True := by
  apply Safe.ite
  · intro present
    simp only [tablesOk, Bool.and_eq_true] at ok
    have array := tableOk_holds ok.1.2 present
    rw [mul64_of_lt (by omega)] at array
    apply Safe.bind (Safe.upTo (I := fun _ => True) (T := fun _ => True) ?_ lib.initArrayCount 0 ()
      (Nat.zero_add _) trivial)
    · exact fun _ _ => Safe.ret trivial
    · intro i _ before _
      apply Safe.bind (load_safe ?_)
      · intro function _
        apply Safe.ite
        · exact fun _ => Safe.bind Safe.modify fun _ _ => Safe.ret trivial
        · exact fun _ => Safe.ret trivial
      · rw [array.wrap (by omega)]
        exact array.part (by omega) (by omega)
  · exact fun _ => Safe.ret trivial

theorem runConstructors_safe (ok : tablesOk lib = true) (few : lib.initArrayCount < 2 ^ 61) :
    Safe (runConstructors k lib) fun _ => True :=
  Safe.ite (fun _ => Safe.bind Safe.modify fun _ _ => runConstructorArray_safe ok few)
    fun _ => runConstructorArray_safe ok few

/-! ### The load as a whole -/

/-- The relocation table of an accepted object, where there is one, announces no
more entries than fit in the address space, unless the symbol count in front of
the relocations does not come back. -/
def RelocationsFit (arch : Arch) (k : Kernel) (s : State) : Prop :=
  ∀ image phdrs s₁ lib s₂, loadImage arch k s = .done (image, phdrs) s₁ →
    makeLibrary k image phdrs s₁ = .done lib s₂ → lib.rela ≠ 0 →
      announcedRelocations (dynamicTable image phdrs s₁.memory) * 24 < 2 ^ 64 ∨
        ¬ CountEnds lib s₂

/-- The symbol count leaves the state alone and reports no errors. -/
theorem getSymbolCount_cases (fuel : Nat) (lib : LcLibrary) (s : State) :
    getSymbolCount fuel lib s = .outOfFuel ∨ ∃ n, getSymbolCount fuel lib s = .done n s := by
  have met := getSymbolCount_safe lib (P := (· = s)) (E := fun _ _ => False) fuel s rfl
  cases run : getSymbolCount fuel lib s with
  | done n t =>
    rw [run] at met
    exact .inr ⟨n, by rw [show t = s from met]⟩
  | failed e t =>
    rw [run] at met
    exact met.elim
  | fault =>
    rw [run] at met
    exact met.elim
  | outOfFuel => exact .inl rfl

/-- Only the relocations can leave the mapping once the tables are accepted. -/
theorem relocateLibrary_ne_fault (ok : tablesOk lib = true)
    (fits : lib.rela ≠ 0 → lib.relaCount * 24 < 2 ^ 64 ∨ ¬ CountEnds lib s) :
    relocateLibrary fuel arch lib s ≠ .fault := by
  intro faulted
  unfold relocateLibrary at faulted
  split at faulted
  · next entries =>
    cases Program.bind_eq_fault faulted with
    | inr later =>
      obtain ⟨done, t, _, faulted⟩ := later
      cases done with
      | true | false => cases faulted
    | inl faulted =>
      cases fits entries.1 with
      | inl few =>
        simp only [tablesOk, Bool.and_eq_true] at ok
        have table := tableOk_holds ok.1.1.2 entries.1
        rw [mul64_of_lt few] at table
        exact (processRelocations_safe table).not_fault trivial faulted
      | inr endless =>
        cases getSymbolCount_cases fuel lib s with
        | inl exhausted =>
          rw [processRelocations, Program.bind_outOfFuel exhausted] at faulted
          cases faulted
        | inr counted =>
          obtain ⟨n, counted⟩ := counted
          apply endless
          rw [← getSymbolCount_cameBack_iff]
          exact ⟨fuel, by rw [counted]; trivial⟩
  · cases faulted

/-- Too many entries are read past the end of the mapping. -/
theorem relocateLibrary_fault (arch : Arch) (ok : tablesOk lib = true) (present : lib.rela ≠ 0)
    (many : 2 ^ 64 ≤ lib.relaCount * 24) (ends : CountEnds lib s) :
    ∃ fuel, relocateLibrary fuel arch lib s = .fault := by
  obtain ⟨fuel, back⟩ := getSymbolCount_cameBack_iff.mpr ends
  refine ⟨fuel, ?_⟩
  cases getSymbolCount_cases fuel lib s with
  | inl exhausted =>
    rw [exhausted] at back
    exact back.elim
  | inr counted =>
    obtain ⟨n, counted⟩ := counted
    simp only [tablesOk, Bool.and_eq_true] at ok
    have table := tableOk_holds ok.1.1.2 present
    have low := table.1
    have high := table.2
    rw [relocateLibrary, if_pos ⟨present, by omega⟩]
    apply Program.bind_fault
    rw [processRelocations, bind_done counted]
    apply Program.bind_fault
    exact relocations_fault low many lib.relaCount 0 s (Nat.zero_add _) (by omega)

/-- For every file, every behaviour of the kernel and every address it maps the
object at: every load and store through a pointer of the file stays in the
mapping exactly if the announced relocations fit. -/
theorem load_stays_inside_iff (arch : Arch) (k : Kernel) (s : State) :
    (∀ fuel, lcLibraryOpen fuel arch k s ≠ .fault) ↔ RelocationsFit arch k s := by
  constructor
  · intro stays image phdrs s₁ lib s₂ loaded made present
    obtain ⟨ok, _, _, count⟩ := makeLibrary_facts made
    by_contra wraps
    obtain ⟨many, ends⟩ := not_or.mp wraps
    rw [← count] at many
    obtain ⟨fuel, faulted⟩ := relocateLibrary_fault arch ok present
      (Nat.le_of_not_lt many) (not_not.mp ends)
    apply stays fuel
    rw [lcLibraryOpen, bind_done loaded]
    change (makeLibrary k image phdrs >>= _) s₁ = _
    rw [bind_done made]
    exact Program.bind_fault faulted
  · intro fits fuel faulted
    cases Program.bind_eq_fault faulted with
    | inl faulted => exact loadImage_safe.not_fault trivial faulted
    | inr later =>
      obtain ⟨⟨image, phdrs⟩, s₁, loaded, faulted⟩ := later
      cases Program.bind_eq_fault faulted with
      | inl faulted => exact makeLibrary_safe.not_fault trivial faulted
      | inr later =>
        obtain ⟨lib, s₂, made, faulted⟩ := later
        obtain ⟨ok, _, few, count⟩ := makeLibrary_facts made
        have entries := fits image phdrs s₁ lib s₂ loaded made
        rw [← count] at entries
        cases Program.bind_eq_fault faulted with
        | inl faulted => exact relocateLibrary_ne_fault ok entries faulted
        | inr later =>
          obtain ⟨_, s₃, _, faulted⟩ := later
          suffices Safe _ fun _ => True from this.not_fault trivial faulted
          apply Safe.bind (protectSegments_safe phdrs)
          intro _ _
          apply Safe.bind Safe.modify
          intro _ _
          exact Safe.bind (runConstructors_safe ok few) fun _ _ => Safe.ret trivial

/-- A relocation table of 2^61 entries, the quotient of 2^61 bytes by an entry size
of one, at the very end of a one-page mapping. -/
def wrappingObject : Kernel :=
  obliging (objectFile 0 [(7, 4096), (8, 2 ^ 61), (9, 1), (0, 0)] [])

/-- The product 24 * 2^61 is zero in 64 bits, so the table passes the check, and the
first entry is read behind the mapping. -/
theorem wrapping_object_leaves_mapping :
    ∃ fuel, lcLibraryOpen fuel .x86_64 wrappingObject .fresh = .fault :=
  ⟨0, Outcome.eq_fault_of_isFault (by decide +kernel)⟩

/-! ### Lookups -/

/-- For every library the loader has returned, whatever has become of memory since,
every name and every number of rounds: neither the lookup nor the symbol count
reads outside the mapping or divides by zero. -/
theorem lookup_stays_inside {after : State}
    (opened : lcLibraryOpen fuel arch k t = .done lib after) (s : State) (name : List UInt8)
    (rounds : Nat) :
    lcLibraryFindSymbol rounds lib name s ≠ .fault ∧ getSymbolCount rounds lib s ≠ .fault := by
  constructor
  · exact (lcLibraryFindSymbol_safe (opened_strings opened) rounds).not_fault trivial
  · exact (getSymbolCount_safe lib (P := fun _ => True)
      (E := fun _ _ => True) rounds).not_fault trivial

/-- An object whose chain word points to itself is loaded, and not even the lookup
that does not come back reads outside. -/
theorem lookup_stays_inside_endless : ∃ lib after,
    lcLibraryOpen 0 .x86_64 (chainedObject 1) .fresh = .done lib after ∧
      lcLibraryFindSymbol 100 lib [97] after ≠ .fault ∧ getSymbolCount 100 lib after ≠ .fault := by
  have loads : (lcLibraryOpen 0 .x86_64 (chainedObject 1) .fresh).returns (fun _ _ => true) =
      true := by decide +kernel
  obtain ⟨lib, after, opened, _⟩ := Outcome.returns_eq_true loads
  exact ⟨lib, after, opened, lookup_stays_inside opened after [97] 100⟩

end Lightc.Library
