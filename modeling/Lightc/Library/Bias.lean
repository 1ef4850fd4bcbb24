import Lightc.Library.Bounds

/-!
# The load bias

A virtual address `v` of the file belongs at `base + v - min_vaddr`. The segment
copies and the pointers of the dynamic table are placed there. Relocation
targets, the values stored by relocations and the addresses of symbols are
formed as `base + v`. The two agree exactly if the lowest page of the object is
page zero.

While it loads, the state records every address that is made from a virtual
address, and the stages are described by what they add to that record.
-/

namespace Lightc.Library

open Machine Verification

variable {arch : Arch} {k : Kernel} {image : Image} {phdrs : List Elf64Phdr} {lib : LcLibrary}
variable {fuel : Nat} {s t : State}

/-- The two are the same address only for an object that starts at page zero. -/
theorem biased_iff_of_unbiased {entry : Nat × Nat} (h : Unbiased image.base entry) :
    Biased image entry ↔ image.minVaddr = 0 := by
  have word := image.word
  unfold Biased Unbiased Image.pointer add64 sub64 at *
  rw [h]
  omega

theorem unbiased_sum (base v : Nat) : Unbiased base (v, add64 base v) := rfl

/-- The order in which `offset_in_map` and the base are combined does not matter. -/
theorem biased_offset (v : Nat) :
    Biased image (v, add64 image.base (sub64 v image.minVaddr)) := by
  have word := image.word
  unfold Biased Image.pointer add64 sub64
  dsimp only
  omega

/-! ### What the stages record -/

variable {A : Nat × Nat → Prop}

/-- A program that records entries in `A` only. -/
abbrev Logs {α : Type} (A : Nat × Nat → Prop) (c : Program Error State α) : Prop :=
  Along (Records A) c

theorem logs_ret {α : Type} {a : α} : Logs A (pure a) := Along.ret fun _ => .of_eq rfl

theorem logs_bind {α β : Type} {c : Program Error State α} {f : α → Program Error State β}
    (first : Logs A c) (second : ∀ a, Logs A (f a)) : Logs A (c >>= f) :=
  Along.bind Records.trans first second

theorem logs_abandon {α : Type} {calls : List Call} {e : Error} :
    Logs A (abandon calls e : Program Error State α) :=
  fun _ _ _ run => absurd run abandon_ne_done

theorem Works.logs {α : Type} {c : Program Error State α} (h : Works A c) : Logs A c :=
  fun s a t run => (h.along s a t run).records

theorem logs_readHeaders : Logs A (readHeaders arch k) := by
  apply Along.ite
  · intro _
    apply logs_bind (works_readBuffer 64).logs
    intro arrived
    cases arrived with
    | none => exact logs_abandon
    | some bytes =>
      cases valid : validateElfHeader arch (Elf64Ehdr.ofBytes bytes) with
      | some e =>
        simp only [valid]
        exact logs_abandon
      | none =>
        simp only [valid]
        apply Along.ite
        · intro _
          apply logs_bind works_seekPosition.logs
          intro found
          apply Along.ite
          · intro _
            apply logs_bind (works_readBuffer _).logs
            intro arrived
            cases arrived with
            | none => exact logs_abandon
            | some _ => exact logs_ret
          · exact fun _ => logs_abandon
        · exact fun _ => logs_abandon
  · exact fun _ => Along.fail

theorem logs_mapImage {span : Span} : Logs A (mapImage k span) := by
  unfold mapImage
  split
  · exact logs_abandon
  · exact logs_bind (Along.modify fun _ => .of_eq rfl) fun _ => logs_ret

theorem logs_copySegment (phdr : Elf64Phdr) : Logs (Biased image) (copySegment k image phdr) := by
  apply Along.ite
  · exact fun _ => logs_ret
  · intro _
    apply Along.ite
    · exact fun _ => logs_ret
    · intro _
      apply Along.ite
      · exact fun _ => logs_abandon
      · intro _
        apply logs_bind works_seekPosition.logs
        intro found
        apply Along.ite
        · intro _
          apply logs_bind (works_translate (biased_offset _)).logs
          intro _
          apply logs_bind (works_readAll (fun _ _ => works_store) _ _ _).logs
          intro arrived
          cases arrived with
          | none => exact logs_abandon
          | some _ => exact logs_ret
        · exact fun _ => logs_abandon

theorem logs_copySegments (phdrs : List Elf64Phdr) :
    Logs (Biased image) (copySegments k image phdrs) := by
  induction phdrs with
  | nil => exact logs_ret
  | cons phdr rest ih => exact logs_bind (logs_copySegment phdr) fun _ => ih

/-- Steps 1 to 6 record the segment copies. -/
theorem records_loadImage (loaded : loadImage arch k s = .done (image, phdrs) t) :
    Records (Biased image) s t := by
  obtain ⟨span, s₁, s₂, s₃, headers, -, mapped, copied, rfl⟩ := loadImage_stages loaded
  have first := logs_readHeaders (A := Biased image) _ _ _ headers
  have second := logs_mapImage (A := Biased image) _ _ _ mapped
  have third := logs_copySegments _ _ _ _ copied
  exact (first.trans _ _ _ second).trans _ _ _ (third.trans _ _ _ (.of_eq rfl))

/-- Steps 7 and 8 record the pointers of the dynamic table. -/
theorem records_makeLibrary (made : makeLibrary k image phdrs s = .done lib t) :
    Records (Biased image) s t := by
  obtain ⟨_, phdr, walked, s₁, _, _, translated, walk, _⟩ := makeLibrary_done made
  have pointer : Biased image (phdr.vaddr, image.pointer phdr.vaddr) := rfl
  have first := (works_translate pointer).logs _ _ _ translated
  exact first.trans _ _ _
    (Works.logs (works_upTo (fun _ _ => works_dynamicRound) _ _ _) _ _ _ walk)

/-- A relocation entry records its target first. -/
theorem relocationRound_records {symCount i : Nat} {r : Step Unit Empty}
    (run : relocationRound arch lib symCount i () s = .done r t) :
    ∃ entry ∈ t.translated, Unbiased lib.base entry := by
  obtain ⟨rOffset, s₁, loaded, run⟩ := Program.bind_eq_done run
  obtain ⟨_, s₂, recorded, run⟩ := Program.bind_eq_done run
  cases recorded
  obtain ⟨new, grown, _⟩ := works_relocationAt.logs _ _ _ run
  refine ⟨(rOffset, add64 lib.base rOffset), ?_, rfl⟩
  rw [grown]
  exact List.mem_append_right _ List.mem_cons_self

theorem mem_of_records {entry : Nat × Nat} (h : Records A s t) (mem : entry ∈ s.translated) :
    entry ∈ t.translated := by
  obtain ⟨new, grown, _⟩ := h
  rw [grown]
  exact List.mem_append_right _ mem

/-- From step 9 on, addresses are recorded without the bias only: at least one if
there is a relocation entry, and otherwise none. -/
structure Relocated (lib : LcLibrary) (s t : State) : Prop where
  records : Records (Unbiased lib.base) s t
  some : lib.rela ≠ 0 → lib.relaCount ≠ 0 → ∃ entry ∈ t.translated, Unbiased lib.base entry
  none : lib.rela = 0 ∨ lib.relaCount = 0 → t.translated = s.translated

theorem relocated_relocateLibrary (run : relocateLibrary fuel arch lib s = .done () t) :
    Relocated lib s t := by
  unfold relocateLibrary at run
  split at run
  · next entries =>
    obtain ⟨done, s₁, processed, run⟩ := Program.bind_eq_done run
    obtain ⟨symCount, s₂, counted, processed⟩ := Program.bind_eq_done processed
    obtain ⟨_, s₃, rounds, processed⟩ := Program.bind_eq_done processed
    cases processed
    cases run
    have counting : s₂ = s := by
      cases getSymbolCount_cases fuel lib s with
      | inl exhausted =>
        rw [exhausted] at counted
        cases counted
      | inr returned =>
        obtain ⟨n, returned⟩ := returned
        rw [returned] at counted
        cases counted
        rfl
    subst counting
    have loop : ∀ n i, Logs (Unbiased lib.base)
        (Program.upTo (relocationRound arch lib symCount) n i ()) := fun n i =>
      (works_upTo (fun _ _ => works_relocationRound) n i ()).logs
    have absent : ¬ (lib.rela = 0 ∨ lib.relaCount = 0) := fun none =>
      none.elim entries.1 (Nat.ne_of_gt entries.2)
    refine ⟨loop _ _ _ _ _ rounds, fun _ _ => ?_, fun none => absurd none absent⟩
    obtain ⟨rest, same⟩ := Nat.exists_eq_succ_of_ne_zero (Nat.ne_of_gt entries.2)
    rw [same, Program.upTo] at rounds
    obtain ⟨r, s₄, first, rounds⟩ := Program.bind_eq_done rounds
    obtain ⟨entry, mem, unbiased⟩ := relocationRound_records first
    cases r with
    | next => exact ⟨entry, mem_of_records (loop _ _ _ _ _ rounds) mem, unbiased⟩
    | leave never => exact never.elim
  · next none =>
    cases run
    exact ⟨.of_eq rfl, fun present some => absurd ⟨present, Nat.pos_of_ne_zero some⟩ none,
      fun _ => rfl⟩

theorem logs_protectSegments (phdrs : List Elf64Phdr) :
    Logs A (protectSegments k image phdrs) := by
  induction phdrs with
  | nil => exact logs_ret
  | cons phdr rest ih =>
    apply Along.ite
    · exact fun _ => ih
    · intro _
      apply logs_bind works_protectMemory.logs
      intro granted
      apply Along.ite
      · exact fun _ => ih
      · exact fun _ => logs_abandon

/-- Steps 10 and 11 record nothing. -/
theorem relocated_finishLibrary {lib' : LcLibrary}
    (run : finishLibrary fuel arch k image phdrs lib s = .done lib' t) : Relocated lib s t := by
  obtain ⟨_, s₁, relocated, run⟩ := Program.bind_eq_done run
  have silent : Records (fun _ => False) s₁ t := by
    refine logs_bind (logs_protectSegments phdrs) (fun _ => ?_) _ _ _ run
    exact logs_bind (Along.modify fun _ => .of_eq rfl) fun _ =>
      logs_bind works_runConstructors.logs fun _ => logs_ret
  obtain ⟨new, grown, nothing⟩ := silent
  have same : t.translated = s₁.translated := by
    rw [grown, List.eq_nil_iff_forall_not_mem.mpr nothing, List.nil_append]
  obtain ⟨records, some, none⟩ := relocated_relocateLibrary relocated
  refine ⟨records.trans _ _ _ (.of_eq same), ?_, fun absent => same.trans (none absent)⟩
  rw [same]
  exact some

/-! ### Addresses of symbols -/

/-- The search behind `lc_library_find_symbol`. -/
def search (rounds : Nat) (lib : LcLibrary) (name : List UInt8) :
    Program Error State (Option Nat) :=
  if lib.gnuHash ≠ 0 then gnuSearch rounds lib name
  else if lib.elfHash ≠ 0 then elfSearch rounds lib name
  else linearSearch rounds lib name

theorem findSymbol_eq (rounds : Nat) (lib : LcLibrary) (name : List UInt8) :
    findSymbol rounds lib name = (search rounds lib name >>= symbolAddress lib) := by
  unfold findSymbol search
  split
  · rfl
  · split
    · rfl
    · rfl

theorem search_safe (strings : StringsInside lib) (rounds : Nat) (name : List UInt8)
    {P : State → Prop} {E : Error → State → Prop} :
    Triple P (search rounds lib name) (Finds lib P) E := by
  apply Triple.ite
  · exact fun _ => gnuSearch_safe strings rounds
  · intro _
    apply Triple.ite
    · exact fun _ => elfSearch_safe strings rounds
    · exact fun _ => linearSearch_safe strings rounds

/-- `st_value` of the entry at `sym`. -/
def stValue (s : State) (sym : Nat) : Nat := loadWord s.memory (sym + 8) 8

/-- Some name leads a search to a symbol whose address is not null. -/
def Offers (lib : LcLibrary) (s : State) : Prop :=
  lib.symtab ≠ 0 ∧ lib.strtab ≠ 0 ∧ ∃ rounds name sym t,
    search rounds lib name s = .done (some sym) t ∧ add64 lib.base (stValue s sym) ≠ 0

theorem symbolAddress_done {sym : Nat} (inside : lib.toMapping.Holds sym 24) (s : State) :
    symbolAddress lib (some sym) s = .done (add64 lib.base (stValue s sym)) s := by
  have value : lib.toMapping.Holds (sym + 8) 8 := inside.part (by omega) (by omega)
  rw [symbolAddress, Program.bind_done (load_done value s)]
  rfl

/-- A lookup returns `base + st_value` of what its search found. -/
theorem lcLibraryFindSymbol_done (strings : lib.strtab ≠ 0 → StringsInside lib) {rounds : Nat}
    {name : List UInt8} {address : Nat} :
    (∃ t, lcLibraryFindSymbol rounds lib name s = .done address t) ↔
      lib.symtab ≠ 0 ∧ lib.strtab ≠ 0 ∧ address ≠ 0 ∧ ∃ sym t,
        search rounds lib name s = .done (some sym) t ∧
          address = add64 lib.base (stValue s sym) := by
  by_cases absent : lib.symtab = 0 ∨ lib.strtab = 0
  · apply iff_of_false
    · rintro ⟨t, run⟩
      rw [lcLibraryFindSymbol, if_pos absent] at run
      cases run
    · rintro ⟨symtab, strtab, _⟩
      exact absent.elim symtab strtab
  · obtain ⟨symtab, strtab⟩ := not_or.mp absent
    rw [lcLibraryFindSymbol, if_neg absent, findSymbol_eq]
    have safe := search_safe (strings strtab) rounds name (P := (· = s)) (E := fun _ _ => False)
    constructor
    · rintro ⟨t, run⟩
      obtain ⟨sym, s₁, found, ended⟩ := Program.bind_eq_done run
      obtain ⟨entry, s₂, searched, formed⟩ := Program.bind_eq_done found
      obtain ⟨rfl, inside⟩ := safe.of_done rfl searched
      split at ended
      · cases ended
      · next nonnull =>
        cases ended
        cases entry with
        | none =>
          cases formed
          exact absurd rfl nonnull
        | some entry =>
          rw [symbolAddress_done (inside entry rfl)] at formed
          cases formed
          exact ⟨symtab, strtab, nonnull, entry, _, searched, rfl⟩
    · rintro ⟨_, _, nonnull, sym, t, searched, rfl⟩
      obtain ⟨rfl, inside⟩ := safe.of_done rfl searched
      have formed := symbolAddress_done (inside sym rfl) t
      refine ⟨t, ?_⟩
      rw [Program.bind_done ((Program.bind_done searched).trans formed), if_neg nonnull]
      rfl

/-! ### One bias -/

/-- Every virtual address of the file has become `base + v - min_vaddr`: those the
load has translated, and the value of every symbol that a lookup returns. -/
def OneBias (image : Image) (lib : LcLibrary) (s : State) : Prop :=
  (∀ entry ∈ s.translated, Biased image entry) ∧
    ∀ rounds name sym t address t', search rounds lib name s = .done (some sym) t →
      lcLibraryFindSymbol rounds lib name s = .done address t' →
        address = image.pointer (stValue s sym)

/-- For every object the loader accepts: one bias is used everywhere exactly if the
object starts at page zero, or has neither a relocation entry nor a symbol to
offer, so that nothing but segments and tables is ever translated. -/
theorem one_bias_iff {start s₁ after : State} (fresh : start.translated = [])
    (loaded : loadImage arch k start = .done (image, phdrs) s₁)
    (opened : lcLibraryOpen fuel arch k start = .done lib after) :
    OneBias image lib after ↔
      image.minVaddr = 0 ∨
        ((lib.rela = 0 ∨ announcedRelocations (dynamicTable image phdrs s₁.memory) = 0) ∧
          ¬ Offers lib after) := by
  have strings := opened_strings opened
  obtain ⟨image', phdrs', s₁', s₂, loaded', made, finished⟩ := opened_stages opened
  rw [loaded] at loaded'
  cases loaded'
  obtain ⟨_, mapping, _, count⟩ := makeLibrary_facts made
  have base : lib.base = image.base := congrArg Mapping.base mapping
  rw [← count]
  -- The record is biased up to step 8 and unbiased from then on.
  have before : ∀ entry ∈ s₂.translated, Biased image entry := by
    obtain ⟨new, grown, biased⟩ :=
      (records_loadImage loaded).trans _ _ _ (records_makeLibrary made)
    rw [grown, fresh, List.append_nil]
    exact biased
  obtain ⟨⟨new, grown, unbiased⟩, first, nothing⟩ := relocated_finishLibrary finished
  rw [base] at unbiased first
  constructor
  · rintro ⟨recorded, returned⟩
    by_contra neither
    obtain ⟨nonzero, other⟩ := not_or.mp neither
    apply other
    constructor
    · by_contra relocations
      obtain ⟨present, some⟩ := not_or.mp relocations
      obtain ⟨entry, mem, plain⟩ := first present some
      exact nonzero ((biased_iff_of_unbiased plain).mp (recorded entry mem))
    · rintro ⟨symtab, strtab, rounds, name, sym, t, found, nonnull⟩
      obtain ⟨t', run⟩ := (lcLibraryFindSymbol_done strings).mpr
        ⟨symtab, strtab, nonnull, sym, t, found, rfl⟩
      have biased : Biased image (stValue after sym, add64 lib.base (stValue after sym)) :=
        returned rounds name sym t _ t' found run
      rw [base] at biased
      exact nonzero ((biased_iff_of_unbiased (unbiased_sum _ _)).mp biased)
  · intro condition
    constructor
    · intro entry mem
      cases condition with
      | inr neither =>
        rw [nothing neither.1] at mem
        exact before entry mem
      | inl zero =>
        rw [grown] at mem
        cases List.mem_append.mp mem with
        | inr earlier => exact before entry earlier
        | inl recent => exact (biased_iff_of_unbiased (unbiased entry recent)).mpr zero
    · intro rounds name sym t address t' found run
      obtain ⟨symtab, strtab, nonnull, sym', u, found', rfl⟩ :=
        (lcLibraryFindSymbol_done strings).mp ⟨t', run⟩
      rw [found] at found'
      cases found'
      cases condition with
      | inl zero =>
        rw [base]
        exact (biased_iff_of_unbiased (unbiased_sum image.base (stValue after sym))).mpr zero
      | inr neither =>
        exact absurd ⟨symtab, strtab, rounds, name, sym, t, found, nonnull⟩ neither.2

/-- An object whose only segment is the page at `lowest`. It has an ELF hash table,
the symbol `f` at `lowest + 512`, and a relative relocation of the word at
`lowest + 1024` to that symbol. -/
def shiftedObject (lowest : Nat) : Kernel :=
  obliging (objectFile lowest
    [(4, lowest + 304), (6, lowest + 328), (7, lowest + 376), (8, 24), (9, 24),
      (5, lowest + 400), (10, 3), (0, 0)]
    ((wordBytes 4 1 ++ wordBytes 4 2 ++ wordBytes 4 1 ++ wordBytes 12 0) ++
      (wordBytes 24 0 ++ wordBytes 4 1 ++ wordBytes 2 0x12 ++ wordBytes 2 1 ++
        wordBytes 8 (lowest + 512) ++ wordBytes 8 0) ++
      (wordBytes 8 (lowest + 1024) ++ wordBytes 8 8 ++ wordBytes 8 (lowest + 512)) ++ [0, 102, 0]))

/-- What a concrete load is inspected for. -/
private def inspect (lowest : Nat) (check : Image → LcLibrary → State → Bool) : Bool :=
  (loadImage .x86_64 (shiftedObject lowest) .fresh).returns fun loaded _ =>
    (lcLibraryOpen 0 .x86_64 (shiftedObject lowest) .fresh).returns fun lib after =>
      check loaded.1 lib after

private theorem exists_of_inspect {lowest : Nat} {check : Image → LcLibrary → State → Bool}
    (h : inspect lowest check = true) : ∃ image phdrs s₁ lib after,
      loadImage .x86_64 (shiftedObject lowest) .fresh = .done (image, phdrs) s₁ ∧
        lcLibraryOpen 0 .x86_64 (shiftedObject lowest) .fresh = .done lib after ∧
        check image lib after = true := by
  obtain ⟨⟨image, phdrs⟩, s₁, loaded, rest⟩ := Outcome.returns_eq_true h
  obtain ⟨lib, after, opened, checked⟩ := Outcome.returns_eq_true rest
  exact ⟨image, phdrs, s₁, lib, after, loaded, opened, checked⟩

/-- At page zero the object is loaded with one bias. -/
theorem one_bias_iff_page_zero : ∃ image phdrs s₁ lib after,
    loadImage .x86_64 (shiftedObject 0) .fresh = .done (image, phdrs) s₁ ∧
      lcLibraryOpen 0 .x86_64 (shiftedObject 0) .fresh = .done lib after ∧
      OneBias image lib after := by
  have loads : inspect 0 (fun image _ _ => image.minVaddr == 0) = true := by decide +kernel
  obtain ⟨image, phdrs, s₁, lib, after, loaded, opened, lowest⟩ := exists_of_inspect loads
  exact ⟨image, phdrs, s₁, lib, after, loaded, opened,
    (one_bias_iff rfl loaded opened).mpr (.inl (beq_iff_eq.mp lowest))⟩

/-- At page one it is not. The object takes up the page at 2^46, the word at 5120 of
the file belongs at 2^46 + 1024 and the symbol at 4608 at 2^46 + 512, but the
relocation aims at 2^46 + 5120 and the lookup of `f` returns 2^46 + 4608, both
behind the mapping. -/
theorem shifted_object_two_biases : ∃ image phdrs s₁ lib after,
    loadImage .x86_64 (shiftedObject 4096) .fresh = .done (image, phdrs) s₁ ∧
      lcLibraryOpen 0 .x86_64 (shiftedObject 4096) .fresh = .done lib after ∧
      image.base = 2 ^ 46 ∧ image.totalSize = 4096 ∧ image.minVaddr = 4096 ∧
      (5120, 2 ^ 46 + 5120) ∈ after.translated ∧
      (∃ t, lcLibraryFindSymbol 2 lib [102] after = .done (2 ^ 46 + 4608) t) ∧
      ¬ OneBias image lib after := by
  have loads : inspect 4096 (fun image lib after =>
      image.base == 2 ^ 46 && image.totalSize == 4096 && image.minVaddr == 4096 &&
        after.translated.contains (5120, 2 ^ 46 + 5120) &&
        (lcLibraryFindSymbol 2 lib [102] after).returns fun address _ =>
          address == 2 ^ 46 + 4608) = true := by decide +kernel
  obtain ⟨image, phdrs, s₁, lib, after, loaded, opened, facts⟩ := exists_of_inspect loads
  simp only [Bool.and_eq_true, beq_iff_eq, List.contains_iff_mem] at facts
  obtain ⟨⟨⟨⟨base, size⟩, lowest⟩, target⟩, lookup⟩ := facts
  obtain ⟨address, t, run, same⟩ := Outcome.returns_eq_true lookup
  rw [beq_iff_eq.mp same] at run
  refine ⟨image, phdrs, s₁, lib, after, loaded, opened, base, size, lowest, target, ⟨t, run⟩, ?_⟩
  intro one
  have biased := one.1 _ target
  have plain : Unbiased image.base (5120, 2 ^ 46 + 5120) := by
    rw [base]
    rfl
  rw [biased_iff_of_unbiased plain, lowest] at biased
  cases biased

end Lightc.Library
