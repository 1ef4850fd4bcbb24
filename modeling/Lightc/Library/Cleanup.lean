import Lightc.Library.Bounds
import Lightc.Verification.Total

/-!
# What the loader gives back

A load asks for a descriptor, a buffer for the program headers, a mapping and the
library structure, in that order, and each of its exits gives back by hand what has
been granted by then. `acquired` is what was granted, read off the stages that the load
went through; `State.released` is what it gave back. After an error the two agree, entry
by entry. After a success the mapping and the structure are left, and `lc_library_close`
gives back these.
-/

namespace Lightc.Library

open Machine Verification
open scoped List

/-! ### What was granted -/

/-- The load came as far as the program headers, and there was room for them. -/
def headersGranted (arch : Arch) (k : Kernel) (s : State) : Bool :=
  match readAll k (fun _ _ => pure ()) 64 [] 64 s with
  | .done (some buffer) _ =>
    (validateElfHeader arch (Elf64Ehdr.ofBytes buffer)).isNone && k.allocatesHeaders
  | _ => false

/-- Steps 1 to 3. -/
def acquiredReading (arch : Arch) (k : Kernel) (s : State) : List Resource :=
  if k.opens then
    if headersGranted arch k s then [.file, .headers] else [.file]
  else []

/-- Step 5. -/
def acquiredMapping (arch : Arch) (k : Kernel) (s : State) : List Resource :=
  match readHeaders arch k s with
  | .done phdrs _ =>
    match loadSpan phdrs with
    | .ok span => ((k.mapMemory span.totalSize).map (.mapping · span.totalSize)).toList
    | .error _ => []
  | _ => []

/-- Step 7. -/
def acquiredLibrary (arch : Arch) (k : Kernel) (s : State) : List Resource :=
  match loadImage arch k s with
  | .done _ _ => if k.allocatesLibrary then [.library] else []
  | _ => []

/-- What the kernel and the allocator have granted in the course of a load. -/
def acquired (arch : Arch) (k : Kernel) (s : State) : List Resource :=
  acquiredReading arch k s ++ acquiredMapping arch k s ++ acquiredLibrary arch k s

/-! ### Closing -/

/-- One round over `fini_array`, from its end. -/
def destructorRound (k : Kernel) (lib : LcLibrary) (i : Nat) (_ : Unit) :
    Program Error State (Step Unit Empty) := do
  let function ← load lib.toMapping (add64 lib.finiArray (8 * (lib.finiArrayCount - i - 1))) 8
  if function ≠ 0 then do
    runFunction k function
    pure (.next ())
  else pure (.next ())

def runDestructorArray (k : Kernel) (lib : LcLibrary) : Program Error State Unit :=
  if lib.finiArray ≠ 0 then do
    let _ ← Program.upTo (destructorRound k lib) lib.finiArrayCount 0 ()
    pure ()
  else pure ()

def runDestructors (k : Kernel) (lib : LcLibrary) : Program Error State Unit := do
  runDestructorArray k lib
  if lib.finiFunc ≠ 0 then runFunction k lib.finiFunc else pure ()

/-- `lc_library_close`; `none` is `NULL`. -/
def lcLibraryClose (k : Kernel) : Option LcLibrary → Program Error State Unit
  | none => pure ()
  | some lib => do
    runDestructors k lib
    if lib.base ≠ 0 ∧ lib.totalSize > 0 then call (.unmapMemory lib.base lib.totalSize)
    else pure ()
    call .freeLibrary

variable {arch : Arch} {k : Kernel} {image : Image} {phdrs : List Elf64Phdr} {lib : LcLibrary}
variable {fuel : Nat} {s t : State}

/-! ### Parts that give nothing back -/

theorem getSymbolCount_keeps : Keeps State.released (getSymbolCount fuel lib) := by
  intro s
  cases getSymbolCount_cases fuel lib s with
  | inl endless =>
    rw [endless]
    trivial
  | inr counted =>
    obtain ⟨n, run⟩ := counted
    rw [run]
    rfl

/-- `process_relocations` never reports the failure that its caller is prepared for. -/
theorem processRelocations_leaves :
    (processRelocations fuel arch lib s).Leaves
      (fun result t => result = true ∧ t.released = s.released) fun _ _ => False := by
  apply getSymbolCount_keeps.andThen
  intro symCount s₁ _ counted
  apply (works_upTo (fun _ _ => works_relocationRound) lib.relaCount 0 ()).keeps.andThen
  intro _ s₂ _ relocated
  exact ⟨rfl, relocated.trans counted⟩

theorem relocateLibrary_keeps : Keeps State.released (relocateLibrary fuel arch lib) := by
  intro s
  refine .ite (fun _ => ?_) fun _ => rfl
  apply processRelocations_leaves.bind
  rintro result t - ⟨rfl, same⟩
  exact same

/-! ### The exits -/

theorem abandon_leaves {α : Type} {calls : List Call} {e : Error} {Q : α → State → Prop} :
    (abandon calls e s).Leaves Q
      fun _ t => t.released = (calls.filterMap Call.releases).reverse ++ s.released := by
  show (calls.reverse ++ s.calls).filterMap Call.releases = _
  rw [List.filterMap_append, List.filterMap_reverse]
  rfl

theorem readProgramHeaders_leaves (ehdr : Elf64Ehdr) :
    (readProgramHeaders k ehdr s).Leaves
      (fun _ t => t.released = s.released ∧ k.allocatesHeaders = true)
      fun _ t => t.released =
        (if k.allocatesHeaders then [.file, .headers] else [.file]) ++ s.released := by
  rw [readProgramHeaders]
  by_cases granted : k.allocatesHeaders = true
  · rw [if_pos granted, if_pos granted]
    apply (works_seekPosition (A := fun _ => True)).keeps.andThen
    intro found s₁ _ sought
    rw [← sought]
    cases found with
    | false => exact abandon_leaves
    | true =>
      apply (works_readBuffer (A := fun _ => True) _).keeps.andThen
      intro buffer s₂ _ arrived
      rw [← arrived]
      cases buffer with
      | none => exact abandon_leaves
      | some buffer => exact ⟨rfl, granted⟩
  · rw [if_neg granted, if_neg granted]
    exact abandon_leaves

theorem acquiredReading_eq (arch : Arch) {buffer : Option (List UInt8)} (opens : k.opens = true)
    (run : readAll k (fun _ _ => pure ()) 64 [] 64 s = .done buffer t) :
    acquiredReading arch k s =
      if buffer.any (fun bytes => (validateElfHeader arch (.ofBytes bytes)).isNone) ∧
        k.allocatesHeaders then [.file, .headers] else [.file] := by
  rw [acquiredReading, if_pos opens, headersGranted, run]
  cases buffer with
  | none => rfl
  | some bytes => simp only [Option.any_some, Bool.and_eq_true]

/-- Up to the program headers. -/
theorem readHeaders_leaves :
    (readHeaders arch k s).Leaves
      (fun _ t => t.released = s.released ∧ acquiredReading arch k s = [.file, .headers])
      fun _ t => t.released = acquiredReading arch k s ++ s.released := by
  rw [readHeaders]
  by_cases opens : k.opens = true
  · rw [if_pos opens]
    apply (works_readBuffer (A := fun _ => True) 64).keeps.andThen
    intro buffer s₁ run arrived
    have acquired := acquiredReading_eq arch opens run
    rw [← arrived]
    cases buffer with
    | none =>
      rw [acquired]
      exact abandon_leaves
    | some buffer =>
      rw [Option.any_some] at acquired
      dsimp only
      cases valid : validateElfHeader arch (Elf64Ehdr.ofBytes buffer) with
      | some e =>
        rw [valid, if_neg fun both => Bool.noConfusion both.1] at acquired
        rw [acquired]
        exact abandon_leaves
      | none =>
        rw [valid] at acquired
        simp only [Option.isNone_none, true_and] at acquired
        rw [acquired]
        refine (readProgramHeaders_leaves _).mono (fun phdrs t read => ?_) fun _ _ => id
        exact ⟨read.1, if_pos read.2⟩
  · rw [if_neg opens, acquiredReading, if_neg opens]
    rfl

theorem mapImage_refused {span : Span} (refused : k.mapMemory span.totalSize = none) :
    mapImage k span = abandon [.freeProgramHeaders, .closeFile] .nomem := by
  obtain ⟨-, same⟩ | ⟨image, granted, -⟩ := mapImage_cases k span
  · exact same
  · cases refused.symm.trans granted

theorem mapImage_granted {span : Span} {base : Nat}
    (granted : k.mapMemory span.totalSize = some base) (s : State) :
    ∃ image t, mapImage k span s = .done image t ∧ image.base = base ∧
      image.totalSize = span.totalSize ∧ t.released = s.released := by
  obtain ⟨refused, -⟩ | ⟨image, granted', size, -, same⟩ := mapImage_cases k span
  · cases granted.symm.trans refused
  · rw [same]
    exact ⟨image, _, rfl, Option.some.inj (granted'.symm.trans granted), size, rfl⟩

theorem copySegment_leaves (phdr : Elf64Phdr) :
    (copySegment k image phdr s).Leaves (fun _ t => t.released = s.released) fun _ t =>
      t.released = [.file, .headers, .mapping image.base image.totalSize] ++ s.released := by
  refine .ite (fun _ => rfl) fun _ => .ite (fun _ => rfl) fun _ => .ite (fun _ => ?_) fun _ => ?_
  · exact abandon_leaves
  · apply (works_seekPosition (A := fun _ => True)).keeps.andThen
    intro found s₁ _ sought
    rw [← sought]
    cases found with
    | false => exact abandon_leaves
    | true =>
      apply (works_translate (A := fun _ => True) trivial).keeps.andThen
      intro _ s₂ _ logged
      rw [← logged]
      apply (works_readAll (A := fun _ => True) (fun _ _ => works_store) _ _ _).keeps.andThen
      intro buffer s₃ _ arrived
      rw [← arrived]
      cases buffer with
      | none => exact abandon_leaves
      | some buffer => rfl

theorem copySegments_leaves (phdrs : List Elf64Phdr) :
    (copySegments k image phdrs s).Leaves (fun _ t => t.released = s.released) fun _ t =>
      t.released = [.file, .headers, .mapping image.base image.totalSize] ++ s.released := by
  induction phdrs generalizing s with
  | nil => rfl
  | cons phdr rest ih =>
    apply (copySegment_leaves phdr).bind
    intro _ s₁ _ copied
    rw [← copied]
    exact ih

/-- Up to the mapped file, when the descriptor goes back. -/
theorem loadImage_leaves :
    (loadImage arch k s).Leaves
      (fun loaded t => t.released = .file :: s.released ∧
        acquiredReading arch k s = [.file, .headers] ∧
        acquiredMapping arch k s = [.mapping loaded.1.base loaded.1.totalSize])
      fun _ t => t.released = acquiredReading arch k s ++ acquiredMapping arch k s ++
        s.released := by
  have read := @readHeaders_leaves arch k s
  rw [loadImage, acquiredMapping]
  cases run : readHeaders arch k s with
  | fault =>
    rw [Program.bind_fault run]
    trivial
  | outOfFuel =>
    rw [Program.bind_outOfFuel run]
    trivial
  | failed e t =>
    rw [run] at read
    rw [Program.bind_failed run, List.append_nil]
    exact read
  | done phdrs t =>
    rw [run] at read
    obtain ⟨same, granted⟩ := read
    rw [Program.bind_done run, granted, ← same]
    dsimp only
    cases loadSpan phdrs with
    | error e => exact abandon_leaves
    | ok span =>
      dsimp only
      cases mapping : k.mapMemory span.totalSize with
      | none =>
        rw [mapImage_refused mapping]
        exact (abandon_leaves (Q := fun _ _ => False)).bind fun _ _ _ absent => absent.elim
      | some base =>
        obtain ⟨image, t₁, made, rfl, size, zeroed⟩ := mapImage_granted mapping t
        rw [Program.bind_done made, ← zeroed, ← size]
        apply (copySegments_leaves phdrs).bind
        intro _ t₂ _ copied
        rw [← copied]
        exact ⟨rfl, rfl, rfl⟩

theorem parseDynamic_leaves :
    (parseDynamic image phdrs s).Leaves (fun _ t => t.released = s.released) fun _ t =>
      t.released = [.library, .headers, .mapping image.base image.totalSize] ++ s.released := by
  rw [parseDynamic]
  cases phdrs.find? (·.type = 2) with
  | none => exact abandon_leaves
  | some phdr =>
    apply (works_translate (A := fun _ => True) trivial).keeps.andThen
    intro _ s₁ _ logged
    rw [← logged]
    refine .ite (fun _ => abandon_leaves) fun _ => .ite (fun _ => ?_) fun _ => abandon_leaves
    apply (works_upTo (fun _ _ => works_dynamicRound) _ _ _).keeps.andThen
    intro walked s₂ _ walk
    rw [← walk]
    exact .ite (fun _ => rfl) fun _ => abandon_leaves

theorem makeLibrary_leaves :
    (makeLibrary k image phdrs s).Leaves
      (fun _ t => t.released = s.released ∧ k.allocatesLibrary = true)
      fun _ t => t.released = (if k.allocatesLibrary then
        [.library, .headers, .mapping image.base image.totalSize]
        else [.headers, .mapping image.base image.totalSize]) ++ s.released := by
  rw [makeLibrary]
  by_cases granted : k.allocatesLibrary = true
  · rw [if_pos granted, if_pos granted]
    exact parseDynamic_leaves.mono (fun _ _ parsed => ⟨parsed, granted⟩) fun _ _ => id
  · rw [if_neg granted, if_neg granted]
    exact abandon_leaves

theorem protectSegments_leaves (phdrs : List Elf64Phdr) :
    (protectSegments k image phdrs s).Leaves (fun _ t => t.released = s.released) fun _ t =>
      t.released = [.library, .headers, .mapping image.base image.totalSize] ++ s.released := by
  induction phdrs generalizing s with
  | nil => rfl
  | cons phdr rest ih =>
    refine .ite (fun _ => ih) fun _ => ?_
    apply (works_protectMemory (A := fun _ => True)).keeps.andThen
    intro changed s₁ _ asked
    rw [← asked]
    cases changed with
    | false => exact abandon_leaves
    | true => exact ih

theorem finishLibrary_leaves :
    (finishLibrary fuel arch k image phdrs lib s).Leaves
      (fun _ t => t.released = .headers :: s.released) fun _ t =>
      t.released = [.library, .headers, .mapping image.base image.totalSize] ++ s.released := by
  apply relocateLibrary_keeps.andThen
  intro _ s₁ _ relocated
  rw [← relocated]
  apply (protectSegments_leaves phdrs).bind
  intro _ s₂ _ protected_
  rw [← protected_]
  rw [Program.bind_done (show call .freeProgramHeaders s₂ = .done () _ from rfl)]
  apply (works_runConstructors (A := fun _ => True)).keeps.andThen
  intro _ s₃ _ constructed
  exact constructed

/-! ### Closing what was opened -/

@[simp] theorem set_finiArrayCount (t : Tables) (field : DynField) (value : Nat) :
    (t.set field value).lib.finiArrayCount =
      if field = .finiArraysz then value / 8 else t.lib.finiArrayCount := by
  cases field <;> rfl

/-- An array of pointers has fewer than `2 ^ 61` entries. -/
theorem add_finiArrayCount {t : Tables} {entry : Nat × Nat} (few : t.lib.finiArrayCount < 2 ^ 61)
    (word : entry.2 < 2 ^ 64) : (t.add image entry).lib.finiArrayCount < 2 ^ 61 := by
  rw [Tables.add]
  cases DynField.ofTag entry.1 with
  | none => exact few
  | some field =>
    dsimp only
    rw [set_finiArrayCount]
    split
    · next isCount =>
      subst isCount
      show entry.2 / 8 < 2 ^ 61
      omega
    · exact few

theorem fold_finiArrayCount {entries : List (Nat × Nat)} {t : Tables}
    (few : t.lib.finiArrayCount < 2 ^ 61) (words : ∀ entry ∈ entries, entry.2 < 2 ^ 64) :
    (entries.foldl (Tables.add image) t).lib.finiArrayCount < 2 ^ 61 := by
  induction entries generalizing t with
  | nil => exact few
  | cons entry rest ih =>
    exact ih (add_finiArrayCount few (words entry List.mem_cons_self))
      fun other member => words other (List.mem_cons_of_mem _ member)

theorem makeLibrary_finiArrayCount (made : makeLibrary k image phdrs s = .done lib t) :
    lib.finiArrayCount < 2 ^ 61 := by
  obtain ⟨-, phdr, walked, s₁, -, inside, -, walk, rfl⟩ := makeLibrary_done made
  obtain ⟨walked', t', run, _, tables⟩ := dynamicWalk_done (holds_of_regionInBounds inside)
    (phdr.filesz / 16) 0 { lib := { toMapping := image.toMapping } } s₁ (Nat.zero_add _)
  rw [walk] at run
  cases run
  have few : (walkedTables walked).lib.finiArrayCount < 2 ^ 61 := by
    rw [tables]
    exact fold_finiArrayCount (Nat.two_pow_pos 61) (dynamicEntries_word _ _ _ _)
  rw [Tables.finish]
  split
  · exact few
  · exact few

variable {r : List Resource}

theorem load_total {m : Mapping} {address count : Nat} (inside : m.Holds address count) :
    Total (·.released = r) (load m address count) fun _ t => t.released = r :=
  fun s held => ⟨_, s, load_done inside s, held⟩

theorem runFunction_total {function : Nat} :
    Total (·.released = r) (runFunction k function) fun _ t => t.released = r :=
  .modify fun _ held => held

/-- The array lies in the mapping, whatever has become of its contents. -/
theorem runDestructors_total (ok : tablesOk lib = true) (few : lib.finiArrayCount < 2 ^ 61) :
    Total (·.released = r) (runDestructors k lib) fun _ t => t.released = r := by
  refine .bind (Q := fun _ (t : State) => t.released = r) (.ite (fun present => ?_) fun _ => ?_)
    fun _ => .ite (fun _ => runFunction_total) fun _ => .ret fun _ held => held
  · simp only [tablesOk, Bool.and_eq_true] at ok
    have array := tableOk_holds ok.2 present
    rw [mul64_of_lt (by omega)] at array
    refine .bind (Total.upTo (I := fun _ _ (t : State) => t.released = r)
      (Q := fun _ _ => False) ?_ lib.finiArrayCount 0 () (Nat.zero_add _)) fun result => ?_
    · intro i _ before
      have entry : lib.toMapping.Holds
          (add64 lib.finiArray (8 * (lib.finiArrayCount - i - 1))) 8 := by
        rw [array.wrap (by omega)]
        exact array.part (by omega) (by omega)
      refine .bind (load_total entry) fun function => .ite (fun _ => ?_) fun _ => ?_
      · exact .bind runFunction_total fun _ => .ret fun _ held => held
      · exact .ret fun _ held => held
    · cases result with
      | next => exact .ret fun _ held => held
      | leave never => exact never.elim
  · exact .ret fun _ held => held

theorem lcLibraryClose_releases (ok : tablesOk lib = true) (few : lib.finiArrayCount < 2 ^ 61)
    (mapped : 0 < lib.totalSize) (s : State) :
    ∃ t, lcLibraryClose k (some lib) s = .done () t ∧
      t.released = [.library, .mapping lib.base lib.totalSize] ++ s.released := by
  obtain ⟨_, s₁, run, kept⟩ := runDestructors_total (k := k) ok few s rfl
  rw [lcLibraryClose, Program.bind_done run, if_pos ⟨Nat.ne_of_gt lib.positive, mapped⟩, ← kept]
  exact ⟨_, rfl, rfl⟩

/-! ### The load as a whole -/

theorem acquired_failed {e : Error} (failed : loadImage arch k s = .failed e t) :
    acquired arch k s = acquiredReading arch k s ++ acquiredMapping arch k s := by
  rw [acquired, acquiredLibrary, failed, List.append_nil]

/-- What is acquired by the time the file has been mapped and closed. -/
theorem acquired_loaded (loaded : loadImage arch k s = .done (image, phdrs) t) :
    t.released = .file :: s.released ∧
      acquired arch k s = [.file, .headers, .mapping image.base image.totalSize] ++
        if k.allocatesLibrary then [.library] else [] := by
  have left := @loadImage_leaves arch k s
  rw [loaded] at left
  obtain ⟨closed, reading, mapping⟩ := left
  refine ⟨closed, ?_⟩
  rw [acquired, reading, mapping, acquiredLibrary, loaded]
  rfl

theorem acquiredReading_sublist : (acquiredReading arch k s).Sublist [.file, .headers] := by
  rw [acquiredReading]
  split
  · split
    · exact .refl _
    · exact .cons_cons _ (List.nil_sublist _)
  · exact List.nil_sublist _

theorem acquiredMapping_sublist :
    ∃ base size, (acquiredMapping arch k s).Sublist [.mapping base size] := by
  rw [acquiredMapping]
  split
  · split
    · next span _ =>
      cases k.mapMemory span.totalSize with
      | none => exact ⟨0, 0, List.nil_sublist _⟩
      | some base => exact ⟨base, span.totalSize, .refl _⟩
    · exact ⟨0, 0, List.nil_sublist _⟩
  · exact ⟨0, 0, List.nil_sublist _⟩

theorem acquiredLibrary_sublist : (acquiredLibrary arch k s).Sublist [.library] := by
  rw [acquiredLibrary]
  split
  · split
    · exact .refl _
    · exact List.nil_sublist _
  · exact List.nil_sublist _

/-- Nothing is acquired twice. -/
theorem acquired_nodup (arch : Arch) (k : Kernel) (s : State) : (acquired arch k s).Nodup := by
  obtain ⟨base, size, mapping⟩ := @acquiredMapping_sublist arch k s
  have all : (acquired arch k s).Sublist
      ([.file, .headers] ++ [.mapping base size] ++ [.library]) :=
    (acquiredReading_sublist.append mapping).append acquiredLibrary_sublist
  refine all.nodup ?_
  simp

/-- A mapping that a load made has pages, since `mmap` refuses a length of zero. -/
theorem loadImage_positive (refuses : k.mapMemory 0 = none)
    (loaded : loadImage arch k s = .done (image, phdrs) t) : 0 < image.totalSize := by
  have left := @loadImage_leaves arch k s
  rw [loaded] at left
  obtain ⟨-, -, mapping⟩ := left
  rw [acquiredMapping] at mapping
  split at mapping
  · split at mapping
    · next span _ =>
      cases granted : k.mapMemory span.totalSize with
      | none =>
        rw [granted] at mapping
        cases mapping
      | some base =>
        rw [granted] at mapping
        injection mapping with same
        injection same with _ size
        rw [← size]
        refine Nat.pos_of_ne_zero fun zero => ?_
        rw [zero, refuses] at granted
        cases granted
    · cases mapping
  · cases mapping

/-- Steps 7 to 11 hold the mapping and the program headers from the start. -/
theorem assembly_leaves :
    ((makeLibrary k image phdrs >>= fun lib => finishLibrary fuel arch k image phdrs lib) s).Leaves
      (fun _ _ => True) fun _ t => t.released = (if k.allocatesLibrary then
        [.library, .headers, .mapping image.base image.totalSize]
        else [.headers, .mapping image.base image.totalSize]) ++ s.released := by
  apply makeLibrary_leaves.bind
  rintro lib s₁ - ⟨same, allocated⟩
  rw [if_pos allocated, ← same]
  exact finishLibrary_leaves.mono (fun _ _ _ => trivial) fun _ _ => id

theorem failed_released {e : Error} (failed : lcLibraryOpen fuel arch k s = .failed e t) :
    t.released ~ acquired arch k s ++ s.released := by
  have loading := @loadImage_leaves arch k s
  rw [lcLibraryOpen] at failed
  cases loaded : loadImage arch k s with
  | fault =>
    rw [Program.bind_fault loaded] at failed
    cases failed
  | outOfFuel =>
    rw [Program.bind_outOfFuel loaded] at failed
    cases failed
  | failed e' t' =>
    rw [Program.bind_failed loaded] at failed
    cases failed
    rw [loaded] at loading
    rw [acquired_failed loaded]
    exact .of_eq loading
  | done result s₁ =>
    obtain ⟨image, phdrs⟩ := result
    obtain ⟨closed, granted⟩ := acquired_loaded loaded
    have assembling := @assembly_leaves arch k image phdrs fuel s₁
    rw [Program.bind_done loaded] at failed
    dsimp only at failed
    rw [failed] at assembling
    have left : t.released = _ := assembling
    rw [left, granted, closed]
    split
    · exact (List.perm_append_comm_assoc [_, _, _] [_] _).trans
        (List.Perm.cons _ (List.perm_append_comm_assoc [_] [_, _] _))
    · exact List.perm_append_comm_assoc [_, _] [_] _

theorem opened_released (opened : lcLibraryOpen fuel arch k s = .done lib t) :
    acquired arch k s = [.file, .headers, .mapping lib.base lib.totalSize, .library] ∧
      t.released ~ [.file, .headers] ++ s.released := by
  obtain ⟨image, phdrs, s₁, s₂, loaded, made, finished⟩ := opened_stages opened
  obtain ⟨closed, granted⟩ := acquired_loaded loaded
  obtain ⟨-, mapping, -, -⟩ := makeLibrary_facts made
  have parsed := @makeLibrary_leaves k image phdrs s₁
  rw [made] at parsed
  have freed := @finishLibrary_leaves arch k image phdrs lib fuel s₂
  rw [finished] at freed
  have freed : t.released = .headers :: s₂.released := freed
  rw [granted, if_pos parsed.2, freed, parsed.1, closed, mapping]
  exact ⟨rfl, .swap _ _ _⟩

theorem opened_closes (opened : lcLibraryOpen fuel arch k s = .done lib t)
    (refuses : k.mapMemory 0 = none) (u : State) :
    ∃ v, lcLibraryClose k (some lib) u = .done () v ∧
      v.released ~ [.mapping lib.base lib.totalSize, .library] ++ u.released := by
  obtain ⟨image, phdrs, s₁, s₂, loaded, made, -⟩ := opened_stages opened
  obtain ⟨ok, mapping, -, -⟩ := makeLibrary_facts made
  have positive : 0 < lib.totalSize := by
    rw [mapping]
    exact loadImage_positive refuses loaded
  obtain ⟨v, run, released⟩ :=
    lcLibraryClose_releases (k := k) ok (makeLibrary_finiArrayCount made) positive u
  exact ⟨v, run, released ▸ .swap _ _ _⟩

/-- Whatever the file holds and whatever the kernel and the allocator answer: a load that
reports an error has given back everything it acquired, each thing once. A load that returns
has given back the descriptor and the program headers, and holds the mapping and the library.
Closing it, at any later time, comes back and gives back these two; for that, `mmap` is relied
on to refuse a length of zero. -/
theorem load_releases_acquired (fuel : Nat) (arch : Arch) (k : Kernel) (s : State) :
    (acquired arch k s).Nodup ∧
    (∀ e t, lcLibraryOpen fuel arch k s = .failed e t →
      t.released ~ acquired arch k s ++ s.released) ∧
    ∀ lib t, lcLibraryOpen fuel arch k s = .done lib t →
      acquired arch k s = [.file, .headers, .mapping lib.base lib.totalSize, .library] ∧
      t.released ~ [.file, .headers] ++ s.released ∧
      (k.mapMemory 0 = none → ∀ u, ∃ v, lcLibraryClose k (some lib) u = .done () v ∧
        v.released ~ [.mapping lib.base lib.totalSize, .library] ++ u.released) := by
  refine ⟨acquired_nodup arch k s, fun e t failed => failed_released failed, ?_⟩
  intro lib t opened
  obtain ⟨granted, released⟩ := opened_released opened
  exact ⟨granted, released, fun refuses u => opened_closes opened refuses u⟩

/-- An object with an empty dynamic table, and a kernel that refuses to protect its segment. -/
def unprotected : Kernel := { obliging (objectFile 0 [(0, 0)] []) with protect := fun _ => false }

/-- The last exit: everything has been acquired, and everything goes back. -/
theorem load_releases_acquired_unprotected : ∃ t,
    lcLibraryOpen 0 .x86_64 unprotected .fresh = .failed .io t ∧
      t.released ~ [.file, .headers, .mapping (2 ^ 46) 4096, .library] := by
  have ends : (match lcLibraryOpen 0 .x86_64 unprotected .fresh with
      | .failed e _ => decide (e = .io)
      | _ => false) = true := by decide +kernel
  have granted : acquired .x86_64 unprotected .fresh =
      [.file, .headers, .mapping (2 ^ 46) 4096, .library] := by decide +kernel
  cases run : lcLibraryOpen 0 .x86_64 unprotected .fresh with
  | failed e t =>
    rw [run] at ends
    obtain rfl : e = .io := of_decide_eq_true ends
    have released := (load_releases_acquired 0 .x86_64 unprotected .fresh).2.1 .io t run
    rw [granted] at released
    exact ⟨t, rfl, released⟩
  | done | fault | outOfFuel => rw [run] at ends; cases ends

end Lightc.Library
