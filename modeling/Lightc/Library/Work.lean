import Lightc.Library.Load
import Lightc.Verification.Leaving

/-!
# What the loader does between its exits

The parts of the loader that lie between two exits read and write the mapping, record the
addresses they make from virtual ones and run code of the object. They report no error and
give nothing back. Each of them is examined once here. Where an address has to lie, what is
recorded and what is given back in the end all follow from this.
-/

namespace Lightc.Library

open Machine Verification

variable {arch : Arch} {k : Kernel} {image : Image} {lib : LcLibrary} {s t : State}

/-- The address the file means. -/
def Biased (image : Image) (entry : Nat × Nat) : Prop := entry.2 = image.pointer entry.1

/-- The address without the subtraction. -/
def Unbiased (base : Nat) (entry : Nat × Nat) : Prop := entry.2 = add64 base entry.1

/-- What a load can hold. -/
inductive Resource where
  | file
  | headers
  | mapping (base size : Nat)
  | library
  deriving DecidableEq

/-- What a call gives back. -/
def Call.releases : Call → Option Resource
  | .closeFile => some .file
  | .unmapMemory address size => some (.mapping address size)
  | .freeProgramHeaders => some .headers
  | .freeLibrary => some .library
  | .protectMemory _ _ _ => none
  | .run _ => none

/-- All that has been given back, most recent first. -/
def State.released (s : State) : List Resource := s.calls.filterMap Call.releases

/-- Between two states, only entries in `A` were recorded. -/
def Records (A : Nat × Nat → Prop) (s t : State) : Prop :=
  ∃ new, t.translated = new ++ s.translated ∧ ∀ entry ∈ new, A entry

variable {A : Nat × Nat → Prop}

theorem Records.of_eq (h : t.translated = s.translated) : Records A s t :=
  ⟨[], h, fun _ none => nomatch none⟩

theorem Records.trans (s t u : State) (first : Records A s t) (second : Records A t u) :
    Records A s u := by
  obtain ⟨new, one, inside⟩ := first
  obtain ⟨newer, two, within⟩ := second
  refine ⟨newer ++ new, by rw [two, one, List.append_assoc], fun entry mem => ?_⟩
  cases List.mem_append.mp mem with
  | inl recent => exact within entry recent
  | inr earlier => exact inside entry earlier

/-- Only entries in `A` were recorded, and nothing was given back. -/
structure Worked (A : Nat × Nat → Prop) (s t : State) : Prop where
  records : Records A s t
  released : t.released = s.released

theorem Worked.refl (s : State) : Worked A s s := ⟨.of_eq rfl, rfl⟩

theorem Worked.trans (s t u : State) (first : Worked A s t) (second : Worked A t u) :
    Worked A s u :=
  ⟨first.records.trans _ _ _ second.records, second.released.trans first.released⟩

/-- A part that works so, unless it faults. -/
abbrev Works {α : Type} (A : Nat × Nat → Prop) (c : Program Error State α) : Prop :=
  Follows (Worked A) c

variable {α : Type} {address target symCount : Nat}

theorem works_ret {a : α} : Works A (pure a) := .ret Worked.refl

theorem works_bind {β : Type} {c : Program Error State α} {f : α → Program Error State β}
    (first : Works A c) (second : ∀ a, Works A (f a)) : Works A (c >>= f) :=
  .bind Worked.trans first second

theorem works_upTo {β ρ : Type} {body : Nat → β → Program Error State (Step β ρ)}
    (round : ∀ i b, Works A (body i b)) (rounds i : Nat) (b : β) :
    Works A (Program.upTo body rounds i b) :=
  .upTo Worked.refl Worked.trans round rounds i b

theorem Works.keeps {c : Program Error State α} (h : Works A c) :
    Keeps State.released c :=
  Follows.keeps h fun _ _ worked => worked.released

theorem works_load {m : Mapping} {count : Nat} : Works A (load m address count) := by
  intro s
  by_cases inside : m.Holds address count
  · exact .inr ⟨_, s, load_done inside s, .refl s⟩
  · exact .inl (if_neg inside)

theorem works_store {m : Mapping} {bytes : List UInt8} :
    Works A (store m address bytes) := by
  intro s
  by_cases inside : m.Holds address bytes.length
  · exact .inr ⟨_, _, store_done inside s, .of_eq rfl, rfl⟩
  · exact .inl (if_neg inside)

theorem works_translate {v : Nat} (h : A (v, address)) : Works A (translate v address) := by
  refine .modify fun s => ⟨⟨[(v, address)], rfl, fun entry mem => ?_⟩, rfl⟩
  rw [List.mem_singleton.mp mem]
  exact h

theorem works_readBytes {count : Nat} : Works A (readBytes k count) := fun _ =>
  .inr ⟨_, _, rfl, .of_eq rfl, rfl⟩

theorem works_seekPosition {offset : Nat} : Works A (seekPosition k offset) := fun _ =>
  .inr ⟨_, _, rfl, .of_eq rfl, rfl⟩

theorem works_protectMemory {size prot : Nat} :
    Works A (protectMemory k address size prot) := fun _ =>
  .inr ⟨_, _, rfl, .of_eq rfl, rfl⟩

theorem works_runFunction {function : Nat} : Works A (runFunction k function) :=
  .modify fun _ => ⟨.of_eq rfl, rfl⟩

theorem works_readAll {deliver : Nat → List UInt8 → Program Error State Unit}
    (delivers : ∀ sofar bytes, Works A (deliver sofar bytes)) (rounds : Nat)
    (arrived : List UInt8) (count : Nat) : Works A (readAll k deliver rounds arrived count) := by
  induction rounds generalizing arrived count with
  | zero => exact works_ret
  | succ rounds ih =>
    apply Follows.ite works_ret
    apply works_bind works_readBytes
    intro bytes
    exact .ite works_ret (works_bind (delivers _ _) fun _ => ih _ _)

theorem works_readBuffer (size : Nat) :
    Works A (readAll k (fun _ _ => pure ()) size [] size) :=
  works_readAll (fun _ _ => works_ret) _ _ _

theorem works_dynamicRound {dynamic di : Nat} {tables : Tables} :
    Works (Biased image) (dynamicRound image dynamic di tables) := by
  apply works_bind works_load
  intro tag
  apply Follows.ite works_ret
  cases DynField.ofTag tag with
  | none => exact works_ret
  | some field =>
    apply works_bind works_load
    intro value
    exact .ite (works_bind (works_translate rfl) fun _ => works_ret) works_ret

theorem works_relocate {v value : Nat} (h : A (v, value)) :
    Works A (relocate lib target v value) :=
  works_bind (works_translate h) fun _ => works_store

theorem works_applyRelocation {rela rInfo : Nat} :
    Works (Unbiased lib.base) (applyRelocation arch lib symCount rela target rInfo) := by
  rw [applyRelocation]
  cases arch.relocationKind (rInfo % 2 ^ 32) with
  | ignored => exact works_ret
  | relative => exact works_bind works_load fun _ => works_relocate rfl
  | symbol =>
    cases relocSymbol lib (rInfo / 2 ^ 32) symCount with
    | none => exact works_ret
    | some sym =>
      apply works_bind works_load
      intro _
      refine .ite ?_ works_ret
      apply works_bind works_load
      intro stValue
      apply works_bind works_load
      intro rAddend
      apply works_relocate
      change add64 (add64 lib.base stValue) rAddend = add64 lib.base (add64 stValue rAddend)
      unfold add64
      omega

theorem works_relocationAt {rela : Nat} :
    Works (Unbiased lib.base) (relocationAt arch lib symCount rela target) := by
  apply works_bind works_load
  intro rInfo
  exact .ite (works_bind works_applyRelocation fun _ => works_ret) works_ret

theorem works_relocationRound {i : Nat} :
    Works (Unbiased lib.base) (relocationRound arch lib symCount i ()) := by
  apply works_bind works_load
  intro rOffset
  have target : Unbiased lib.base (rOffset, add64 lib.base rOffset) := rfl
  exact works_bind (works_translate target) fun _ => works_relocationAt

theorem works_runConstructors : Works A (runConstructors k lib) := by
  have array : Works A (runConstructorArray k lib) := by
    refine .ite ?_ works_ret
    apply works_bind (works_upTo ?_ _ _ _)
    · exact fun _ => works_ret
    · intro i _
      apply works_bind works_load
      intro function
      exact .ite (works_bind works_runFunction fun _ => works_ret) works_ret
  exact .ite (works_bind works_runFunction fun _ => array) array

end Lightc.Library
