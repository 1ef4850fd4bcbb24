import Lightc.Lightio.Delivery
import Lightc.Verification.Counting

/-!
# Who releases descriptors and stacks

A descriptor the kernel has handed out is owned by the completion that brings it
and then by the slot of its connection; a stack is owned by the slot it was mapped
for. While the loop lives, nothing is released without being owned, and what is
not released has exactly one owner.

That leaves what is owned when the loop ends. `lio_loop_destroy` unmaps the stacks
of the slots in use, but neither closes their descriptors nor looks for
connections that were accepted and not reaped. A worker frees its loop without
releasing anything.
-/

namespace Lightc.Lightio

open Machine Verification Function

/-! ### Owners -/

/-- The slot is in use and has an open descriptor. -/
@[simp] def Slot.owns (fd : Int) (slot : Slot) : Bool :=
  decide (slot.state ≠ .free ∧ slot.fd = fd ∧ 0 ≤ fd)

/-- The slot is in use and runs on the stack. -/
@[simp] def Slot.runsOn (base : Nat) (slot : Slot) : Bool :=
  decide (slot.state ≠ .free ∧ slot.stackBase = some base)

/-- The completion of an accept brings an open descriptor. -/
def Completion.brings (fd : Int) (c : Completion) : Bool :=
  decide (c.tag = tagAccept ∧ c.result = fd ∧ 0 ≤ fd)

/-- The stream of a connection has the descriptor of its slot. -/
def Slot.Streams (slot : Slot) : Prop := slot.state ≠ .free → slot.streamFd = slot.fd

/-- A connection has a stack. -/
def Slot.Stacked (slot : Slot) : Prop := slot.state ≠ .free → slot.stackBase ≠ none

/-- The number of owners of a descriptor. -/
def owners (slots : SlotIndex → Slot) (results : List Completion) (fd : Int) : Nat :=
  countOf (Slot.owns fd) slots + results.countP (Completion.brings fd)

/-- Descriptors that were opened and not closed have one owner. -/
structure Files (slots : SlotIndex → Slot) (results : List Completion) (opened closed : Int → Nat) :
    Prop where
  balance : ∀ fd, opened fd = closed fd + owners slots results fd
  once : ∀ fd, opened fd ≤ closed fd + 1
  stream : ∀ i, (slots i).Streams

/-- Stacks that were mapped and not unmapped have one slot. -/
structure Stacks (slots : SlotIndex → Slot) (mapped unmapped : Nat → Nat) : Prop where
  balance : ∀ base, mapped base = unmapped base + countOf (Slot.runsOn base) slots
  once : ∀ base, mapped base ≤ unmapped base + 1
  stack : ∀ i, (slots i).Stacked

/-- One more for one of the numbers. -/
theorem update_add_one_apply {α : Type} [DecidableEq α] (f : α → Nat) (x y : α) :
    update f x (f x + 1) y = f y + (decide (x = y)).toNat := by
  by_cases same : x = y
  · subst same
    simp
  · rw [update_of_ne (Ne.symm same)]
    simp [same]

variable {slots : SlotIndex → Slot} {results results' : List Completion}
variable {opened closed closed' : Int → Nat} {mapped unmapped unmapped' : Nat → Nat}
variable {i : SlotIndex} {slot : Slot}

/-! ### Descriptors -/

theorem streams_update (old : ∀ j, (slots j).Streams) (new : slot.Streams) :
    ∀ j, (update slots i slot j).Streams :=
  (forall_update_iff slots fun _ slot => slot.Streams).mpr ⟨new, fun j _ => old j⟩

variable {c : Completion} {s : State}

section

variable (h : Files slots results opened closed)
include h

theorem Files.perm (perm : results'.Perm results) : Files slots results' opened closed := by
  refine ⟨fun fd => ?_, h.once, h.stream⟩
  rw [owners, perm.countP_eq]
  exact h.balance fd

/-- An owner gives up what it owns, or hands it to another. -/
theorem Files.transfer {slots' : SlotIndex → Slot}
    (balance : ∀ fd, closed' fd + owners slots' results' fd = closed fd + owners slots results fd)
    (more : ∀ fd, closed fd ≤ closed' fd) (stream : ∀ i, (slots' i).Streams) :
    Files slots' results' opened closed' := by
  refine ⟨fun fd => ?_, fun fd => ?_, stream⟩
  · rw [balance fd]
    exact h.balance fd
  · have once := h.once fd
    have grown := more fd
    omega

omit h in
theorem Slot.owns_of_free {n : Int} (free : slot.state = .free) : slot.owns n = false := by
  simp [free]

omit h in
theorem owners_update (slots : SlotIndex → Slot) (i : SlotIndex) (slot : Slot)
    (results : List Completion) (fd : Int) :
    owners (update slots i slot) results fd + ((slots i).owns fd).toNat =
      owners slots results fd + (slot.owns fd).toNat := by
  have change := countOf_update (P := Slot.owns fd) (f := slots) (t := i) (a := slot)
  unfold owners
  omega

omit h in
@[simp] theorem owners_cons (c : Completion) (fd : Int) :
    owners slots (c :: results) fd = owners slots results fd + (c.brings fd).toNat := by
  unfold owners
  rw [List.countP_cons]
  cases c.brings fd <;> simp [Nat.add_assoc]

/-- A slot in use changes its state only. -/
theorem Files.setState (before : (slots i).state ≠ .free) (after : slot.state ≠ .free)
    (fd : slot.fd = (slots i).fd) (streamFd : slot.streamFd = (slots i).streamFd) :
    Files (update slots i slot) results opened closed := by
  refine h.transfer (fun n => ?_) (fun _ => Nat.le_refl _) (streams_update h.stream fun _ => ?_)
  · have change := owners_update slots i slot results n
    have same : slot.owns n = (slots i).owns n := by
      simp [before, after, fd]
    rw [same] at change
    omega
  · rw [fd, streamFd]
    exact h.stream i before

/-- A slot in use closes its descriptor, if it has one. -/
theorem Files.close (before : (slots i).state ≠ .free)
    (after : slot.state = .free ∨ (slot.fd < 0 ∧ slot.streamFd = slot.fd)) :
    Files (update slots i slot) results opened
      (if 0 ≤ (slots i).fd then
        update closed (slots i).fd (closed (slots i).fd + 1) else closed) := by
  have nothing : ∀ n, slot.owns n = false := by
    intro n
    rcases after with free | ⟨negative, -⟩
    · exact Slot.owns_of_free free
    · have : ¬ (slot.fd = n ∧ 0 ≤ n) := by omega
      simp [this]
  refine h.transfer (fun n => ?_) (fun n => ?_) (streams_update h.stream fun used => ?_)
  · have change := owners_update slots i slot results n
    rw [nothing n] at change
    split
    · rename_i valid
      have own : (slots i).owns n = decide ((slots i).fd = n) := by
        unfold Slot.owns
        rw [decide_eq_decide]
        exact ⟨fun all => all.2.1, fun same => ⟨before, same, same ▸ valid⟩⟩
      rw [own] at change
      rw [update_add_one_apply]
      simp only [Bool.toNat_false] at change
      omega
    · rename_i invalid
      have own : (slots i).owns n = false := by
        have : ¬ ((slots i).fd = n ∧ 0 ≤ n) := by omega
        simp [this]
      rw [own] at change
      omega
  · split
    · rw [update_add_one_apply]
      exact Nat.le_add_right _ _
    · exact Nat.le_refl _
  · rcases after with free | ⟨-, same⟩
    · exact absurd free used
    · exact same

/-- An accept succeeds with a descriptor that is not open. -/
theorem Files.open (fresh : 0 ≤ c.result → c.tag = tagAccept → opened c.result = closed c.result) :
    Files slots (c :: results)
      (if c.tag = tagAccept ∧ 0 ≤ c.result then
        update opened c.result (opened c.result + 1) else opened) closed := by
  split
  · next success =>
    have brought : ∀ n, c.brings n = decide (c.result = n) := by
      intro n
      unfold Completion.brings
      rw [decide_eq_decide]
      exact ⟨fun all => all.2.1, fun same => ⟨success.1, same, same ▸ success.2⟩⟩
    refine ⟨fun n => ?_, fun n => ?_, h.stream⟩
    · rw [owners_cons, brought, update_add_one_apply, h.balance n]
      omega
    · rw [update_add_one_apply]
      by_cases same : c.result = n
      · subst same
        rw [fresh success.2 success.1]
        simp
      · simpa [same] using h.once n
  · next success =>
    have nothing : ∀ n, c.brings n = false := by
      intro n
      simp only [Completion.brings, decide_eq_false_iff_not]
      rintro ⟨tag, rfl, valid⟩
      exact success ⟨tag, valid⟩
    refine ⟨fun n => ?_, h.once, h.stream⟩
    rw [owners_cons, nothing, h.balance n]
    simp

end

/-- Other completions bring nothing. -/
theorem Files.take (h : Files slots (c :: results) opened closed) (tag : c.tag ≠ tagAccept) :
    Files slots results opened closed := by
  refine h.transfer (fun n => ?_) (fun _ => Nat.le_refl _) h.stream
  rw [owners_cons]
  simp [Completion.brings, tag]

/-- A completed accept is processed: its descriptor goes to a free slot, or is
closed. -/
theorem Files.takeIn {s' : State} (h : Files s.slots (c :: results) s.opened s.closed)
    (tag : c.tag = tagAccept) (admission : Admission s s' c.result) :
    Files s'.slots results s'.opened s'.closed := by
  have brought : ∀ n, c.brings n = decide (c.result = n ∧ 0 ≤ n) := by
    intro n
    simp [Completion.brings, tag]
  cases admission with
  | failed negative slots resources =>
    rw [slots, resources.opened, resources.closed]
    refine h.transfer (fun n => ?_) (fun _ => Nat.le_refl _) h.stream
    have nothing : ¬ (c.result = n ∧ 0 ≤ n) := by omega
    rw [owners_cons, brought]
    simp [nothing]
  | refused valid slots opened closed =>
    rw [slots, opened, closed]
    refine h.transfer (fun n => ?_) (fun n => ?_) h.stream
    · have same : (c.result = n ∧ 0 ≤ n) ↔ c.result = n := by omega
      rw [owners_cons, brought, update_add_one_apply, decide_eq_decide.mpr same]
      omega
    · rw [update_add_one_apply]
      exact Nat.le_add_right _ _
  | @rolledBack i valid free slots opened closed =>
    rw [slots, opened, closed]
    refine h.transfer (fun n => ?_) (fun n => ?_) (streams_update h.stream nofun)
    · have same : (c.result = n ∧ 0 ≤ n) ↔ c.result = n := by omega
      have change := owners_update s.slots i { s.slots i with
        state := .free, fd := -1, stackBase := none, pendingResult := 0, streamSlot := i,
        streamFd := c.result } results n
      rw [Slot.owns_of_free free, Slot.owns_of_free rfl] at change
      rw [owners_cons, brought, update_add_one_apply, decide_eq_decide.mpr same]
      omega
    · rw [update_add_one_apply]
      exact Nat.le_add_right _ _
  | @admitted i base valid free _ slots opened closed =>
    rw [slots, opened, closed]
    refine h.transfer (fun n => ?_) (fun n => Nat.le_refl _)
      (streams_update h.stream fun _ => rfl)
    have change := owners_update s.slots i { s.slots i with
      state := .ready, fd := c.result, stackBase := some base, pendingResult := 0,
      streamSlot := i, streamFd := c.result, suspended := none } results n
    have new : Slot.owns n { s.slots i with
        state := .ready, fd := c.result, stackBase := some base, pendingResult := 0,
        streamSlot := i, streamFd := c.result, suspended := none } =
          decide (c.result = n ∧ 0 ≤ n) := by
      simp
    rw [Slot.owns_of_free free, new, Bool.toNat_false] at change
    rw [owners_cons, brought]
    omega

/-! ### Stacks -/

theorem stacked_update (old : ∀ j, (slots j).Stacked) (new : slot.Stacked) :
    ∀ j, (update slots i slot j).Stacked :=
  (forall_update_iff slots fun _ slot => slot.Stacked).mpr ⟨new, fun j _ => old j⟩

theorem runsOn_update (slots : SlotIndex → Slot) (i : SlotIndex) (slot : Slot) (base : Nat) :
    countOf (Slot.runsOn base) (update slots i slot) + ((slots i).runsOn base).toNat =
      countOf (Slot.runsOn base) slots + (slot.runsOn base).toNat :=
  countOf_update

/-- A slot in use stays in use and keeps its stack, or a free one stays free. -/
theorem Stacks.keep (h : Stacks slots mapped unmapped)
    (free : slot.state = .free ↔ (slots i).state = .free)
    (stackBase : (slots i).state ≠ .free → slot.stackBase = (slots i).stackBase) :
    Stacks (update slots i slot) mapped unmapped := by
  refine ⟨fun base => ?_, h.once, stacked_update h.stack fun used => ?_⟩
  · have same : slot.runsOn base = (slots i).runsOn base := by
      unfold Slot.runsOn
      rw [decide_eq_decide, ne_eq, free]
      exact and_congr_right fun used => by rw [stackBase used]
    have change := runsOn_update slots i slot base
    rw [same] at change
    rw [h.balance base]
    omega
  · have used := mt free.mpr used
    rw [stackBase used]
    exact h.stack i used

/-- A free slot gets a stack that was not mapped. -/
theorem Stacks.map {base : Nat} (h : Stacks slots mapped unmapped)
    (before : (slots i).state = .free) (after : slot.state ≠ .free)
    (stackBase : slot.stackBase = some base) (unused : mapped base = unmapped base) :
    Stacks (update slots i slot) (update mapped base (mapped base + 1))
      unmapped := by
  refine ⟨fun other => ?_, fun other => ?_, stacked_update h.stack fun _ => by simp [stackBase]⟩
  · have change := runsOn_update slots i slot other
    have none_ : (slots i).runsOn other = false := by simp [before]
    have new : slot.runsOn other = decide (base = other) := by
      simp [after, stackBase]
    rw [none_, new, Bool.toNat_false] at change
    rw [update_add_one_apply, h.balance other]
    omega
  · rw [update_add_one_apply]
    by_cases same : base = other
    · subst same
      simp [unused]
    · simpa [same] using h.once other

/-- A slot in use becomes free and its stack is unmapped. -/
theorem Stacks.unmap (h : Stacks slots mapped unmapped) (before : (slots i).state ≠ .free)
    (after : slot.state = .free) :
    Stacks (update slots i slot) mapped
      (match (slots i).stackBase with
        | none => unmapped
        | some base => update unmapped base (unmapped base + 1)) := by
  cases stackBase : (slots i).stackBase with
  | none => exact absurd stackBase (h.stack i before)
  | some base =>
    have balance : ∀ other, mapped other =
        update unmapped base (unmapped base + 1) other +
          countOf (Slot.runsOn other) (update slots i slot) := by
      intro other
      have change := runsOn_update slots i slot other
      have old : (slots i).runsOn other = decide (base = other) := by
        simp [before, stackBase]
      have none_ : slot.runsOn other = false := by simp [after]
      rw [old, none_, Bool.toNat_false] at change
      rw [update_add_one_apply, h.balance other]
      omega
    refine ⟨balance, fun other => ?_, stacked_update h.stack fun used => absurd after used⟩
    have once := h.once other
    dsimp only
    rw [update_add_one_apply]
    omega

theorem Stacks.takeIn {s' : State} {fd : Int} (h : Stacks s.slots s.mapped s.unmapped)
    (admission : Admission s s' fd) : Stacks s'.slots s'.mapped s'.unmapped := by
  cases admission with
  | failed _ slots resources =>
    rw [slots, resources.mapped, resources.unmapped]
    exact h
  | refused _ slots _ _ mapped unmapped =>
    rw [slots, mapped, unmapped]
    exact h
  | rolledBack _ free slots _ _ mapped unmapped =>
    rw [slots, mapped, unmapped]
    exact h.keep (by simp [free]) fun used => absurd free used
  | admitted _ free unused slots _ _ mapped unmapped =>
    rw [slots, mapped, unmapped]
    exact h.map free nofun rfl unused

/-! ### Whole runs -/

/-- The ownership of descriptors and stacks in a state. -/
structure State.Owned (s : State) : Prop where
  files : Files s.slots s.results s.opened s.closed
  memory : Stacks s.slots s.mapped s.unmapped

theorem owned_create (timeoutBase : UInt64) : (State.create timeoutBase).Owned := by
  have none_ : ∀ {P : Slot → Bool}, P ⟨.free, -1, none, 0, 0, 0, none, none⟩ = false →
      countOf P (State.create timeoutBase).slots = 0 := fun no => countOf_eq_zero.mpr fun _ => no
  refine ⟨⟨fun fd => ?_, fun fd => Nat.zero_le _, fun i used => absurd rfl used⟩,
    ⟨fun base => ?_, fun base => Nat.zero_le _, fun i used => absurd rfl used⟩⟩
  · rw [owners, none_ (by simp)]
    rfl
  · rw [none_ (by simp)]
    rfl

section moves

variable {mode : Mode} {s s' : State}

/-- A slot in use changes its state only. -/
theorem State.Owned.setState (h : s.Owned) {slot : Slot}
    (slots : s'.slots = update s.slots i slot) (resources : SameResources s s')
    (before : (s.slots i).state ≠ .free) (after : slot.state ≠ .free)
    (fd : slot.fd = (s.slots i).fd) (streamFd : slot.streamFd = (s.slots i).streamFd)
    (stackBase : slot.stackBase = (s.slots i).stackBase) :
    Files s'.slots s.results s'.opened s'.closed ∧ Stacks s'.slots s'.mapped s'.unmapped := by
  rw [slots, resources.opened, resources.closed, resources.mapped, resources.unmapped]
  exact ⟨h.files.setState before after fd streamFd,
    h.memory.keep (iff_of_false after before) fun _ => stackBase⟩

theorem State.Owned.same (h : s.Owned) (slots : s'.slots = s.slots)
    (resources : SameResources s s') :
    Files s'.slots s.results s'.opened s'.closed ∧ Stacks s'.slots s'.mapped s'.unmapped := by
  rw [slots, resources.opened, resources.closed, resources.mapped, resources.unmapped]
  exact ⟨h.files, h.memory⟩

theorem State.Owned.move (h : s.Owned) (delivering : s.Delivering) (move : Move mode s s') :
    s'.Owned := by
  cases move with
  | shuffle slots _ results _ resources =>
    obtain ⟨files, memory⟩ := h.same slots resources
    exact ⟨files.perm results, memory⟩
  | suspend _ before _ _ slots _ results _ resources
  | resume before slots _ results _ _ resources | finish before slots _ results _ resources =>
    obtain ⟨files, memory⟩ := h.setState slots resources (by simp [before]) nofun rfl rfl rfl
    exact ⟨results ▸ files, memory⟩
  | @close i running valid slots _ results _ opened closed mapped unmapped =>
    have used : (s.slots i).state ≠ .free := by simp [running]
    have same := h.files.stream i used
    rw [same] at valid closed
    refine ⟨?_, ?_⟩
    · rw [slots, results, opened, closed.trans (if_pos valid).symm]
      exact h.files.close used (.inr ⟨(by decide : (-1 : Int) < 0), rfl⟩)
    · rw [slots, mapped, unmapped]
      exact h.memory.keep Iff.rfl fun _ => rfl
  | @release i finished slots _ results _ opened closed mapped unmapped =>
    have used : (s.slots i).state ≠ .free := by simp [finished]
    refine ⟨?_, ?_⟩
    · rw [slots, results, opened, closed]
      exact h.files.close used (.inl rfl)
    · rw [slots, mapped, unmapped]
      exact h.memory.unmap used rfl
  | @complete r result fresh slots requests _ results _ _ opened closed mapped unmapped =>
    have accept : r.sqe.opcode = opAccept ↔ r.tag = tagAccept :=
      delivering.accept_iff (requests.mem_iff.mpr List.mem_cons_self)
    refine ⟨Files.perm ?_ results, ?_⟩
    · simp only [accept] at opened fresh
      rw [slots, opened, closed]
      exact h.files.open (c := ⟨r.id, r.tag, result⟩) fresh
    · rw [slots, mapped, unmapped]
      exact h.memory
  | deliver tag _ waiting slots _ results _ resources =>
    obtain ⟨files, memory⟩ := h.setState slots resources (by simp [waiting]) nofun rfl rfl rfl
    exact ⟨(files.perm results.symm).take tag, memory⟩
  | drop tag _ slots _ results _ resources =>
    obtain ⟨files, memory⟩ := h.same slots resources
    exact ⟨(files.perm results.symm).take tag, memory⟩
  | accept tag results admission =>
    exact ⟨(h.files.perm results.symm).takeIn tag admission, h.memory.takeIn admission⟩
  | serve slots results _ resources =>
    obtain ⟨files, memory⟩ := h.same slots resources
    exact ⟨results ▸ files, memory⟩

/-- Ownership is accounted for as long as the loop is not destroyed. -/
theorem owned_of_reachable (reachable : (system mode).Reachable s) :
    (mode = .loop ∧ s.pc = .destroyed) ∨ s.Owned := by
  refine (invariant_until_destroyed (I := fun s => s.Delivering ∧ s.Owned)
    (fun timeoutBase => ⟨delivering_create timeoutBase, owned_create timeoutBase⟩)
    (fun h move => ⟨h.1.move move, h.2.move h.1 move⟩) reachable).imp_right And.right

end moves

/-! ### The end -/

@[simp] theorem unmapSlot_apply (s : State) (unmapped : Nat → Nat) (i : SlotIndex) (base : Nat) :
    s.unmapSlot unmapped i base = unmapped base + ((s.slots i).runsOn base).toNat := by
  unfold State.unmapSlot Slot.runsOn
  by_cases free : (s.slots i).state = .free
  · simp [free]
  · cases stackBase : (s.slots i).stackBase with
    | none => simp [free]
    | some own => simp [free, update_add_one_apply]

/-- `lio_loop_destroy` unmaps the stack of every slot in use. -/
theorem lioLoopDestroy_unmapped (s : State) (base : Nat) :
    s.lioLoopDestroy.unmapped base = s.unmapped base + countOf (Slot.runsOn base) s.slots := by
  have scan : ∀ (l : List SlotIndex) (unmapped : Nat → Nat),
      l.foldl s.unmapSlot unmapped base =
        unmapped base + l.countP fun i => (s.slots i).runsOn base := by
    intro l
    induction l with
    | nil => intro unmapped; rfl
    | cons i l ih =>
      intro unmapped
      rw [List.foldl_cons, ih, List.countP_cons, unmapSlot_apply]
      cases (s.slots i).runsOn base <;> simp [Nat.add_assoc, Nat.add_comm]
  unfold State.lioLoopDestroy
  dsimp only
  rw [scan, countOf_fin]

/-- Every accepted descriptor has been closed and every stack unmapped, as often
as they were handed out. -/
def State.Released (s : State) : Prop :=
  (∀ fd, s.closed fd = s.opened fd) ∧ ∀ base, s.unmapped base = s.mapped base

/-- No slot in use has an open descriptor. -/
def State.NoOpenSlot (s : State) : Prop := ∀ i, (s.slots i).state ≠ .free → (s.slots i).fd < 0

/-- No connection has been accepted by the kernel without being reaped. -/
def State.NoUnreaped (s : State) : Prop := ∀ c ∈ s.results, c.tag = tagAccept → c.result < 0

/-- All descriptors are closed if and only if none has an owner. -/
theorem State.Owned.closed_iff (h : s.Owned) :
    (∀ fd, s.closed fd = s.opened fd) ↔ s.NoOpenSlot ∧ s.NoUnreaped := by
  have closed_iff : ∀ fd, s.closed fd = s.opened fd ↔
      (∀ i, (s.slots i).owns fd = false) ∧ ∀ c ∈ s.results, c.brings fd = false := by
    intro fd
    rw [h.files.balance fd, left_eq_add, owners, Nat.add_eq_zero_iff, countOf_eq_zero,
      List.countP_eq_zero]
    simp only [Bool.not_eq_true]
  constructor
  · intro closed
    refine ⟨fun i used => ?_, fun c member tag => ?_⟩
    · by_contra valid
      have none_ := ((closed_iff (s.slots i).fd).mp (closed _)).1 i
      simp only [Slot.owns, decide_eq_false_iff_not] at none_
      exact none_ ⟨used, trivial, Int.le_of_not_gt valid⟩
    · by_contra valid
      have none_ := ((closed_iff c.result).mp (closed _)).2 c member
      simp only [Completion.brings, decide_eq_false_iff_not] at none_
      exact none_ ⟨tag, trivial, Int.le_of_not_gt valid⟩
  · rintro ⟨slots, results⟩ fd
    refine (closed_iff fd).mpr ⟨fun i => ?_, fun c member => ?_⟩
    · simp only [Slot.owns, decide_eq_false_iff_not]
      rintro ⟨used, rfl, valid⟩
      have negative := slots i used
      omega
    · simp only [Completion.brings, decide_eq_false_iff_not]
      rintro ⟨tag, rfl, valid⟩
      have negative := results c member tag
      omega

/-- All stacks are unmapped if and only if no slot is in use. -/
theorem State.Owned.unmapped_iff (h : s.Owned) :
    (∀ base, s.unmapped base = s.mapped base) ↔ ∀ i, (s.slots i).state = .free := by
  have unmapped_iff : ∀ base, s.unmapped base = s.mapped base ↔
      ∀ i, (s.slots i).runsOn base = false := by
    intro base
    rw [h.memory.balance base, left_eq_add, countOf_eq_zero]
  constructor
  · intro unmapped i
    by_contra used
    obtain ⟨base, stackBase⟩ := Option.ne_none_iff_exists'.mp (h.memory.stack i used)
    have none_ := (unmapped_iff base).mp (unmapped base) i
    simp only [Slot.runsOn, decide_eq_false_iff_not] at none_
    exact none_ ⟨used, stackBase⟩
  · intro free base
    refine (unmapped_iff base).mpr fun i => ?_
    simp [free i]

/-- Nothing is released twice. `lio_loop_destroy` leaves everything released if and
only if no connection still has its descriptor and none is accepted but not reaped;
a worker, if and only if it has no connection at all and none is accepted but not
reaped. -/
theorem connections_released_iff {mode : Mode} {s : State} (reachable : (system mode).Reachable s) :
    (mode = .worker ∨ s.pc ≠ .destroyed →
      (∀ fd, s.closed fd ≤ s.opened fd ∧ s.opened fd ≤ s.closed fd + 1) ∧
      ∀ base, s.unmapped base ≤ s.mapped base ∧ s.mapped base ≤ s.unmapped base + 1) ∧
    (mode = .loop → s.pc = .idle →
      (s.lioLoopDestroy.Released ↔ s.NoOpenSlot ∧ s.NoUnreaped)) ∧
    (mode = .worker → s.pc = .destroyed →
      (s.Released ↔ (∀ i, (s.slots i).state = .free) ∧ s.NoUnreaped)) := by
  have owned : mode = .worker ∨ s.pc ≠ .destroyed → s.Owned := by
    intro alive
    refine (owned_of_reachable reachable).resolve_left ?_
    rintro ⟨rfl, destroyed⟩
    exact alive.elim nofun fun ne => ne destroyed
  refine ⟨fun alive => ?_, fun _ idle => ?_, fun worker _ => ?_⟩
  · have h := owned alive
    refine ⟨fun fd => ⟨?_, h.files.once fd⟩, fun base => ⟨?_, h.memory.once base⟩⟩
    · rw [h.files.balance fd]
      exact Nat.le_add_right _ _
    · rw [h.memory.balance base]
      exact Nat.le_add_right _ _
  · have h := owned (.inr (by rw [idle]; exact nofun))
    rw [← h.closed_iff]
    refine ⟨And.left, fun closed => ⟨closed, fun base => ?_⟩⟩
    rw [lioLoopDestroy_unmapped]
    exact (h.memory.balance base).symm
  · have h := owned (.inl worker)
    unfold State.Released
    rw [h.closed_iff, h.unmapped_iff]
    constructor
    · rintro ⟨⟨-, unreaped⟩, free⟩
      exact ⟨free, unreaped⟩
    · rintro ⟨free, unreaped⟩
      exact ⟨⟨fun i used => absurd (free i) used, unreaped⟩, free⟩

/-- The handler of a connection returns before the loop is stopped. -/
def stoppedLate : List Action :=
  [.serve 3, .run, .advance none, .advance none, .advance none, .consume, .complete 0 5,
    .advance none, .advance (some 4096), .advance none, .advance none, .advance none,
    .handle .finish, .advance none, .stop, .advance none, .advance none]

theorem connections_released_iff_finished :
    ∃ s, (system .loop).Reachable s ∧ s.pc = .idle ∧ s.opened 5 = 1 ∧
      s.lioLoopDestroy.Released := by
  have facts : ∃ s, (system .loop).Reachable s ∧ s.pc = .idle ∧ s.opened 5 = 1 ∧
      s.NoOpenSlot ∧ s.NoUnreaped := by
    unfold State.NoOpenSlot State.NoUnreaped
    exact exists_of_follow .loop stoppedLate (by decide +kernel)
  obtain ⟨s, reachable, idle, opened, slots, results⟩ := facts
  exact ⟨s, reachable, idle, opened,
    ((connections_released_iff reachable).2.1 rfl idle).mpr ⟨slots, results⟩⟩

/-- A connection is accepted and set up, and before its handler runs the loop is
stopped. -/
def stoppedEarly : List Action :=
  [.serve 3, .run, .advance none, .advance none, .advance none, .consume, .complete 0 5,
    .advance none, .advance (some 4096), .stop, .advance none, .advance none]

/-- The client's descriptor stays open after `lio_loop_destroy`; after the end of
a worker its stack stays mapped too. -/
theorem connection_not_released :
    (∃ s, (system .loop).Reachable s ∧ s.pc = .idle ∧ s.lioLoopDestroy.opened 5 = 1 ∧
      s.lioLoopDestroy.closed 5 = 0) ∧
    ∃ s, (system .worker).Reachable s ∧ s.pc = .destroyed ∧ s.opened 5 = 1 ∧ s.closed 5 = 0 ∧
      s.mapped 4096 = 1 ∧ s.unmapped 4096 = 0 :=
  ⟨exists_of_follow .loop stoppedEarly (by decide +kernel),
    exists_of_follow .worker stoppedEarly (by decide +kernel)⟩

end Lightc.Lightio
