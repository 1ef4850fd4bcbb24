import Lightc.Lightio.Step

/-!
# Completions reach the call that waits for them

A tag is only a slot number, and slots are used again. What makes the loop right
is that a slot has a request under way exactly while its coroutine is suspended:
the coroutine suspends right after submitting, and only the completion of that
request makes its slot ready again, after which the handler may go on, return,
and give up the slot.

The invariant speaks about the requests and the completions under way as
unordered collections. The queue, the kernel and the reaping of batches only move
them around.
-/

namespace Lightc.Lightio

open Machine Verification Function
open Async (Submit Sqe)

/-! ### Tags -/

@[simp] theorem slotTag_toNat (i : SlotIndex) : (State.slotTag i).toNat = i := by
  have small : (i : Nat) < 1024 := i.isLt
  unfold State.slotTag
  rw [UInt64.toNat_ofNat_of_lt' (by simp [UInt64.size]; omega)]

variable {j : SlotIndex}

theorem slotTag_injective {i : SlotIndex} (same : State.slotTag i = State.slotTag j) : i = j := by
  apply Fin.ext
  rw [← slotTag_toNat, ← slotTag_toNat, same]

theorem slotTag_ne_tagAccept (i : SlotIndex) : State.slotTag i ≠ tagAccept := by
  intro same
  have small : (i : Nat) < 1024 := i.isLt
  have value := congrArg UInt64.toNat same
  rw [slotTag_toNat] at value
  have big : tagAccept.toNat = 4294967295 := by decide
  omega

@[simp] theorem slotOfTag_slotTag (i : SlotIndex) : State.slotOfTag (State.slotTag i) = some i := by
  have small : (i : Nat) < 1024 := i.isLt
  have value : (State.slotTag i).toNat % 2 ^ 32 = i := by
    rw [slotTag_toNat]
    exact Nat.mod_eq_of_lt (by omega)
  have inside : (State.slotTag i).toNat % 2 ^ 32 < maxSlots := by
    rw [value]
    exact i.isLt
  rw [State.slotOfTag, dif_pos inside]
  exact congrArg some (Fin.ext value)

/-! ### What is under way -/

/-- Tag and number of a request or a completion. -/
abbrev Token := UInt64 × Nat

def Request.token (r : Request) : Token := (r.tag, r.id)

def Completion.token (c : Completion) : Token := (c.tag, c.id)

/-- The numbers of a slot's requests and completions under way. -/
def outstanding (requests : List Request) (results : List Completion) (i : SlotIndex) : List Nat :=
  ((requests.map Request.token ++ results.map Completion.token).filter
    fun token => token.1 = State.slotTag i).map (·.2)

/-- A request is an accept under its own tag, or one of a slot. -/
def Request.WellTagged (r : Request) : Prop :=
  (r.sqe.opcode = opAccept ∧ r.tag = tagAccept) ∨
    (r.sqe.opcode ≠ opAccept ∧ ∃ i, r.tag = State.slotTag i)

/-- A coroutine is suspended while its slot waits, and until it is resumed. A
ready slot holds the result posted for the request its coroutine submitted. -/
def SlotOk (posted : List (Nat × Int)) (slot : Slot) : Prop :=
  match slot.state with
  | .waiting => ∃ call id, slot.suspended = some call ∧ slot.awaiting = some id
  | .ready => (slot.suspended = none ∧ slot.awaiting = none) ∨
      ∃ call id, slot.suspended = some call ∧ slot.awaiting = some id ∧
        (id, slot.pendingResult) ∈ posted
  | _ => slot.suspended = none ∧ slot.awaiting = none

/-- What a slot waits for, as a list. -/
def Slot.waitsFor (slot : Slot) : List Nat :=
  if slot.state = .waiting then slot.awaiting.toList else []

/-- Requests are numbered once, and a result is returned once. -/
structure Numbered (slots : SlotIndex → Slot) (nextId : Nat) (returned : List (Nat × Int)) :
    Prop where
  issued : ∀ i id, (slots i).awaiting = some id → id < nextId
  past : ∀ p ∈ returned, p.1 < nextId
  apart : ∀ i j id, (slots i).awaiting = some id → (slots j).awaiting = some id → i = j
  pending : ∀ i id, (slots i).awaiting = some id → id ∉ returned.map Prod.fst
  once : (returned.map Prod.fst).Nodup

/-- The account of all requests, completions and results. -/
structure Delivery (slots : SlotIndex → Slot) (requests : List Request)
    (results : List Completion) (nextId : Nat) (posted returned : List (Nat × Int)) : Prop where
  underWay : ∀ i, outstanding requests results i = (slots i).waitsFor
  slot : ∀ i, SlotOk posted (slots i)
  tagged : ∀ r ∈ requests, r.WellTagged
  labelled : ∀ c ∈ results, c.tag = tagAccept ∨
    ((∃ i, c.tag = State.slotTag i) ∧ (c.id, c.result) ∈ posted)
  numbered : Numbered slots nextId returned
  sound : ∀ p ∈ returned, p ∈ posted
  complete : ∀ p ∈ posted, (∃ c ∈ results, c.tag ≠ tagAccept ∧ (c.id, c.result) = p) ∨
    (∃ i, (slots i).state = .ready ∧ (slots i).awaiting = some p.1 ∧
      (slots i).pendingResult = p.2) ∨ p ∈ returned

variable {slots : SlotIndex → Slot} {requests requests' : List Request}
variable {results results' : List Completion} {nextId : Nat} {posted returned : List (Nat × Int)}
variable {i : SlotIndex}

/-! ### Moves of requests and completions -/

theorem length_waitsFor (slot : Slot) : slot.waitsFor.length ≤ 1 := by
  unfold Slot.waitsFor
  split
  · cases slot.awaiting <;> simp
  · simp

variable {slot : Slot} {id : Nat}

/-- A slot that waits for something is suspended in the call that does. -/
theorem Slot.of_waitsFor_eq_cons {rest : List Nat} (waits : slot.waitsFor = id :: rest) :
    slot.state = .waiting ∧ slot.awaiting = some id ∧ rest = [] := by
  unfold Slot.waitsFor at waits
  split at waits
  · rename_i waiting
    cases awaiting : slot.awaiting with
    | none => simp [awaiting] at waits
    | some id' =>
      simp only [awaiting, Option.toList_some, List.cons.injEq] at waits
      exact ⟨waiting, congrArg some waits.1, waits.2.symm⟩
  · cases waits

theorem Slot.of_mem_waitsFor (waits : id ∈ slot.waitsFor) :
    slot.state = .waiting ∧ slot.awaiting = some id := by
  unfold Slot.waitsFor at waits
  split at waits
  · rename_i waiting
    exact ⟨waiting, by simpa using waits⟩
  · cases waits

variable {c : Completion}

theorem mem_outstanding_of_result (requests : List Request) (member : c ∈ results)
    (tag : c.tag = State.slotTag i) : c.id ∈ outstanding requests results i := by
  have token : (c.tag, c.id) ∈ requests.map Request.token ++ results.map Completion.token :=
    List.mem_append_right _ (List.mem_map.mpr ⟨c, member, rfl⟩)
  exact List.mem_map.mpr ⟨(c.tag, c.id), List.mem_filter.mpr ⟨token, by simpa using tag⟩, rfl⟩

theorem outstanding_perm (requests_ : requests.Perm requests') (results_ : results.Perm results')
    (i : SlotIndex) :
    (outstanding requests results i).Perm (outstanding requests' results' i) := by
  unfold outstanding
  exact (((requests_.map _).append (results_.map _)).filter _).map _

@[simp] theorem outstanding_cons_request (r : Request) (i : SlotIndex) :
    outstanding (r :: requests) results i =
      if r.tag = State.slotTag i then r.id :: outstanding requests results i
      else outstanding requests results i := by
  unfold outstanding
  by_cases own : r.tag = State.slotTag i
  all_goals simp [Request.token, own]

theorem outstanding_cons_result (requests : List Request) (results : List Completion)
    (c : Completion) (i : SlotIndex) :
    (outstanding requests (c :: results) i).Perm
      (if c.tag = State.slotTag i then c.id :: outstanding requests results i
      else outstanding requests results i) := by
  have front : (outstanding requests (c :: results) i).Perm
      (((c.token :: (requests.map Request.token ++ results.map Completion.token)).filter
        fun token => token.1 = State.slotTag i).map (·.2)) :=
    (List.perm_middle.filter _).map _
  refine front.trans (.of_eq ?_)
  unfold outstanding
  by_cases own : c.tag = State.slotTag i
  all_goals simp [Completion.token, own]

/-- Two lists of at most one element are the same if one is a rearrangement. -/
theorem eq_of_perm_of_length_le_one {α : Type} {l l' : List α} (perm : l.Perm l')
    (short : l'.length ≤ 1) : l = l' := by
  match l', short with
  | [], _ => exact perm.eq_nil
  | [a], _ => exact perm.eq_singleton

theorem Delivery.perm (h : Delivery slots requests results nextId posted returned)
    (requests_ : requests'.Perm requests) (results_ : results'.Perm results) :
    Delivery slots requests' results' nextId posted returned := by
  refine ⟨fun i => ?_, h.slot, fun r member => ?_, fun c member => ?_, h.numbered, h.sound,
    fun p member => ?_⟩
  · have moved := outstanding_perm requests_ results_ i
    rw [h.underWay i] at moved
    exact eq_of_perm_of_length_le_one moved (length_waitsFor _)
  · exact h.tagged r (requests_.mem_iff.mp member)
  · exact h.labelled c (results_.mem_iff.mp member)
  · refine (h.complete p member).imp_left ?_
    rintro ⟨c, inside, rest⟩
    exact ⟨c, results_.mem_iff.mpr inside, rest⟩

/-! ### Changes of one slot -/

theorem Numbered.mono {slots' : SlotIndex → Slot} (h : Numbered slots nextId returned)
    (awaits : ∀ j id, (slots' j).awaiting = some id → (slots j).awaiting = some id) :
    Numbered slots' nextId returned where
  issued j id waits := h.issued j id (awaits j id waits)
  past := h.past
  apart j k id first second := h.apart j k id (awaits j id first) (awaits k id second)
  pending j id waits := h.pending j id (awaits j id waits)
  once := h.once

/-- What is awaited once a slot has changed. -/
theorem awaiting_update (waits : (update slots i slot j).awaiting = some id) :
    (j = i ∧ slot.awaiting = some id) ∨ (j ≠ i ∧ (slots j).awaiting = some id) := by
  by_cases own : j = i
  · subst own
    rw [update_self] at waits
    exact .inl ⟨rfl, waits⟩
  · rw [update_of_ne own] at waits
    exact .inr ⟨own, waits⟩

/-- A slot gets the next number. -/
theorem Numbered.issue (h : Numbered slots nextId returned)
    (awaiting : slot.awaiting = some nextId) :
    Numbered (update slots i slot) (nextId + 1) returned := by
  have unused : ∀ j, (slots j).awaiting ≠ some nextId := fun j waits =>
    absurd (h.issued j _ waits) (Nat.lt_irrefl _)
  have own_id : ∀ {id}, slot.awaiting = some id → id = nextId := fun waits =>
    Option.some.inj (waits.symm.trans awaiting)
  refine ⟨fun j id waits => ?_, fun p member => Nat.lt_succ_of_lt (h.past p member),
    fun j k id first second => ?_, fun j id waits => ?_, h.once⟩
  · rcases awaiting_update waits with ⟨-, own⟩ | ⟨-, old⟩
    · rw [own_id own]
      exact Nat.lt_succ_self _
    · exact Nat.lt_succ_of_lt (h.issued j id old)
  · rcases awaiting_update first with ⟨here, own⟩ | ⟨-, old⟩ <;>
      rcases awaiting_update second with ⟨here', own'⟩ | ⟨-, old'⟩
    · rw [here, here']
    · exact absurd (own_id own ▸ old') (unused k)
    · exact absurd (own_id own' ▸ old) (unused j)
    · exact h.apart j k id old old'
  · rcases awaiting_update waits with ⟨-, own⟩ | ⟨-, old⟩
    · rw [own_id own]
      intro before
      obtain ⟨p, member, same⟩ := List.mem_map.mp before
      exact absurd (h.past p member) (by rw [same]; exact Nat.lt_irrefl _)
    · exact h.pending j id old

/-- The result a slot awaits is returned. -/
theorem Numbered.returns (h : Numbered slots nextId returned)
    (before : (slots i).awaiting = some id) (awaiting : slot.awaiting = none) (result : Int) :
    Numbered (update slots i slot) nextId (returned ++ [(id, result)]) := by
  have awaits : ∀ j id', (update slots i slot j).awaiting = some id' →
      j ≠ i ∧ (slots j).awaiting = some id' := by
    intro j id' waits
    rcases awaiting_update waits with ⟨-, own⟩ | old
    · rw [awaiting] at own
      cases own
    · exact old
  have ids : (returned ++ [(id, result)]).map Prod.fst = returned.map Prod.fst ++ [id] := by
    rw [List.map_append, List.map_singleton]
  refine ⟨fun j id' waits => h.issued j id' (awaits j id' waits).2, fun p member => ?_,
    fun j k id' first second => h.apart j k id' (awaits j id' first).2 (awaits k id' second).2,
    fun j id' waits => ?_, ?_⟩
  · rcases List.mem_append.mp member with old | new
    · exact h.past p old
    · cases List.mem_singleton.mp new
      exact h.issued i id before
  · obtain ⟨ne, old⟩ := awaits j id' waits
    rw [ids, List.mem_append, List.mem_singleton, not_or]
    refine ⟨h.pending j id' old, ?_⟩
    rintro rfl
    exact ne (h.apart j i id' old before)
  · rw [ids]
    refine List.nodup_append.mpr ⟨h.once, List.nodup_singleton _, ?_⟩
    rintro a old b new rfl
    cases List.mem_singleton.mp new
    exact h.pending i id before old

/-- A result in another slot is still there. -/
theorem ready_elsewhere {p : Nat × Int} (ne : j ≠ i)
    (held : (slots j).state = .ready ∧ (slots j).awaiting = some p.1 ∧
      (slots j).pendingResult = p.2) :
    ∃ k, (update slots i slot k).state = .ready ∧
      (update slots i slot k).awaiting = some p.1 ∧
      (update slots i slot k).pendingResult = p.2 := by
  refine ⟨j, ?_⟩
  rw [update_of_ne ne]
  exact held

section

variable (h : Delivery slots requests results nextId posted returned)
include h

/-- A slot without a suspended call may change in any way that leaves it so. -/
theorem Delivery.setQuiet (before : (slots i).awaiting = none) (state : slot.state ≠ .waiting)
    (suspended : slot.suspended = none) (awaiting : slot.awaiting = none) :
    Delivery (update slots i slot) requests results nextId posted returned := by
  have ok : SlotOk posted slot := by
    unfold SlotOk
    cases at_ : slot.state with
    | waiting => exact absurd at_ state
    | ready => exact .inl ⟨suspended, awaiting⟩
    | free | running | finished => exact ⟨suspended, awaiting⟩
  have idle : outstanding requests results i = slot.waitsFor := by
    rw [h.underWay i]
    simp [Slot.waitsFor, before, state]
  refine ⟨(forall_update_iff slots (p := fun j slot =>
      outstanding requests results j = slot.waitsFor)).mpr ⟨idle, fun j _ => h.underWay j⟩,
    (forall_update_iff slots (p := fun _ => SlotOk posted)).mpr ⟨ok, fun j _ => h.slot j⟩,
    h.tagged, h.labelled, h.numbered.mono fun j id waits => ?_, h.sound, fun p member => ?_⟩
  · rcases awaiting_update waits with ⟨-, own⟩ | ⟨-, old⟩
    · rw [awaiting] at own
      cases own
    · exact old
  · refine (h.complete p member).imp_right fun rest => rest.imp_left ?_
    rintro ⟨j, held⟩
    refine ready_elsewhere ?_ held
    rintro rfl
    rw [before] at held
    cases held.2.1

/-- A coroutine submits a request and is suspended. -/
theorem Delivery.suspend (running : (slots i).state = .running) {sqe : Sqe}
    (opcode : sqe.opcode ≠ opAccept) (tag : sqe.userData = State.slotTag i) (call : Call) :
    Delivery (update slots i { slots i with
        state := .waiting
        suspended := some call
        awaiting := some nextId })
      (⟨nextId, sqe⟩ :: requests) results (nextId + 1) posted returned := by
  have own : (⟨nextId, sqe⟩ : Request).tag = State.slotTag i := tag
  refine ⟨(forall_update_iff slots (p := fun j slot =>
      outstanding (⟨nextId, sqe⟩ :: requests) results j = slot.waitsFor)).mpr
        ⟨?_, fun j ne => ?_⟩,
    (forall_update_iff slots (p := fun _ => SlotOk posted)).mpr
      ⟨⟨call, nextId, rfl, rfl⟩, fun j _ => h.slot j⟩,
    fun r member => ?_, h.labelled, h.numbered.issue rfl, h.sound, fun p member => ?_⟩
  · have none_ : outstanding requests results i = [] := by
      rw [h.underWay i]
      simp [Slot.waitsFor, running]
    rw [outstanding_cons_request, if_pos own, none_]
    simp [Slot.waitsFor]
  · have other : (⟨nextId, sqe⟩ : Request).tag ≠ State.slotTag j := fun same =>
      ne (slotTag_injective (same.symm.trans own))
    rw [← h.underWay j, outstanding_cons_request, if_neg other]
  · rcases List.mem_cons.mp member with rfl | old
    · exact .inr ⟨opcode, i, tag⟩
    · exact h.tagged r old
  · refine (h.complete p member).imp_right fun rest => rest.imp_left ?_
    rintro ⟨j, held⟩
    refine ready_elsewhere ?_ held
    rintro rfl
    rw [running] at held
    cases held.1

/-- An accept concerns no slot. -/
theorem Delivery.accept {sqe : Sqe} (opcode : sqe.opcode = opAccept)
    (tag : sqe.userData = tagAccept) :
    Delivery slots (⟨nextId, sqe⟩ :: requests) results (nextId + 1) posted returned := by
  refine ⟨fun j => ?_, h.slot, fun r member => ?_, h.labelled,
    ⟨fun j id waits => Nat.lt_succ_of_lt (h.numbered.issued j id waits),
      fun p member => Nat.lt_succ_of_lt (h.numbered.past p member), h.numbered.apart,
      h.numbered.pending, h.numbered.once⟩, h.sound, h.complete⟩
  · have other : (⟨nextId, sqe⟩ : Request).tag ≠ State.slotTag j := fun same =>
      slotTag_ne_tagAccept j (same.symm.trans tag)
    rw [outstanding_cons_request, if_neg other]
    exact h.underWay j
  · rcases List.mem_cons.mp member with rfl | old
    · exact .inl ⟨opcode, tag⟩
    · exact h.tagged r old

end

/-- The kernel completes a request. -/
theorem Delivery.completed {r : Request}
    (h : Delivery slots (r :: requests) results nextId posted returned) (result : Int) :
    Delivery slots requests (⟨r.id, r.tag, result⟩ :: results) nextId
      (if r.sqe.opcode = opAccept then posted else posted ++ [(r.id, result)]) returned := by
  have kept : ∀ p ∈ posted,
      p ∈ if r.sqe.opcode = opAccept then posted else posted ++ [(r.id, result)] := by
    intro p member
    split
    · exact member
    · exact List.mem_append_left _ member
  refine ⟨fun j => ?_, fun j => ?_, fun r' member => h.tagged r' (List.mem_cons_of_mem _ member),
    fun c member => ?_, h.numbered, fun p member => kept p (h.sound p member), fun p member => ?_⟩
  · have moved := outstanding_cons_result requests results ⟨r.id, r.tag, result⟩ j
    have before := h.underWay j
    rw [outstanding_cons_request] at before
    exact eq_of_perm_of_length_le_one (moved.trans (.of_eq before)) (length_waitsFor _)
  · have ok := h.slot j
    unfold SlotOk at ok ⊢
    cases at_ : (slots j).state with
    | ready =>
      simp only [at_] at ok
      refine ok.imp_right ?_
      rintro ⟨call, id, suspended, awaiting, member⟩
      exact ⟨call, id, suspended, awaiting, kept _ member⟩
    | waiting | free | running | finished => simpa only [at_] using ok
  · rcases List.mem_cons.mp member with rfl | old
    · rcases h.tagged r List.mem_cons_self with ⟨-, accept⟩ | ⟨other, named⟩
      · exact .inl accept
      · exact .inr ⟨named, by rw [if_neg other]; exact List.mem_append_right _ (.head _)⟩
    · exact (h.labelled c old).imp_right fun known => ⟨known.1, kept _ known.2⟩
  · have carry : p ∈ posted → (∃ c ∈ (⟨r.id, r.tag, result⟩ :: results : List Completion),
        c.tag ≠ tagAccept ∧ (c.id, c.result) = p) ∨
        (∃ i, (slots i).state = .ready ∧ (slots i).awaiting = some p.1 ∧
          (slots i).pendingResult = p.2) ∨ p ∈ returned := by
      intro old
      refine (h.complete p old).imp_left ?_
      rintro ⟨c, inside, rest⟩
      exact ⟨c, List.mem_cons_of_mem _ inside, rest⟩
    split at member
    · exact carry member
    · next accept =>
      rcases List.mem_append.mp member with old | new
      · exact carry old
      · cases List.mem_singleton.mp new
        obtain ⟨-, j, tag⟩ := (h.tagged r List.mem_cons_self).resolve_left fun both =>
          accept both.1
        refine .inl ⟨_, List.mem_cons_self, ?_, rfl⟩
        rw [tag]
        exact slotTag_ne_tagAccept j

/-- No result was posted before for a request that is still under way. -/
theorem Delivery.unposted {r : Request}
    (h : Delivery slots (r :: requests) results nextId posted returned)
    (opcode : r.sqe.opcode ≠ opAccept) : r.id ∉ posted.map Prod.fst := by
  obtain ⟨-, i, tag⟩ := (h.tagged r List.mem_cons_self).resolve_left fun both => opcode both.1
  have own := h.underWay i
  rw [outstanding_cons_request, if_pos tag] at own
  obtain ⟨waiting, awaiting, alone⟩ := Slot.of_waitsFor_eq_cons own.symm
  intro before
  obtain ⟨p, member, same⟩ := List.mem_map.mp before
  rcases h.complete p member with ⟨c, inside, other, here⟩ | ⟨j, ready, waits, -⟩ | gone
  · obtain ⟨⟨j, named⟩, -⟩ := (h.labelled c inside).resolve_left other
    have id_ : c.id = r.id := (congrArg Prod.fst here).trans same
    have underWay := mem_outstanding_of_result (r :: requests) inside named
    rw [h.underWay j, id_] at underWay
    cases h.numbered.apart j i _ (Slot.of_mem_waitsFor underWay).2 awaiting
    have twice := mem_outstanding_of_result requests inside named
    rw [alone] at twice
    cases twice
  · rw [same] at waits
    cases h.numbered.apart j i _ waits awaiting
    rw [waiting] at ready
    cases ready
  · exact h.numbered.pending i _ awaiting (List.mem_map.mpr ⟨p, gone, same⟩)

section

variable (h : Delivery slots requests (c :: results) nextId posted returned)
include h

/-- The completion of an accept is processed. -/
theorem Delivery.accepted (tag : c.tag = tagAccept) :
    Delivery slots requests results nextId posted returned := by
  refine ⟨fun j => ?_, h.slot, h.tagged, fun c' member =>
    h.labelled c' (List.mem_cons_of_mem _ member), h.numbered, h.sound, fun p member => ?_⟩
  · have moved := outstanding_cons_result requests results c j
    have other : c.tag ≠ State.slotTag j := fun same =>
      slotTag_ne_tagAccept j (same.symm.trans tag)
    rw [if_neg other, h.underWay j] at moved
    exact eq_of_perm_of_length_le_one moved.symm (length_waitsFor _)
  · refine (h.complete p member).imp_left ?_
    rintro ⟨c', inside, other, same⟩
    rcases List.mem_cons.mp inside with rfl | old
    · exact absurd tag other
    · exact ⟨c', old, other, same⟩

/-- Any other completion finds the slot it names waiting for just this one. -/
theorem Delivery.finds (tag : c.tag ≠ tagAccept) :
    ∃ i, c.tag = State.slotTag i ∧ (slots i).state = .waiting ∧ (slots i).awaiting = some c.id ∧
      outstanding requests results i = [] := by
  obtain ⟨⟨i, named⟩, -⟩ := (h.labelled c List.mem_cons_self).resolve_left tag
  have moved := outstanding_cons_result requests results c i
  rw [if_pos named, h.underWay i] at moved
  have alone := eq_of_perm_of_length_le_one moved.symm (length_waitsFor _)
  obtain ⟨waiting, awaiting, none_⟩ := Slot.of_waitsFor_eq_cons alone.symm
  exact ⟨i, named, waiting, awaiting, none_⟩

/-- It makes that slot ready. -/
theorem Delivery.deliver (named : c.tag = State.slotTag i) (waiting : (slots i).state = .waiting)
    (awaiting : (slots i).awaiting = some c.id) (alone : outstanding requests results i = []) :
    Delivery (update slots i { slots i with pendingResult := c.result, state := .ready })
      requests results nextId posted returned := by
  have tag : c.tag ≠ tagAccept := fun accept =>
    slotTag_ne_tagAccept i (named.symm.trans accept)
  refine ⟨(forall_update_iff slots (p := fun j slot =>
      outstanding requests results j = slot.waitsFor)).mpr ⟨alone, fun j ne => ?_⟩,
    (forall_update_iff slots (p := fun _ => SlotOk posted)).mpr
      ⟨?_, fun j _ => h.slot j⟩,
    h.tagged, fun c' member => h.labelled c' (List.mem_cons_of_mem _ member),
    h.numbered.mono fun j id waits => ?_, h.sound, fun p member => ?_⟩
  · have moved := outstanding_cons_result requests results c j
    have other : c.tag ≠ State.slotTag j := fun same =>
      ne (slotTag_injective (same.symm.trans named))
    rw [if_neg other, h.underWay j] at moved
    exact eq_of_perm_of_length_le_one moved.symm (length_waitsFor _)
  · have ok := h.slot i
    unfold SlotOk at ok
    rw [waiting] at ok
    obtain ⟨call, id, suspended, -⟩ := ok
    have known := ((h.labelled c List.mem_cons_self).resolve_left tag).2
    exact .inr ⟨call, c.id, suspended, awaiting, known⟩
  · rcases awaiting_update waits with ⟨rfl, own⟩ | ⟨-, old⟩
    · exact own
    · exact old
  · rcases h.complete p member with ⟨c', inside, other, same⟩ | ⟨j, held⟩ | gone
    · rcases List.mem_cons.mp inside with rfl | old
      · cases same
        refine .inr (.inl ⟨i, ?_⟩)
        rw [update_self]
        exact ⟨rfl, awaiting, rfl⟩
      · exact .inl ⟨c', old, other, same⟩
    · refine .inr (.inl (ready_elsewhere ?_ held))
      rintro rfl
      rw [waiting] at held
      cases held.1
    · exact .inr (.inr gone)

end

/-- A suspended call gets the result its slot holds. -/
theorem Delivery.resume (h : Delivery slots requests results nextId posted returned)
    (ready : (slots i).state = .ready) :
    Delivery (update slots i { slots i with
        state := .running
        suspended := none
        awaiting := none }) requests results nextId posted
      (returned ++ (slots i).awaiting.toList.map (·, (slots i).pendingResult)) := by
  have ok := h.slot i
  unfold SlotOk at ok
  rw [ready] at ok
  cases awaiting : (slots i).awaiting with
  | none =>
    simp only [Option.toList_none, List.map_nil, List.append_nil]
    exact h.setQuiet awaiting (by simp) rfl rfl
  | some id =>
    have known : (id, (slots i).pendingResult) ∈ posted := by
      rcases ok with ⟨-, none_⟩ | ⟨call, id', -, same, member⟩
      · rw [awaiting] at none_
        cases none_
      · rw [awaiting] at same
        cases same
        exact member
    have idle : outstanding requests results i = [] := by
      rw [h.underWay i]
      simp [Slot.waitsFor, ready]
    simp only [Option.toList_some, List.map_cons, List.map_nil]
    refine ⟨(forall_update_iff slots (p := fun j slot =>
        outstanding requests results j = slot.waitsFor)).mpr ⟨idle, fun j _ => h.underWay j⟩,
      (forall_update_iff slots (p := fun _ => SlotOk posted)).mpr
        ⟨⟨rfl, rfl⟩, fun j _ => h.slot j⟩,
      h.tagged, h.labelled, h.numbered.returns awaiting rfl _, fun p member => ?_,
      fun p member => ?_⟩
    · rcases List.mem_append.mp member with old | new
      · exact h.sound p old
      · cases List.mem_singleton.mp new
        exact known
    · rcases h.complete p member with here | ⟨j, held⟩ | gone
      · exact .inl here
      · by_cases own : j = i
        · subst own
          obtain ⟨-, waits, result⟩ := held
          rw [awaiting] at waits
          cases waits
          refine .inr (.inr (List.mem_append_right _ ?_))
          rw [result]
          exact .head _
        · exact .inr (.inl (ready_elsewhere own held))
      · exact .inr (.inr (List.mem_append_left _ gone))

/-! ### The account over whole runs -/

/-- The account of a state. -/
def State.Delivering (s : State) : Prop :=
  Delivery s.slots s.requests s.results s.nextId s.posted s.returned

theorem delivering_create (timeoutBase : UInt64) : (State.create timeoutBase).Delivering := by
  refine ⟨fun i => rfl, fun i => ⟨rfl, rfl⟩, nofun, nofun, ⟨nofun, nofun, nofun, nofun, .nil⟩,
    nofun, nofun⟩

/-- Outside of a suspended call nothing is awaited. -/
theorem Delivery.quiet (h : Delivery slots requests results nextId posted returned)
    (waiting : (slots i).state ≠ .waiting) (ready : (slots i).state ≠ .ready) :
    (slots i).suspended = none ∧ (slots i).awaiting = none := by
  have ok := h.slot i
  unfold SlotOk at ok
  cases at_ : (slots i).state with
  | waiting => exact absurd at_ waiting
  | ready => exact absurd at_ ready
  | free | running | finished => simpa only [at_] using ok

/-- A ready slot without a suspended call awaits nothing, so resuming it returns
no result. -/
theorem Delivery.resumed (h : Delivery slots requests results nextId posted returned)
    (ready : (slots i).state = .ready) :
    (if (slots i).suspended = none then []
      else (slots i).awaiting.toList.map (·, (slots i).pendingResult)) =
      (slots i).awaiting.toList.map (·, (slots i).pendingResult) := by
  split
  · rename_i suspended
    have ok := h.slot i
    unfold SlotOk at ok
    rw [ready] at ok
    rcases ok with ⟨-, awaiting⟩ | ⟨call, id, some_, -⟩
    · rw [awaiting]
      rfl
    · rw [suspended] at some_
      cases some_
  · rfl

section moves

variable {mode : Mode} {s s' : State}

theorem State.Delivering.accept_iff (h : s.Delivering) {r : Request} (member : r ∈ s.requests) :
    r.sqe.opcode = opAccept ↔ r.tag = tagAccept := by
  rcases h.tagged r member with ⟨opcode, tag⟩ | ⟨opcode, i, tag⟩
  · exact iff_of_true opcode tag
  · exact iff_of_false opcode (by rw [tag]; exact slotTag_ne_tagAccept i)

theorem Delivery.same (h : Delivery slots s.requests results s.nextId posted returned)
    (same : SameRequests s s') :
    Delivery slots s'.requests results s'.nextId posted returned := by
  rw [same.nextId]
  exact h.perm same.requests (.refl _)

theorem Delivery.arms (h : Delivery slots s.requests results s.nextId posted returned)
    (arms : Arms s s') : Delivery slots s'.requests results s'.nextId posted returned := by
  rcases arms with ⟨fd, submitted⟩ | ⟨-, same⟩
  · rw [submitted.nextId]
    exact (h.accept rfl rfl).perm submitted.requests (.refl _)
  · exact h.same same

theorem Delivery.takeIn {fd : Int}
    (h : Delivery s.slots requests results nextId posted returned) (admission : Admission s s' fd) :
    Delivery s'.slots requests results nextId posted returned := by
  cases admission with
  | failed _ slots | refused _ slots =>
    rw [slots]
    exact h
  | admitted _ free _ slots | rolledBack _ free slots =>
    have quiet := h.quiet (by rw [free]; decide) (by rw [free]; decide)
    rw [slots]
    exact h.setQuiet quiet.2 nofun (by simp [quiet.1]) quiet.2

theorem State.Delivering.move (h : s.Delivering) (move : Move mode s s') : s'.Delivering := by
  unfold State.Delivering at h ⊢
  cases move with
  | shuffle slots requests results books =>
    rw [slots, books.posted, books.returned]
    exact (h.perm (.refl _) results).same requests
  | suspend call running opcode tag slots submitted results books =>
    rw [slots, results, books.posted, books.returned, submitted.nextId]
    exact (h.suspend running opcode tag call).perm submitted.requests (.refl _)
  | resume ready slots requests results posted returned =>
    rw [slots, results, posted, returned, h.resumed ready]
    exact (h.resume ready).same requests
  | finish before slots requests results books | release before slots requests results books =>
    have quiet := h.quiet (by rw [before]; decide) (by rw [before]; decide)
    rw [slots, results, books.posted, books.returned]
    refine Delivery.same ?_ requests
    exact h.setQuiet quiet.2 nofun quiet.1 quiet.2
  | close running _ slots requests results books =>
    have quiet := h.quiet (by rw [running]; decide) (by rw [running]; decide)
    rw [slots, results, books.posted, books.returned]
    refine Delivery.same ?_ requests
    exact h.setQuiet quiet.2 (by simp [running]) quiet.1 quiet.2
  | complete _ slots requests nextId results posted returned =>
    rw [slots, nextId, posted, returned]
    exact ((h.perm requests.symm (.refl _)).completed _).perm (.refl _) results
  | deliver tag named waiting slots requests results books =>
    have pending := h.perm (.refl _) results.symm
    obtain ⟨j, own, -, awaiting, alone⟩ := pending.finds tag
    rw [own, slotOfTag_slotTag] at named
    cases named
    rw [slots, books.posted, books.returned]
    exact (pending.deliver own waiting awaiting alone).same requests
  | drop tag stray slots requests results books =>
    obtain ⟨j, own, waiting, -⟩ := (h.perm (.refl _) results.symm).finds tag
    exact absurd waiting (stray j (by rw [own, slotOfTag_slotTag]))
  | accept tag results admission books _ _ next =>
    rw [books.posted, books.returned]
    have admitted := ((h.perm (.refl _) results.symm).accepted tag).takeIn admission
    split at next
    · exact admitted.arms next
    · exact admitted.same next
  | serve slots results books _ _ _ next =>
    rw [slots, results, books.posted, books.returned]
    exact h.arms next

theorem State.Delivering.destroy (h : s.Delivering) (idle : s.pc = .idle) :
    s.lioLoopDestroy.Delivering := by
  have results : s.lioLoopDestroy.results = s.results := by
    simp [State.results, State.batch, idle, State.lioLoopDestroy]
  unfold State.Delivering at h ⊢
  rw [results]
  exact h

/-- A step posts nothing, or one result for a request that had none. -/
theorem State.Delivering.posted_once (h : s.Delivering) (once : (s.posted.map Prod.fst).Nodup)
    (move : Move mode s s') : (s'.posted.map Prod.fst).Nodup := by
  cases move with
  | shuffle _ _ _ books | serve _ _ books | accept _ _ _ books
  | suspend _ _ _ _ _ _ _ books | deliver _ _ _ _ _ _ books | drop _ _ _ _ _ books
  | finish _ _ _ _ books | close _ _ _ _ _ books | release _ _ _ _ books =>
    rw [books.posted]
    exact once
  | resume _ _ _ _ posted =>
    rw [posted]
    exact once
  | complete _ _ requests _ _ posted =>
    rw [posted]
    split
    · exact once
    · rename_i opcode
      have new := (h.perm requests.symm (.refl _)).unposted opcode
      rw [List.map_append, List.nodup_append]
      refine ⟨once, List.nodup_singleton _, ?_⟩
      rintro a old b fresh rfl
      cases List.mem_singleton.mp fresh
      exact new old

theorem posted_once_of_reachable (reachable : (system mode).Reachable s) :
    (s.posted.map Prod.fst).Nodup := by
  refine (invariant_of_moves (I := fun s => s.Delivering ∧ (s.posted.map Prod.fst).Nodup)
    (fun timeoutBase => ⟨delivering_create timeoutBase, .nil⟩) (fun h move => ?_)
    (fun idle h => ?_) reachable).2
  · exact ⟨h.1.move move, h.1.posted_once h.2 move⟩
  · exact ⟨h.1.destroy idle, h.2⟩

theorem delivering_of_reachable (reachable : (system mode).Reachable s) : s.Delivering :=
  invariant_of_moves delivering_create (fun h move => h.move move)
    (fun idle h => h.destroy idle) reachable

end moves

/-- In every run of the loop, a slot has at most one request under way, the one
its suspended call submitted. A completion with a slot's tag finds that call
waiting for it and makes the slot ready with its result; resuming the slot returns
it to the call. No result is posted or returned twice, only posted results are
returned, and a posted result is returned or still on its way. -/
theorem completions_reach_waiting_call {s : State} (reachable : (system .loop).Reachable s) :
    (∀ i, (outstanding s.requests s.results i).length ≤ 1) ∧
    (∀ i id, id ∈ outstanding s.requests s.results i ↔
      (s.slots i).state = .waiting ∧ (s.slots i).awaiting = some id) ∧
    (∀ c batch stack, s.pc = .process (c :: batch) → c.tag ≠ tagAccept →
      ∃ i call s', c.tag = State.slotTag i ∧ (s.slots i).state = .waiting ∧
        (s.slots i).suspended = some call ∧ (s.slots i).awaiting = some c.id ∧
        s.advance .loop stack = some s' ∧
        s'.slots = update s.slots i
          { s.slots i with state := .ready, pendingResult := c.result }) ∧
    (∀ i call, (s.slots i).state = .ready → (s.slots i).suspended = some call →
      ∃ id, (s.slots i).awaiting = some id ∧ (id, (s.slots i).pendingResult) ∈ s.posted ∧
        (s.resume i).returned = s.returned ++ [(id, (s.slots i).pendingResult)] ∧
        (s.resume i).pc = s.continueCall i (s.slots i).pendingResult call) ∧
    (s.posted.map Prod.fst).Nodup ∧ (s.returned.map Prod.fst).Nodup ∧
    (∀ p ∈ s.returned, p ∈ s.posted) ∧
    (∀ p ∈ s.posted, (∃ c ∈ s.results, c.tag ≠ tagAccept ∧ (c.id, c.result) = p) ∨
      (∃ i, (s.slots i).state = .ready ∧ (s.slots i).awaiting = some p.1 ∧
        (s.slots i).pendingResult = p.2) ∨ p ∈ s.returned) := by
  have h : Delivery s.slots s.requests s.results s.nextId s.posted s.returned :=
    delivering_of_reachable reachable
  refine ⟨fun i => ?_, fun i id => ?_, fun c batch stack at_ tag => ?_,
    fun i call ready known => ?_, posted_once_of_reachable reachable, h.numbered.once, h.sound,
    h.complete⟩
  · rw [h.underWay i]
    exact length_waitsFor _
  · rw [h.underWay i]
    refine ⟨Slot.of_mem_waitsFor, ?_⟩
    rintro ⟨waiting, awaiting⟩
    simp [Slot.waitsFor, waiting, awaiting]
  · have results : s.results.Perm (c :: (s.completions ++ batch)) := by
      unfold State.results State.batch
      rw [at_]
      exact List.perm_middle
    obtain ⟨i, named, waiting, awaiting, -⟩ := (h.perm (.refl _) results.symm).finds tag
    have ok := h.slot i
    unfold SlotOk at ok
    rw [waiting] at ok
    obtain ⟨call, -, suspended, -⟩ := ok
    refine ⟨i, call, { s.processResult c with pc := .process batch }, named, waiting, suspended,
      awaiting, ?_, ?_⟩
    · unfold State.advance
      rw [at_]
      exact if_neg tag
    · unfold State.processResult
      rw [named, slotOfTag_slotTag]
      dsimp only
      rw [if_pos waiting]
      rfl
  · have ok := h.slot i
    unfold SlotOk at ok
    rw [ready] at ok
    rcases ok with ⟨none_, -⟩ | ⟨-, id, -, awaiting, posted⟩
    · rw [known] at none_
      cases none_
    · refine ⟨id, awaiting, posted, ?_, ?_⟩
      · unfold State.resume
        simp [known, awaiting]
      · unfold State.resume
        simp [known]

/-- One connection is accepted and its handler reads; the batch being processed
holds the completion of the read. -/
def readCompleted : List Action :=
  [.serve 3, .run, .advance none, .advance none, .advance none, .consume, .complete 0 5,
    .advance none, .advance (some 4096), .advance none, .advance none, .advance none,
    .handle (.read 8192 100), .advance none, .advance none, .advance none, .advance none,
    .consume, .consume, .complete 1 100, .advance none]

theorem completions_reach_waiting_call_read :
    ∃ s, (system .loop).Reachable s ∧ s.pc = .process [⟨2, 0, 100⟩] ∧
      ∃ i call s', (0 : UInt64) = State.slotTag i ∧ (s.slots i).state = .waiting ∧
        (s.slots i).suspended = some call ∧ (s.slots i).awaiting = some 2 ∧
        s.advance .loop none = some s' ∧
        s'.slots = update s.slots i
          { s.slots i with state := .ready, pendingResult := 100 } := by
  obtain ⟨s, reachable, at_⟩ : ∃ s, (system .loop).Reachable s ∧ s.pc = .process [⟨2, 0, 100⟩] :=
    exists_of_follow .loop readCompleted (by decide +kernel)
  exact ⟨_, reachable, at_,
    (completions_reach_waiting_call reachable).2.2.1 ⟨2, 0, 100⟩ [] none at_ (by decide)⟩

end Lightc.Lightio
