import Lightc.Coroutines.Model
import Lightc.Machine.X86

/-!
# The first switch to a coroutine on x86-64

A fresh coroutine has a context whose stack pointer shows to the address of a
trampoline, near the top of the coroutine's stack. `lc_coroutine_switch` saves the
registers of its caller in one context, loads those of another one and returns;
its `ret` pops the address of the trampoline and jumps there. The trampoline is a
function like any other, so the stack pointer must be 8 modulo 16 when it is
entered.

`lc_coroutine_create` and the event loop's `init_coroutine_for_slot` prepare such a
context, each in its own way: the one reserves sixteen bytes of an aligned stack
and the other eight.
-/

namespace Lightc.Coroutines.Frame

open Machine Machine.X86

/-- `lc_coroutine_context`: the registers and their offsets. -/
def contextLayout : List (Reg × Nat) :=
  [(.rbx, 0), (.rbp, 8), (.r12, 16), (.r13, 24), (.r14, 32), (.r15, 40), (.rsp, 48)]

def contextSize : Nat := 56

/-- Where a register stands in a context. -/
def offsetOf (r : Reg) : Nat := (contextLayout.lookup r).getD 0

/-- The caller's registers are saved at `rdi`, and others are loaded from `rsi`. -/
def exchangeRegisters : List Instr := saveAll .rdi contextLayout ++ restoreAll .rsi contextLayout

def lcCoroutineSwitch : List Instr := exchangeRegisters ++ [.ret]

/-! ### Fresh contexts -/

/-- `LIO_STACK_SIZE`. -/
def lioStackSize : Nat := 64 * 1024

/-- `lc_bytes_fill` over the whole context. -/
def zeroContext (context : Nat) (memory : Memory) : Memory :=
  storeBytes memory context (List.replicate contextSize 0)

/-- Assignment to a field of the context. -/
def setField (context : Nat) (r : Reg) (value : Nat) (memory : Memory) : Memory :=
  storeBytes memory (context + offsetOf r) (wordBytes 8 value)

/-- Assignments to some fields, one after the other. -/
def setFields (context : Nat) (fields : List (Reg × Nat)) (memory : Memory) : Memory :=
  fields.foldl (fun memory (r, value) => setField context r value memory) memory

/-- Assignment to the word `stack_top` points to. -/
def setWord (address value : Nat) (memory : Memory) : Memory :=
  storeBytes memory address (wordBytes 8 value)

/-- The context that `lc_coroutine_create` makes, on a stack with a guard page. -/
def lcCoroutineCreate (context stack pageSize trampoline : Nat) (memory : Memory) : Memory :=
  let totalSize := add64 Scheduler.stackSize pageSize
  let memory := zeroContext context memory
  -- `stack_top -= 2`
  let stackTop := sub64 (add64 stack totalSize) 16
  let memory := setWord stackTop trampoline memory
  setFields context [(.rsp, stackTop), (.rbp, 0)] memory

/-- The context that `init_coroutine_for_slot` makes. -/
def initCoroutineForSlot (context stack trampoline : Nat) (memory : Memory) : Memory :=
  let memory := zeroContext context memory
  -- `stack_top--`
  let stackTop := sub64 (add64 stack lioStackSize) 8
  let memory := setWord stackTop trampoline memory
  setFields context
    [(.rsp, stackTop), (.rbp, 0), (.rbx, 0), (.r12, 0), (.r13, 0), (.r14, 0), (.r15, 0)] memory

/-- Who prepares the context. -/
inductive Builder
  | lcCoroutineCreate
  | initCoroutineForSlot
  deriving DecidableEq

namespace Builder

def build : Builder → (context stack pageSize trampoline : Nat) → Memory → Memory
  | lcCoroutineCreate => Frame.lcCoroutineCreate
  | initCoroutineForSlot => fun context stack _ => Frame.initCoroutineForSlot context stack

/-- The size of the mapping. -/
def totalSize : Builder → Nat → Nat
  | lcCoroutineCreate, pageSize => add64 Scheduler.stackSize pageSize
  | initCoroutineForSlot, _ => lioStackSize

/-- The bytes at the bottom of the mapping that must not be touched. -/
def guardSize : Builder → Nat → Nat
  | lcCoroutineCreate, pageSize => pageSize
  | initCoroutineForSlot, _ => 0

/-- The bytes reserved at the top of the stack. -/
def reserved : Builder → Nat
  | lcCoroutineCreate => 16
  | initCoroutineForSlot => 8

/-- Where the address of the trampoline is put. -/
def stackTop (b : Builder) (stack pageSize : Nat) : Nat :=
  sub64 (add64 stack (b.totalSize pageSize)) b.reserved

end Builder

/-- What a builder is given: a mapping of its size at a page boundary, a context elsewhere, and
the address of a trampoline. A page size is a power of two from 4096 to `2^63`. -/
structure Setting (b : Builder) where
  pageSize : Nat
  stack : Nat
  context : Nat
  trampoline : Nat
  memory : Memory
  pages : 4096 ∣ pageSize
  pageFits : pageSize ≤ 2 ^ 63
  aligned : pageSize ∣ stack
  fits : stack + b.totalSize pageSize ≤ 2 ^ 64
  contextFits : context + contextSize ≤ 2 ^ 64
  apart : ∀ x, Within context contextSize x → ¬ Within stack (b.totalSize pageSize) x
  address : trampoline < 2 ^ 64

namespace Setting

variable {b : Builder}

/-- The memory the builder leaves. -/
def built (s : Setting b) : Memory :=
  b.build s.context s.stack s.pageSize s.trampoline s.memory

def stackTop (s : Setting b) : Nat := b.stackTop s.stack s.pageSize

end Setting

/-! ### What the builders leave -/

section

variable {context : Nat} {memory : Memory} {fields : List (Reg × Nat)}

theorem offsetOf_le (r : Reg) : offsetOf r + 8 ≤ contextSize := by
  cases r <;> decide

/-- A word outside the context is not changed by assignments to its fields. -/
theorem loadWord_setFields_outside {address : Nat}
    (outside : ∀ x, Within address 8 x → ¬ Within context contextSize x) :
    loadWord (setFields context fields memory) address 8 = loadWord memory address 8 := by
  induction fields generalizing memory with
  | nil => rfl
  | cons field rest ih =>
    refine ih.trans (loadWord_congr fun i below => storeBytes_outside ?_)
    have offset := offsetOf_le field.1
    have missed := outside (address + i) ⟨by omega, by omega⟩
    rw [length_wordBytes]
    unfold Within at missed
    omega

/-- The stack pointer is the last field, and the others do not reach into it. -/
theorem loadWord_setFields_rsp (others : ∀ field ∈ fields, offsetOf field.1 + 8 ≤ offsetOf .rsp) :
    loadWord (setFields context fields memory) (context + offsetOf .rsp) 8 =
      loadWord memory (context + offsetOf .rsp) 8 := by
  induction fields generalizing memory with
  | nil => rfl
  | cons field rest ih =>
    have below := others field List.mem_cons_self
    refine (ih fun field later => others field (List.mem_cons_of_mem _ later)).trans ?_
    apply loadWord_storeBytes_disjoint
    rw [length_wordBytes]
    omega

/-- What is assigned to the stack pointer first stays there. -/
theorem loadWord_setFields_first {value : Nat} (word : value < 2 ^ 64)
    (others : ∀ field ∈ fields, offsetOf field.1 + 8 ≤ offsetOf .rsp) :
    loadWord (setFields context ((.rsp, value) :: fields) memory) (context + offsetOf .rsp) 8 =
      value :=
  calc loadWord (setFields context ((.rsp, value) :: fields) memory) (context + offsetOf .rsp) 8
    _ = loadWord (setField context .rsp value memory) (context + offsetOf .rsp) 8 :=
        loadWord_setFields_rsp others
    _ = value % 256 ^ 8 := loadWord_storeBytes_same 8 value
    _ = value := Nat.mod_eq_of_lt word

end

variable {b : Builder} {s : Setting b}

/-- The sizes, without the wrap-around that cannot happen. -/
theorem Setting.totalSize_eq (s : Setting b) :
    b.totalSize s.pageSize = 65536 + b.guardSize s.pageSize := by
  cases b with
  | lcCoroutineCreate =>
    have pageFits := s.pageFits
    exact add64_of_lt (by unfold Scheduler.stackSize; omega)
  | initCoroutineForSlot => rfl

/-- The trampoline's address lies below the top of the stack, in its usable part. -/
theorem Setting.stackTop_eq (s : Setting b) :
    s.stackTop = s.stack + b.totalSize s.pageSize - b.reserved := by
  have total := s.totalSize_eq
  have fits := s.fits
  have few : b.reserved = 16 ∨ b.reserved = 8 := by cases b <;> decide
  unfold Setting.stackTop Builder.stackTop add64 sub64
  omega

theorem Setting.stackTop_inside (s : Setting b) :
    s.stack + b.guardSize s.pageSize ≤ s.stackTop ∧
      s.stackTop + 8 ≤ s.stack + b.totalSize s.pageSize := by
  have total := s.totalSize_eq
  have few : b.reserved = 16 ∨ b.reserved = 8 := by cases b <;> decide
  rw [s.stackTop_eq]
  omega

/-- The word with the trampoline's address is not part of the context. -/
theorem Setting.stackTop_apart (s : Setting b) (x : Nat) (inside : Within s.stackTop 8 x) :
    ¬ Within s.context contextSize x := by
  intro both
  have place := s.stackTop_inside
  obtain ⟨low, high⟩ := inside
  exact s.apart x both ⟨by omega, by omega⟩

/-- Both builders put the trampoline on the stack and then fill in the context, the stack pointer
first. -/
theorem Setting.built_eq (s : Setting b) :
    ∃ fields memory, (∀ field ∈ fields, offsetOf field.1 + 8 ≤ offsetOf .rsp) ∧
      s.built = setFields s.context ((.rsp, s.stackTop) :: fields)
        (setWord s.stackTop s.trampoline memory) := by
  cases b with
  | lcCoroutineCreate =>
    exact ⟨[(.rbp, 0)], zeroContext s.context s.memory, by decide, rfl⟩
  | initCoroutineForSlot =>
    exact ⟨[(.rbp, 0), (.rbx, 0), (.r12, 0), (.r13, 0), (.r14, 0), (.r15, 0)],
      zeroContext s.context s.memory, by decide, rfl⟩

/-- The new context has the stack pointer, -/
@[simp] theorem loadWord_built_rsp (s : Setting b) :
    loadWord s.built (s.context + offsetOf .rsp) 8 = s.stackTop := by
  have place := s.stackTop_inside
  have fits := s.fits
  obtain ⟨fields, memory, others, built⟩ := s.built_eq
  rw [built]
  exact loadWord_setFields_first (by omega) others

/-- and the first word of the stack is the trampoline. -/
@[simp] theorem loadWord_built_stackTop (s : Setting b) :
    loadWord s.built s.stackTop 8 = s.trampoline := by
  obtain ⟨fields, memory, -, built⟩ := s.built_eq
  rw [built, loadWord_setFields_outside s.stackTop_apart, setWord, loadWord_storeBytes_same]
  exact Nat.mod_eq_of_lt s.address

/-! ### The first switch -/

/-- The first switch to the new context, from any code: it has not been touched meanwhile, nor
has its stack, and the registers are saved elsewhere. -/
structure FirstSwitch (s : Setting b) (m : Cpu) : Prop where
  restore : m.regs .rsi = s.context
  saveFits : m.regs .rdi + contextSize ≤ 2 ^ 64
  contextUntouched : ∀ x, Within s.context contextSize x → m.memory x = s.built x
  stackUntouched : ∀ x, Within s.stack (b.totalSize s.pageSize) x → m.memory x = s.built x
  contextApart : ∀ x, Within s.context contextSize x → ¬ Within (m.regs .rdi) contextSize x
  stackApart : ∀ x, Within s.stack (b.totalSize s.pageSize) x →
    ¬ Within (m.regs .rdi) contextSize x

variable {m : Cpu}

/-- What the caller's registers overwrite is neither part of the context nor of the stack. -/
theorem FirstSwitch.saved (h : FirstSwitch s m) {x : Nat}
    (ours : Within s.context contextSize x ∨ Within s.stack (b.totalSize s.pageSize) x) :
    (run (saveAll .rdi contextLayout) m).memory x = s.built x := by
  obtain context | stack := ours
  · refine (run_saveAll_outside h.saveFits (by decide) (h.contextApart x context)).trans ?_
    exact h.contextUntouched x context
  · refine (run_saveAll_outside h.saveFits (by decide) (h.stackApart x stack)).trans ?_
    exact h.stackUntouched x stack

/-- When the registers are exchanged, the stack pointer is that of the new context. -/
theorem FirstSwitch.rsp (h : FirstSwitch s m) :
    (run exchangeRegisters m).regs .rsp = s.stackTop := by
  have fits := s.contextFits
  have address : add64 s.context 48 = s.context + offsetOf .rsp :=
    add64_of_lt (by unfold contextSize at fits; omega)
  have base : (run (saveAll .rdi contextLayout) m).regs .rsi = s.context := by
    rw [run_saveAll_regs, h.restore]
  have field : (Reg.rsp, 48) ∈ contextLayout := by decide
  unfold exchangeRegisters
  rw [run_append, run_restoreAll_regs (by decide) (by decide) field, base, address,
    ← loadWord_built_rsp]
  apply loadWord_congr
  intro i below
  refine h.saved (.inl ⟨by omega, ?_⟩)
  have offset := offsetOf_le .rsp
  omega

/-- The word that is about to be popped is the trampoline. -/
theorem FirstSwitch.popped (h : FirstSwitch s m) :
    loadWord (run exchangeRegisters m).memory s.stackTop 8 = s.trampoline := by
  have place := s.stackTop_inside
  unfold exchangeRegisters
  rw [run_append, run_restoreAll_memory, ← loadWord_built_stackTop s]
  apply loadWord_congr
  intro i below
  exact h.saved (.inr ⟨by omega, by omega⟩)

/-- What the switch to a new context should do: `ret` pops the address of the trampoline from
the usable part of the mapping and enters it with the stack pointer the ABI asks for. -/
structure Enters (s : Setting b) (m : Cpu) : Prop where
  inside : s.stack + b.guardSize s.pageSize ≤ (run exchangeRegisters m).regs .rsp ∧
    (run exchangeRegisters m).regs .rsp + 8 ≤ s.stack + b.totalSize s.pageSize
  trampoline : (run lcCoroutineSwitch m).rip = s.trampoline
  aligned : (run lcCoroutineSwitch m).regs .rsp % 16 = 8

theorem FirstSwitch.rip_eq (h : FirstSwitch s m) :
    (run lcCoroutineSwitch m).rip = s.trampoline := by
  unfold lcCoroutineSwitch
  rw [run_append, run_cons, run_nil, step_ret_rip, h.rsp, h.popped]

theorem FirstSwitch.rsp_eq (h : FirstSwitch s m) :
    (run lcCoroutineSwitch m).regs .rsp = add64 s.stackTop 8 := by
  unfold lcCoroutineSwitch
  rw [run_append, run_cons, run_nil, step_ret_rsp, h.rsp]

/-- The stack pointer on entry depends on nothing but the bytes reserved. -/
@[simp] theorem Setting.entry_mod (s : Setting b) : (add64 s.stackTop 8 + b.reserved) % 16 = 8 := by
  have pages : 4096 ∣ s.stack := Nat.dvd_trans s.pages s.aligned
  have guard : 4096 ∣ b.guardSize s.pageSize := by
    cases b with
    | lcCoroutineCreate => exact s.pages
    | initCoroutineForSlot => exact Nat.dvd_zero _
  have total := s.totalSize_eq
  have few : b.reserved = 16 ∨ b.reserved = 8 := by cases b <;> decide
  rw [s.stackTop_eq]
  unfold add64
  omega

/-- On the first switch to a fresh coroutine the trampoline is entered with the stack pointer
that the ABI asks for exactly if `lc_coroutine_create` has prepared the context. -/
theorem fresh_stack_enters_iff (b : Builder) (s : Setting b) (m : Cpu) (first : FirstSwitch s m) :
    Enters s m ↔ b = .lcCoroutineCreate := by
  have entry := s.entry_mod
  constructor
  · intro enters
    have aligned := enters.aligned
    rw [first.rsp_eq] at aligned
    cases b with
    | lcCoroutineCreate => rfl
    | initCoroutineForSlot =>
      have reserved : Builder.initCoroutineForSlot.reserved = 8 := rfl
      omega
  · rintro rfl
    have reserved : Builder.lcCoroutineCreate.reserved = 16 := rfl
    refine ⟨?_, first.rip_eq, ?_⟩
    · rw [first.rsp]
      exact s.stackTop_inside
    · rw [first.rsp_eq]
      omega

/-- A stack, and a context in other memory. -/
def sample (b : Builder) : Setting b where
  pageSize := 4096
  stack := 0x7f0000000000
  context := 0x10000
  trampoline := 0x401000
  memory _ := 0
  pages := Nat.dvd_refl _
  pageFits := by decide
  aligned := by decide
  fits := by cases b <;> decide
  contextFits := by decide
  apart x inside := by
    unfold Within contextSize at *
    omega
  address := by decide

/-- A caller that saves its registers in a third place. -/
def caller (b : Builder) : Cpu where
  regs
    | .rsi => 0x10000
    | .rdi => 0x20000
    | _ => 0
  rip := 0
  memory := (sample b).built

theorem firstSwitch_caller (b : Builder) : FirstSwitch (sample b) (caller b) where
  restore := rfl
  saveFits := by
    change 0x20000 + 56 ≤ 2 ^ 64
    decide
  contextUntouched _ _ := rfl
  stackUntouched _ _ := rfl
  contextApart x inside := by
    change 0x10000 ≤ x ∧ x < 0x10000 + 56 at inside
    change ¬ (0x20000 ≤ x ∧ x < 0x20000 + 56)
    omega
  stackApart x inside := by
    have high : 0x7f0000000000 ≤ x := inside.1
    change ¬ (0x20000 ≤ x ∧ x < 0x20000 + 56)
    omega

theorem fresh_stack_enters_iff_created :
    Enters (sample .lcCoroutineCreate) (caller .lcCoroutineCreate) :=
  (fresh_stack_enters_iff _ _ _ (firstSwitch_caller _)).mpr rfl

/-- The event loop enters `connection_trampoline` with an aligned stack pointer, which is the
alignment before a call and not the one after it. -/
theorem connection_entered_misaligned :
    (run lcCoroutineSwitch (caller .initCoroutineForSlot)).rip = 0x401000 ∧
      (run lcCoroutineSwitch (caller .initCoroutineForSlot)).regs .rsp = 0x7f0000010000 ∧
      ¬ Enters (sample .initCoroutineForSlot) (caller .initCoroutineForSlot) := by
  have first := firstSwitch_caller .initCoroutineForSlot
  have rsp : (run lcCoroutineSwitch (caller .initCoroutineForSlot)).regs .rsp =
      0x7f0000010000 := first.rsp_eq.trans (by decide)
  refine ⟨first.rip_eq, rsp, fun enters => ?_⟩
  have aligned := enters.aligned
  rw [rsp] at aligned
  exact absurd aligned (by decide)

end Lightc.Coroutines.Frame
