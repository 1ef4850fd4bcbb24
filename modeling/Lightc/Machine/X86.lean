import Lightc.Machine.Memory
import Lightc.Machine.Word

/-!
# A few instructions of x86-64

The instructions with which a routine stores registers to memory, loads them from
memory and returns. Registers hold 64-bit words. Stores go through memory one
after another, so a block of registers can be saved at one place and another
block loaded from a second place; `saveAll` and `restoreAll` are these two
blocks, over any list of registers with their offsets.
-/

namespace Lightc.Machine.X86

open Function

inductive Reg
  | rbx
  | rbp
  | rsp
  | rsi
  | rdi
  | r12
  | r13
  | r14
  | r15
  deriving DecidableEq, Repr

inductive Instr
  /-- `movq %src, offset(%base)`. -/
  | store (src : Reg) (offset : Nat) (base : Reg)
  /-- `movq offset(%base), %dst`. -/
  | load (offset : Nat) (base dst : Reg)
  | ret
  deriving DecidableEq, Repr

structure Cpu where
  regs : Reg → Nat
  rip : Nat
  memory : Memory

/-- The effect of an instruction. Of `rip` only the jump of a `ret` is kept. -/
def step (m : Cpu) : Instr → Cpu
  | .store src offset base =>
    { m with
      memory := storeBytes m.memory (add64 (m.regs base) offset) (wordBytes 8 (m.regs src)) }
  | .load offset base dst =>
    { m with
      regs := update m.regs dst (loadWord m.memory (add64 (m.regs base) offset) 8) }
  | .ret =>
    { m with
      rip := loadWord m.memory (m.regs .rsp) 8
      regs := update m.regs .rsp (add64 (m.regs .rsp) 8) }

/-- A `ret` pops the word at the stack pointer, -/
@[simp] theorem step_ret_rip (m : Cpu) : (step m .ret).rip = loadWord m.memory (m.regs .rsp) 8 :=
  rfl

/-- which moves up by eight. -/
@[simp] theorem step_ret_rsp (m : Cpu) : (step m .ret).regs .rsp = add64 (m.regs .rsp) 8 := by
  simp only [step, update_self]

/-- Code without jumps. -/
def run (code : List Instr) (m : Cpu) : Cpu := code.foldl step m

@[simp] theorem run_nil (m : Cpu) : run [] m = m := rfl

@[simp] theorem run_cons (i : Instr) (code : List Instr) (m : Cpu) :
    run (i :: code) m = run code (step m i) := rfl

@[simp] theorem run_append (first second : List Instr) (m : Cpu) :
    run (first ++ second) m = run second (run first m) := List.foldl_append

/-! ### Blocks of registers -/

/-- The registers of a block are stored at their offsets from `base`. -/
def saveAll (base : Reg) (block : List (Reg × Nat)) : List Instr :=
  block.map fun (r, offset) => .store r offset base

/-- The registers of a block are loaded from their offsets from `base`. -/
def restoreAll (base : Reg) (block : List (Reg × Nat)) : List Instr :=
  block.map fun (r, offset) => .load offset base r

variable {base : Reg} {block : List (Reg × Nat)} {m : Cpu}

/-- A block that is saved changes no register, -/
@[simp] theorem run_saveAll_regs (base : Reg) (block : List (Reg × Nat)) (m : Cpu) :
    (run (saveAll base block) m).regs = m.regs := by
  induction block generalizing m with
  | nil => rfl
  | cons first rest ih => exact ih (step m (.store first.1 first.2 base))

/-- and no byte outside the `size` bytes it fits into. -/
theorem run_saveAll_outside {size x : Nat} (fits : m.regs base + size ≤ 2 ^ 64)
    (offsets : ∀ field ∈ block, field.2 + 8 ≤ size) (outside : ¬ Within (m.regs base) size x) :
    (run (saveAll base block) m).memory x = m.memory x := by
  induction block generalizing m with
  | nil => rfl
  | cons first rest ih =>
    have inside := offsets first List.mem_cons_self
    have address : add64 (m.regs base) first.2 = m.regs base + first.2 :=
      add64_of_lt (by omega)
    have kept : (step m (.store first.1 first.2 base)).memory x = m.memory x := by
      apply storeBytes_outside
      rw [address, length_wordBytes]
      unfold Within at outside
      omega
    refine Eq.trans ?_ kept
    exact ih fits (fun field later => offsets field (List.mem_cons_of_mem _ later)) outside

@[simp] theorem run_restoreAll_memory (base : Reg) (block : List (Reg × Nat)) (m : Cpu) :
    (run (restoreAll base block) m).memory = m.memory := by
  induction block generalizing m with
  | nil => rfl
  | cons first rest ih => exact ih (step m (.load first.2 base first.1))

theorem run_restoreAll_other {r : Reg} (other : r ∉ block.map Prod.fst) :
    (run (restoreAll base block) m).regs r = m.regs r := by
  induction block generalizing m with
  | nil => rfl
  | cons first rest ih =>
    rw [List.map_cons, List.mem_cons, not_or] at other
    exact (ih other.2).trans (update_of_ne other.1 _ _)

/-- A register of the block gets the word at its offset. -/
theorem run_restoreAll_regs {r : Reg} {offset : Nat} (nodup : (block.map Prod.fst).Nodup)
    (foreign : base ∉ block.map Prod.fst) (field : (r, offset) ∈ block) :
    (run (restoreAll base block) m).regs r = loadWord m.memory (add64 (m.regs base) offset) 8 := by
  induction block generalizing m with
  | nil => cases field
  | cons first rest ih =>
    rw [List.map_cons, List.nodup_cons] at nodup
    rw [List.map_cons, List.mem_cons, not_or] at foreign
    obtain rfl | later := List.mem_cons.mp field
    · exact (run_restoreAll_other nodup.1).trans (update_self _ _ _)
    · have same : (step m (.load first.2 base first.1)).regs base = m.regs base :=
        update_of_ne foreign.1 _ _
      have rest := ih (m := step m (.load first.2 base first.1)) nodup.2 foreign.2 later
      rw [same] at rest
      exact rest

end Lightc.Machine.X86
