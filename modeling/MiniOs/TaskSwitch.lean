/-
**The context switch (`src/task_switch.S`) and the records it saves registers in.**

`task_context_switch` stores the callee-saved registers of the running task in the record its first
argument points to, loads those of another task from the record its second argument points to, and
returns to the caller of the other task.  Here the instructions are executed one by one over a CPU
state and the records, each addressed by byte offsets.

Main definitions:

* `Task.Cpu`, `Task.Context`, `Task.Machine` — the registers, a record, and both together;
* `Task.Instr`, `Task.exec` — the instructions of the listing and their effect;
* `Task.taskContextSwitch` — the listing;
* `Task.Context.Holds` — a record holds the callee-saved registers of a CPU state.

Main results:

* `Task.exec_taskContextSwitch` — **the switch saves the registers in one record, loads them from the
  other, and touches no third record**.
-/

import Mathlib.Logic.Function.Basic
import Mathlib.Tactic.IntervalCases
import MiniOs.Machine

set_option relaxedAutoImplicit false
set_option autoImplicit false

universe u

namespace MiniOs

namespace Task

/-! ### Registers and records -/

/-- The CPU state: the general registers `x0` to `x30`, the stack pointer, and the address at which
execution continues. -/
structure Cpu where
  x : ℕ → Word
  sp : Word
  pc : Word

/-- A `task_context` record, as the 64-bit word stored at a byte offset. -/
abbrev Context := ℕ → Word

/-- `TASK_CONTEXT_X19_OFFSET`. -/
def taskContextX19Offset : ℕ := 0

/-- `TASK_CONTEXT_X20_OFFSET`. -/
def taskContextX20Offset : ℕ := 8

/-- `TASK_CONTEXT_X21_OFFSET`. -/
def taskContextX21Offset : ℕ := 16

/-- `TASK_CONTEXT_X22_OFFSET`. -/
def taskContextX22Offset : ℕ := 24

/-- `TASK_CONTEXT_X23_OFFSET`. -/
def taskContextX23Offset : ℕ := 32

/-- `TASK_CONTEXT_X24_OFFSET`. -/
def taskContextX24Offset : ℕ := 40

/-- `TASK_CONTEXT_X25_OFFSET`. -/
def taskContextX25Offset : ℕ := 48

/-- `TASK_CONTEXT_X26_OFFSET`. -/
def taskContextX26Offset : ℕ := 56

/-- `TASK_CONTEXT_X27_OFFSET`. -/
def taskContextX27Offset : ℕ := 64

/-- `TASK_CONTEXT_X28_OFFSET`. -/
def taskContextX28Offset : ℕ := 72

/-- `TASK_CONTEXT_X29_OFFSET`. -/
def taskContextX29Offset : ℕ := 80

/-- `TASK_CONTEXT_X30_OFFSET`. -/
def taskContextX30Offset : ℕ := 88

/-- `TASK_CONTEXT_SP_OFFSET`. -/
def taskContextSpOffset : ℕ := 96

/-- The record holds the callee-saved registers and the stack pointer of the CPU state. -/
structure Context.Holds (context : Context) (cpu : Cpu) : Prop where
  x : ∀ r, 19 ≤ r → r ≤ 30 → context (8 * (r - 19)) = cpu.x r
  sp : context taskContextSpOffset = cpu.sp

/-! ### Instructions -/

/-- The base registers of the listing.  They hold its two arguments, which no instruction of it
changes. -/
inductive Base
  | x0
  | x1

/-- The instructions of the listing; registers are given by their numbers. -/
inductive Instr
  | stp (rt rt2 : ℕ) (rn : Base) (imm : ℕ)
  | str (rt : ℕ) (rn : Base) (imm : ℕ)
  | ldp (rt rt2 : ℕ) (rn : Base) (imm : ℕ)
  | ldr (rt : ℕ) (rn : Base) (imm : ℕ)
  | movFromSp (rd : ℕ)
  | movToSp (rn : ℕ)
  | ret

/-- The CPU together with the records, which are named by the type `ρ`. -/
structure Machine (ρ : Type u) where
  cpu : Cpu
  mem : ρ → Context

variable {ρ : Type u} [DecidableEq ρ]

/-- Store a word at an offset of a record. -/
def storeWord (mem : ρ → Context) (r : ρ) (offset : ℕ) (value : Word) : ρ → Context :=
  Function.update mem r (Function.update (mem r) offset value)

/-- Write a general register. -/
def Cpu.setX (cpu : Cpu) (rd : ℕ) (value : Word) : Cpu :=
  { cpu with x := Function.update cpu.x rd value }

/-- The effect of an instruction, when the base registers point to the records `ptr` names. -/
def Instr.exec (ptr : Base → ρ) : Instr → Machine ρ → Machine ρ
  | .stp rt rt2 rn imm, m =>
      { m with
        mem := storeWord (storeWord m.mem (ptr rn) imm (m.cpu.x rt)) (ptr rn) (imm + 8)
          (m.cpu.x rt2) }
  | .str rt rn imm, m => { m with mem := storeWord m.mem (ptr rn) imm (m.cpu.x rt) }
  | .ldp rt rt2 rn imm, m =>
      { m with
        cpu := (m.cpu.setX rt (m.mem (ptr rn) imm)).setX rt2 (m.mem (ptr rn) (imm + 8)) }
  | .ldr rt rn imm, m => { m with cpu := m.cpu.setX rt (m.mem (ptr rn) imm) }
  | .movFromSp rd, m => { m with cpu := m.cpu.setX rd m.cpu.sp }
  | .movToSp rn, m => { m with cpu := { m.cpu with sp := m.cpu.x rn } }
  | .ret, m => { m with cpu := { m.cpu with pc := m.cpu.x 30 } }

/-- The effect of a listing, instruction by instruction. -/
def exec (ptr : Base → ρ) (listing : List Instr) (m : Machine ρ) : Machine ρ :=
  listing.foldl (fun m i => i.exec ptr m) m

/-- The first half of `task_context_switch`: save the registers of the caller. -/
def saveRegisters : List Instr :=
  [.stp 19 20 .x0 taskContextX19Offset,
    .stp 21 22 .x0 taskContextX21Offset,
    .stp 23 24 .x0 taskContextX23Offset,
    .stp 25 26 .x0 taskContextX25Offset,
    .stp 27 28 .x0 taskContextX27Offset,
    .stp 29 30 .x0 taskContextX29Offset,
    .movFromSp 2,
    .str 2 .x0 taskContextSpOffset]

/-- The second half of `task_context_switch`: load the registers of the other task and return. -/
def loadRegisters : List Instr :=
  [.ldp 19 20 .x1 taskContextX19Offset,
    .ldp 21 22 .x1 taskContextX21Offset,
    .ldp 23 24 .x1 taskContextX23Offset,
    .ldp 25 26 .x1 taskContextX25Offset,
    .ldp 27 28 .x1 taskContextX27Offset,
    .ldp 29 30 .x1 taskContextX29Offset,
    .ldr 2 .x1 taskContextSpOffset,
    .movToSp 2,
    .ret]

/-- The listing of `task_context_switch`. -/
def taskContextSwitch : List Instr := saveRegisters ++ loadRegisters

/-- The records that `x0` and `x1` point to when `task_context_switch` is called with `previous` and
`next`. -/
def arguments (previous next : ρ) : Base → ρ
  | .x0 => previous
  | .x1 => next

/-! ### What the switch does -/

theorem storeWord_self (mem : ρ → Context) (r : ρ) (offset : ℕ) (value : Word) (off : ℕ) :
    storeWord mem r offset value r off = if off = offset then value else mem r off := by
  rw [storeWord, Function.update_self, Function.update_apply]

theorem storeWord_of_ne (mem : ρ → Context) {r r' : ρ} (h : r' ≠ r) (offset : ℕ) (value : Word) :
    storeWord mem r offset value r' = mem r' := Function.update_of_ne h _ _

/-- The first half stores the callee-saved registers in the record `x0` points to. -/
theorem exec_saveRegisters (previous next : ρ) (m : Machine ρ) :
    ((exec (arguments previous next) saveRegisters m).mem previous).Holds m.cpu ∧
      ∀ r, r ≠ previous → (exec (arguments previous next) saveRegisters m).mem r = m.mem r := by
  refine ⟨⟨?_, ?_⟩, ?_⟩
  · intro r hlo hhi
    interval_cases r <;>
      simp [exec, saveRegisters, Instr.exec, arguments, storeWord_self, Cpu.setX,
        taskContextX19Offset, taskContextX21Offset, taskContextX23Offset, taskContextX25Offset,
        taskContextX27Offset, taskContextX29Offset, taskContextSpOffset]
  · simp [exec, saveRegisters, Instr.exec, arguments, storeWord_self, Cpu.setX]
  · intro r hr
    simp [exec, saveRegisters, Instr.exec, arguments, storeWord_of_ne _ hr]

/-- The second half loads the callee-saved registers from the record `x1` points to. -/
theorem exec_loadRegisters (previous next : ρ) (m : Machine ρ) :
    (m.mem next).Holds (exec (arguments previous next) loadRegisters m).cpu ∧
      (exec (arguments previous next) loadRegisters m).cpu.pc = m.mem next taskContextX30Offset ∧
      (exec (arguments previous next) loadRegisters m).mem = m.mem := by
  refine ⟨⟨?_, ?_⟩, ?_, ?_⟩
  · intro r hlo hhi
    interval_cases r <;>
      simp [exec, loadRegisters, Instr.exec, arguments, Cpu.setX,
        taskContextX19Offset, taskContextX21Offset, taskContextX23Offset, taskContextX25Offset,
        taskContextX27Offset, taskContextX29Offset]
  · simp [exec, loadRegisters, Instr.exec, arguments, Cpu.setX]
  · simp [exec, loadRegisters, Instr.exec, arguments, Cpu.setX, taskContextX29Offset,
      taskContextX30Offset]
  · simp [exec, loadRegisters, Instr.exec]

/-- **What the switch does**: it saves the callee-saved registers in one record, loads them from the
other and continues at the loaded `x30`, and touches no third record. -/
theorem exec_taskContextSwitch {previous next : ρ} (hne : next ≠ previous) (m : Machine ρ) :
    ((exec (arguments previous next) taskContextSwitch m).mem previous).Holds m.cpu ∧
      (m.mem next).Holds (exec (arguments previous next) taskContextSwitch m).cpu ∧
      (exec (arguments previous next) taskContextSwitch m).cpu.pc =
        m.mem next taskContextX30Offset ∧
      ∀ r, r ≠ previous → (exec (arguments previous next) taskContextSwitch m).mem r = m.mem r := by
  obtain ⟨hsave, hframe⟩ := exec_saveRegisters previous next m
  obtain ⟨hload, hpc, hmem⟩ := exec_loadRegisters previous next
    (exec (arguments previous next) saveRegisters m)
  have hsplit : exec (arguments previous next) taskContextSwitch m =
      exec (arguments previous next) loadRegisters
        (exec (arguments previous next) saveRegisters m) :=
    List.foldl_append
  rw [hframe next hne] at hload hpc
  rw [hsplit, hmem]
  exact ⟨hsave, hload, hpc, hframe⟩

end Task

end MiniOs
