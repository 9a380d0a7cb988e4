/-
**Interrupts in the middle of a context switch (`src/task_switch.S`, `src/exception_vectors.S`).**

Interrupts are not masked while a task gives up the CPU, so `task_context_switch` may be interrupted
before any of its instructions, also where the registers of two tasks are mixed and where the stack
pointer is already that of the other task.  Each time the frame of the interrupt goes below the stack
pointer there is, and `irq_handle` runs on that stack.  Here the listing is executed over the memory of
bytes that the vectors work with, and the two records are anywhere in it.

Main definitions:

* `Vectors.switchStep` — the instructions of `task_context_switch` over a memory of bytes;
* `Vectors.Interrupted` — **an interrupt, from the exception to `eret`**;
* `Vectors.Agrees` — what the interrupted code can see.

Main results:

* `Vectors.interrupted_agrees` — an interrupt is not noticed where the frame is not in use;
* `Vectors.run_taskContextSwitch` — the switch without interrupts;
* `Vectors.switch_interrupted` — **the switch does what it does, wherever it is interrupted**.
-/

import Mathlib.Tactic.IntervalCases
import MiniOs.Disturbed
import MiniOs.ExceptionVectors
import MiniOs.TaskSwitch

set_option relaxedAutoImplicit false
set_option autoImplicit false

namespace MiniOs

namespace Vectors

open ByteMemory
open Disturbed (run run_append Runs)
open MiniOs.Task (Base Context Cpu saveRegisters loadRegisters taskContextSwitch taskContextX30Offset
  taskContextSpOffset)

/-! ### The switch over a memory of bytes -/

theorem reg_lt (n : ℕ) : n % 31 < 31 := Nat.mod_lt n (by decide)

/-- The general register with a number. -/
def reg (n : ℕ) : Reg := ⟨n % 31, reg_lt n⟩

/-- The base registers of the listing. -/
def baseReg : Base → Reg
  | .x0 => reg 0
  | .x1 => reg 1

/-- The effect of an instruction of `task_context_switch`. -/
def switchStep : Task.Instr → Machine → Machine
  | .stp rt rt2 rn imm, m =>
      { m with
        mem := store (store m.mem (m.x (baseReg rn) + BitVec.ofNat 64 imm) (m.x (reg rt)))
          (m.x (baseReg rn) + BitVec.ofNat 64 (imm + 8)) (m.x (reg rt2))
        pc := m.pc + 4#64 }
  | .str rt rn imm, m =>
      { m with
        mem := store m.mem (m.x (baseReg rn) + BitVec.ofNat 64 imm) (m.x (reg rt))
        pc := m.pc + 4#64 }
  | .ldp rt rt2 rn imm, m =>
      { (m.setX (reg rt) (load m.mem (m.x (baseReg rn) + BitVec.ofNat 64 imm))).setX (reg rt2)
          (load m.mem (m.x (baseReg rn) + BitVec.ofNat 64 (imm + 8))) with pc := m.pc + 4#64 }
  | .ldr rt rn imm, m =>
      { m.setX (reg rt) (load m.mem (m.x (baseReg rn) + BitVec.ofNat 64 imm)) with
        pc := m.pc + 4#64 }
  | .movFromSp rd, m => { m.setX (reg rd) m.sp with pc := m.pc + 4#64 }
  | .movToSp rn, m => { m.setSp (m.x (reg rn)) with pc := m.pc + 4#64 }
  | .ret, m => { m with pc := m.x (reg 30) }

/-- The size of a record. -/
def contextSize : ℕ := 104

/-- The record at an address. -/
def contextAt (mem : Mem 64) (base : Word) : Context := fun offset =>
  load mem (base + BitVec.ofNat 64 offset)

/-- The registers of a task. -/
def cpuOf (m : Machine) : Cpu := ⟨fun r => m.x (reg r), m.sp, m.pc⟩

/-! ### Interrupts -/

/-- The processor takes the exception: it notes where and in which state it was. -/
def taken (vector pstate : Word) (m : Machine) : Machine :=
  { m with elrEl1 := m.pc, spsrEl1 := m.pstate, pstate := pstate, pc := vector }

/-- **An interrupt, from the exception to `eret`.**  The memory `live` is what the handler leaves
alone. -/
inductive Interrupted (live : Word → Prop) (m : Machine) : Machine → Prop
  | irq (vector pstate returnAddress : Word) {irqHandle : Machine → Machine} :
      (taken vector pstate m).SelectsEl1 → (∀ m, FollowsConvention live m (irqHandle m)) →
      Interrupted live m (exec returnAddress irqHandle (Entry.vector .spx ++ irqEntryCommon)
        (taken vector pstate m))

/-- The machine `m'` looks like `m`. -/
structure Agrees (live : Word → Prop) (m m' : Machine) : Prop where
  x : m'.x = m.x
  spEl0 : m'.spEl0 = m.spEl0
  spEl1 : m'.spEl1 = m.spEl1
  pstate : m'.pstate = m.pstate
  pc : m'.pc = m.pc
  mem : ∀ a, live a → m'.mem a = m.mem a

variable {live : Word → Prop} {m m' u : Machine}

theorem Agrees.refl (live : Word → Prop) (m : Machine) : Agrees live m m :=
  ⟨rfl, rfl, rfl, rfl, rfl, fun _ _ => rfl⟩

theorem Agrees.trans (h : Agrees live m m') (h' : Agrees live m' u) : Agrees live m u :=
  ⟨h'.x.trans h.x, h'.spEl0.trans h.spEl0, h'.spEl1.trans h.spEl1, h'.pstate.trans h.pstate,
    h'.pc.trans h.pc, fun a ha => (h'.mem a ha).trans (h.mem a ha)⟩

/-- The frame of an interrupt that comes now is not in use. -/
def FrameFree (live : Word → Prop) (m : Machine) : Prop :=
  ∀ a, live a → ¬ InRange (framePointer m) frameSize a

/-- **An interrupt is not noticed where the frame is not in use.** -/
theorem interrupted_agrees (hfree : FrameFree live m) (h : Interrupted live m m') :
    Agrees live m m' := by
  obtain ⟨vector, pstate, returnAddress, hselects, hhandle⟩ := h
  rename_i irqHandle
  obtain ⟨p, hp, hbefore⟩ :=
    @exec_before_call returnAddress irqHandle (taken vector pstate m) .spx fun _ => hselects
  -- the call, from the state with the link register set
  have hcall := hhandle ((atCall (taken vector pstate m) p).setX 30 returnAddress)
  have hsp : ((atCall (taken vector pstate m) p).setX 30 returnAddress).sp = framePointer m :=
    Machine.sp_of_selects hp
  generalize hcalled : irqHandle ((atCall (taken vector pstate m) p).setX 30 returnAddress) = called
    at hcall
  have hselects' : called.SelectsEl1 := hcall.spSel.trans hp
  have hpointer : called.spEl1 = framePointer m := hcall.spEl1
  have hframe : HoldsFrame (taken vector pstate m) called.spEl1 called.mem := by
    rw [hpointer]
    exact (holdsFrame_storeAll _ _ m.mem).congr fun a ha => hcall.frame a (hsp.symm ▸ ha)
  have hlisting : Entry.vector .spx ++ irqEntryCommon =
      (Entry.vector .spx ++ [.msrDaifset 2, .subSp frameSize] ++ (saveGeneral ++ saveSystem)) ++
        (.blIrqHandle :: (restoreSystem ++ (restoreGeneral ++ [.addSp frameSize, .eret]))) := by
    simp only [irqEntryCommon, List.append_assoc, List.cons_append, List.nil_append]
  rw [hlisting, exec_append, hbefore, exec_cons, Instr.exec, hcalled,
    exec_after_call hselects' hframe]
  refine ⟨rfl, hcall.spEl0, ?_, rfl, rfl, fun a ha => (hcall.live a ha).trans ?_⟩
  · rw [hpointer]
    exact BitVec.sub_add_cancel _ _
  · exact storeAll_outside (fun _ hq => frameItems_le hq) frameSize_le (hfree a ha)

/-! ### The switch without interrupts -/

/-- The registers that an instruction stores or loads, with the offsets. -/
def recordTransfers : Task.Instr → List (Reg × ℕ)
  | .stp rt rt2 _ imm => [(reg rt, imm), (reg rt2, imm + 8)]
  | .str rt _ imm => [(reg rt, imm)]
  | .ldp rt rt2 _ imm => [(reg rt, imm), (reg rt2, imm + 8)]
  | .ldr rt _ imm => [(reg rt, imm)]
  | _ => []

/-- The instruction stores in the record that `x0` points to. -/
def storesX0 : Task.Instr → Bool
  | .stp _ _ .x0 _ => true
  | .str _ .x0 _ => true
  | _ => false

/-- The instruction loads from the record that `x1` points to, and not into `x0` or `x1`. -/
def loadsX1 : Task.Instr → Bool
  | .ldp rt rt2 .x1 _ => decide (2 ≤ rt % 31 ∧ 2 ≤ rt2 % 31)
  | .ldr rt .x1 _ => decide (2 ≤ rt % 31)
  | _ => false

theorem reg_ne {n k : ℕ} (hn : 2 ≤ n % 31) (hk : k < 2) : reg k ≠ reg n := by
  intro h
  have hval : k % 31 = n % 31 := Fin.mk.inj h
  omega

/-- A run of stores writes the record. -/
theorem run_stores {l : List Task.Instr} (h : ∀ i ∈ l, storesX0 i = true) (m : Machine) :
    ∃ pc, run switchStep l m =
      { m with
        mem := storeAll (m.x (reg 0)) (m.items (l.flatMap recordTransfers)) m.mem
        pc := pc } := by
  induction l generalizing m with
  | nil => exact ⟨m.pc, rfl⟩
  | cons i l ih =>
      rw [List.forall_mem_cons] at h
      have hstep : switchStep i m =
          { m with
            mem := storeAll (m.x (reg 0)) (m.items (recordTransfers i)) m.mem
            pc := m.pc + 4#64 } := by
        cases i with
        | stp rt rt2 rn imm =>
            cases rn with
            | x0 => rfl
            | x1 => exact absurd h.1 Bool.false_ne_true
        | str rt rn imm =>
            cases rn with
            | x0 => rfl
            | x1 => exact absurd h.1 Bool.false_ne_true
        | _ => exact absurd h.1 Bool.false_ne_true
      obtain ⟨pc, hrun⟩ := ih h.2 (switchStep i m)
      refine ⟨pc, ?_⟩
      have hitems : m.items ((i :: l).flatMap recordTransfers) =
          m.items (recordTransfers i) ++ m.items (l.flatMap recordTransfers) := by
        rw [List.flatMap_cons]
        exact List.map_append
      change run switchStep l (switchStep i m) = _
      rw [hrun, hstep, hitems, storeAll_append]
      rfl

/-- A run of loads reads the record. -/
theorem run_loads {l : List Task.Instr} (h : ∀ i ∈ l, loadsX1 i = true) (m : Machine) :
    ∃ pc, run switchStep l m =
      { m with
        x := loadAll m.mem (m.x (reg 1)) (l.flatMap recordTransfers) m.x
        pc := pc } := by
  induction l generalizing m with
  | nil => exact ⟨m.pc, rfl⟩
  | cons i l ih =>
      rw [List.forall_mem_cons] at h
      have hstep : switchStep i m =
          { m with
            x := loadAll m.mem (m.x (reg 1)) (recordTransfers i) m.x
            pc := m.pc + 4#64 } ∧
          loadAll m.mem (m.x (reg 1)) (recordTransfers i) m.x (reg 1) = m.x (reg 1) := by
        cases i with
        | ldp rt rt2 rn imm =>
            cases rn with
            | x0 => exact absurd h.1 Bool.false_ne_true
            | x1 =>
                obtain ⟨hrt, hrt2⟩ := of_decide_eq_true h.1
                refine ⟨rfl, ?_⟩
                exact (Function.update_of_ne (reg_ne hrt2 (by decide)) _ _).trans
                  (Function.update_of_ne (reg_ne hrt (by decide)) _ _)
        | ldr rt rn imm =>
            cases rn with
            | x0 => exact absurd h.1 Bool.false_ne_true
            | x1 =>
                refine ⟨rfl, ?_⟩
                exact Function.update_of_ne (reg_ne (of_decide_eq_true h.1) (by decide)) _ _
        | _ => exact absurd h.1 Bool.false_ne_true
      obtain ⟨hstep, hbase⟩ := hstep
      obtain ⟨pc, hrun⟩ := ih h.2 (switchStep i m)
      refine ⟨pc, ?_⟩
      change run switchStep l (switchStep i m) = _
      rw [hrun, hstep]
      dsimp only
      rw [hbase, List.flatMap_cons, loadAll, loadAll, loadAll, List.foldl_append]

/-- The stores of `task_context_switch`, but for that of the stack pointer. -/
def storeRegisters : List Task.Instr := saveRegisters.take 6

/-- The loads of `task_context_switch`. -/
def fetchRegisters : List Task.Instr := loadRegisters.take 7

theorem taskContextSwitch_eq : taskContextSwitch =
    (storeRegisters ++ ([.movFromSp 2, .str 2 .x0 taskContextSpOffset] ++ fetchRegisters)) ++
      [.movToSp 2, .ret] := rfl

/-- What the switch stores in the record of the caller. -/
def savedItems (m : Machine) : List (ℕ × Word) :=
  m.items (storeRegisters.flatMap recordTransfers) ++ [(taskContextSpOffset, m.sp)]

/-- The memory after the switch. -/
def switchMem (m : Machine) : Mem 64 := storeAll (m.x (reg 0)) (savedItems m) m.mem

/-- The registers after the switch. -/
def switchX (m : Machine) : Reg → Word :=
  loadAll (switchMem m) (m.x (reg 1)) (fetchRegisters.flatMap recordTransfers)
    (Function.update m.x (reg 2) m.sp)

/-- The switch up to the change of the stack pointer. -/
theorem run_transfers (m : Machine) : ∃ pc, run switchStep
    (storeRegisters ++ ([.movFromSp 2, .str 2 .x0 taskContextSpOffset] ++ fetchRegisters)) m =
      { m with x := switchX m, mem := switchMem m, pc := pc } := by
  have hstores : ∀ i ∈ storeRegisters, storesX0 i = true := by decide
  have hloads : ∀ i ∈ fetchRegisters, loadsX1 i = true := by decide
  obtain ⟨pc, hrun⟩ := run_stores hstores m
  rw [run_append, hrun, run_append]
  obtain ⟨pc', hrun'⟩ := run_loads hloads
    { m with x := Function.update m.x (reg 2) m.sp, mem := switchMem m, pc := pc + 4#64 + 4#64 }
  refine ⟨pc', ?_⟩
  have hmiddle : run switchStep [.movFromSp 2, .str 2 .x0 taskContextSpOffset]
      { m with
        mem := storeAll (m.x (reg 0)) (m.items (storeRegisters.flatMap recordTransfers)) m.mem
        pc := pc } =
      { m with
        x := Function.update m.x (reg 2) m.sp
        mem := switchMem m
        pc := pc + 4#64 + 4#64 } := by
    rw [switchMem, savedItems, storeAll_append]
    rfl
  rw [hmiddle, hrun']
  rfl

/-- **The switch without interrupts.** -/
theorem run_taskContextSwitch (h : m.SelectsEl1) : run switchStep taskContextSwitch m =
    { m with
      x := switchX m
      mem := switchMem m
      spEl1 := switchX m (reg 2)
      pc := switchX m (reg 30) } := by
  obtain ⟨pc, hrun⟩ := run_transfers m
  have hselects : ({ m with x := switchX m, mem := switchMem m, pc := pc } : Machine).SelectsEl1 := h
  rw [taskContextSwitch_eq, run_append, hrun]
  change switchStep .ret (switchStep (.movToSp 2) _) = _
  rw [switchStep, Machine.setSp_of_selects hselects, switchStep]

/-! ### The records after the switch -/

theorem savedItems_pairwise (m : Machine) :
    (savedItems m).Pairwise fun p q => Apart p.1 q.1 := by
  have hoffsets : ((savedItems m).map Prod.fst).Pairwise Apart := by
    change [0, 8, 16, 24, 32, 40, 48, 56, 64, 72, 80, 88, 96].Pairwise Apart
    decide
  exact List.pairwise_map.1 hoffsets

theorem savedItems_le {p : ℕ × Word} (hp : p ∈ savedItems m) : p.1 + 8 ≤ contextSize := by
  have hoffset : p.1 ∈ (savedItems m).map Prod.fst := List.mem_map_of_mem hp
  have hall : ∀ offset ∈ [0, 8, 16, 24, 32, 40, 48, 56, 64, 72, 80, 88, 96],
      offset + 8 ≤ contextSize := by decide
  exact hall p.1 hoffset

theorem contextSize_le : contextSize ≤ 2 ^ 64 := by decide

/-- The record of the caller holds its registers. -/
theorem holds_switchMem (m : Machine) : (contextAt (switchMem m) (m.x (reg 0))).Holds (cpuOf m) := by
  have hread : ∀ {offset : ℕ} {value : Word}, (offset, value) ∈ savedItems m →
      contextAt (switchMem m) (m.x (reg 0)) offset = value := fun hmem =>
    load_storeAll (savedItems_pairwise m) (fun _ hp => (savedItems_le hp).trans contextSize_le) hmem
  constructor
  · intro r hlo hhi
    refine hread (List.mem_append_left _ (List.mem_map.2 ⟨(reg r, 8 * (r - 19)), ?_, rfl⟩))
    interval_cases r <;> decide
  · exact hread (List.mem_append_right _ List.mem_cons_self)

/-- The switch writes the record of the caller only. -/
theorem switchMem_outside {a : Word} (h : ¬ InRange (m.x (reg 0)) contextSize a) :
    switchMem m a = m.mem a := storeAll_outside (fun _ hp => savedItems_le hp) contextSize_le h

/-- The offsets of the registers in a record. -/
theorem mem_fetch {r : ℕ} (hlo : 19 ≤ r) (hhi : r ≤ 30) :
    (reg r, 8 * (r - 19)) ∈ fetchRegisters.flatMap recordTransfers := by
  interval_cases r <;> decide

theorem mem_fetch_sp :
    (reg 2, taskContextSpOffset) ∈ fetchRegisters.flatMap recordTransfers := by decide

/-- The registers are loaded from the other record. -/
theorem switchX_eq (hapart : ∀ a, InRange (m.x (reg 0)) contextSize a →
      ¬ InRange (m.x (reg 1)) contextSize a) {r : Reg} {offset : ℕ}
    (h : (r, offset) ∈ fetchRegisters.flatMap recordTransfers) :
    switchX m r = contextAt m.mem (m.x (reg 1)) offset := by
  have hnodup : ((fetchRegisters.flatMap recordTransfers).map Prod.fst).Nodup := by decide
  have hfit : ∀ p ∈ fetchRegisters.flatMap recordTransfers, p.2 + 8 ≤ contextSize := by decide
  rw [switchX, loadAll_of_mem hnodup h]
  refine load_congr_inRange (by decide) fun a ha => switchMem_outside fun ha' => ?_
  exact hapart a ha' (inRange_of_inRange_offset (hfit _ h) contextSize_le ha)

/-! ### The instructions and what can be seen -/

/-- The words that an instruction reads. -/
def reads (m : Machine) : Task.Instr → List Word
  | .ldp _ _ rn imm =>
      [m.x (baseReg rn) + BitVec.ofNat 64 imm, m.x (baseReg rn) + BitVec.ofNat 64 (imm + 8)]
  | .ldr _ rn imm => [m.x (baseReg rn) + BitVec.ofNat 64 imm]
  | _ => []

theorem Agrees.selects (h : Agrees live m m') : m'.SelectsEl1 ↔ m.SelectsEl1 := by
  rw [Machine.SelectsEl1, Machine.SelectsEl1, h.pstate]

theorem Agrees.sp (h : Agrees live m m') : m'.sp = m.sp := by
  by_cases hselects : m.SelectsEl1
  · rw [Machine.sp, if_pos (h.selects.2 hselects), Machine.sp, if_pos hselects, h.spEl1]
  · rw [Machine.sp, if_neg (mt h.selects.1 hselects), Machine.sp, if_neg hselects, h.spEl0]

theorem Agrees.load (h : Agrees live m m') {base : Word} (hlive : ∀ a, InRange base 8 a → live a) :
    load m'.mem base = load m.mem base :=
  load_congr_inRange (by decide) fun a ha => h.mem a (hlive a ha)

theorem store_agrees {mem mem' : Mem 64} (h : ∀ a, live a → mem' a = mem a) (base value : Word) :
    ∀ a, live a → store mem' base value a = store mem base value a := by
  intro a ha
  unfold store
  split
  · rfl
  · exact h a ha

/-- **No instruction tells two machines apart that look the same**, when it reads live memory only. -/
theorem agrees_step {i : Task.Instr} (hread : ∀ base ∈ reads m i, ∀ a, InRange base 8 a → live a)
    (h : Agrees live m m') : Agrees live (switchStep i m) (switchStep i m') := by
  have hpc : m'.pc + 4#64 = m.pc + 4#64 := congrArg (· + 4#64) h.pc
  cases i with
  | stp rt rt2 rn imm =>
      refine ⟨h.x, h.spEl0, h.spEl1, h.pstate, hpc, ?_⟩
      simp only [switchStep, h.x]
      exact store_agrees (store_agrees h.mem _ _) _ _
  | str rt rn imm =>
      refine ⟨h.x, h.spEl0, h.spEl1, h.pstate, hpc, ?_⟩
      simp only [switchStep, h.x]
      exact store_agrees h.mem _ _
  | ldp rt rt2 rn imm =>
      have hfirst := h.load (hread _ List.mem_cons_self)
      have hsecond := h.load (hread _ (List.mem_cons_of_mem _ List.mem_cons_self))
      refine ⟨?_, h.spEl0, h.spEl1, h.pstate, hpc, h.mem⟩
      simp only [switchStep, Machine.setX, h.x, hfirst, hsecond]
  | ldr rt rn imm =>
      have hword := h.load (hread _ List.mem_cons_self)
      refine ⟨?_, h.spEl0, h.spEl1, h.pstate, hpc, h.mem⟩
      simp only [switchStep, Machine.setX, h.x, hword]
  | movFromSp rd =>
      refine ⟨?_, h.spEl0, h.spEl1, h.pstate, hpc, h.mem⟩
      simp only [switchStep, Machine.setX, h.x, h.sp]
  | movToSp rn =>
      have hvalue : m'.x (reg rn) = m.x (reg rn) := congrFun h.x _
      by_cases hselects : m.SelectsEl1
      · have hset : ∀ n : Machine, n.SelectsEl1 → switchStep (.movToSp rn) n =
            { n with spEl1 := n.x (reg rn), pc := n.pc + 4#64 } := fun n hn => by
          rw [switchStep, Machine.setSp_of_selects hn]
        rw [hset m hselects, hset m' (h.selects.2 hselects)]
        exact ⟨h.x, h.spEl0, hvalue, h.pstate, hpc, h.mem⟩
      · have hset : ∀ n : Machine, ¬ n.SelectsEl1 → switchStep (.movToSp rn) n =
            { n with spEl0 := n.x (reg rn), pc := n.pc + 4#64 } := fun n hn => by
          rw [switchStep, Machine.setSp, if_neg hn]
        rw [hset m hselects, hset m' (mt h.selects.1 hselects)]
        exact ⟨h.x, hvalue, h.spEl1, h.pstate, hpc, h.mem⟩
  | ret => exact ⟨h.x, h.spEl0, h.spEl1, h.pstate, congrFun h.x _, h.mem⟩

/-! ### The switch under interrupts -/

/-- The instruction changes neither `x1` nor the stack pointer, and reads inside the record. -/
def staysInRecord : Task.Instr → Bool
  | .stp _ _ _ _ => true
  | .str _ _ _ => true
  | .ldp rt rt2 .x1 imm => decide (2 ≤ rt % 31 ∧ 2 ≤ rt2 % 31 ∧ imm + 16 ≤ contextSize)
  | .ldr rt .x1 imm => decide (2 ≤ rt % 31 ∧ imm + 8 ≤ contextSize)
  | .movFromSp rd => decide (2 ≤ rd % 31)
  | _ => false

theorem staysInRecord_step {i : Task.Instr} (h : staysInRecord i = true) (m : Machine) :
    (switchStep i m).x (reg 1) = m.x (reg 1) ∧ (switchStep i m).spEl1 = m.spEl1 := by
  cases i with
  | stp rt rt2 rn imm => exact ⟨rfl, rfl⟩
  | str rt rn imm => exact ⟨rfl, rfl⟩
  | ldp rt rt2 rn imm =>
      cases rn with
      | x0 => exact absurd h Bool.false_ne_true
      | x1 =>
          obtain ⟨hrt, hrt2, -⟩ := of_decide_eq_true h
          refine ⟨?_, rfl⟩
          exact (Function.update_of_ne (reg_ne hrt2 (by decide)) _ _).trans
            (Function.update_of_ne (reg_ne hrt (by decide)) _ _)
  | ldr rt rn imm =>
      cases rn with
      | x0 => exact absurd h Bool.false_ne_true
      | x1 =>
          obtain ⟨hrt, -⟩ := of_decide_eq_true h
          exact ⟨Function.update_of_ne (reg_ne hrt (by decide)) _ _, rfl⟩
  | movFromSp rd =>
      exact ⟨Function.update_of_ne (reg_ne (of_decide_eq_true h) (by decide)) _ _, rfl⟩
  | movToSp rn => exact absurd h Bool.false_ne_true
  | ret => exact absurd h Bool.false_ne_true

theorem staysInRecord_reads {i : Task.Instr} (h : staysInRecord i = true)
    (hlive : ∀ a, InRange (m.x (reg 1)) contextSize a → live a) :
    ∀ base ∈ reads m i, ∀ a, InRange base 8 a → live a := by
  have hword : ∀ offset, offset + 8 ≤ contextSize →
      ∀ a, InRange (m.x (reg 1) + BitVec.ofNat 64 offset) 8 a → live a := fun offset hle a ha =>
    hlive a (inRange_of_inRange_offset hle contextSize_le ha)
  cases i with
  | ldp rt rt2 rn imm =>
      cases rn with
      | x0 => exact absurd h Bool.false_ne_true
      | x1 =>
          obtain ⟨-, -, hle⟩ := of_decide_eq_true h
          refine List.forall_mem_cons.2 ⟨hword imm (by omega), List.forall_mem_cons.2 ⟨?_, ?_⟩⟩
          · exact hword (imm + 8) (by omega)
          · exact fun base hbase => absurd hbase List.not_mem_nil
  | ldr rt rn imm =>
      cases rn with
      | x0 => exact absurd h Bool.false_ne_true
      | x1 =>
          obtain ⟨-, hle⟩ := of_decide_eq_true h
          refine List.forall_mem_cons.2 ⟨hword imm hle, ?_⟩
          exact fun base hbase => absurd hbase List.not_mem_nil
  | _ => exact fun base hbase => absurd hbase List.not_mem_nil

/-- The frames of interrupts at a stack pointer are not in use. -/
theorem FrameFree.congr (h : FrameFree live m) (hsp : m'.spEl1 = m.spEl1) : FrameFree live m' := by
  rw [FrameFree, framePointer, hsp]
  exact h

/-- Before the stack pointer is changed, interrupts are not noticed. -/
theorem transfers_agree {l : List Task.Instr} (hstays : ∀ i ∈ l, staysInRecord i = true)
    (hlive : ∀ a, InRange (m.x (reg 1)) contextSize a → live a) (hfree : FrameFree live m)
    (h : Runs switchStep (Interrupted live) l m u) : Agrees live (run switchStep l m) u := by
  refine h.agrees (Agrees live) (fun s => s.x (reg 1) = m.x (reg 1) ∧ s.spEl1 = m.spEl1)
    ?_ ?_ ?_ ⟨rfl, rfl⟩ (Agrees.refl live m)
  · rintro i s t hi ⟨hbase, -⟩ hagree
    exact agrees_step (staysInRecord_reads (hstays i hi) (hbase ▸ hlive)) hagree
  · rintro s t u ⟨-, hsp⟩ hagree hirq
    have hfree' : FrameFree live t := hfree.congr (hagree.spEl1.trans hsp)
    exact hagree.trans (interrupted_agrees hfree' hirq)
  · rintro i s hi ⟨hbase, hsp⟩
    obtain ⟨hbase', hsp'⟩ := staysInRecord_step (hstays i hi) s
    exact ⟨hbase'.trans hbase, hsp'.trans hsp⟩

/-- While the stack pointer is changed, interrupts are not noticed. -/
theorem leave_agree (newSp : Word) {s t : Machine} (hselects : s.SelectsEl1)
    (hx : s.x (reg 2) = newSp) (hold : FrameFree live s)
    (hnew : FrameFree live { s with spEl1 := newSp }) (hagree : Agrees live s t)
    (h : Runs switchStep (Interrupted live) [.movToSp 2, .ret] t u) :
    Agrees live (run switchStep [.movToSp 2, .ret] s) u := by
  refine h.agrees (Agrees live) (fun n => n.SelectsEl1 ∧ n.x (reg 2) = newSp ∧
    (n.spEl1 = s.spEl1 ∨ n.spEl1 = newSp)) ?_ ?_ ?_ ⟨hselects, hx, Or.inl rfl⟩ hagree
  · rintro i n n' hi - hagree
    refine agrees_step (fun base hbase => ?_) hagree
    rcases List.mem_cons.1 hi with rfl | hi
    · exact absurd hbase List.not_mem_nil
    · obtain rfl := List.mem_singleton.1 hi
      exact absurd hbase List.not_mem_nil
  · rintro n n' n'' ⟨-, -, hsp⟩ hagree hirq
    refine hagree.trans (interrupted_agrees ?_ hirq)
    rcases hsp with hsp | hsp
    · exact hold.congr (hagree.spEl1.trans hsp)
    · exact hnew.congr (hagree.spEl1.trans hsp)
  · rintro i n hi ⟨hsel, hx2, hsp⟩
    rcases List.mem_cons.1 hi with rfl | hi
    · rw [switchStep, Machine.setSp_of_selects hsel]
      exact ⟨hsel, hx2, Or.inr hx2⟩
    · obtain rfl := List.mem_singleton.1 hi
      exact ⟨hsel, hx2, hsp⟩

/-- **The switch does what it does, wherever it is interrupted.**  The records are apart, the handlers
leave them alone, and so they do with everything `live`, and the frames of interrupts on either of the
two stacks are not in use.  Then after any number of interrupts at any places the record of the caller
holds its registers, the registers are those in the other record, execution goes on where its `x30`
says, and nothing else that is live has changed. -/
theorem switch_interrupted (hselects : m.SelectsEl1)
    (hapart : ∀ a, InRange (m.x (reg 0)) contextSize a → ¬ InRange (m.x (reg 1)) contextSize a)
    (hprevious : ∀ a, InRange (m.x (reg 0)) contextSize a → live a)
    (hnext : ∀ a, InRange (m.x (reg 1)) contextSize a → live a)
    (hold : FrameFree live m)
    (hnew : FrameFree live
      { m with spEl1 := contextAt m.mem (m.x (reg 1)) taskContextSpOffset })
    (h : Runs switchStep (Interrupted live) taskContextSwitch m u) :
    (contextAt u.mem (m.x (reg 0))).Holds (cpuOf m) ∧
    (contextAt m.mem (m.x (reg 1))).Holds (cpuOf u) ∧
    u.pc = contextAt m.mem (m.x (reg 1)) taskContextX30Offset ∧
    ∀ a, live a → ¬ InRange (m.x (reg 0)) contextSize a → u.mem a = m.mem a := by
  have hagree : Agrees live (run switchStep taskContextSwitch m) u := by
    rw [taskContextSwitch_eq] at h ⊢
    obtain ⟨t, htransfers, hleave⟩ := h.append_inv
    have hstays : ∀ i ∈ storeRegisters ++ ([.movFromSp 2, .str 2 .x0 taskContextSpOffset] ++
        fetchRegisters), staysInRecord i = true := by decide
    have hfirst := transfers_agree hstays hnext hold htransfers
    obtain ⟨pc, hrun⟩ := run_transfers m
    rw [run_append]
    rw [hrun] at hfirst ⊢
    exact leave_agree _ hselects (switchX_eq hapart mem_fetch_sp) hold hnew hfirst hleave
  rw [run_taskContextSwitch hselects] at hagree
  have hsaved := holds_switchMem m
  refine ⟨⟨fun r hlo hhi => ?_, ?_⟩, ⟨fun r hlo hhi => ?_, ?_⟩, ?_, fun a ha ha' => ?_⟩
  · rw [← hsaved.x r hlo hhi]
    refine hagree.load fun a ha => hprevious a (inRange_of_inRange_offset ?_ contextSize_le ha)
    unfold contextSize
    omega
  · rw [← hsaved.sp]
    exact hagree.load fun a ha =>
      hprevious a (inRange_of_inRange_offset (by decide) contextSize_le ha)
  · exact ((congrFun hagree.x (reg r)).trans (switchX_eq hapart (mem_fetch hlo hhi))).symm
  · have hsp : ({ m with
        x := switchX m
        mem := switchMem m
        spEl1 := switchX m (reg 2)
        pc := switchX m (reg 30) } : Machine).sp = switchX m (reg 2) :=
      Machine.sp_of_selects hselects
    exact (hagree.sp.trans (hsp.trans (switchX_eq hapart mem_fetch_sp))).symm
  · exact hagree.pc.trans (switchX_eq hapart (mem_fetch (by decide) (Nat.le_refl 30)))
  · exact (hagree.mem a ha).trans (switchMem_outside ha')

/-- A call of the switch, with the records at `0x1000` and `0x2000`. -/
def switching : Machine where
  x := fun r => if r = reg 0 then 0x1000#64 else if r = reg 1 then 0x2000#64 else 7#64
  spEl0 := 0#64
  spEl1 := 0x40400000#64
  elrEl1 := 0#64
  spsrEl1 := 0#64
  pstate := 0x60000005#64
  pc := 0x40081000#64
  mem := fun _ => 0#8

/-- The two records. -/
def records (a : Word) : Prop := InRange 0x1000#64 contextSize a ∨ InRange 0x2000#64 contextSize a

theorem records_lt {a : Word} (h : records a) : 0x1000 ≤ a.toNat ∧ a.toNat < 0x3000 := by
  unfold records InRange contextSize at h
  rw [BitVec.toNat_sub, BitVec.toNat_sub] at h
  have hlt := a.isLt
  have h1 : (0x1000#64).toNat = 0x1000 := rfl
  have h2 : (0x2000#64).toNat = 0x2000 := rfl
  omega

theorem records_apart (a : Word) (h : InRange 0x1000#64 contextSize a) :
    ¬ InRange 0x2000#64 contextSize a := by
  intro h'
  unfold InRange contextSize at h h'
  rw [BitVec.toNat_sub] at h h'
  have hlt := a.isLt
  have h1 : (0x1000#64).toNat = 0x1000 := rfl
  have h2 : (0x2000#64).toNat = 0x2000 := rfl
  omega

theorem frameFree_switching (sp : Word) (h : sp = 0#64 ∨ sp = 0x40400000#64) :
    FrameFree records { switching with spEl1 := sp } := by
  intro a ha hframe
  obtain ⟨hlo, hhi⟩ := records_lt ha
  unfold InRange framePointer frameSize at hframe
  dsimp only at hframe
  rcases h with rfl | rfl
  · have hpointer : (0#64 - BitVec.ofNat 64 272).toNat = 2 ^ 64 - 272 := by decide
    rw [BitVec.toNat_sub, hpointer] at hframe
    omega
  · have hpointer : (0x40400000#64 - BitVec.ofNat 64 272).toNat = 0x40400000 - 272 := by decide
    rw [BitVec.toNat_sub, hpointer] at hframe
    omega

/-- An interrupt after the first instruction, whose handler uses all the registers it may, does not keep
the record from getting the register `x28`. -/
theorem switch_interrupted_once : ∃ u, Runs switchStep (Interrupted records) taskContextSwitch
    switching u ∧ contextAt u.mem 0x1000#64 72 = 7#64 := by
  have hhandle : ∀ m, FollowsConvention records m (clobber m) := fun m =>
    { followsConvention_clobber m with live := fun _ _ => rfl }
  obtain ⟨u, hrun⟩ : ∃ u, Runs switchStep (Interrupted records) taskContextSwitch switching u :=
    ⟨_, Runs.step (Runs.disturbed
      (Interrupted.irq 0x40080a80#64 0x600003c5#64 0x40080a00#64 (by decide) hhandle)
      (Disturbed.runs_run taskContextSwitch.tail _))⟩
  have hprevious : switching.x (reg 0) = 0x1000#64 := by decide
  have hnext : switching.x (reg 1) = 0x2000#64 := by decide
  have hsp : contextAt switching.mem 0x2000#64 taskContextSpOffset = 0#64 := by decide
  have hold : FrameFree records switching := frameFree_switching 0x40400000#64 (Or.inr rfl)
  have hnew : FrameFree records { switching with
      spEl1 := contextAt switching.mem (switching.x (reg 1)) taskContextSpOffset } := by
    rw [hnext]
    exact frameFree_switching _ (Or.inl hsp)
  have hspec := switch_interrupted (m := switching) (by decide)
    (by rw [hprevious, hnext]; exact records_apart) (by rw [hprevious]; exact fun a => Or.inl)
    (by rw [hnext]; exact fun a => Or.inr) hold hnew hrun
  have hword : contextAt u.mem (switching.x (reg 0)) 72 = switching.x (reg 28) :=
    hspec.1.x 28 (by decide) (by decide)
  have hvalue : switching.x (reg 28) = 7#64 := by decide
  rw [hprevious, hvalue] at hword
  exact ⟨u, hrun, hword⟩

end Vectors

end MiniOs
