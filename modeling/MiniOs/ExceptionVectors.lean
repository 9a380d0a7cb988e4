/-
**The entry and the exit of an interrupt (`irq_entry_common` in `src/exception_vectors.S`).**

The processor has taken an interrupt: the address and the state of the interrupted code are in
`ELR_EL1` and `SPSR_EL1`, and it fetches from one of the vectors.  The listing saves the general
registers and these two in a frame on the stack, calls `irq_handle`, loads them again and returns.
The instructions are executed one by one over the registers and a memory of bytes; `irq_handle` is a
parameter, of which only the calling convention is used.  An unaligned stack pointer, at which the
hardware would refuse the loads and stores, is not modelled.

Main definitions:

* `Vectors.Machine`, `Vectors.Instr.exec`, `Vectors.exec` — the machine and the instructions;
* `Vectors.irqEntryCommon`, `Vectors.irqVector`, `Vectors.irqSp0Vector` — the listings;
* `Vectors.FollowsConvention` — what `irq_handle` may change.

Main results:

* `Vectors.exec_saves`, `Vectors.exec_loads` — runs of stores, and of loads, in general;
* `Vectors.irq_transparent` — **the interrupted code finds everything as it was**.
-/

import Mathlib.Data.Fin.Basic
import Mathlib.Logic.Function.Basic
import MiniOs.ByteMemory
import MiniOs.Machine

set_option relaxedAutoImplicit false
set_option autoImplicit false

namespace MiniOs

namespace Vectors

open ByteMemory

/-! ### The machine -/

/-- The number of a general register, `x0` to `x30`. -/
abbrev Reg := Fin 31

/-- The registers and the memory.  `pstate` has the layout of `SPSR_EL1`. -/
structure Machine where
  x : Reg → Word
  spEl0 : Word
  spEl1 : Word
  elrEl1 : Word
  spsrEl1 : Word
  pstate : Word
  pc : Word
  mem : Mem 64

/-- The bit of `pstate` that selects the stack pointer. -/
def spSelBit : ℕ := 0

/-- `pstate` selects `SP_EL1`. -/
def Machine.SelectsEl1 (m : Machine) : Prop := m.pstate.getLsbD spSelBit = true

instance (m : Machine) : Decidable m.SelectsEl1 :=
  inferInstanceAs (Decidable (m.pstate.getLsbD spSelBit = true))

/-- The stack pointer in use. -/
def Machine.sp (m : Machine) : Word := if m.SelectsEl1 then m.spEl1 else m.spEl0

/-- Write the stack pointer in use. -/
def Machine.setSp (m : Machine) (value : Word) : Machine :=
  if m.SelectsEl1 then { m with spEl1 := value } else { m with spEl0 := value }

/-- Write a general register. -/
def Machine.setX (m : Machine) (rd : Reg) (value : Word) : Machine :=
  { m with x := Function.update m.x rd value }

@[simp] theorem Machine.setX_self (m : Machine) (rd : Reg) (value : Word) :
    (m.setX rd value).x rd = value := Function.update_self _ _ _

/-! ### Instructions -/

/-- The instructions of the listings.  The base register of loads and stores is `sp`. -/
inductive Instr
  | msrSpselSet
  | msrDaifset (mask : ℕ)
  | b
  | subSp (imm : ℕ)
  | addSp (imm : ℕ)
  | stp (rt rt2 : Reg) (imm : ℕ)
  | str (rt : Reg) (imm : ℕ)
  | ldp (rt rt2 : Reg) (imm : ℕ)
  | ldr (rt : Reg) (imm : ℕ)
  | mrsElrEl1 (rt : Reg)
  | mrsSpsrEl1 (rt : Reg)
  | msrElrEl1 (rt : Reg)
  | msrSpsrEl1 (rt : Reg)
  | blIrqHandle
  | eret

section Execution

variable (returnAddress : Word) (irqHandle : Machine → Machine)

/-- The effect of an instruction, when a call of `irq_handle` has the effect `irqHandle` and returns
to `returnAddress`. -/
def Instr.exec : Instr → Machine → Machine
  -- `msr spsel, #1`
  | .msrSpselSet, m => { m with pstate := m.pstate ||| BitVec.twoPow 64 spSelBit }
  -- the masks D, A, I and F are the bits 9 to 6
  | .msrDaifset mask, m => { m with pstate := m.pstate ||| BitVec.ofNat 64 mask <<< 6 }
  -- the listings are put together where one branches to the other
  | .b, m => m
  | .subSp imm, m => m.setSp (m.sp - BitVec.ofNat 64 imm)
  | .addSp imm, m => m.setSp (m.sp + BitVec.ofNat 64 imm)
  | .stp rt rt2 imm, m =>
      { m with
        mem := store (store m.mem (m.sp + BitVec.ofNat 64 imm) (m.x rt))
          (m.sp + BitVec.ofNat 64 (imm + 8)) (m.x rt2) }
  | .str rt imm, m => { m with mem := store m.mem (m.sp + BitVec.ofNat 64 imm) (m.x rt) }
  | .ldp rt rt2 imm, m =>
      (m.setX rt (load m.mem (m.sp + BitVec.ofNat 64 imm))).setX rt2
        (load m.mem (m.sp + BitVec.ofNat 64 (imm + 8)))
  | .ldr rt imm, m => m.setX rt (load m.mem (m.sp + BitVec.ofNat 64 imm))
  | .mrsElrEl1 rt, m => m.setX rt m.elrEl1
  | .mrsSpsrEl1 rt, m => m.setX rt m.spsrEl1
  | .msrElrEl1 rt, m => { m with elrEl1 := m.x rt }
  | .msrSpsrEl1 rt, m => { m with spsrEl1 := m.x rt }
  | .blIrqHandle, m => irqHandle (m.setX 30 returnAddress)
  | .eret, m => { m with pc := m.elrEl1, pstate := m.spsrEl1 }

/-- The effect of a listing, instruction by instruction. -/
def exec (listing : List Instr) (m : Machine) : Machine :=
  listing.foldl (fun m i => i.exec returnAddress irqHandle m) m

end Execution

/-! ### The listings -/

/-- The stores of the general registers. -/
def saveGeneral : List Instr :=
  [.stp 0 1 0,
    .stp 2 3 16,
    .stp 4 5 32,
    .stp 6 7 48,
    .stp 8 9 64,
    .stp 10 11 80,
    .stp 12 13 96,
    .stp 14 15 112,
    .stp 16 17 128,
    .stp 18 19 144,
    .stp 20 21 160,
    .stp 22 23 176,
    .stp 24 25 192,
    .stp 26 27 208,
    .stp 28 29 224,
    .str 30 240]

/-- The stores of `ELR_EL1` and `SPSR_EL1`. -/
def saveSystem : List Instr := [.mrsElrEl1 0, .str 0 248, .mrsSpsrEl1 0, .str 0 256]

/-- The loads of `ELR_EL1` and `SPSR_EL1`. -/
def restoreSystem : List Instr := [.ldr 0 248, .msrElrEl1 0, .ldr 0 256, .msrSpsrEl1 0]

/-- The loads of the general registers. -/
def restoreGeneral : List Instr :=
  [.ldp 0 1 0,
    .ldp 2 3 16,
    .ldp 4 5 32,
    .ldp 6 7 48,
    .ldp 8 9 64,
    .ldp 10 11 80,
    .ldp 12 13 96,
    .ldp 14 15 112,
    .ldp 16 17 128,
    .ldp 18 19 144,
    .ldp 20 21 160,
    .ldp 22 23 176,
    .ldp 24 25 192,
    .ldp 26 27 208,
    .ldp 28 29 224,
    .ldr 30 240]

/-- The size of the frame. -/
def frameSize : ℕ := 272

/-- The listing of `irq_entry_common`. -/
def irqEntryCommon : List Instr :=
  [.msrDaifset 2, .subSp frameSize] ++ saveGeneral ++ saveSystem ++ [.blIrqHandle] ++
    restoreSystem ++ restoreGeneral ++ [.addSp frameSize, .eret]

/-- `IRQ_VECTOR`. -/
def irqVector : List Instr := [.b]

/-- `IRQ_SP0_VECTOR`. -/
def irqSp0Vector : List Instr := [.msrSpselSet, .b]

/-- The two ways in: from code that uses `SP_EL1`, and from code that uses `SP_EL0`. -/
inductive Entry
  | spx
  | sp0

/-- The listing at the vector. -/
def Entry.vector : Entry → List Instr
  | .spx => irqVector
  | .sp0 => irqSp0Vector

/-! ### Runs of stores, and of loads -/

/-- The registers that a store or a load transfers, with the offsets. -/
def Instr.transfers : Instr → List (Reg × ℕ)
  | .stp rt rt2 imm => [(rt, imm), (rt2, imm + 8)]
  | .str rt imm => [(rt, imm)]
  | .ldp rt rt2 imm => [(rt, imm), (rt2, imm + 8)]
  | .ldr rt imm => [(rt, imm)]
  | _ => []

/-- The instruction is a store. -/
def Instr.isStore : Instr → Bool
  | .stp _ _ _ => true
  | .str _ _ => true
  | _ => false

/-- The instruction is a load. -/
def Instr.isLoad : Instr → Bool
  | .ldp _ _ _ => true
  | .ldr _ _ => true
  | _ => false

/-- What a listing transfers. -/
def transfers (listing : List Instr) : List (Reg × ℕ) := listing.flatMap Instr.transfers

/-- What the stores among `transfers` put into the frame. -/
def Machine.items (m : Machine) (ts : List (Reg × ℕ)) : List (ℕ × Word) :=
  ts.map fun p => (p.2, m.x p.1)

/-- The registers after the loads of `ts`. -/
def loadAll (mem : Mem 64) (sp : Word) (ts : List (Reg × ℕ)) (x : Reg → Word) : Reg → Word :=
  ts.foldl (fun x p => Function.update x p.1 (load mem (sp + BitVec.ofNat 64 p.2))) x

theorem loadAll_of_notMem {mem : Mem 64} {sp : Word} {ts : List (Reg × ℕ)} {r : Reg}
    (h : r ∉ ts.map Prod.fst) (x : Reg → Word) : loadAll mem sp ts x r = x r := by
  induction ts generalizing x with
  | nil => rfl
  | cons p ts ih =>
      rw [List.map_cons, List.mem_cons, not_or] at h
      exact (ih h.2 _).trans (Function.update_of_ne h.1 _ _)

/-- A register that is loaded once has the value loaded. -/
theorem loadAll_of_mem {mem : Mem 64} {sp : Word} {ts : List (Reg × ℕ)} {r : Reg} {offset : ℕ}
    (hnodup : (ts.map Prod.fst).Nodup) (h : (r, offset) ∈ ts) (x : Reg → Word) :
    loadAll mem sp ts x r = load mem (sp + BitVec.ofNat 64 offset) := by
  induction ts generalizing x with
  | nil => exact absurd h List.not_mem_nil
  | cons p ts ih =>
      rw [List.map_cons, List.nodup_cons] at hnodup
      rcases List.mem_cons.1 h with rfl | h
      · exact (loadAll_of_notMem hnodup.1 _).trans (Function.update_self _ _ _)
      · exact ih hnodup.2 h _

section Runs

variable {returnAddress : Word} {irqHandle : Machine → Machine} {m : Machine}

@[simp] theorem exec_nil : exec returnAddress irqHandle [] m = m := rfl

@[simp] theorem exec_cons (i : Instr) (listing : List Instr) :
    exec returnAddress irqHandle (i :: listing) m =
      exec returnAddress irqHandle listing (i.exec returnAddress irqHandle m) := rfl

theorem exec_append (listing listing' : List Instr) :
    exec returnAddress irqHandle (listing ++ listing') m =
      exec returnAddress irqHandle listing' (exec returnAddress irqHandle listing m) :=
  List.foldl_append

/-- A run of stores changes the memory only, and writes a record. -/
theorem exec_saves {listing : List Instr} (h : ∀ i ∈ listing, i.isStore = true) :
    exec returnAddress irqHandle listing m =
      { m with mem := storeAll m.sp (m.items (transfers listing)) m.mem } := by
  induction listing generalizing m with
  | nil => rfl
  | cons i listing ih =>
      rw [List.forall_mem_cons] at h
      have hstep : i.exec returnAddress irqHandle m =
          { m with mem := storeAll m.sp (m.items i.transfers) m.mem } := by
        cases i with
        | stp rt rt2 imm => rfl
        | str rt imm => rfl
        | _ => exact absurd h.1 Bool.false_ne_true
      have hitems : m.items (transfers (i :: listing)) =
          m.items i.transfers ++ m.items (transfers listing) := List.map_append
      rw [exec_cons, ih h.2, hstep, hitems, storeAll_append]
      rfl

/-- A run of loads changes the general registers only. -/
theorem exec_loads {listing : List Instr} (h : ∀ i ∈ listing, i.isLoad = true) :
    exec returnAddress irqHandle listing m =
      { m with x := loadAll m.mem m.sp (transfers listing) m.x } := by
  induction listing generalizing m with
  | nil => rfl
  | cons i listing ih =>
      rw [List.forall_mem_cons] at h
      have hstep : i.exec returnAddress irqHandle m =
          { m with x := loadAll m.mem m.sp i.transfers m.x } := by
        cases i with
        | ldp rt rt2 imm => rfl
        | ldr rt imm => rfl
        | _ => exact absurd h.1 Bool.false_ne_true
      have hloads : loadAll m.mem m.sp (transfers (i :: listing)) m.x =
          loadAll m.mem m.sp (transfers listing) (loadAll m.mem m.sp i.transfers m.x) :=
        List.foldl_append
      rw [exec_cons, ih h.2, hstep, hloads]
      rfl

end Runs

/-! ### The frame -/

/-- The offsets at which a listing stores words. -/
def storedOffsets (listing : List Instr) : List ℕ :=
  (transfers (listing.filter Instr.isStore)).map Prod.snd

/-- What the frame holds of a machine. -/
def frameItems (m : Machine) : List (ℕ × Word) :=
  m.items (transfers saveGeneral) ++ [(248, m.elrEl1), (256, m.spsrEl1)]

theorem offsets_frameItems (m : Machine) :
    (frameItems m).map Prod.fst = storedOffsets irqEntryCommon := rfl

theorem storedOffsets_pairwise : (storedOffsets irqEntryCommon).Pairwise Apart := by decide

theorem storedOffsets_le : ∀ i ∈ storedOffsets irqEntryCommon, i + 8 ≤ frameSize := by decide

theorem frameSize_le : frameSize ≤ 2 ^ 64 := by decide

/-- The loads take every register from where the stores have put it. -/
theorem transfers_restoreGeneral : transfers restoreGeneral = transfers saveGeneral := rfl

theorem transfers_nodup : ((transfers saveGeneral).map Prod.fst).Nodup := by decide

/-- Every general register has its place. -/
theorem exists_transfer (r : Reg) : ∃ offset, (r, offset) ∈ transfers saveGeneral := by
  have hall : ∀ r : Reg, r ∈ (transfers saveGeneral).map Prod.fst := by decide
  obtain ⟨⟨r', offset⟩, hmem, rfl⟩ := List.mem_map.1 (hall r)
  exact ⟨offset, hmem⟩

theorem frameItems_pairwise (m : Machine) :
    (frameItems m).Pairwise fun p q => Apart p.1 q.1 := by
  rw [← List.pairwise_map, offsets_frameItems]
  exact storedOffsets_pairwise

theorem frameItems_le {m : Machine} {p : ℕ × Word} (hp : p ∈ frameItems m) :
    p.1 + 8 ≤ frameSize := by
  have hoffset : p.1 ∈ (frameItems m).map Prod.fst := List.mem_map_of_mem hp
  exact storedOffsets_le _ (offsets_frameItems m ▸ hoffset)

/-- The memory holds the frame of a machine at `sp`. -/
def HoldsFrame (m : Machine) (sp : Word) (mem : Mem 64) : Prop :=
  ∀ p ∈ frameItems m, load mem (sp + BitVec.ofNat 64 p.1) = p.2

theorem holdsFrame_storeAll (m : Machine) (sp : Word) (mem : Mem 64) :
    HoldsFrame m sp (storeAll sp (frameItems m) mem) := fun _ hp =>
  load_storeAll (frameItems_pairwise m)
    (fun _ hq => (frameItems_le hq).trans frameSize_le) hp

/-- The frame is held by all memories with the same bytes there. -/
theorem HoldsFrame.congr {m : Machine} {sp : Word} {mem mem' : Mem 64} (h : HoldsFrame m sp mem)
    (heq : ∀ a, InRange sp frameSize a → mem' a = mem a) : HoldsFrame m sp mem' := by
  intro p hp
  rw [← h p hp]
  exact load_congr_inRange (by decide) fun a ha =>
    heq a (inRange_of_inRange_offset (frameItems_le hp) frameSize_le ha)

/-! ### The calling convention -/

/-- What a call of `irq_handle` leaves alone: the registers `x19` to `x29`, the stack pointers and
which of them is in use, the frame above the stack pointer, and the memory that the interrupted code
works with. -/
structure FollowsConvention (live : Word → Prop) (m m' : Machine) : Prop where
  x : ∀ r : Reg, 19 ≤ r → r ≤ 29 → m'.x r = m.x r
  spEl0 : m'.spEl0 = m.spEl0
  spEl1 : m'.spEl1 = m.spEl1
  spSel : m'.pstate.getLsbD spSelBit = m.pstate.getLsbD spSelBit
  frame : ∀ a, InRange m.sp frameSize a → m'.mem a = m.mem a
  live : ∀ a, live a → m'.mem a = m.mem a

/-! ### The parts of the listing -/

section Parts

variable {returnAddress : Word} {irqHandle : Machine → Machine} {m : Machine}

theorem Machine.sp_of_selects (h : m.SelectsEl1) : m.sp = m.spEl1 := if_pos h

theorem Machine.setSp_of_selects (h : m.SelectsEl1) (value : Word) :
    m.setSp value = { m with spEl1 := value } := if_pos h

/-- Setting bits of `pstate` does not deselect `SP_EL1`. -/
theorem getLsbD_or_of_left {a : Word} (h : a.getLsbD spSelBit = true) (b : Word) :
    (a ||| b).getLsbD spSelBit = true := by
  rw [BitVec.getLsbD_or, h, Bool.true_or]

/-- After the vector `SP_EL1` is in use. -/
theorem exec_vector (entry : Entry) (h : entry = .spx → m.SelectsEl1) :
    ∃ pstate : Word, pstate.getLsbD spSelBit = true ∧
      exec returnAddress irqHandle entry.vector m = { m with pstate := pstate } := by
  cases entry with
  | spx => exact ⟨m.pstate, h rfl, rfl⟩
  | sp0 =>
      refine ⟨m.pstate ||| BitVec.twoPow 64 spSelBit, ?_, rfl⟩
      rw [BitVec.getLsbD_or, BitVec.getLsbD_twoPow]
      exact Bool.or_true _

/-- The first two instructions mask interrupts and make room for the frame. -/
theorem exec_enter (h : m.SelectsEl1) :
    ∃ pstate : Word, pstate.getLsbD spSelBit = true ∧
      exec returnAddress irqHandle [.msrDaifset 2, .subSp frameSize] m =
        { m with pstate := pstate, spEl1 := m.spEl1 - BitVec.ofNat 64 frameSize } := by
  have hmasked := getLsbD_or_of_left h (BitVec.ofNat 64 2 <<< 6)
  refine ⟨_, hmasked, ?_⟩
  have hsp : ((Instr.msrDaifset 2).exec returnAddress irqHandle m).SelectsEl1 := hmasked
  exact (Machine.setSp_of_selects hsp _).trans (by rw [Machine.sp_of_selects hsp]; rfl)

/-- The stores of the system registers; `x0` is used on the way. -/
theorem exec_saveSystem :
    exec returnAddress irqHandle saveSystem m =
      { m with
        x := Function.update m.x 0 m.spsrEl1
        mem := storeAll m.sp [(248, m.elrEl1), (256, m.spsrEl1)] m.mem } := by
  simp only [saveSystem, exec_cons, exec_nil, Instr.exec, Machine.setX, Function.update_self,
    Function.update_idem]
  rfl

/-- The stores write the frame. -/
theorem exec_save :
    exec returnAddress irqHandle (saveGeneral ++ saveSystem) m =
      { m with
        x := Function.update m.x 0 m.spsrEl1
        mem := storeAll m.sp (frameItems m) m.mem } := by
  have hstores : ∀ i ∈ saveGeneral, i.isStore = true := by decide
  have hsp : ({ m with mem := storeAll m.sp (m.items (transfers saveGeneral)) m.mem } : Machine).sp =
      m.sp := rfl
  rw [exec_append, exec_saves hstores, exec_saveSystem, hsp, frameItems, storeAll_append]

theorem exec_msrElrEl1 (value : Word) :
    (Instr.msrElrEl1 0).exec returnAddress irqHandle (m.setX 0 value) =
      { m.setX 0 value with elrEl1 := value } := by
  rw [Instr.exec, Machine.setX_self]

theorem exec_msrSpsrEl1 (value : Word) :
    (Instr.msrSpsrEl1 0).exec returnAddress irqHandle (m.setX 0 value) =
      { m.setX 0 value with spsrEl1 := value } := by
  rw [Instr.exec, Machine.setX_self]

/-- The loads of the system registers; `x0` is used on the way. -/
theorem exec_restoreSystem :
    exec returnAddress irqHandle restoreSystem m =
      { m with
        x := Function.update m.x 0 (load m.mem (m.sp + BitVec.ofNat 64 256))
        elrEl1 := load m.mem (m.sp + BitVec.ofNat 64 248)
        spsrEl1 := load m.mem (m.sp + BitVec.ofNat 64 256) } := by
  have hsp : ∀ elr : Word, ({ m.setX 0 elr with elrEl1 := elr } : Machine).sp = m.sp := fun _ => rfl
  rw [restoreSystem, exec_cons, exec_cons, Instr.exec, exec_msrElrEl1, exec_cons, exec_cons,
    Instr.exec, exec_msrSpsrEl1, exec_nil, hsp]
  simp only [Machine.setX, Function.update_idem]

/-- The loads of the general registers. -/
theorem exec_restoreGeneral :
    exec returnAddress irqHandle restoreGeneral m =
      { m with x := loadAll m.mem m.sp (transfers saveGeneral) m.x } := by
  have hloads : ∀ i ∈ restoreGeneral, i.isLoad = true := by decide
  rw [exec_loads hloads, transfers_restoreGeneral]

/-- The last two instructions release the frame and return. -/
theorem exec_leave (h : m.SelectsEl1) :
    exec returnAddress irqHandle [.addSp frameSize, .eret] m =
      { m with
        spEl1 := m.spEl1 + BitVec.ofNat 64 frameSize
        pc := m.elrEl1
        pstate := m.spsrEl1 } := by
  rw [exec_cons, exec_cons, exec_nil, Instr.exec, Machine.setSp_of_selects h,
    Machine.sp_of_selects h]
  rfl

end Parts

/-! ### The whole listing -/

section Whole

variable {returnAddress : Word} {irqHandle : Machine → Machine} {live : Word → Prop} {m : Machine}

/-- Where the frame of an interrupt is. -/
def framePointer (m : Machine) : Word := m.spEl1 - BitVec.ofNat 64 frameSize

/-- The machine just before the call: the frame is filled, and `x0` was used. -/
def atCall (m : Machine) (pstate : Word) : Machine :=
  { m with
    x := Function.update m.x 0 m.spsrEl1
    spEl1 := framePointer m
    pstate := pstate
    mem := storeAll (framePointer m) (frameItems m) m.mem }

theorem exec_before_call (entry : Entry) (h : entry = .spx → m.SelectsEl1) :
    ∃ pstate : Word, pstate.getLsbD spSelBit = true ∧
      exec returnAddress irqHandle
        (entry.vector ++ [.msrDaifset 2, .subSp frameSize] ++ (saveGeneral ++ saveSystem)) m =
          atCall m pstate := by
  obtain ⟨p, hp, hvector⟩ := @exec_vector returnAddress irqHandle m entry h
  have hselects : ({ m with pstate := p } : Machine).SelectsEl1 := hp
  obtain ⟨p', hp', henter⟩ := @exec_enter returnAddress irqHandle _ hselects
  have hselects' : ({ m with pstate := p', spEl1 := framePointer m } : Machine).SelectsEl1 := hp'
  refine ⟨p', hp', ?_⟩
  have hsp : ({ m with pstate := p', spEl1 := framePointer m } : Machine).sp = framePointer m :=
    Machine.sp_of_selects hselects'
  have henter' : exec returnAddress irqHandle [.msrDaifset 2, .subSp frameSize]
      { m with pstate := p } = { m with pstate := p', spEl1 := framePointer m } := henter
  rw [exec_append, exec_append entry.vector, hvector, henter', exec_save, hsp]
  rfl

/-- After the call: what the frame holds is loaded, and the frame is released. -/
theorem exec_after_call {m₀ : Machine} (h : m.SelectsEl1) (hframe : HoldsFrame m₀ m.spEl1 m.mem) :
    exec returnAddress irqHandle
        (restoreSystem ++ (restoreGeneral ++ [.addSp frameSize, .eret])) m =
      { m with
        x := m₀.x
        spEl1 := m.spEl1 + BitVec.ofNat 64 frameSize
        elrEl1 := m₀.elrEl1
        spsrEl1 := m₀.spsrEl1
        pstate := m₀.spsrEl1
        pc := m₀.elrEl1 } := by
  have helr : load m.mem (m.spEl1 + BitVec.ofNat 64 248) = m₀.elrEl1 :=
    hframe (248, m₀.elrEl1) (List.mem_append_right _ (.head _))
  have hspsr : load m.mem (m.spEl1 + BitVec.ofNat 64 256) = m₀.spsrEl1 :=
    hframe (256, m₀.spsrEl1) (List.mem_append_right _ (.tail _ (.head _)))
  have hx : ∀ x, loadAll m.mem m.spEl1 (transfers saveGeneral) x = m₀.x := by
    intro x
    funext r
    obtain ⟨offset, hr⟩ := exists_transfer r
    rw [loadAll_of_mem transfers_nodup hr]
    exact hframe (offset, m₀.x r) (List.mem_append_left _ (List.mem_map_of_mem hr))
  have hsp : m.sp = m.spEl1 := Machine.sp_of_selects h
  have hsp' : ({ m with
      x := Function.update m.x 0 m₀.spsrEl1
      elrEl1 := m₀.elrEl1
      spsrEl1 := m₀.spsrEl1 } : Machine).sp = m.spEl1 := hsp
  rw [exec_append, exec_append, exec_restoreSystem, hsp, helr, hspsr, exec_restoreGeneral, hsp']
  have hselects : ({ m with
      x := m₀.x
      elrEl1 := m₀.elrEl1
      spsrEl1 := m₀.spsrEl1 } : Machine).SelectsEl1 := h
  dsimp only
  rw [hx, exec_leave hselects]

end Whole

/-- **Interrupts are transparent.**  Whatever the registers and the memory hold when the listing is
entered, and whatever a call of `irq_handle` does that follows the calling convention: after `eret`
the general registers and both stack pointers are as they were, execution goes on at the address in
`ELR_EL1` with the state in `SPSR_EL1`, and the memory that the interrupted code works with is
unchanged outside the frame.  The 33 words saved lie inside the frame and share no byte. -/
theorem irq_transparent (entry : Entry) (m : Machine) (hentry : entry = .spx → m.SelectsEl1)
    (returnAddress : Word) {irqHandle : Machine → Machine} {live : Word → Prop}
    (hhandle : ∀ m, FollowsConvention live m (irqHandle m)) :
    let m' := exec returnAddress irqHandle (entry.vector ++ irqEntryCommon) m
    let bytes := fun offset => InRange (framePointer m + BitVec.ofNat 64 offset) 8
    (m'.x = m.x ∧ m'.spEl0 = m.spEl0 ∧ m'.spEl1 = m.spEl1) ∧
    (m'.pc = m.elrEl1 ∧ m'.pstate = m.spsrEl1) ∧
    (∀ a, live a → ¬ InRange (framePointer m) frameSize a → m'.mem a = m.mem a) ∧
    (storedOffsets irqEntryCommon).length = 33 ∧
    ((storedOffsets irqEntryCommon).Pairwise fun i j => ∀ a, bytes i a → ¬ bytes j a) ∧
    ∀ i ∈ storedOffsets irqEntryCommon, ∀ a, bytes i a → InRange (framePointer m) frameSize a := by
  dsimp only
  obtain ⟨p, hp, hbefore⟩ := @exec_before_call returnAddress irqHandle m entry hentry
  -- the call, from the state with the link register set
  have hcall := hhandle ((atCall m p).setX 30 returnAddress)
  have hsp : ((atCall m p).setX 30 returnAddress).sp = framePointer m :=
    Machine.sp_of_selects hp
  have hselects : (irqHandle ((atCall m p).setX 30 returnAddress)).SelectsEl1 :=
    hcall.spSel.trans hp
  have hpointer : (irqHandle ((atCall m p).setX 30 returnAddress)).spEl1 = framePointer m :=
    hcall.spEl1
  have hframe : HoldsFrame m (irqHandle ((atCall m p).setX 30 returnAddress)).spEl1
      (irqHandle ((atCall m p).setX 30 returnAddress)).mem := by
    rw [hpointer]
    exact (holdsFrame_storeAll m _ m.mem).congr fun a ha => hcall.frame a (hsp.symm ▸ ha)
  have hlisting : entry.vector ++ irqEntryCommon =
      (entry.vector ++ [.msrDaifset 2, .subSp frameSize] ++ (saveGeneral ++ saveSystem)) ++
        (.blIrqHandle :: (restoreSystem ++ (restoreGeneral ++ [.addSp frameSize, .eret]))) := by
    simp only [irqEntryCommon, List.append_assoc, List.cons_append, List.nil_append]
  rw [hlisting, exec_append, hbefore, exec_cons, Instr.exec, exec_after_call hselects hframe]
  refine ⟨⟨rfl, hcall.spEl0, ?_⟩, ⟨rfl, rfl⟩, ?_, rfl, ?_, ?_⟩
  · rw [hpointer]
    exact BitVec.sub_add_cancel _ _
  · intro a hlive ha
    refine (hcall.live a hlive).trans ?_
    exact storeAll_outside (fun _ hq => frameItems_le hq) frameSize_le ha
  · have hfit : ∀ i ∈ storedOffsets irqEntryCommon, i + 8 ≤ 2 ^ 64 := fun i hi =>
      (storedOffsets_le i hi).trans frameSize_le
    exact storedOffsets_pairwise.imp_of_mem fun hi hj h _ ha =>
      not_inRange_of_apart h (hfit _ hi) (hfit _ hj) ha
  · intro i hi a ha
    exact inRange_of_inRange_offset (storedOffsets_le i hi) frameSize_le ha

/-- A handler that uses all the registers it may. -/
def clobber (m : Machine) : Machine :=
  { m with
    x := fun r => if 19 ≤ r ∧ r ≤ 29 then m.x r else 0
    elrEl1 := 0
    spsrEl1 := 0 }

theorem followsConvention_clobber (m : Machine) :
    FollowsConvention (fun _ => True) m (clobber m) :=
  ⟨fun _ hlo hhi => if_pos ⟨hlo, hhi⟩, rfl, rfl, rfl, fun _ _ => rfl, fun _ _ => rfl⟩

/-- An interrupt of code that uses `SP_EL1`. -/
def interrupted : Machine where
  x := fun r => BitVec.ofNat 64 (1000 + r)
  spEl0 := 0x40300000
  spEl1 := 0x40400000
  elrEl1 := 0x40080000
  spsrEl1 := 0x60000005
  pstate := 0x3c5
  pc := 0
  mem := fun _ => 0

theorem irq_transparent_clobber :
    (exec 0x40080a00 clobber (irqVector ++ irqEntryCommon) interrupted).x = interrupted.x ∧
      (exec 0x40080a00 clobber (irqVector ++ irqEntryCommon) interrupted).pc = 0x40080000 := by
  obtain ⟨⟨hx, -⟩, ⟨hpc, -⟩, -⟩ :=
    irq_transparent .spx interrupted (fun _ => rfl) 0x40080a00 followsConvention_clobber
  exact ⟨hx, hpc⟩

end Vectors

end MiniOs
