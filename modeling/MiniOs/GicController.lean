/-
**Acknowledging and ending interrupts (`src/gic.c`).**

The distributor forwards the pending interrupts that are enabled to the CPU interface, which signals
those of sufficient priority to the CPU.  Reading `GICC_IAR` acknowledges the most urgent of them and
makes it active; as long as it is active, neither it nor one that is no more urgent is signalled again.
Writing the value that was read to `GICC_EOIR` ends it.  Where nothing is signalled, the value that is
read is that of a spurious interrupt.

A level-triggered interrupt is pending as long as its line is asserted, so the lines of the devices are
an argument of what follows.  Several interrupts may be equally urgent, and which of them is
acknowledged is left open; so are the bits of the value that are no part of the interrupt's number.

Main definitions:

* `Gic.Controller`, `Gic.Controller.write32` — the registers, and writing to one;
* `Gic.gicInit`, `Gic.gicInterruptId`, `Gic.gicEndInterrupt` — the functions of the file;
* `Gic.Controller.Signals`, `Gic.Controller.Acknowledges` — **which interrupts are signalled, and what
  reading `GICC_IAR` does**;
* `Gic.Controller.Open`, `Gic.Controller.Listens` — what the functions leave behind.

Main results:

* `Gic.gicInit_spec` — the controller accepts every priority but the lowest afterwards;
* `Gic.Controller.signals_iff` — **while nothing is active, a line that is asserted is signalled**.
-/

import MiniOs.GicDistributor

set_option relaxedAutoImplicit false
set_option autoImplicit false

namespace MiniOs

namespace Gic

open PackedFields

/-! ### The registers -/

/-- The distributor with its control register, the CPU interface, and the interrupts that are active,
the last one acknowledged first. -/
structure Controller where
  distributor : Distributor
  /-- `GICD_CTLR`. -/
  distributorCtlr : BitVec 32
  /-- `GICC_CTLR`. -/
  ctlr : BitVec 32
  /-- `GICC_PMR`. -/
  pmr : BitVec 32
  /-- `GICC_BPR`. -/
  bpr : BitVec 32
  active : List ℕ

/-- The registers that control the interrupts as a whole. -/
inductive ControlRegister
  | gicdCtlr
  | giccCtlr
  | giccPmr
  | giccBpr
  | giccEoir
deriving DecidableEq

/-- The control register at an address. -/
def controlRegister (a : Word) : Option ControlRegister :=
  if a = gicdRegister Gic.gicdCtlr then some ControlRegister.gicdCtlr
  else if a = giccRegister Gic.giccCtlr then some ControlRegister.giccCtlr
  else if a = giccRegister Gic.giccPmr then some ControlRegister.giccPmr
  else if a = giccRegister Gic.giccBpr then some ControlRegister.giccBpr
  else if a = giccRegister Gic.giccEoir then some ControlRegister.giccEoir
  else none

/-- Model of `gic_interrupt_id`. -/
def gicInterruptId (acknowledgeValue : BitVec 32) : BitVec 32 := acknowledgeValue &&& 0x3ff#32

namespace Controller

/-- Writing a control register.  What is written to `GICC_EOIR` ends an interrupt. -/
def writeControl (c : Controller) (value : BitVec 32) : ControlRegister → Controller
  | ControlRegister.gicdCtlr => { c with distributorCtlr := value }
  | ControlRegister.giccCtlr => { c with ctlr := value }
  | ControlRegister.giccPmr => { c with pmr := value }
  | ControlRegister.giccBpr => { c with bpr := value }
  | ControlRegister.giccEoir => { c with active := c.active.erase (gicInterruptId value).toNat }

/-- Writing a word to the address of a control register. -/
def write32 (a : Word) (value : BitVec 32) (c : Controller) : Option Controller :=
  (controlRegister a).map fun register => c.writeControl value register

end Controller

/-! ### The functions of the file -/

/-- Model of `gic_init`. -/
def gicInit (c : Controller) : Option Controller := do
  let c ← c.write32 (gicdRegister gicdCtlr) 0
  let c ← c.write32 (giccRegister giccCtlr) 0
  let c ← c.write32 (giccRegister giccPmr) 0xff
  let c ← c.write32 (giccRegister giccBpr) 0
  let c ← c.write32 (giccRegister giccCtlr) 1
  c.write32 (gicdRegister gicdCtlr) 1

/-- Model of `gic_end_interrupt`. -/
def gicEndInterrupt (acknowledgeValue : BitVec 32) (c : Controller) : Option Controller :=
  c.write32 (giccRegister giccEoir) acknowledgeValue

/-- `gic_enable_interrupt`, of the controller as a whole. -/
def Controller.enable (interruptId : BitVec 32) (priority : Byte) (c : Controller) :
    Option Controller :=
  (gicEnableInterrupt interruptId priority c.distributor).map fun d => { c with distributor := d.2 }

/-- The number of an interrupt is the value modulo 1024. -/
theorem gicInterruptId_toNat (acknowledgeValue : BitVec 32) :
    (gicInterruptId acknowledgeValue).toNat = acknowledgeValue.toNat % 1024 := by
  have hmask : (0x3ff#32).toNat = 2 ^ 10 - 1 := rfl
  rw [gicInterruptId, BitVec.toNat_and, hmask, Nat.and_two_pow_sub_one_eq_mod]

/-- The addresses the functions write to belong to different registers. -/
theorem controlRegister_eq :
    controlRegister (gicdRegister gicdCtlr) = some ControlRegister.gicdCtlr ∧
    controlRegister (giccRegister giccCtlr) = some ControlRegister.giccCtlr ∧
    controlRegister (giccRegister giccPmr) = some ControlRegister.giccPmr ∧
    controlRegister (giccRegister giccBpr) = some ControlRegister.giccBpr ∧
    controlRegister (giccRegister giccEoir) = some ControlRegister.giccEoir := by
  refine ⟨?_, ?_, ?_, ?_, ?_⟩ <;> decide

theorem gicEndInterrupt_eq (acknowledgeValue : BitVec 32) (c : Controller) :
    gicEndInterrupt acknowledgeValue c =
      some { c with active := c.active.erase (gicInterruptId acknowledgeValue).toNat } := by
  rw [gicEndInterrupt, Controller.write32, controlRegister_eq.2.2.2.2]
  rfl

/-! ### Signalling -/

namespace Controller

variable {c : Controller} {line : ℕ → Bool} {i : ℕ}

/-- An interrupt is pending when it was latched, and a level-triggered one also while its line is
asserted. -/
def Pending (c : Controller) (line : ℕ → Bool) (i : ℕ) : Prop :=
  (c.distributor.interrupt i).pending = 1 ∨
    (c.distributor.interrupt i).config.getLsbD 1 = false ∧ line i = true

/-- The part of an interrupt's priority that decides about preemption: `GICC_BPR` says where it
ends. -/
def groupPriority (c : Controller) (i : ℕ) : ℕ :=
  (c.distributor.interrupt i).priority.toNat / 2 ^ (c.bpr.toNat % 8 + 1)

/-- **The interrupts that are signalled to the CPU.** -/
structure Signals (c : Controller) (line : ℕ → Bool) (i : ℕ) : Prop where
  lt : i < 1020
  forwarded : c.distributorCtlr.getLsbD 0 = true
  interface : c.ctlr.getLsbD 0 = true
  enabled : (c.distributor.interrupt i).enabled = 1
  pending : c.Pending line i
  inactive : i ∉ c.active
  target : 32 ≤ i → (c.distributor.interrupt i).target.getLsbD 0 = true
  priority : (c.distributor.interrupt i).priority.toNat < c.pmr.toNat
  preempts : ∀ j ∈ c.active, c.groupPriority i < c.groupPriority j

/-- An interrupt becomes active, and is no longer latched. -/
def activate (c : Controller) (i : ℕ) : Controller :=
  { c with
    distributor := c.distributor.writeWord (1#32 <<< (i % 32)) (WordRegister.icpendr (i / 32))
    active := i :: c.active }

/-- **What reading `GICC_IAR` does.** -/
inductive Acknowledges (line : ℕ → Bool) (c : Controller) : BitVec 32 → Controller → Prop
  | interrupt {value : BitVec 32} : c.Signals line (gicInterruptId value).toNat →
      (∀ j, c.Signals line j →
        (c.distributor.interrupt (gicInterruptId value).toNat).priority ≤
          (c.distributor.interrupt j).priority) →
      Acknowledges line c value (c.activate (gicInterruptId value).toNat)
  | spurious {value : BitVec 32} : (∀ i, ¬ c.Signals line i) →
      1020 ≤ (gicInterruptId value).toNat → Acknowledges line c value c

/-- Activating an interrupt changes the pending bit of that interrupt only. -/
theorem interrupt_activate (c : Controller) (i : ℕ) :
    (c.activate i).distributor.interrupt = Function.update c.distributor.interrupt i
      { c.distributor.interrupt i with pending := 0 } := by
  have hmask : 1#32 <<< (i % 32) = mask 32 1 (i % 32) := by
    have hone : (BitVec.allOnes 1).setWidth 32 = 1#32 := by decide
    rw [mask, hone, Nat.one_mul]
  refine interrupt_eq_update (Function.update_eq_self _ _).symm (entry_update fun j => ?_)
    (Function.update_eq_self _ _).symm (Function.update_eq_self _ _).symm
    (Function.update_eq_self _ _).symm
  rw [hmask, field_and_not_mask]

/-! ### What the functions leave behind -/

/-- The controller forwards every interrupt whose priority is not the lowest one. -/
structure Open (c : Controller) : Prop where
  distributorCtlr : c.distributorCtlr = 1
  ctlr : c.ctlr = 1
  pmr : c.pmr = 0xff
  bpr : c.bpr = 0

/-- **An interrupt is enabled**: for this CPU, with the middle priority, level-triggered and not
latched. -/
structure Listens (c : Controller) (i : ℕ) : Prop where
  enabled : (c.distributor.interrupt i).enabled = 1
  pending : (c.distributor.interrupt i).pending = 0
  config : (c.distributor.interrupt i).config = 0
  priority : (c.distributor.interrupt i).priority = 0x80
  target : 32 ≤ i → (c.distributor.interrupt i).target = 1

/-- What is kept for an interrupt decides whether it is enabled. -/
theorem Listens.congr {d : Controller} (h : c.Listens i)
    (heq : d.distributor.interrupt i = c.distributor.interrupt i) : d.Listens i := by
  constructor
  · rw [heq]
    exact h.enabled
  · rw [heq]
    exact h.pending
  · rw [heq]
    exact h.config
  · rw [heq]
    exact h.priority
  · rw [heq]
    exact h.target

/-- Acknowledging an interrupt leaves all of them enabled. -/
theorem Listens.activate {j : ℕ} (h : c.Listens i) : (c.activate j).Listens i := by
  by_cases hij : i = j
  · rw [← hij]
    have heq : (c.activate i).distributor.interrupt i =
        { c.distributor.interrupt i with pending := 0 } := by
      rw [interrupt_activate, Function.update_self]
    constructor
    · rw [heq]
      exact h.enabled
    · rw [heq]
    · rw [heq]
      exact h.config
    · rw [heq]
      exact h.priority
    · rw [heq]
      exact h.target
  · refine h.congr ?_
    rw [interrupt_activate, Function.update_of_ne hij]

/-- An interrupt that is enabled is pending just while its line is asserted. -/
theorem Listens.pending_iff (h : c.Listens i) : c.Pending line i ↔ line i = true := by
  constructor
  · rintro (hlatched | ⟨-, hline⟩)
    · rw [h.pending] at hlatched
      exact absurd hlatched (by decide)
    · exact hline
  · intro hline
    refine Or.inr ⟨?_, hline⟩
    rw [h.config]
    rfl

/-- **While nothing is active, an enabled interrupt is signalled just while its line is asserted.** -/
theorem signals_iff (hopen : c.Open) (h : c.Listens i) (hlt : i < 1020) (hidle : c.active = []) :
    c.Signals line i ↔ line i = true := by
  constructor
  · intro hsignals
    exact h.pending_iff.1 hsignals.pending
  · intro hline
    refine ⟨hlt, ?_, ?_, h.enabled, h.pending_iff.2 hline, ?_, ?_, ?_, ?_⟩
    · rw [hopen.distributorCtlr]
      rfl
    · rw [hopen.ctlr]
      rfl
    · rw [hidle]
      exact List.not_mem_nil
    · intro hspi
      rw [h.target hspi]
      rfl
    · rw [h.priority, hopen.pmr]
      decide
    · rw [hidle]
      intro j hj
      exact absurd hj List.not_mem_nil

/-- While nothing is active and all that is enabled has the middle priority, an interrupt whose line is
asserted may be the one that is acknowledged. -/
theorem acknowledges_of_line (hopen : c.Open) (hidle : c.active = []) {value : BitVec 32}
    (h : c.Listens (gicInterruptId value).toNat) (hlt : (gicInterruptId value).toNat < 1020)
    (hmiddle : ∀ j, (c.distributor.interrupt j).enabled = 1 →
      (c.distributor.interrupt j).priority = 0x80)
    (hline : line (gicInterruptId value).toNat = true) :
    c.Acknowledges line value (c.activate (gicInterruptId value).toNat) := by
  refine Acknowledges.interrupt ((signals_iff hopen h hlt hidle).2 hline) fun j hj => ?_
  rw [h.priority, hmiddle j hj.enabled]
  exact BitVec.le_refl _

end Controller

/-- **The controller accepts every priority but the lowest** after `gic_init`, which does not touch
what is kept for the single interrupts. -/
theorem gicInit_spec (c : Controller) : ∃ d, gicInit c = some d ∧ d.Open ∧
    d.distributor = c.distributor ∧ d.active = c.active := by
  obtain ⟨hgicd, hgicc, hpmr, hbpr, -⟩ := controlRegister_eq
  refine ⟨{ c with distributorCtlr := 1, ctlr := 1, pmr := 0xff, bpr := 0 }, ?_, ⟨rfl, rfl, rfl, rfl⟩,
    rfl, rfl⟩
  simp only [gicInit, Controller.write32, hgicd, hgicc, hpmr, hbpr, Option.map_some,
    Option.bind_eq_bind, Option.bind_some, Controller.writeControl]

/-- Enabling an interrupt of priority 0x80 enables it, and leaves the others enabled. -/
theorem Controller.enable_spec (interruptId : BitVec 32) (hlo : 16 ≤ interruptId.toNat)
    (hhi : interruptId.toNat < 1020) (c : Controller) :
    ∃ d, c.enable interruptId 0x80 = some d ∧ d.Listens interruptId.toNat ∧
      (∀ i, i ≠ interruptId.toNat → d.distributor.interrupt i = c.distributor.interrupt i) ∧
      (c.Open → d.Open) ∧ d.active = c.active := by
  obtain ⟨between, e, hcall, hview, -⟩ := gicEnableInterrupt_spec hlo hhi 0x80 c.distributor
  refine ⟨{ c with distributor := e }, ?_, ?_, ?_, ?_, rfl⟩
  · rw [enable, hcall, Option.map_some]
  · have hself : e.interrupt interruptId.toNat =
        (c.distributor.interrupt interruptId.toNat).enable interruptId.toNat 0x80 := by
      rw [hview, Function.update_self]
    constructor
    · exact congrArg Interrupt.enabled hself
    · exact congrArg Interrupt.pending hself
    · exact congrArg Interrupt.config hself
    · exact congrArg Interrupt.priority hself
    · intro hspi
      exact (congrArg Interrupt.target hself).trans (if_pos hspi)
  · intro i hi
    change e.interrupt i = _
    rw [hview, Function.update_of_ne hi]
  · intro hopen
    exact ⟨hopen.distributorCtlr, hopen.ctlr, hopen.pmr, hopen.bpr⟩

end Gic

end MiniOs
