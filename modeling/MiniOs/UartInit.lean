/-
**Configuring the UART (`uart_init` in `src/uart.c`).**

`uart_init` masks the interrupts of the device and switches it off, waits until it is not busy, writes the
configuration, switches it on again, empties the receive FIFO, and unmasks the interrupts.  Between two
accesses the device does as it likes: words arrive while it is on, interrupts are raised, and it may be
busy.  What firmware has left in its registers and in its FIFO is anything.

The function is given as the list of its accesses.  The two loops are one access each, which is made
again and again.

Main definitions:

* `Uart.Pl011` — the registers, the raw interrupts and the receive FIFO;
* `Uart.uartInit`, `Uart.initStep` — **the accesses, and the next one of them**.

Main results:

* `Uart.InitInv`, `Uart.reached_inv` — what holds after any number of accesses;
* `Uart.uart_init_configures` — **what `uart_init` leaves, and what it never does on the way**;
* `Uart.uart_init_completes` — **it comes to its end, unless words arrive without a pause**.
-/

import MiniOs.Interrupts
import MiniOs.UartTransmit

set_option relaxedAutoImplicit false
set_option autoImplicit false

namespace MiniOs

namespace Uart

open Gic (Controller)
open Irq (uartInterruptId)

/-! ### The device -/

/-- `UART_LCR_H_FEN`: the FIFO is on. -/
def uartLcrHFen : BitVec 32 := 1#32 <<< 4

/-- `UART_LCR_H_WLEN_8`. -/
def uartLcrHWlen8 : BitVec 32 := 3#32 <<< 5

/-- `UART_CR_UARTEN`: the device is on. -/
def uartCrUarten : BitVec 32 := 1#32 <<< 0

/-- `UART_CR_TXE`: it sends. -/
def uartCrTxe : BitVec 32 := 1#32 <<< 8

/-- `UART_CR_RXE`: it receives. -/
def uartCrRxe : BitVec 32 := 1#32 <<< 9

/-- `UART_RX_INTERRUPT_MASK`. -/
def uartRxInterruptMask : BitVec 32 := uartIntReceiveMask ||| uartIntErrorMask

/-- `UART_IFLS_RX_MASK`. -/
def uartIflsRxMask : BitVec 32 := 7#32 <<< 3

/-- The registers that `uart_init` writes. -/
inductive Register
  | imsc
  | cr
  | lcrH
  | icr
  | rsrEcr
  | ibrd
  | fbrd
  | ifls
  deriving DecidableEq

/-- What was written last to each register, the raw interrupts, and the receive FIFO. -/
structure Pl011 where
  regs : Register → BitVec 32
  ris : BitVec 32
  rxFifo : List (BitVec 12)

namespace Pl011

/-- Reading `UART_MIS`. -/
def mis (d : Pl011) : BitVec 32 := d.ris &&& d.regs .imsc

/-- The device is on and receives. -/
def Receives (d : Pl011) : Prop :=
  d.regs .cr &&& (uartCrUarten ||| uartCrRxe) = uartCrUarten ||| uartCrRxe

instance (d : Pl011) : Decidable d.Receives := inferInstanceAs (Decidable (_ = _))

/-- Writing a register.  `UART_ICR` withdraws interrupts, and the FIFO is empty when it is switched on or
off. -/
def write (r : Register) (value : BitVec 32) (d : Pl011) : Pl011 where
  regs := Function.update d.regs r value
  ris := if r = .icr then d.ris &&& ~~~value else d.ris
  rxFifo := if r = .lcrH ∧ (value ^^^ d.regs .lcrH) &&& uartLcrHFen ≠ 0 then [] else d.rxFifo

theorem write_rxFifo {r : Register} (h : r ≠ .lcrH) (value : BitVec 32) (d : Pl011) :
    (d.write r value).rxFifo = d.rxFifo := if_neg fun hw => h hw.1

/-- Reading `UART_DR`.  The receive interrupts are withdrawn with the last word. -/
def readDr (d : Pl011) : BitVec 32 × Pl011 :=
  match d.rxFifo with
  | [] => (0, d)
  | data :: fifo => (data.setWidth 32,
      { d with rxFifo := fifo, ris := if fifo = [] then d.ris &&& ~~~uartIntReceiveMask else d.ris })

end Pl011

/-- What happens before the next access: words come in, interrupts are raised, and the flags change. -/
structure Meanwhile where
  words : List (BitVec 12)
  raised : BitVec 32
  busy : Bool
  others : BitVec 32

namespace Pl011

/-- The words that get into the FIFO. -/
def accepted (e : Meanwhile) (d : Pl011) : List (BitVec 12) := if d.Receives then e.words else []

/-- The device goes on.  It raises receive interrupts only while there are words. -/
def pass (e : Meanwhile) (d : Pl011) : Pl011 :=
  let rxFifo := d.rxFifo ++ d.accepted e
  let raised := if rxFifo = [] then e.raised &&& ~~~uartIntReceiveMask else e.raised
  { d with rxFifo := rxFifo, ris := d.ris ||| raised }

/-- Reading `UART_FR`. -/
def fr (e : Meanwhile) (d : Pl011) : BitVec 32 :=
  e.others &&& ~~~(uartFrRxfe ||| uartFrBusy) ||| flag uartFrRxfe d.rxFifo.isEmpty |||
    flag uartFrBusy e.busy

/-- The two flags stand in bits of their own. -/
theorem fr_and {m : BitVec 32} (e : Meanwhile) (d : Pl011) (hm : m = uartFrRxfe ∨ m = uartFrBusy) :
    d.fr e &&& m = (flag uartFrRxfe d.rxFifo.isEmpty ||| flag uartFrBusy e.busy) &&& m := by
  have hnone : ~~~(uartFrRxfe ||| uartFrBusy) &&& m = 0#32 := by
    rcases hm with rfl | rfl <;> decide
  have hmasked : e.others &&& ~~~(uartFrRxfe ||| uartFrBusy) &&& m = 0#32 := by
    rw [BitVec.and_assoc, hnone, BitVec.and_zero]
  rw [fr, BitVec.or_assoc, BitVec.and_or_distrib_right, hmasked, BitVec.zero_or]

theorem fr_rxfe (e : Meanwhile) (d : Pl011) : d.fr e &&& uartFrRxfe = 0 ↔ d.rxFifo ≠ [] := by
  have hflags : ∀ a b : Bool, (flag uartFrRxfe a ||| flag uartFrBusy b) &&& uartFrRxfe = 0 ↔
      ¬ a = true := by decide
  rw [fr_and e d (Or.inl rfl), hflags, List.isEmpty_iff]

theorem fr_busy (e : Meanwhile) (d : Pl011) : d.fr e &&& uartFrBusy ≠ 0 ↔ e.busy = true := by
  have hflags : ∀ a b : Bool, (flag uartFrRxfe a ||| flag uartFrBusy b) &&& uartFrBusy ≠ 0 ↔
      b = true := by decide
  rw [fr_and e d (Or.inr rfl), hflags]

end Pl011

/-! ### The accesses -/

/-- An access of `uart_init`. -/
inductive Access
  | write (r : Register) (value : BitVec 32)
  /-- `while ((UART_FR & UART_FR_BUSY) != 0U)`. -/
  | waitIdle
  /-- `UART_IFLS &= ~UART_IFLS_RX_MASK`. -/
  | lowerTrigger
  /-- `drain_rx_fifo`.  A pass of its loop, with the reads of `UART_FR` and `UART_DR`, is one access. -/
  | drainRxFifo
  /-- `gic_enable_interrupt(UART_INTERRUPT_ID, 0x80U)`. -/
  | gicEnableInterrupt
  deriving DecidableEq

/-- The write that switches the FIFO on. -/
def fifoOn : Access := .write .lcrH (uartLcrHWlen8 ||| uartLcrHFen)

/-- The write that withdraws the interrupts. -/
def withdraw : Access := .write .icr 0x7ff

/-- **The accesses of `uart_init`.** -/
def uartInit : List Access :=
  [.write .imsc 0,
    .write .cr 0,
    .waitIdle,
    .write .lcrH 0,
    withdraw,
    .write .rsrEcr 0,
    .write .ibrd 13,
    .write .fbrd 1,
    fifoOn,
    .lowerTrigger,
    .write .cr (uartCrUarten ||| uartCrTxe ||| uartCrRxe),
    .drainRxFifo,
    .gicEnableInterrupt,
    withdraw,
    .write .imsc uartRxInterruptMask]

/-- `uart_init` at work: the device, the interrupt controller, the receive path, and the number of
accesses that are done.  `drained` are the words it has read, and `arrived` those that got into the FIFO
since `UART_LCR_H` was written last. -/
structure Init where
  device : Pl011
  controller : Controller
  rx : Rx
  pc : ℕ
  drained : List (BitVec 12)
  arrived : List (BitVec 12)

/-- The accesses that are done. -/
def Init.done (s : Init) : List Access := uartInit.take s.pc

/-- The device goes on. -/
def Init.pass (e : Meanwhile) (s : Init) : Init :=
  { s with device := s.device.pass e, arrived := s.arrived ++ s.device.accepted e }

/-- The effect of an access. -/
def Access.exec (e : Meanwhile) (s : Init) : Access → Option Init
  | .write r value => some { s with
      device := s.device.write r value
      pc := s.pc + 1
      arrived := if r = .lcrH then [] else s.arrived }
  | .waitIdle => some (if s.device.fr e &&& uartFrBusy ≠ 0 then s else { s with pc := s.pc + 1 })
  | .lowerTrigger => some { s with
      device := s.device.write .ifls (s.device.regs .ifls &&& ~~~uartIflsRxMask)
      pc := s.pc + 1 }
  | .drainRxFifo =>
      if s.device.fr e &&& uartFrRxfe = 0 then
        let (data, device) := s.device.readDr
        some { s with
          device := device
          rx := (receive data s.rx).2
          drained := s.drained ++ s.device.rxFifo.take 1 }
      else some { s with pc := s.pc + 1 }
  | .gicEnableInterrupt =>
      (s.controller.enable uartInterruptId 0x80).map fun controller =>
        { s with controller := controller, pc := s.pc + 1 }

/-- Model of `uart_init`: **the next access**.  When it has returned the device goes on. -/
def initStep (e : Meanwhile) (s : Init) : Option Init :=
  match uartInit[s.pc]? with
  | none => some (s.pass e)
  | some a => a.exec e (s.pass e)

/-! ### What the accesses have written -/

/-- What an access writes to a register. -/
def Access.writes (r : Register) : Access → Option (BitVec 32)
  | .write r' value => if r' = r then some value else none
  | _ => none

/-- What some accesses have written last to a register. -/
def written (r : Register) (accesses : List Access) : Option (BitVec 32) :=
  (accesses.filterMap (Access.writes r)).getLast?

theorem written_concat (r : Register) (l : List Access) (a : Access) :
    written r (l ++ [a]) = (a.writes r).or (written r l) := by
  rw [written, List.filterMap_append, List.getLast?_append]
  cases ha : a.writes r <;> simp [ha, written]

/-- What holds of each access and of those before it. -/
theorem at_access {P : List Access → Access → Prop}
    (h : ∀ i : Fin uartInit.length, P (uartInit.take i) (uartInit.get i)) {i : ℕ} {a : Access}
    (ha : uartInit[i]? = some a) : P (uartInit.take i) a := by
  obtain ⟨hi, rfl⟩ := List.getElem?_eq_some_iff.1 ha
  exact h ⟨i, hi⟩

theorem take_access {i : ℕ} {a : Access} (ha : uartInit[i]? = some a) :
    uartInit.take (i + 1) = uartInit.take i ++ [a] := by
  rw [List.take_add_one, ha]
  rfl

/-- The FIFO is switched on once, after it was switched off, and before the interrupts are withdrawn for
the second time. -/
theorem lcrH_access {i : ℕ} {a : Access} (ha : uartInit[i]? = some a) (hlcr : a.writes .lcrH ≠ none) :
    fifoOn ∉ uartInit.take i ∧ (uartInit.take (i + 1)).count withdraw < 2 ∧
      (a = fifoOn → written .lcrH (uartInit.take i) = some 0) := by
  rw [take_access ha]
  refine at_access (P := fun done a => a.writes .lcrH ≠ none → fifoOn ∉ done ∧
    (done ++ [a]).count withdraw < 2 ∧ (a = fifoOn → written .lcrH done = some 0)) ?_ ha hlcr
  decide

/-- `UART_IFLS` is changed once, and not by a write of its own. -/
theorem ifls_access {i : ℕ} {a : Access} (ha : uartInit[i]? = some a) :
    a.writes .ifls = none ∧ written .ifls (uartInit.take i) = none ∧
      (a = .lowerTrigger → .lowerTrigger ∉ uartInit.take i) := by
  refine at_access (P := fun done a => a.writes .ifls = none ∧ written .ifls done = none ∧
    (a = .lowerTrigger → .lowerTrigger ∉ done)) ?_ ha
  decide

/-- The FIFO is on when it is emptied. -/
theorem drain_access {i : ℕ} (ha : uartInit[i]? = some .drainRxFifo) : fifoOn ∈ uartInit.take i := by
  refine at_access (P := fun done a => a = .drainRxFifo → fifoOn ∈ done) ?_ ha rfl
  decide

/-- The interrupt is enabled once. -/
theorem enable_access {i : ℕ} (ha : uartInit[i]? = some .gicEnableInterrupt) :
    .gicEnableInterrupt ∉ uartInit.take i := by
  refine at_access (P := fun done a => a = .gicEnableInterrupt → .gicEnableInterrupt ∉ done) ?_ ha rfl
  decide

/-- **The configuration is written while the device is off**, and from the first access to the last one
the interrupts are masked. -/
theorem config_access {i : ℕ} {a : Access} (ha : uartInit[i]? = some a) :
    (i ≠ 0 → written .imsc (uartInit.take i) = some 0) ∧
    (a = .lowerTrigger ∨ a.writes .lcrH ≠ none ∨ a.writes .ibrd ≠ none ∨ a.writes .fbrd ≠ none →
      written .cr (uartInit.take i) = some 0) := by
  have hmasked : ∀ j : Fin uartInit.length, (j : ℕ) ≠ 0 →
      written .imsc (uartInit.take j) = some 0 := by decide
  refine ⟨hmasked ⟨i, (List.getElem?_eq_some_iff.1 ha).1⟩, ?_⟩
  refine at_access (P := fun done a => a = .lowerTrigger ∨ a.writes .lcrH ≠ none ∨
    a.writes .ibrd ≠ none ∨ a.writes .fbrd ≠ none → written .cr done = some 0) ?_ ha
  decide

/-! ### What holds after any number of accesses -/

/-- **What holds after any number of accesses**, if `uart_init` began in the state `start`. -/
structure InitInv (start s : Init) : Prop where
  registers : ∀ r value, written r s.done = some value → s.device.regs r = value
  ifls : s.device.regs .ifls = if .lowerTrigger ∈ s.done then
    start.device.regs .ifls &&& ~~~uartIflsRxMask else start.device.regs .ifls
  drained : fifoOn ∉ s.done → s.drained = []
  delivered : fifoOn ∈ s.done → s.arrived = s.drained ++ s.device.rxFifo
  rx : s.rx = (drainRxFifo (s.drained.map (·.setWidth 32)) start.rx).2
  enabled : .gicEnableInterrupt ∈ s.done →
    start.controller.enable uartInterruptId 0x80 = some s.controller
  untouched : .gicEnableInterrupt ∉ s.done → s.controller = start.controller
  receive : 2 ≤ s.done.count withdraw → s.device.rxFifo = [] →
    s.device.ris &&& uartIntReceiveMask = 0

/-- `uart_init` is called. -/
structure Init.Starts (s : Init) : Prop where
  pc : s.pc = 0
  drained : s.drained = []

variable {start s t : Init} {e : Meanwhile}

theorem initInv_start (h : s.Starts) : InitInv s s where
  registers r value hwritten := by
    rw [Init.done, h.pc] at hwritten
    cases hwritten
  ifls := by
    rw [Init.done, h.pc]
    rfl
  drained _ := h.drained
  delivered hon := by
    rw [Init.done, h.pc] at hon
    cases hon
  rx := by
    rw [h.drained]
    rfl
  enabled hon := by
    rw [Init.done, h.pc] at hon
    cases hon
  untouched _ := rfl
  receive htwice := by
    rw [Init.done, h.pc] at htwice
    exact absurd htwice (by decide)

/-- The device goes on. -/
theorem InitInv.pass (h : InitInv start s) (e : Meanwhile) : InitInv start (s.pass e) where
  registers := h.registers
  ifls := h.ifls
  drained := h.drained
  delivered hon := by
    change s.arrived ++ _ = s.drained ++ (s.device.rxFifo ++ _)
    rw [h.delivered hon, List.append_assoc]
  rx := h.rx
  enabled := h.enabled
  untouched := h.untouched
  receive htwice hempty := by
    change s.device.rxFifo ++ _ = [] at hempty
    have hris : (s.pass e).device.ris = s.device.ris ||| e.raised &&& ~~~uartIntReceiveMask := by
      change s.device.ris ||| (if s.device.rxFifo ++ s.device.accepted e = [] then _ else _) = _
      rw [if_pos hempty]
    have hnone : ~~~uartIntReceiveMask &&& uartIntReceiveMask = 0#32 := by decide
    rw [hris, BitVec.and_or_distrib_right, h.receive htwice (List.append_eq_nil_iff.1 hempty).1,
      BitVec.and_assoc, hnone, BitVec.and_zero]
    exact BitVec.zero_or

/-- An access that is done is one of those that were done before, or the one made now. -/
theorem mem_done {a b : Access} (ha : uartInit[s.pc]? = some a) :
    b ∈ uartInit.take (s.pc + 1) ↔ b ∈ s.done ∨ b = a := by
  rw [take_access ha, List.mem_append, List.mem_singleton]
  rfl

/-- A write to a register. -/
theorem InitInv.write (h : InitInv start s) {r : Register} {value : BitVec 32}
    (ha : uartInit[s.pc]? = some (.write r value)) :
    InitInv start { s with
      device := s.device.write r value
      pc := s.pc + 1
      arrived := if r = .lcrH then [] else s.arrived } := by
  have hother : ∀ {b : Access}, (∀ v, b ≠ .write r v) →
      (b ∈ uartInit.take (s.pc + 1) ↔ b ∈ s.done) := by
    intro b hb
    rw [mem_done ha]
    exact or_iff_left (hb value)
  have hlowered := hother (b := .lowerTrigger) (fun _ => Access.noConfusion)
  have henabled := hother (b := .gicEnableInterrupt) (fun _ => Access.noConfusion)
  constructor
  case registers =>
    intro r' v hv
    change written r' (uartInit.take (s.pc + 1)) = some v at hv
    change Function.update s.device.regs r value r' = v
    rw [take_access ha, written_concat, Access.writes] at hv
    by_cases hr : r = r'
    · subst hr
      rw [if_pos rfl, Option.some_or] at hv
      rw [Function.update_self]
      exact Option.some_inj.1 hv
    · rw [if_neg hr, Option.none_or] at hv
      rw [Function.update_of_ne (Ne.symm hr)]
      exact h.registers r' v hv
  case ifls =>
    have hne : Register.ifls ≠ r := by
      rintro rfl
      exact absurd (ifls_access ha).1 (by simp [Access.writes])
    change Function.update s.device.regs r value .ifls =
      if .lowerTrigger ∈ uartInit.take (s.pc + 1) then _ else _
    rw [Function.update_of_ne hne, if_congr hlowered rfl rfl]
    exact h.ifls
  case drained => exact fun hoff => h.drained fun hon => hoff ((mem_done ha).2 (Or.inl hon))
  case delivered =>
    intro hon
    by_cases hr : r = .lcrH
    · subst hr
      obtain ⟨hoff, -, hzero⟩ := lcrH_access ha (by simp [Access.writes])
      rcases (mem_done ha).1 hon with hearlier | hnow
      · exact absurd hearlier hoff
      · -- the FIFO is switched on, and it was off
        have hlcr := h.registers _ _ (hzero hnow.symm)
        obtain ⟨-, rfl⟩ := Access.write.inj hnow
        have htoggled : ((uartLcrHWlen8 ||| uartLcrHFen) ^^^ s.device.regs .lcrH) &&&
            uartLcrHFen ≠ 0 := by
          rw [hlcr]
          decide
        have hempty : (s.device.write .lcrH (uartLcrHWlen8 ||| uartLcrHFen)).rxFifo = [] :=
          if_pos ⟨rfl, htoggled⟩
        change (if Register.lcrH = .lcrH then [] else s.arrived) = s.drained ++ _
        rw [if_pos rfl, hempty, h.drained hoff]
        rfl
    · have hfifo := Pl011.write_rxFifo hr value s.device
      have hearlier : fifoOn ∈ s.done := by
        refine ((mem_done ha).1 hon).resolve_right fun hnow => hr ?_
        exact (Access.write.inj hnow).1.symm
      change (if r = .lcrH then [] else s.arrived) = s.drained ++ (s.device.write r value).rxFifo
      rw [if_neg hr, hfifo]
      exact h.delivered hearlier
  case rx => exact h.rx
  case enabled => exact fun hon => h.enabled (henabled.1 hon)
  case untouched => exact fun hoff => h.untouched fun hon => hoff (henabled.2 hon)
  case receive =>
    intro htwice hempty
    change 2 ≤ (uartInit.take (s.pc + 1)).count withdraw at htwice
    have hr : r ≠ .lcrH := by
      rintro rfl
      obtain ⟨-, hcount, -⟩ := lcrH_access ha (by simp [Access.writes])
      exact absurd htwice (Nat.not_le.2 hcount)
    have hfifo := Pl011.write_rxFifo hr value s.device
    rw [take_access ha, List.count_append] at htwice
    by_cases hnow : Access.write r value = withdraw
    · obtain ⟨rfl, rfl⟩ := Access.write.inj hnow
      have hnone : ~~~0x7ff#32 &&& uartIntReceiveMask = 0#32 := by decide
      change (s.device.ris &&& ~~~0x7ff#32) &&& uartIntReceiveMask = 0
      rw [BitVec.and_assoc, hnone]
      exact BitVec.and_zero
    · rw [List.count_singleton, if_neg (by simpa using hnow), Nat.add_zero] at htwice
      have hris := h.receive htwice (hfifo ▸ hempty)
      change (if r = .icr then s.device.ris &&& ~~~value else s.device.ris) &&& uartIntReceiveMask = 0
      split
      · rw [BitVec.and_assoc, BitVec.and_comm (~~~value), ← BitVec.and_assoc, hris]
        exact BitVec.zero_and
      · exact hris

/-- An access that is not a write is done. -/
theorem InitInv.next (h : InitInv start s) {a : Access} (ha : uartInit[s.pc]? = some a)
    (hwrites : ∀ r, a.writes r = none) {device : Pl011} {controller : Controller}
    (hregs : ∀ r, r ≠ .ifls → device.regs r = s.device.regs r)
    (hifls : device.regs .ifls = if a = .lowerTrigger then
      s.device.regs .ifls &&& ~~~uartIflsRxMask else s.device.regs .ifls)
    (hris : device.ris = s.device.ris) (hfifo : device.rxFifo = s.device.rxFifo)
    (henable : a = .gicEnableInterrupt →
      s.controller.enable uartInterruptId 0x80 = some controller)
    (hkeep : a ≠ .gicEnableInterrupt → controller = s.controller) :
    InitInv start { s with device := device, controller := controller, pc := s.pc + 1 } := by
  have hother : ∀ {b : Access} {r : Register}, b.writes r ≠ none →
      (b ∈ uartInit.take (s.pc + 1) ↔ b ∈ s.done) := by
    intro b r hb
    rw [mem_done ha]
    refine or_iff_left ?_
    rintro rfl
    exact hb (hwrites r)
  have hon := hother (b := fifoOn) (r := .lcrH) (by decide)
  have hwithdraw : (uartInit.take (s.pc + 1)).count withdraw = s.done.count withdraw := by
    have hne : (a == withdraw) = false := by
      refine beq_false_of_ne ?_
      rintro rfl
      exact absurd (hwrites .icr) (by decide)
    rw [take_access ha, List.count_append, List.count_singleton, hne]
    rfl
  obtain ⟨-, hnone, hfirst⟩ := ifls_access ha
  constructor
  case registers =>
    intro r v hv
    change written r (uartInit.take (s.pc + 1)) = some v at hv
    rw [take_access ha, written_concat, hwrites, Option.none_or] at hv
    have hne : r ≠ .ifls := by
      rintro rfl
      rw [hnone] at hv
      cases hv
    rw [hregs r hne]
    exact h.registers r v hv
  case ifls =>
    change device.regs .ifls = if .lowerTrigger ∈ uartInit.take (s.pc + 1) then _ else _
    by_cases hnow : a = .lowerTrigger
    · have hmem : .lowerTrigger ∈ uartInit.take (s.pc + 1) := (mem_done ha).2 (Or.inr hnow.symm)
      rw [hifls, if_pos hnow, if_pos hmem, h.ifls.trans (if_neg (hfirst hnow))]
    · have hmem : .lowerTrigger ∈ uartInit.take (s.pc + 1) ↔ .lowerTrigger ∈ s.done := by
        rw [mem_done ha]
        exact or_iff_left (Ne.symm hnow)
      rw [hifls, if_neg hnow, h.ifls, if_congr hmem rfl rfl]
  case drained => exact fun hoff => h.drained fun hearlier => hoff (hon.2 hearlier)
  case delivered =>
    intro hnow
    rw [hfifo]
    exact h.delivered (hon.1 hnow)
  case rx => exact h.rx
  case enabled =>
    intro hmem
    by_cases hnow : a = .gicEnableInterrupt
    · have hfirst : .gicEnableInterrupt ∉ s.done := by
        subst hnow
        exact enable_access ha
      rw [← h.untouched hfirst]
      exact henable hnow
    · rw [hkeep hnow]
      exact h.enabled (((mem_done ha).1 hmem).resolve_right (Ne.symm hnow))
  case untouched =>
    intro hoff
    have hnow : a ≠ .gicEnableInterrupt := fun hnow => hoff ((mem_done ha).2 (Or.inr hnow.symm))
    exact (hkeep hnow).trans (h.untouched fun hearlier => hoff ((mem_done ha).2 (Or.inl hearlier)))
  case receive =>
    intro htwice hempty
    rw [hris]
    exact h.receive (hwithdraw ▸ htwice) (hfifo ▸ hempty)

/-- A word is read. -/
theorem InitInv.word (h : InitInv start s) (ha : uartInit[s.pc]? = some .drainRxFifo)
    {data : BitVec 12} {fifo : List (BitVec 12)} (hfifo : s.device.rxFifo = data :: fifo) :
    InitInv start { s with
      device := s.device.readDr.2
      rx := (Uart.receive s.device.readDr.1 s.rx).2
      drained := s.drained ++ s.device.rxFifo.take 1 } := by
  have hread : s.device.readDr = (data.setWidth 32, { s.device with
      rxFifo := fifo
      ris := if fifo = [] then s.device.ris &&& ~~~uartIntReceiveMask else s.device.ris }) := by
    rw [Pl011.readDr, hfifo]
  rw [hread, hfifo]
  constructor
  case registers => exact h.registers
  case ifls => exact h.ifls
  case drained => exact fun hoff => absurd (drain_access ha) hoff
  case delivered =>
    intro hon
    change s.arrived = (s.drained ++ [data]) ++ fifo
    rw [h.delivered hon, hfifo, List.append_assoc]
    rfl
  case rx =>
    change (Uart.receive (data.setWidth 32) s.rx).2 =
      (drainRxFifo ((s.drained ++ [data]).map (·.setWidth 32)) start.rx).2
    rw [List.map_append, List.map_singleton, drainRxFifo_concat, ← h.rx]
  case enabled => exact h.enabled
  case untouched => exact h.untouched
  case receive =>
    intro _ hempty
    have hnone : ~~~uartIntReceiveMask &&& uartIntReceiveMask = 0#32 := by decide
    change fifo = [] at hempty
    change (if fifo = [] then _ else _) &&& uartIntReceiveMask = 0
    rw [if_pos hempty, BitVec.and_assoc, hnone]
    exact BitVec.and_zero

/-- **What one access preserves.** -/
theorem initInv_step (h : InitInv start s) (hstep : initStep e s = some t) : InitInv start t := by
  have hpass := h.pass e
  unfold initStep at hstep
  split at hstep
  · cases hstep
    exact hpass
  · next a ha =>
      cases a with
      | write r value =>
          cases hstep
          exact hpass.write ha
      | waitIdle =>
          simp only [Access.exec] at hstep
          split at hstep
          · cases hstep
            exact hpass
          · cases hstep
            exact hpass.next ha (fun _ => rfl) (fun _ _ => rfl) rfl rfl rfl Access.noConfusion
              fun _ => rfl
      | lowerTrigger =>
          cases hstep
          refine hpass.next ha (fun _ => rfl) ?_ ?_ rfl ?_ Access.noConfusion fun _ => rfl
          · intro r hr
            change Function.update (s.pass e).device.regs .ifls _ r = _
            exact Function.update_of_ne hr _ _
          · change Function.update (s.pass e).device.regs .ifls _ .ifls = _
            exact Function.update_self _ _ _
          · exact Pl011.write_rxFifo (by decide) _ _
      | drainRxFifo =>
          simp only [Access.exec] at hstep
          split at hstep
          · next hfull =>
              obtain ⟨data, fifo, hfifo⟩ :=
                List.exists_cons_of_ne_nil ((Pl011.fr_rxfe e _).1 hfull)
              cases hstep
              exact hpass.word ha hfifo
          · cases hstep
            exact hpass.next ha (fun _ => rfl) (fun _ _ => rfl) rfl rfl rfl Access.noConfusion
              fun _ => rfl
      | gicEnableInterrupt =>
          simp only [Access.exec, Option.map_eq_some_iff] at hstep
          obtain ⟨controller, henable, rfl⟩ := hstep
          exact hpass.next ha (fun _ => rfl) (fun _ _ => rfl) rfl rfl rfl (fun _ => henable)
            fun hne => absurd rfl hne

/-- **What holds after any number of accesses.** -/
theorem reached_inv {env : ℕ → Meanwhile} {n : ℕ} (hstart : start.Starts)
    (h : Driven.run initStep env n start = some s) : InitInv start s :=
  Driven.run_invariant (P := InitInv start) (fun _ _ _ hs hstep => initInv_step hs hstep)
    (initInv_start hstart) h

/-! ### It comes to its end -/

/-- `uart_init` has returned. -/
def Init.Returned (s : Init) : Prop := uartInit[s.pc]? = none

theorem Init.Returned.done (h : s.Returned) : s.done = uartInit :=
  List.take_of_length_le (List.getElem?_eq_none_iff.1 h)

theorem Init.Returned.mem (h : s.Returned) {a : Access} (ha : a ∈ uartInit) : a ∈ s.done := h.done ▸ ha

/-- What is in the registers then. -/
theorem InitInv.last_written (h : InitInv start s) (hreturned : s.Returned) {r : Register}
    {value : BitVec 32} (hr : written r uartInit = some value) : s.device.regs r = value :=
  h.registers r value (hreturned.done ▸ hr)

/-- Receive interrupts that were raised before are withdrawn. -/
theorem InitInv.withdrawn (h : InitInv start s) (hreturned : s.Returned)
    (hempty : s.device.rxFifo = []) : s.device.mis &&& uartIntReceiveMask = 0 := by
  have hris := h.receive (by rw [hreturned.done]; decide) hempty
  rw [Pl011.mis, BitVec.and_assoc, BitVec.and_comm (s.device.regs _), ← BitVec.and_assoc, hris]
  exact BitVec.zero_and

/-- What is left to do: the words in the FIFO, and two for each access. -/
def Init.variant (s : Init) : ℕ := s.device.rxFifo.length + 2 * (uartInit.length - s.pc)

/-- While the function waits for the device, the device is off. -/
theorem wait_access {i : ℕ} (ha : uartInit[i]? = some .waitIdle) :
    written .cr (uartInit.take i) = some 0 := by
  refine at_access (P := fun done a => a = .waitIdle → written .cr done = some 0) ?_ ha rfl
  decide

theorem Pl011.accepted_length_le (e : Meanwhile) (d : Pl011) :
    (d.accepted e).length ≤ e.words.length := by
  rw [Pl011.accepted]
  split
  · exact Nat.le_refl _
  · exact Nat.zero_le _

theorem Pl011.write_length_le (r : Register) (value : BitVec 32) (d : Pl011) :
    (d.write r value).rxFifo.length ≤ d.rxFifo.length := by
  dsimp only [Pl011.write]
  split
  · exact Nat.zero_le _
  · exact Nat.le_refl _

/-- **Each access comes closer to the end**, unless the device is busy or a word has come in. -/
theorem init_variant_step (h : InitInv start s) (hmore : ¬ s.Returned) (hslow : e.words.length ≤ 1) :
    ∃ t, initStep e s = some t ∧ InitInv start t ∧ t.variant ≤ s.variant ∧
      (e.busy = false ∧ e.words = [] → t.variant < s.variant) := by
  obtain ⟨a, ha⟩ := Option.ne_none_iff_exists'.1 hmore
  have hlt : s.pc < uartInit.length := (List.getElem?_eq_some_iff.1 ha).1
  have haccepted := s.device.accepted_length_le e
  have hlength : (s.pass e).device.rxFifo.length =
      s.device.rxFifo.length + (s.device.accepted e).length := List.length_append
  have hstep : initStep e s = a.exec e (s.pass e) := by
    rw [initStep, ha]
  -- it is enough that the access is done and the FIFO holds no more than before it
  have hdone : ∀ t, initStep e s = some t → t.pc = s.pc + 1 →
      t.device.rxFifo.length ≤ (s.pass e).device.rxFifo.length →
      ∃ t, initStep e s = some t ∧ InitInv start t ∧ t.variant ≤ s.variant ∧
        (e.busy = false ∧ e.words = [] → t.variant < s.variant) := by
    intro t ht hpc hle
    have hless : t.variant < s.variant := by
      unfold Init.variant
      omega
    exact ⟨t, ht, initInv_step h ht, Nat.le_of_lt hless, fun _ => hless⟩
  cases a with
  | write r value => exact hdone _ hstep rfl (Pl011.write_length_le r value _)
  | lowerTrigger => exact hdone _ hstep rfl (Pl011.write_length_le .ifls _ _)
  | gicEnableInterrupt =>
      obtain ⟨controller, henable, -⟩ := Controller.enable_spec uartInterruptId (by decide) (by decide)
        (s.pass e).controller
      simp only [Access.exec, henable, Option.map_some] at hstep
      exact hdone _ hstep rfl (Nat.le_refl _)
  | waitIdle =>
      have hcr := h.registers _ _ (wait_access ha)
      have hnone : s.device.accepted e = [] := by
        refine if_neg fun hreceives => ?_
        rw [Pl011.Receives, hcr] at hreceives
        exact absurd hreceives (by decide)
      simp only [Access.exec, Pl011.fr_busy] at hstep
      by_cases hbusy : e.busy = true
      · rw [if_pos hbusy] at hstep
        refine ⟨_, hstep, initInv_step h hstep, ?_, fun hhelps => ?_⟩
        · change (s.pass e).device.rxFifo.length + _ ≤ _
          rw [hlength, hnone]
          exact Nat.le_refl _
        · rw [hbusy] at hhelps
          exact absurd hhelps.1 (by decide)
      · rw [if_neg hbusy] at hstep
        exact hdone _ hstep rfl (Nat.le_refl _)
  | drainRxFifo =>
      simp only [Access.exec, Pl011.fr_rxfe] at hstep
      by_cases hempty : (s.pass e).device.rxFifo = []
      · rw [if_neg fun hne => hne hempty] at hstep
        exact hdone _ hstep rfl (Nat.le_refl _)
      · rw [if_pos hempty] at hstep
        obtain ⟨data, fifo, hfifo⟩ := List.exists_cons_of_ne_nil hempty
        have hread : (s.pass e).device.readDr.2.rxFifo = fifo := by
          rw [Pl011.readDr, hfifo]
        have hone : fifo.length + 1 = s.device.rxFifo.length + (s.device.accepted e).length := by
          rw [← hlength, hfifo]
          rfl
        refine ⟨_, hstep, initInv_step h hstep, ?_, fun hhelps => ?_⟩
        · change (s.pass e).device.readDr.2.rxFifo.length + 2 * (_ - s.pc) ≤ _
          rw [hread]
          unfold Init.variant
          omega
        · change (s.pass e).device.readDr.2.rxFifo.length + 2 * (_ - s.pc) < _
          rw [hhelps.2, List.length_nil] at haccepted
          rw [hread]
          unfold Init.variant
          omega

/-- It returns in the end. -/
theorem init_returns {env : ℕ → Meanwhile} (hstart : start.Starts)
    (hslow : ∀ i, (env i).words.length ≤ 1)
    (hfair : Driven.Fair (fun e : Meanwhile => e.busy = false ∧ e.words = []) env) :
    ∃ n s, Driven.run initStep env n start = some s ∧ InitInv start s ∧ s.Returned :=
  Driven.Fair.reaches_of_allowed
    (fun e s hslow hinv hmore => init_variant_step (e := e) (s := s) hinv hmore hslow) hfair hslow
    (initInv_start hstart)

/-! ### What `uart_init` leaves -/

/-- **What `uart_init` leaves, and what it never does on the way.**  Whatever firmware has left, and
whatever comes in meanwhile: from its first access to its last one the device signals no interrupt, and the
configuration is written only while the device is off, so that it does not receive.  When it has returned,
the device is on, with its FIFO, the threshold lowered and the other bits of `UART_IFLS` as they were, and
the interrupt is enabled.  Each word that got into the FIFO since then was received or is still there, and a
receive interrupt is pending only if there is one. -/
theorem uart_init_configures {env : ℕ → Meanwhile} {n : ℕ} (hstart : start.Starts)
    (h : Driven.run initStep env n start = some s) :
    (s.pc ≠ 0 → ¬ s.Returned → ∀ e, (s.device.pass e).mis = 0) ∧
    (∀ a, uartInit[s.pc]? = some a → a = .lowerTrigger ∨ a.writes .lcrH ≠ none ∨
      a.writes .ibrd ≠ none ∨ a.writes .fbrd ≠ none → ¬ s.device.Receives) ∧
    (s.Returned →
      (s.device.regs .cr = uartCrUarten ||| uartCrTxe ||| uartCrRxe ∧
        s.device.regs .lcrH = uartLcrHWlen8 ||| uartLcrHFen ∧
        s.device.regs .ibrd = 13 ∧ s.device.regs .fbrd = 1 ∧
        s.device.regs .ifls = start.device.regs .ifls &&& ~~~uartIflsRxMask ∧
        s.device.regs .imsc = uartRxInterruptMask) ∧
      start.controller.enable uartInterruptId 0x80 = some s.controller ∧
      s.arrived = s.drained ++ s.device.rxFifo ∧
      s.rx = (drainRxFifo (s.drained.map (·.setWidth 32)) start.rx).2 ∧
      (s.device.rxFifo = [] → s.device.mis &&& uartIntReceiveMask = 0)) := by
  have hinv := reached_inv hstart h
  refine ⟨fun hbegun hmore e => ?_, fun a ha hconfig hreceives => ?_, fun hreturned => ?_⟩
  · obtain ⟨a, ha⟩ := Option.ne_none_iff_exists'.1 hmore
    have himsc := hinv.registers _ _ ((config_access ha).1 hbegun)
    change _ &&& s.device.regs .imsc = 0
    rw [himsc]
    exact BitVec.and_zero
  · have hcr := hinv.registers _ _ ((config_access ha).2 hconfig)
    rw [Pl011.Receives, hcr] at hreceives
    exact absurd hreceives (by decide)
  · have hregs : ∀ {r : Register} {value : BitVec 32}, written r uartInit = some value →
        s.device.regs r = value := hinv.last_written hreturned
    refine ⟨⟨hregs (by decide), hregs (by decide), hregs (by decide), hregs (by decide), ?_,
      hregs (by decide)⟩, hinv.enabled (hreturned.mem (by decide)),
      hinv.delivered (hreturned.mem (by decide)), hinv.rx, hinv.withdrawn hreturned⟩
    exact hinv.ifls.trans (if_pos (hreturned.mem (by decide)))

/-- A device that firmware has used, with a word in its FIFO. -/
def used : Init where
  device := ⟨fun _ => 0x3ff, 0x7ff, [0x41#12]⟩
  controller := Irq.resetController
  rx := Rx.boot
  pc := 0
  drained := []
  arrived := []

/-- An environment in which a word comes in when the device has just been switched on. -/
def typing (i : ℕ) : Meanwhile := ⟨if i = 11 then [0x61#12] else [], 0, false, 0⟩

theorem typing_slow (i : ℕ) : (typing i).words.length ≤ 1 := by
  rw [typing]
  split <;> decide

theorem typing_fair : Driven.Fair (fun e : Meanwhile => e.busy = false ∧ e.words = []) typing := by
  intro i
  refine ⟨i + 12, Nat.le_add_right i 12, rfl, ?_⟩
  have hlater : i + 12 ≠ 11 := by omega
  rw [typing, if_neg hlater]

/-- The device is on after the call. -/
theorem uart_init_configures_used : ∃ n s, Driven.run initStep typing n used = some s ∧ s.Returned ∧
    s.device.regs .cr = uartCrUarten ||| uartCrTxe ||| uartCrRxe := by
  have hstart : used.Starts := ⟨rfl, rfl⟩
  obtain ⟨n, s, hrun, -, hreturned⟩ := init_returns hstart typing_slow typing_fair
  exact ⟨n, s, hrun, hreturned, ((uart_init_configures hstart hrun).2.2 hreturned).1.1⟩

/-- **`uart_init` comes to its end**, when at most one word comes in between two accesses, which is one for
each pass of the loop over the FIFO, and again and again none does while the device is not busy.  Then the words that got in since the FIFO was switched on are
those it has received and those that are still in the FIFO. -/
theorem uart_init_completes {env : ℕ → Meanwhile} (hstart : start.Starts)
    (hslow : ∀ i, (env i).words.length ≤ 1)
    (hfair : Driven.Fair (fun e : Meanwhile => e.busy = false ∧ e.words = []) env) :
    ∃ n s, Driven.run initStep env n start = some s ∧ s.Returned ∧ s.device.Receives ∧
      s.arrived = s.drained ++ s.device.rxFifo ∧
      s.rx = (drainRxFifo (s.drained.map (·.setWidth 32)) start.rx).2 := by
  obtain ⟨n, s, hrun, hinv, hreturned⟩ := init_returns hstart hslow hfair
  have hcr : s.device.regs .cr = uartCrUarten ||| uartCrTxe ||| uartCrRxe :=
    hinv.last_written hreturned (by decide)
  refine ⟨n, s, hrun, hreturned, ?_, hinv.delivered (hreturned.mem (by decide)), hinv.rx⟩
  rw [Pl011.Receives, hcr]
  decide

theorem uart_init_completes_used : ∃ n s, Driven.run initStep typing n used = some s ∧ s.Returned := by
  have hstart : used.Starts := ⟨rfl, rfl⟩
  obtain ⟨n, s, hrun, hreturned, -⟩ := uart_init_completes hstart typing_slow typing_fair
  exact ⟨n, s, hrun, hreturned⟩

end Uart

end MiniOs
