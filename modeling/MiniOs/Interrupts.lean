/-
**The kernel under its interrupts (`src/irq.c`).**

The counter of the timer runs, words arrive at the UART, and other devices do as they like.  The shell
pops bytes from the receive ring.  At any time the CPU may take an IRQ exception: it masks further ones
and runs `irq_handle`, which acknowledges an interrupt, serves the timer or the UART, and ends the
interrupt with the value it has read.  While the handler runs the devices go on, so that a word may
arrive and a tick may come due between any two of its accesses.

The kernel is modelled from `irq_enable` on, where `gic_init`, `uart_init` and `timer_init` have run.
The counter is taken not to wrap.

Main definitions:

* `Irq.System` — the controller, the devices, the static variables, and how far the handler has got;
* `Irq.irqHandle` — **`irq_handle` and `uart_handle_interrupt`, one access at a time**;
* `Irq.Event`, `Irq.Step`, `Irq.system` — what happens next, and the runs from `irq_enable` on.

Main results:

* `Irq.irqHandle_cases` — all the handler does in one step;
* `Irq.Inv`, `Irq.reachable_inv` — **what holds in every reachable state**: the interrupt that is active
  is the one being handled, and the timer is on schedule.
-/

import MiniOs.GicController
import MiniOs.Lts
import MiniOs.Timer
import MiniOs.UartDrain

set_option relaxedAutoImplicit false
set_option autoImplicit false

namespace MiniOs

namespace Uart

/-! ### The device between two accesses -/

/-- `UART_INT_RX` and `UART_INT_RT`, the interrupts that ask for the FIFO to be emptied. -/
def uartIntReceiveMask : BitVec 32 := 1#32 <<< 4 ||| 1#32 <<< 6

/-- Writing `UART_ICR`, which withdraws the interrupts written as one. -/
def Device.writeIcr (value : BitVec 32) (d : Device) : Device :=
  { d with icr := value, mis := d.mis &&& ~~~value }

/-- Reading `UART_DR`.  The receive interrupts are withdrawn with the last word. -/
def Device.readDr (d : Device) : BitVec 32 × Device :=
  let (data, d) := d.uartDr
  (data, if d.rxFifo = [] then { d with mis := d.mis &&& ~~~uartIntReceiveMask } else d)

/-- The end of `uart_handle_interrupt`, which writes `UART_RSR_ECR` after an error. -/
def Device.clearErrors (pending : BitVec 32) (d : Device) : Device :=
  if pending &&& uartIntErrorMask ≠ 0 then { d with rsrEcr := 0 } else d

@[simp] theorem Device.clearErrors_mis (pending : BitVec 32) (d : Device) :
    (d.clearErrors pending).mis = d.mis := by
  unfold clearErrors
  split <;> rfl

@[simp] theorem Device.clearErrors_rxFifo (pending : BitVec 32) (d : Device) :
    (d.clearErrors pending).rxFifo = d.rxFifo := by
  unfold clearErrors
  split <;> rfl

/-- Only the interrupts `uart_init` has unmasked are pending, and the receive interrupts only while
there are words. -/
structure Device.Ok (d : Device) : Prop where
  masked : d.mis &&& ~~~(uartIntReceiveMask ||| uartIntErrorMask) = 0
  receive : d.rxFifo = [] → d.mis &&& uartIntReceiveMask = 0

/-- Words get into the FIFO, and the pending interrupts become `mis`.  The FIFO has no depth here: what is
on the other end of the line is taken to hold words back while it is full. -/
def Device.arrive (words : List (BitVec 12)) (mis : BitVec 32) (d : Device) : Device :=
  { d with rxFifo := d.rxFifo ++ words, mis := mis }

/-- A further word. -/
theorem drainRxFifo_concat (fifo : List (BitVec 32)) (data : BitVec 32) (s : Rx) :
    drainRxFifo (fifo ++ [data]) s =
      ((receive data (drainRxFifo fifo s).2).1 || (drainRxFifo fifo s).1,
        (receive data (drainRxFifo fifo s).2).2) := by
  induction fifo generalizing s with
  | nil => simp [drainRxFifo]
  | cons first fifo ih =>
      have hcons : drainRxFifo (first :: (fifo ++ [data])) s =
          ((receive first s).1 || (drainRxFifo (fifo ++ [data]) (receive first s).2).1,
            (drainRxFifo (fifo ++ [data]) (receive first s).2).2) := rfl
      rw [List.cons_append, hcons, ih]
      refine Prod.ext ?_ rfl
      change ((receive first s).1 || (_ || _)) = (_ || ((receive first s).1 || _))
      rw [Bool.or_left_comm]
      rfl

end Uart

namespace Irq

open Gic (Controller gicInterruptId gicEndInterrupt)
open Timer (OnSchedule timerHandleInterrupt)
open Uart (Device uartIntErrorMask uartFrRxfe receive popStep)

/-! ### State -/

/-- `TIMER_INTERRUPT_ID`. -/
def timerInterruptId : BitVec 32 := 30#32

/-- `UART_INTERRUPT_ID`. -/
def uartInterruptId : BitVec 32 := 33#32

/-- `GIC_SPURIOUS_INTERRUPT_MIN`. -/
def gicSpuriousInterruptMin : BitVec 32 := 1020#32

/-- How far the handler has got. -/
inductive Handler
  /-- No exception is being handled. -/
  | idle
  /-- The exception is taken. -/
  | entered
  /-- The interrupt is acknowledged. -/
  | acknowledged (acknowledgeValue : BitVec 32)
  /-- In `uart_handle_interrupt`, the pending interrupts are read. -/
  | pending (acknowledgeValue pending : BitVec 32)
  /-- In `drain_rx_fifo`. -/
  | draining (acknowledgeValue pending : BitVec 32) (received : Bool)
  /-- The interrupt is served. -/
  | served (acknowledgeValue : BitVec 32)

/-- The controller, the counter, the devices, and the static variables. -/
structure System where
  controller : Controller
  counter : ℕ
  timer : Timer.State
  device : Device
  driver : Uart.Driver
  otherLines : ℕ → Bool
  unexpectedCount : Word
  handler : Handler

/-- The value the code reads from the counter. -/
def System.now (s : System) : Word := BitVec.ofNat 64 s.counter

/-- The timer asserts its line when it is enabled and not masked, and its counter has reached the
compare register. -/
def System.timerLine (s : System) : Bool :=
  s.timer.cntpCtl.getLsbD 0 && !s.timer.cntpCtl.getLsbD 1 && decide (s.timer.cntpCval ≤ s.now)

/-- The UART asserts its line while an interrupt is pending. -/
def System.uartLine (s : System) : Bool := decide (s.device.mis ≠ 0)

/-- The lines of all devices. -/
def System.line (s : System) (i : ℕ) : Bool :=
  if i = timerInterruptId.toNat then s.timerLine
  else if i = uartInterruptId.toNat then s.uartLine
  else s.otherLines i

/-! ### The handler -/

/-- Where `irq_handle` goes on with the value it has read from `GICC_IAR`. -/
def dispatch (acknowledgeValue : BitVec 32) : Handler :=
  if gicSpuriousInterruptMin ≤ gicInterruptId acknowledgeValue then Handler.idle
  else Handler.acknowledged acknowledgeValue

/-- Model of `irq_handle` with `uart_handle_interrupt`, one step after the other, after the interrupt
is acknowledged.  Returns whether the step issues `sev`. -/
def irqHandle (s : System) : Option (Bool × System) :=
  match s.handler with
  | .idle => none
  | .entered => none
  | .acknowledged acknowledgeValue =>
      let interruptId := gicInterruptId acknowledgeValue
      if interruptId = timerInterruptId then
        some (true, { s with
          timer := timerHandleInterrupt s.now s.timer
          handler := Handler.served acknowledgeValue })
      else if interruptId = uartInterruptId then
        some (false, { s with
          driver := { s.driver with
            rx := { s.driver.rx with rxInterrupts := s.driver.rx.rxInterrupts + 1 } }
          handler := Handler.pending acknowledgeValue s.device.mis })
      else
        some (false, { s with
          unexpectedCount := s.unexpectedCount + 1
          handler := Handler.served acknowledgeValue })
  | .pending acknowledgeValue pending =>
      some (false, { s with
        device := s.device.writeIcr (pending &&& uartIntErrorMask)
        handler := Handler.draining acknowledgeValue pending false })
  | .draining acknowledgeValue pending received =>
      if s.device.uartFr &&& uartFrRxfe = 0 then
        let (data, device) := s.device.readDr
        let (stored, rx) := receive data s.driver.rx
        some (false, { s with
          device := device
          driver := { s.driver with rx := rx }
          handler := Handler.draining acknowledgeValue pending (if stored then true else received) })
      else
        some (received, { s with
          device := s.device.clearErrors pending
          handler := Handler.served acknowledgeValue })
  | .served acknowledgeValue =>
      (gicEndInterrupt acknowledgeValue s.controller).map fun controller =>
        (false, { s with controller := controller, handler := Handler.idle })

/-! ### Runs -/

/-- What happens next. -/
inductive Event
  /-- The counter of the timer advances. -/
  | count (n : ℕ)
  /-- Words arrive at the UART, and its pending interrupts become `mis`. -/
  | arrive (words : List (BitVec 12)) (mis : BitVec 32)
  /-- Other devices change their lines, and interrupts are latched or withdrawn. -/
  | others (lines : ℕ → Bool) (latched : ℕ → BitVec 32)
  /-- The shell makes its next access of `rx_buffer_pop`. -/
  | access
  /-- The CPU takes the exception. -/
  | exception
  /-- The handler reads `GICC_IAR`. -/
  | acknowledge (acknowledgeValue : BitVec 32)
  /-- The handler goes on. -/
  | handle

/-- One step of the devices, of the shell or of the handler. -/
inductive Step : System → Event → System → Prop
  | count (s : System) (n : ℕ) : Step s (Event.count n) { s with counter := s.counter + n }
  | arrive {s : System} (words : List (BitVec 12)) {mis : BitVec 32} :
      (s.device.arrive words mis).Ok → s.device.mis &&& uartIntErrorMask &&& ~~~mis = 0 →
      Step s (Event.arrive words mis) { s with device := s.device.arrive words mis }
  | others {s : System} (lines : ℕ → Bool) {latched : ℕ → BitVec 32} {c : Controller} :
      c = { s.controller with
        distributor := { s.controller.distributor with pending := latched } } →
      c.distributor.interrupt timerInterruptId.toNat =
        s.controller.distributor.interrupt timerInterruptId.toNat →
      c.distributor.interrupt uartInterruptId.toNat =
        s.controller.distributor.interrupt uartInterruptId.toNat →
      Step s (Event.others lines latched) { s with controller := c, otherLines := lines }
  | access {s : System} : s.handler = Handler.idle → Step s Event.access { s with
      driver := ⟨(popStep s.driver.pop s.driver.rx).2.1, (popStep s.driver.pop s.driver.rx).1⟩ }
  | exception {s : System} : s.handler = Handler.idle →
      Step s Event.exception { s with handler := Handler.entered }
  | acknowledge {s : System} {acknowledgeValue : BitVec 32} {c : Controller} :
      s.handler = Handler.entered → s.controller.Acknowledges s.line acknowledgeValue c →
      Step s (Event.acknowledge acknowledgeValue)
        { s with controller := c, handler := dispatch acknowledgeValue }
  | handle {s t : System} (sev : Bool) : irqHandle s = some (sev, t) → Step s Event.handle t

/-- `gic_init`, and what `uart_init` and `timer_init` tell the controller after it. -/
def enableInterrupts (c : Controller) : Option Controller := do
  let c ← Gic.gicInit c
  let c ← c.enable uartInterruptId 0x80
  c.enable timerInterruptId 0x80

/-- What the drivers have read while they were initialised. -/
structure Boot where
  /-- The frequency of the counter. -/
  frequency : Word
  /-- The value of the counter from which `timer_init` has computed the first deadline. -/
  origin : ℕ
  /-- The words `uart_init` has drained from the FIFO. -/
  drained : List (BitVec 12)

/-- The length of a tick. -/
abbrev Boot.interval (b : Boot) : ℕ := Timer.interval b.frequency

/-- **The state the initialisation leaves behind.**  No interrupt was active before `gic_init`, and
`uart_init` has emptied the FIFO and withdrawn the interrupts of the UART; what happens there later is
a step. -/
structure Booted (b : Boot) (s : System) : Prop where
  controller : ∃ c : Controller, c.active = [] ∧ enableInterrupts c = some s.controller
  timer : ∃ cntpCval cntpCtl, s.timer =
    Timer.timerInit b.frequency (BitVec.ofNat 64 b.origin) (Timer.State.boot cntpCval cntpCtl)
  counter : b.origin ≤ s.counter
  rxFifo : s.device.rxFifo = []
  mis : s.device.mis = 0
  driver : s.driver =
    ⟨(Uart.drainRxFifo (b.drained.map (·.setWidth 32)) Uart.Rx.boot).2, Uart.Pop.idle⟩
  unexpectedCount : s.unexpectedCount = 0
  handler : s.handler = Handler.idle

/-- **The kernel under its interrupts**, from `irq_enable` on. -/
def system (b : Boot) : Lts System Event where
  init := Booted b
  step := Step

/-! ### What the handler does in one step -/

/-- The value the handler has acknowledged and not yet ended. -/
def Handler.outstanding : Handler → List (BitVec 32)
  | .idle => []
  | .entered => []
  | .acknowledged acknowledgeValue => [acknowledgeValue]
  | .pending acknowledgeValue _ => [acknowledgeValue]
  | .draining acknowledgeValue _ _ => [acknowledgeValue]
  | .served acknowledgeValue => [acknowledgeValue]

/-- **All the handler does in one step.** -/
inductive Handles (s : System) : Bool → System → Prop
  | timer {v : BitVec 32} : s.handler = Handler.acknowledged v →
      gicInterruptId v = timerInterruptId → Handles s true { s with
        timer := timerHandleInterrupt s.now s.timer, handler := Handler.served v }
  | uart {v : BitVec 32} : s.handler = Handler.acknowledged v →
      gicInterruptId v = uartInterruptId → Handles s false { s with
        driver := { s.driver with
          rx := { s.driver.rx with rxInterrupts := s.driver.rx.rxInterrupts + 1 } }
        handler := Handler.pending v s.device.mis }
  | unexpected {v : BitVec 32} : s.handler = Handler.acknowledged v →
      gicInterruptId v ≠ timerInterruptId → gicInterruptId v ≠ uartInterruptId →
      Handles s false { s with
        unexpectedCount := s.unexpectedCount + 1, handler := Handler.served v }
  | clear {v pending : BitVec 32} : s.handler = Handler.pending v pending →
      Handles s false { s with
        device := s.device.writeIcr (pending &&& uartIntErrorMask)
        handler := Handler.draining v pending false }
  | word {v pending : BitVec 32} {received : Bool} {data : BitVec 12} {fifo : List (BitVec 12)} :
      s.handler = Handler.draining v pending received → s.device.rxFifo = data :: fifo →
      Handles s false { s with
        device := s.device.readDr.2
        driver := { s.driver with rx := (receive (data.setWidth 32) s.driver.rx).2 }
        handler := Handler.draining v pending
          ((receive (data.setWidth 32) s.driver.rx).1 || received) }
  | drained {v pending : BitVec 32} {received : Bool} :
      s.handler = Handler.draining v pending received → s.device.rxFifo = [] →
      Handles s received { s with
        device := s.device.clearErrors pending, handler := Handler.served v }
  | ended {v : BitVec 32} : s.handler = Handler.served v → Handles s false { s with
      controller := { s.controller with
        active := s.controller.active.erase (gicInterruptId v).toNat }
      handler := Handler.idle }

theorem readDr_of_cons {d : Device} {data : BitVec 12} {fifo : List (BitVec 12)}
    (h : d.rxFifo = data :: fifo) : d.readDr.1 = data.setWidth 32 ∧ d.readDr.2.rxFifo = fifo := by
  simp only [Device.readDr, Device.uartDr, h]
  refine ⟨trivial, ?_⟩
  split <;> rfl

theorem irqHandle_cases {s t : System} {sev : Bool} (h : irqHandle s = some (sev, t)) :
    Handles s sev t := by
  unfold irqHandle at h
  split at h
  · cases h
  · cases h
  · next v hv =>
      dsimp only at h
      split at h
      · next htimer =>
          cases h
          exact Handles.timer hv htimer
      · next htimer =>
          split at h
          · next huart =>
              cases h
              exact Handles.uart hv huart
          · next huart =>
              cases h
              exact Handles.unexpected hv htimer huart
  · next v pending hv =>
      cases h
      exact Handles.clear hv
  · next v pending received hv =>
      split at h
      · next hfull =>
          obtain ⟨data, fifo, hfifo⟩ :=
            List.exists_cons_of_ne_nil (s.device.uartFr_and_rxfe.1 hfull)
          dsimp only at h
          rw [(readDr_of_cons hfifo).1] at h
          have hor : (if (receive (data.setWidth 32) s.driver.rx).1 then true else received) =
              ((receive (data.setWidth 32) s.driver.rx).1 || received) := by
            cases (receive (data.setWidth 32) s.driver.rx).1 <;> rfl
          rw [hor] at h
          cases h
          exact Handles.word hv hfifo
      · next hempty =>
          cases h
          refine Handles.drained hv ?_
          by_contra hne
          exact hempty (s.device.uartFr_and_rxfe.2 hne)
  · next v hv =>
      rw [Gic.gicEndInterrupt_eq, Option.map_some] at h
      cases h
      exact Handles.ended hv

/-! ### What holds in every reachable state -/

/-- **What holds in every reachable state.** -/
structure Inv (b : Boot) (s : System) : Prop where
  opened : s.controller.Open
  timerListens : s.controller.Listens timerInterruptId.toNat
  uartListens : s.controller.Listens uartInterruptId.toNat
  active : s.controller.active = s.handler.outstanding.map fun v => (gicInterruptId v).toNat
  device : s.device.Ok
  schedule : ∃ last, b.origin ≤ last ∧ last ≤ s.counter ∧
    OnSchedule b.frequency b.origin last s.timer
  due : ∀ v, s.handler = Handler.acknowledged v → gicInterruptId v = timerInterruptId →
    s.timer.nextDeadline ≤ s.now

variable {b : Boot} {s t : System}

theorem now_toNat (h : s.counter < 2 ^ 64) : s.now.toNat = s.counter := by
  rw [System.now, BitVec.toNat_ofNat]
  exact Nat.mod_eq_of_lt h

/-- No step takes time back. -/
theorem counter_le {e : Event} (hstep : Step s e t) : s.counter ≤ t.counter := by
  cases hstep with
  | count n => exact Nat.le_add_right _ _
  | arrive => exact le_rfl
  | others => exact le_rfl
  | access => exact le_rfl
  | exception => exact le_rfl
  | acknowledge => exact le_rfl
  | handle sev hhandle => cases irqHandle_cases hhandle <;> exact le_rfl

/-- While the timer is on schedule its line is asserted just when the deadline has come. -/
theorem timerLine_iff {last : ℕ} (h : OnSchedule b.frequency b.origin last s.timer) :
    s.timerLine = true ↔ s.timer.nextDeadline ≤ s.now := by
  have henable : s.timer.cntpCtl.getLsbD 0 = true := by
    rw [h.cntpCtl]
    rfl
  have hmask : s.timer.cntpCtl.getLsbD 1 = false := by
    rw [h.cntpCtl]
    rfl
  rw [System.timerLine, henable, hmask, h.cntpCval, Bool.true_and, Bool.not_false, Bool.true_and,
    decide_eq_true_iff]

theorem line_timer (s : System) : s.line timerInterruptId.toNat = s.timerLine := if_pos rfl

theorem line_uart (s : System) : s.line uartInterruptId.toNat = s.uartLine := by
  rw [System.line, if_neg (by decide), if_pos rfl]

/-- A value that is not a spurious interrupt's is taken on. -/
theorem dispatch_of_lt {v : BitVec 32} (h : (gicInterruptId v).toNat < 1020) :
    dispatch v = Handler.acknowledged v := by
  have hmin : gicSpuriousInterruptMin.toNat = 1020 := rfl
  refine if_neg fun hle => ?_
  have hge := BitVec.le_def.1 hle
  omega

/-- A spurious interrupt's value ends the handler. -/
theorem dispatch_of_ge {v : BitVec 32} (h : 1020 ≤ (gicInterruptId v).toNat) :
    dispatch v = Handler.idle := by
  have hmin : gicSpuriousInterruptMin.toNat = 1020 := rfl
  exact if_pos (BitVec.le_def.2 (hmin.trans_le h))

/-- The two interrupts end up enabled, the others as they were, and none is activated. -/
theorem enableInterrupts_spec (c : Controller) : ∃ d, enableInterrupts c = some d ∧
    d.Open ∧ d.Listens timerInterruptId.toNat ∧ d.Listens uartInterruptId.toNat ∧
    d.active = c.active ∧ ∀ i, i ≠ timerInterruptId.toNat → i ≠ uartInterruptId.toNat →
      d.distributor.interrupt i = c.distributor.interrupt i := by
  obtain ⟨c₁, h₁, hopen₁, hsame₁, hactive₁⟩ := Gic.gicInit_spec c
  obtain ⟨c₂, h₂, huart, hothers₂, hopen₂, hactive₂⟩ :=
    Controller.enable_spec uartInterruptId (by decide) (by decide) c₁
  obtain ⟨c₃, h₃, htimer, hothers₃, hopen₃, hactive₃⟩ :=
    Controller.enable_spec timerInterruptId (by decide) (by decide) c₂
  refine ⟨c₃, ?_, hopen₃ (hopen₂ hopen₁), htimer, huart.congr (hothers₃ _ (by decide)),
    hactive₃.trans (hactive₂.trans hactive₁), ?_⟩
  · rw [enableInterrupts, h₁, Option.bind_eq_bind, Option.bind_some, h₂, Option.bind_some, h₃]
  · intro i hi hi'
    rw [hothers₃ i hi, hothers₂ i hi', hsame₁]

theorem inv_booted (h : Booted b s)
    (hroom : s.counter + b.interval < 2 ^ 64) : Inv b s := by
  obtain ⟨c, hidle, hc⟩ := h.controller
  obtain ⟨d, hd, hopen, htimer, huart, hactive, -⟩ := enableInterrupts_spec c
  obtain rfl : s.controller = d := Option.some_inj.1 (hc.symm.trans hd)
  obtain ⟨cntpCval, cntpCtl, hinit⟩ := h.timer
  have hcounter := h.counter
  have horigin : (BitVec.ofNat 64 b.origin).toNat = b.origin := by
    rw [BitVec.toNat_ofNat]
    exact Nat.mod_eq_of_lt (by omega)
  refine ⟨hopen, htimer, huart, ?_, ⟨?_, fun _ => ?_⟩, ⟨b.origin, le_rfl, hcounter, ?_⟩, ?_⟩
  · rw [hactive, hidle, h.handler]
    rfl
  · rw [h.mis]
    exact BitVec.zero_and
  · rw [h.mis]
    exact BitVec.zero_and
  · have hlt : (BitVec.ofNat 64 b.origin).toNat + b.interval < 2 ^ 64 := by
      rw [horigin]
      omega
    have hschedule := Timer.onSchedule_timerInit hlt cntpCval cntpCtl
    rw [horigin] at hschedule
    rw [hinit]
    exact hschedule
  · intro v hv
    rw [h.handler] at hv
    cases hv

/-- Reading `GICC_IAR` keeps the invariant: the interrupt that becomes active is the one being
handled, and the timer's is acknowledged only when its deadline has come. -/
theorem inv_acknowledge {v : BitVec 32} {c : Controller} (h : Inv b s)
    (hentered : s.handler = Handler.entered) (hack : s.controller.Acknowledges s.line v c) :
    Inv b { s with controller := c, handler := dispatch v } := by
  have hidle : s.controller.active = [] := by
    rw [h.active, hentered]
    rfl
  cases hack with
  | spurious _ hge =>
      rw [dispatch_of_ge hge]
      refine ⟨h.opened, h.timerListens, h.uartListens, hidle, h.device, h.schedule, ?_⟩
      intro v hv
      cases hv
  | interrupt hsignals _ =>
      rw [dispatch_of_lt hsignals.lt]
      refine ⟨?_, h.timerListens.activate, h.uartListens.activate, ?_, h.device, h.schedule, ?_⟩
      · exact ⟨h.opened.distributorCtlr, h.opened.ctlr, h.opened.pmr, h.opened.bpr⟩
      · change (gicInterruptId v).toNat :: s.controller.active = _
        rw [hidle]
        rfl
      · intro w hw htimer
        cases hw
        obtain ⟨last, -, -, hschedule⟩ := h.schedule
        rw [htimer] at hsignals
        have hline := h.timerListens.pending_iff.1 hsignals.pending
        rw [line_timer] at hline
        exact (timerLine_iff hschedule).1 hline

theorem device_writeIcr {d : Device} (h : d.Ok) (value : BitVec 32) : (d.writeIcr value).Ok := by
  constructor
  · change d.mis &&& ~~~value &&& _ = 0
    rw [BitVec.and_assoc, BitVec.and_comm (~~~value), ← BitVec.and_assoc, h.masked]
    exact BitVec.zero_and
  · intro hempty
    change d.mis &&& ~~~value &&& _ = 0
    rw [BitVec.and_assoc, BitVec.and_comm (~~~value), ← BitVec.and_assoc, h.receive hempty]
    exact BitVec.zero_and

theorem device_readDr {d : Device} (h : d.Ok) {data : BitVec 12} {fifo : List (BitVec 12)}
    (hfifo : d.rxFifo = data :: fifo) : d.readDr.2.Ok := by
  simp only [Device.readDr, Device.uartDr, hfifo]
  split
  · constructor
    · change d.mis &&& ~~~Uart.uartIntReceiveMask &&& _ = 0
      rw [BitVec.and_assoc, BitVec.and_comm (~~~Uart.uartIntReceiveMask), ← BitVec.and_assoc,
        h.masked]
      exact BitVec.zero_and
    · intro _
      change d.mis &&& ~~~Uart.uartIntReceiveMask &&& _ = 0
      rw [BitVec.and_assoc, BitVec.and_comm (~~~Uart.uartIntReceiveMask), BitVec.and_not_self]
      exact BitVec.and_zero
  · next hne => exact ⟨h.masked, fun hempty => absurd hempty hne⟩

/-- **What one step of the handler preserves.** -/
theorem inv_handles {sev : Bool} (h : Inv b s)
    (hroom : s.counter + b.interval < 2 ^ 64) (hstep : Handles s sev t) :
    Inv b t := by
  obtain ⟨hopen, htimer, huart, hactive, hdevice, hschedule, hdue⟩ := h
  cases hstep with
  | @timer v hv hid =>
      rw [hv] at hactive
      obtain ⟨last, horigin, hlast, hon⟩ := hschedule
      have hnow : s.now.toNat = s.counter := now_toNat (by omega)
      have hon' : OnSchedule b.frequency b.origin s.now.toNat (timerHandleInterrupt s.now s.timer) :=
        Timer.onSchedule_interrupt hon horigin (by rw [hnow]; exact hlast) (by rw [hnow]; exact hroom)
      rw [hnow] at hon'
      refine ⟨hopen, htimer, huart, hactive, hdevice, ⟨s.counter, by omega, le_rfl, hon'⟩, ?_⟩
      intro w hw
      cases hw
  | @uart v hv hid =>
      rw [hv] at hactive
      refine ⟨hopen, htimer, huart, hactive, hdevice, hschedule, ?_⟩
      intro w hw
      cases hw
  | @unexpected v hv hne hne' =>
      rw [hv] at hactive
      refine ⟨hopen, htimer, huart, hactive, hdevice, hschedule, ?_⟩
      intro w hw
      cases hw
  | @clear v pending hv =>
      rw [hv] at hactive
      refine ⟨hopen, htimer, huart, hactive, device_writeIcr hdevice _, hschedule, ?_⟩
      intro w hw
      cases hw
  | @word v pending received data fifo hv hfifo =>
      rw [hv] at hactive
      refine ⟨hopen, htimer, huart, hactive, device_readDr hdevice hfifo, hschedule, ?_⟩
      intro w hw
      cases hw
  | @drained v pending received hv hempty =>
      rw [hv] at hactive
      refine ⟨hopen, htimer, huart, hactive, ⟨?_, ?_⟩, hschedule, ?_⟩
      · simpa using hdevice.masked
      · simpa using hdevice.receive
      · intro w hw
        cases hw
  | @ended v hv =>
      rw [hv] at hactive
      refine ⟨⟨hopen.distributorCtlr, hopen.ctlr, hopen.pmr, hopen.bpr⟩, htimer.congr rfl,
        huart.congr rfl, ?_, hdevice, hschedule, ?_⟩
      · change s.controller.active.erase (gicInterruptId v).toNat = []
        rw [hactive]
        exact List.erase_cons_head _ _
      · intro w hw
        cases hw

/-- **What one step preserves.** -/
theorem inv_step {e : Event} (h : Inv b s)
    (hroom : t.counter + b.interval < 2 ^ 64) (hstep : Step s e t) :
    Inv b t := by
  cases hstep with
  | count n =>
      obtain ⟨last, horigin, hlast, hon⟩ := h.schedule
      refine ⟨h.opened, h.timerListens, h.uartListens, h.active, h.device,
        ⟨last, horigin, Nat.le_add_right_of_le hlast, hon⟩, ?_⟩
      intro v hv hid
      refine BitVec.le_def.2 ((BitVec.le_def.1 (h.due v hv hid)).trans ?_)
      change s.counter + n + _ < _ at hroom
      rw [now_toNat (by omega), now_toNat (s := { s with counter := s.counter + n }) (by
        change s.counter + n < _
        omega)]
      exact Nat.le_add_right _ _
  | arrive words hok _ =>
      exact ⟨h.opened, h.timerListens, h.uartListens, h.active, hok, h.schedule, h.due⟩
  | others lines hc htimer huart =>
      refine ⟨?_, h.timerListens.congr htimer, h.uartListens.congr huart, ?_, h.device, h.schedule,
        h.due⟩
      · rw [hc]
        exact ⟨h.opened.distributorCtlr, h.opened.ctlr, h.opened.pmr, h.opened.bpr⟩
      · rw [hc]
        exact h.active
  | access hidle =>
      exact ⟨h.opened, h.timerListens, h.uartListens, h.active, h.device, h.schedule, h.due⟩
  | exception hidle =>
      have hactive := h.active
      rw [hidle] at hactive
      refine ⟨h.opened, h.timerListens, h.uartListens, hactive, h.device, h.schedule, ?_⟩
      intro v hv
      cases hv
  | acknowledge hentered hack => exact inv_acknowledge h hentered hack
  | handle sev hhandle =>
      have hcases := irqHandle_cases hhandle
      have hle : s.counter ≤ t.counter := counter_le (Step.handle sev hhandle)
      exact inv_handles h (by omega) hcases

/-- **What holds in every reachable state**, as long as the counter has not come near its end. -/
theorem reachable_inv (h : (system b).Reachable s)
    (hroom : s.counter + b.interval < 2 ^ 64) : Inv b s := by
  refine h.invariant (P := fun s => s.counter + b.interval < 2 ^ 64 →
    Inv b s) ?_ ?_ hroom
  · intro s hs hroom
    exact inv_booted hs hroom
  · intro s e t _ ih hstep hroom
    have hle := counter_le hstep
    exact inv_step (ih (by omega)) hroom hstep

/-! ### The first state -/

/-- A controller with nothing enabled. -/
def resetController : Controller where
  distributor := ⟨fun _ => 0, fun _ => 0, fun _ => 0, fun _ => 0, fun _ => 0⟩
  distributorCtlr := 0
  ctlr := 0
  pmr := 0
  bpr := 0
  active := []

/-- A state the initialisation leaves behind, with a controller that had nothing enabled. -/
def bootSystem (b : Boot) : System where
  controller := (enableInterrupts resetController).getD resetController
  counter := b.origin
  timer := Timer.timerInit b.frequency (BitVec.ofNat 64 b.origin) (Timer.State.boot 0 0)
  device := ⟨[], 0, 0, 0, 0⟩
  driver := ⟨(Uart.drainRxFifo (b.drained.map (·.setWidth 32)) Uart.Rx.boot).2, Uart.Pop.idle⟩
  otherLines := fun _ => false
  unexpectedCount := 0
  handler := Handler.idle

/-- The initialisation comes to an end. -/
theorem enableInterrupts_resetController (b : Boot) :
    enableInterrupts resetController = some (bootSystem b).controller := by
  obtain ⟨d, hd, -⟩ := enableInterrupts_spec resetController
  rw [bootSystem, hd]
  rfl

theorem booted_bootSystem (b : Boot) : Booted b (bootSystem b) :=
  ⟨⟨resetController, rfl, enableInterrupts_resetController b⟩, ⟨0, 0, rfl⟩, le_rfl, rfl, rfl, rfl, rfl,
    rfl⟩

/-- An interrupt that is enabled after the initialisation can be acknowledged first, where all that was
enabled before had the middle priority. -/
theorem acknowledges_enabled {c d : Controller} (hidle : c.active = [])
    (hd : enableInterrupts c = some d)
    (hmiddle : ∀ j, (c.distributor.interrupt j).enabled = 1 →
      (c.distributor.interrupt j).priority = 0x80) {value : BitVec 32} {line : ℕ → Bool}
    (hlistens : d.Listens (gicInterruptId value).toNat) (hlt : (gicInterruptId value).toNat < 1020)
    (hline : line (gicInterruptId value).toNat = true) :
    d.Acknowledges line value (d.activate (gicInterruptId value).toNat) := by
  obtain ⟨d', hd', hopen, htimer, huart, hactive, hothers⟩ := enableInterrupts_spec c
  obtain rfl := Option.some_inj.1 (hd.symm.trans hd')
  refine Controller.acknowledges_of_line hopen (hactive.trans hidle) hlistens hlt (fun j hj => ?_)
    hline
  by_cases hj30 : j = timerInterruptId.toNat
  · rw [hj30, htimer.priority]
  · by_cases hj33 : j = uartInterruptId.toNat
    · rw [hj33, huart.priority]
    · rw [hothers j hj30 hj33] at hj ⊢
      exact hmiddle j hj

theorem enabled_resetController (i : ℕ) :
    (resetController.distributor.interrupt i).enabled = 0 := by
  simp [Gic.Distributor.interrupt, PackedFields.entry, PackedFields.field, resetController]

/-- In the first state the timer and the UART can be acknowledged while they assert their lines. -/
theorem acknowledges_bootSystem (b : Boot) {value : BitVec 32} {line : ℕ → Bool}
    (hvalue : gicInterruptId value = timerInterruptId ∨ gicInterruptId value = uartInterruptId)
    (hline : line (gicInterruptId value).toNat = true) :
    (bootSystem b).controller.Acknowledges line value
      ((bootSystem b).controller.activate (gicInterruptId value).toNat) := by
  obtain ⟨d, hd, -, htimer, huart, -⟩ := enableInterrupts_spec resetController
  obtain rfl := Option.some_inj.1 (hd.symm.trans (enableInterrupts_resetController b))
  have hmiddle : ∀ j, (resetController.distributor.interrupt j).enabled = 1 →
      (resetController.distributor.interrupt j).priority = 0x80 := by
    intro j hj
    rw [enabled_resetController] at hj
    exact absurd hj (by decide)
  rcases hvalue with hid | hid
  · exact acknowledges_enabled rfl hd hmiddle (hid ▸ htimer) (hid ▸ by decide) hline
  · exact acknowledges_enabled rfl hd hmiddle (hid ▸ huart) (hid ▸ by decide) hline

/-- In the first state nothing else is enabled. -/
theorem enabled_bootSystem (b : Boot) {i : ℕ} (hi : i ≠ 30) (hi' : i ≠ 33) :
    ((bootSystem b).controller.distributor.interrupt i).enabled = 0 := by
  obtain ⟨d, hd, -, -, -, -, hothers⟩ := enableInterrupts_spec resetController
  obtain rfl := Option.some_inj.1 (hd.symm.trans (enableInterrupts_resetController b))
  rw [hothers i hi hi', enabled_resetController]

end Irq

end MiniOs
