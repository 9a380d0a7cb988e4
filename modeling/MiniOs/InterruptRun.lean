/-
**Every interrupt is ended once, and every tick is counted.**

A log records, beside the state of the kernel, the values read from `GICC_IAR` and written to
`GICC_EOIR`, and what went on at the UART.  The values written are those read, in order and unchanged,
without those of spurious interrupts; so nothing stays active, and a device that asserts its line while
the handler does not run is signalled to the CPU.  The timer's line is asserted just while the tick
count is behind the counter.

Main definitions:

* `Irq.Log`, `Irq.loggedSystem` — the log, and the system that keeps it;
* `Irq.Handler.unserved` — an interrupt that is acknowledged and not yet served.

Main results:

* `Irq.interrupts_bracketed` — **acknowledged interrupts are ended, and none is overlooked**;
* `Irq.ticks_exact_at_any_time` — **the tick count is behind only while the timer is signalled**;
* `Irq.unexpected_count_exact` — the count of unexpected interrupts.
-/

import MiniOs.Interrupts

set_option relaxedAutoImplicit false
set_option autoImplicit false

namespace MiniOs

namespace Irq

open Gic (Controller gicInterruptId)
open Timer (OnSchedule timerTicks timerHandleInterrupt)
open Uart (Device uartIntErrorMask PopResult popStep)

/-! ### The log -/

/-- The number of error interrupts among the pending ones. -/
def errorCount (mis : BitVec 32) : ℕ := [7, 8, 9, 10].countP mis.getLsbD

/-- What has happened, the latest last. -/
structure Log where
  /-- The values read from `GICC_IAR`. -/
  acknowledged : List (BitVec 32)
  /-- The values written to `GICC_EOIR`. -/
  ended : List (BitVec 32)
  /-- The words that have arrived in the FIFO. -/
  arrived : List (BitVec 12)
  /-- The words the handler has read from it. -/
  received : List (BitVec 12)
  /-- How many times the UART has raised an error interrupt. -/
  raised : ℕ
  /-- The bytes the shell's pops have returned. -/
  popped : List Byte

/-- The byte a pop returns as it ends. -/
def returned : Option PopResult → List Byte
  | some (PopResult.byte value) => [value]
  | _ => []

/-- What a step of the handler adds to the log. -/
def Log.handled (log : Log) (s : System) : Log :=
  match s.handler with
  | .draining _ _ _ => { log with received := log.received ++ s.device.rxFifo.head?.toList }
  | .served acknowledgeValue => { log with ended := log.ended ++ [acknowledgeValue] }
  | _ => log

/-- What a step adds to the log. -/
def Log.record (log : Log) (s : System) (e : Event) (_ : System) : Log :=
  match e with
  | .count _ => log
  | .arrive words mis => { log with
      arrived := log.arrived ++ words
      raised := log.raised + errorCount (mis &&& ~~~s.device.mis) }
  | .others _ _ => log
  | .access =>
      { log with popped := log.popped ++ returned (popStep s.driver.pop s.driver.rx).2.2 }
  | .exception => log
  | .acknowledge acknowledgeValue =>
      { log with acknowledged := log.acknowledged ++ [acknowledgeValue] }
  | .handle => log.handled s

/-- The kernel under its interrupts, with the log. -/
def loggedSystem (b : Boot) : Lts (System × Log) Event :=
  (system b).withHistory ⟨[], [], [], [], 0, []⟩ Log.record

variable {b : Boot} {s t : System} {log : Log}

/-- A step of the handler reads no interrupt. -/
@[simp] theorem acknowledged_handled (log : Log) (s : System) :
    (log.handled s).acknowledged = log.acknowledged := by
  unfold Log.handled
  split <;> rfl

/-! ### Acknowledged and ended -/

/-- A value that is not a spurious interrupt's. -/
def isReal (acknowledgeValue : BitVec 32) : Bool :=
  decide ((gicInterruptId acknowledgeValue).toNat < 1020)

/-- A value of the timer's interrupt. -/
def isTimer (acknowledgeValue : BitVec 32) : Bool :=
  decide (gicInterruptId acknowledgeValue = timerInterruptId)

/-- A value of the UART's interrupt. -/
def isUart (acknowledgeValue : BitVec 32) : Bool :=
  decide (gicInterruptId acknowledgeValue = uartInterruptId)

/-- A value of an interrupt the kernel does not expect. -/
def isUnexpected (acknowledgeValue : BitVec 32) : Bool :=
  isReal acknowledgeValue && !isTimer acknowledgeValue && !isUart acknowledgeValue

theorem outstanding_dispatch (v : BitVec 32) : (dispatch v).outstanding = [v].filter isReal := by
  rcases Nat.lt_or_ge (gicInterruptId v).toNat 1020 with hlt | hge
  · have hreal : isReal v = true := decide_eq_true hlt
    rw [dispatch_of_lt hlt, List.filter_cons_of_pos hreal]
    rfl
  · rw [dispatch_of_ge hge, List.filter_cons_of_neg]
    · rfl
    · rw [isReal, decide_eq_false (Nat.not_lt.2 hge)]
      exact Bool.false_ne_true

/-- **What one step preserves** of the two lists. -/
theorem bracketed_step {e : Event}
    (h : log.acknowledged.filter isReal = log.ended ++ s.handler.outstanding)
    (hstep : Step s e t) :
    (log.record s e t).acknowledged.filter isReal =
      (log.record s e t).ended ++ t.handler.outstanding := by
  cases hstep with
  | count n => exact h
  | arrive words _ _ => exact h
  | others _ _ _ _ => exact h
  | access _ => exact h
  | exception hidle =>
      rw [hidle] at h
      exact h
  | @acknowledge v _ hentered _ =>
      rw [hentered] at h
      change (log.acknowledged ++ [v]).filter isReal = log.ended ++ (dispatch v).outstanding
      rw [List.filter_append, h, outstanding_dispatch]
      exact congrArg (· ++ _) (List.append_nil _)
  | handle sev hhandle =>
      simp only [Log.record, Log.handled]
      cases irqHandle_cases hhandle with
      | timer hv _ => simpa [hv, Handler.outstanding] using h
      | uart hv _ => simpa [hv, Handler.outstanding] using h
      | unexpected hv _ _ => simpa [hv, Handler.outstanding] using h
      | clear hv => simpa [hv, Handler.outstanding] using h
      | word hv _ => simpa [hv, Handler.outstanding] using h
      | drained hv _ => simpa [hv, Handler.outstanding] using h
      | @ended v hv =>
          rw [hv] at h
          simp only [hv]
          rw [h]
          exact (List.append_nil _).symm

/-- The interrupt being handled was acknowledged, and is not a spurious one. -/
theorem mem_of_outstanding {v : BitVec 32}
    (h : log.acknowledged.filter isReal = log.ended ++ s.handler.outstanding)
    (hv : v ∈ s.handler.outstanding) : v ∈ log.acknowledged ∧ isReal v = true := by
  refine List.mem_filter.1 ?_
  rw [h]
  exact List.mem_append_right _ hv

theorem reachable_bracketed {p : System × Log} (h : (loggedSystem b).Reachable p) :
    p.2.acknowledged.filter isReal = p.2.ended ++ p.1.handler.outstanding := by
  refine Lts.Reachable.history_invariant
    (P := fun s log => log.acknowledged.filter isReal = log.ended ++ s.handler.outstanding) ?_ ?_ h
  · intro s hs
    rw [hs.handler]
    rfl
  · intro s log e t _ ih hstep
    exact bracketed_step ih hstep

/-- A counter that starts at 5 and has ten units to a tick. -/
def shortTicks : Boot := ⟨1000#64, 5, []⟩

/-- The kernel when the first tick has come due. -/
def dueSystem : System := { bootSystem shortTicks with counter := 18 }

theorem reachable_dueSystem :
    (loggedSystem shortTicks).Reachable (dueSystem, ⟨[], [], [], [], 0, []⟩) := by
  have hboot : (loggedSystem shortTicks).Reachable
      (bootSystem shortTicks, ⟨[], [], [], [], 0, []⟩) :=
    Lts.Reachable.init ⟨booted_bootSystem shortTicks, rfl⟩
  exact hboot.step (e := Event.count 13) ⟨Step.count _ _, rfl⟩

/-- The kernel when this tick has been counted. -/
def tickedSystem : System :=
  { dueSystem with
    timer := timerHandleInterrupt dueSystem.now dueSystem.timer
    controller := { dueSystem.controller.activate 30 with
      active := (dueSystem.controller.activate 30).active.erase 30 } }

/-- The handler of the timer, from the exception to `GICC_EOIR`. -/
theorem run_tickedSystem : (loggedSystem shortTicks).Run (dueSystem, ⟨[], [], [], [], 0, []⟩)
    [Event.exception, Event.acknowledge 30, Event.handle, Event.handle]
    (tickedSystem, ⟨[30], [30], [], [], 0, []⟩) := by
  refine .cons (t := (_, _)) ⟨Step.exception rfl, rfl⟩ ?_
  refine .cons (t := (_, _)) ⟨Step.acknowledge rfl
    (acknowledges_bootSystem shortTicks (Or.inl rfl) rfl), rfl⟩ ?_
  refine .cons (t := (_, _)) ⟨Step.handle true rfl, rfl⟩ ?_
  exact .cons (t := (_, _)) ⟨Step.handle false rfl, rfl⟩ .nil

theorem reachable_tickedSystem :
    (loggedSystem shortTicks).Reachable (tickedSystem, ⟨[30], [30], [], [], 0, []⟩) :=
  reachable_dueSystem.run run_tickedSystem

/-! ### Ticks -/

/-- One for an interrupt of some kind that is acknowledged and not yet served. -/
def Handler.unserved (p : BitVec 32 → Bool) : Handler → ℕ
  | .acknowledged acknowledgeValue => if p acknowledgeValue then 1 else 0
  | _ => 0

theorem unserved_dispatch {p : BitVec 32 → Bool} (hp : ∀ v, p v = true → isReal v = true)
    (v : BitVec 32) : (dispatch v).unserved p = [v].countP p := by
  rw [List.countP_singleton]
  rcases Nat.lt_or_ge (gicInterruptId v).toNat 1020 with hlt | hge
  · rw [dispatch_of_lt hlt]
    rfl
  · have hfalse : p v = false := by
      by_contra htrue
      have hreal := hp v (Bool.eq_true_of_not_eq_false htrue)
      exact absurd (of_decide_eq_true hreal) (Nat.not_lt.2 hge)
    rw [dispatch_of_ge hge, hfalse]
    rfl

theorem isReal_of_isTimer (v : BitVec 32) (h : isTimer v = true) : isReal v = true := by
  refine decide_eq_true ?_
  rw [of_decide_eq_true h]
  decide

theorem isReal_of_isUart (v : BitVec 32) (h : isUart v = true) : isReal v = true := by
  refine decide_eq_true ?_
  rw [of_decide_eq_true h]
  decide

theorem isReal_of_isUnexpected (v : BitVec 32) (h : isUnexpected v = true) : isReal v = true := by
  rw [isUnexpected, Bool.and_assoc] at h
  exact (Bool.and_eq_true_iff.1 h).1

/-- The count of ticks is behind just when the deadline has come. -/
theorem nextDeadline_le_iff {last : ℕ} (h : OnSchedule b.frequency b.origin last s.timer)
    (horigin : b.origin ≤ last) (hlast : last ≤ s.counter) (hroom : s.counter < 2 ^ 64) :
    s.timer.nextDeadline ≤ s.now ↔
      (timerTicks s.timer).toNat < Periods.ended b.origin b.interval s.counter := by
  rw [BitVec.le_def, h.nextDeadline, now_toNat hroom, timerTicks, h.tickCount,
    Periods.lt_ended_iff (Timer.interval_pos _) (horigin.trans hlast)]

/-- **An interrupt of the timer counts a tick** at least, and all that have passed. -/
theorem ticks_of_timer {last : ℕ} (h : OnSchedule b.frequency b.origin last s.timer)
    (horigin : b.origin ≤ last) (hlast : last ≤ s.counter)
    (hroom : s.counter + b.interval < 2 ^ 64) (hdue : s.timer.nextDeadline ≤ s.now) :
    (timerTicks s.timer).toNat < (timerTicks (timerHandleInterrupt s.now s.timer)).toNat := by
  have hnow : s.now.toNat = s.counter := now_toNat (by omega)
  have hafter : OnSchedule b.frequency b.origin s.now.toNat (timerHandleInterrupt s.now s.timer) :=
    Timer.onSchedule_interrupt h horigin (by rw [hnow]; exact hlast) (by rw [hnow]; exact hroom)
  have hcount : (timerTicks (timerHandleInterrupt s.now s.timer)).toNat =
      Periods.ended b.origin b.interval s.counter := by
    rw [timerTicks, hafter.tickCount, hnow]
  rw [hcount]
  exact (nextDeadline_le_iff h horigin hlast (by omega)).1 hdue

/-- **What one step preserves**: each of the timer's interrupts that was served has counted a tick. -/
theorem timers_step {e : Event} (hinv : Inv b s) (hroom : s.counter + b.interval < 2 ^ 64)
    (h : log.acknowledged.countP isTimer ≤
      (timerTicks s.timer).toNat + s.handler.unserved isTimer) (hstep : Step s e t) :
    (log.record s e t).acknowledged.countP isTimer ≤
      (timerTicks t.timer).toNat + t.handler.unserved isTimer := by
  cases hstep with
  | count n => exact h
  | arrive words _ _ => exact h
  | others _ _ _ _ => exact h
  | access _ => exact h
  | exception hidle =>
      rw [hidle] at h
      exact h
  | @acknowledge v _ hentered _ =>
      rw [hentered] at h
      change (log.acknowledged ++ [v]).countP isTimer ≤ _ + (dispatch v).unserved isTimer
      rw [List.countP_append, unserved_dispatch isReal_of_isTimer]
      exact Nat.add_le_add_right h _
  | handle sev hhandle =>
      change (log.handled s).acknowledged.countP isTimer ≤ _
      rw [acknowledged_handled]
      cases irqHandle_cases hhandle with
      | @timer v hv hid =>
          obtain ⟨last, horigin, hlast, hon⟩ := hinv.schedule
          have hlt := ticks_of_timer hon horigin hlast hroom (hinv.due v hv hid)
          have hone : s.handler.unserved isTimer ≤ 1 := by
            rw [hv, Handler.unserved]
            split <;> decide
          change _ ≤ (timerTicks (timerHandleInterrupt s.now s.timer)).toNat + 0
          omega
      | @uart v hv hid =>
          have hne : isTimer v = false := decide_eq_false (by rw [hid]; decide)
          simpa [hv, Handler.unserved, hne] using h
      | @unexpected v hv hne _ =>
          have hne : isTimer v = false := decide_eq_false hne
          simpa [hv, Handler.unserved, hne] using h
      | clear hv => simpa [hv, Handler.unserved] using h
      | word hv _ => simpa [hv, Handler.unserved] using h
      | drained hv _ => simpa [hv, Handler.unserved] using h
      | ended hv => simpa [hv, Handler.unserved] using h

theorem reachable_timers {p : System × Log} (h : (loggedSystem b).Reachable p)
    (hroom : p.1.counter + b.interval < 2 ^ 64) :
    p.2.acknowledged.countP isTimer ≤
      (timerTicks p.1.timer).toNat + p.1.handler.unserved isTimer := by
  refine Lts.Reachable.history_invariant (P := fun s log => s.counter + b.interval < 2 ^ 64 →
    log.acknowledged.countP isTimer ≤
      (timerTicks s.timer).toNat + s.handler.unserved isTimer) ?_ ?_ h hroom
  · intro s _ _
    exact Nat.zero_le _
  · intro s log e t hr ih hstep hroom
    have hle := counter_le hstep
    exact timers_step (reachable_inv hr (by omega)) (by omega) (ih (by omega)) hstep

/-- **The tick count is behind only while the timer is signalled.**  At any time, whether or not the
handler runs, the tick count is at most the number of ticks that have passed since `timer_init`, and the
line of the timer is asserted exactly while it is less.  So it is exact whenever the line is not
asserted, and while the line is asserted and the handler does not run the CPU is signalled.  No
interrupt of the timer is for nothing: there are no more of them than ticks counted. -/
theorem ticks_exact_at_any_time (h : (loggedSystem b).Reachable (s, log))
    (hroom : s.counter + b.interval < 2 ^ 64) :
    (timerTicks s.timer).toNat ≤ (s.counter - b.origin) / b.interval ∧
    (s.timerLine = true ↔ (timerTicks s.timer).toNat < (s.counter - b.origin) / b.interval) ∧
    (s.timerLine = false → (timerTicks s.timer).toNat = (s.counter - b.origin) / b.interval) ∧
    (s.handler.outstanding = [] → s.timerLine = true →
      s.controller.Signals s.line timerInterruptId.toNat) ∧
    log.acknowledged.countP isTimer ≤
      (timerTicks s.timer).toNat + s.handler.unserved isTimer := by
  have hinv := reachable_inv h.fst hroom
  obtain ⟨last, horigin, hlast, hon⟩ := hinv.schedule
  have hcounter : s.counter < 2 ^ 64 := by omega
  have hle : (timerTicks s.timer).toNat ≤ Periods.ended b.origin b.interval s.counter := by
    rw [timerTicks, hon.tickCount]
    exact Periods.ended_mono hlast
  have hline : s.timerLine = true ↔
      (timerTicks s.timer).toNat < Periods.ended b.origin b.interval s.counter :=
    (timerLine_iff hon).trans (nextDeadline_le_iff hon horigin hlast hcounter)
  refine ⟨hle, hline, ?_, ?_, reachable_timers h hroom⟩
  · intro hoff
    refine le_antisymm hle (Nat.le_of_not_lt fun hlt => ?_)
    rw [hline.2 hlt] at hoff
    exact absurd hoff (by simp)
  · intro hnone hon'
    have hidle : s.controller.active = [] := by
      rw [hinv.active, hnone]
      rfl
    refine (Controller.signals_iff hinv.opened hinv.timerListens (by decide) hidle).2 ?_
    rw [line_timer]
    exact hon'

/-- When the first tick has come due and is not counted yet, the timer is signalled. -/
theorem ticks_exact_at_any_time_due : (timerTicks dueSystem.timer).toNat < (18 - 5) / 10 ∧
    dueSystem.controller.Signals dueSystem.line 30 := by
  obtain ⟨-, hline, -, hsignals, -⟩ := ticks_exact_at_any_time reachable_dueSystem (by decide)
  exact ⟨hline.1 rfl, hsignals rfl rfl⟩

/-! ### Unexpected interrupts -/

/-- Model of `irq_unexpected_count`. -/
def irqUnexpectedCount (s : System) : Word := s.unexpectedCount

/-- **What one step preserves** of the count. -/
theorem unexpected_step {e : Event} (hreal : ∀ v ∈ s.handler.outstanding, isReal v = true)
    (h : BitVec.ofNat 64 (log.acknowledged.countP isUnexpected) =
      s.unexpectedCount + BitVec.ofNat 64 (s.handler.unserved isUnexpected))
    (hstep : Step s e t) :
    BitVec.ofNat 64 ((log.record s e t).acknowledged.countP isUnexpected) =
      t.unexpectedCount + BitVec.ofNat 64 (t.handler.unserved isUnexpected) := by
  cases hstep with
  | count n => exact h
  | arrive words _ _ => exact h
  | others _ _ _ _ => exact h
  | access _ => exact h
  | exception hidle =>
      rw [hidle] at h
      exact h
  | @acknowledge v _ hentered _ =>
      rw [hentered] at h
      change BitVec.ofNat 64 ((log.acknowledged ++ [v]).countP isUnexpected) =
        s.unexpectedCount + BitVec.ofNat 64 ((dispatch v).unserved isUnexpected)
      rw [List.countP_append, unserved_dispatch isReal_of_isUnexpected, BitVec.ofNat_add, h]
      exact congrArg (· + _) (BitVec.add_zero _)
  | handle sev hhandle =>
      change BitVec.ofNat 64 ((log.handled s).acknowledged.countP isUnexpected) = _
      rw [acknowledged_handled]
      cases irqHandle_cases hhandle with
      | @timer v hv hid =>
          have hne : isUnexpected v = false := by simp [isUnexpected, isTimer, hid]
          simpa [hv, Handler.unserved, hne] using h
      | @uart v hv hid =>
          have hne : isUnexpected v = false := by simp [isUnexpected, isUart, hid]
          simpa [hv, Handler.unserved, hne] using h
      | @unexpected v hv hne hne' =>
          have hone : isUnexpected v = true := by
            simp [isUnexpected, isTimer, isUart, hne, hne', hreal v (by simp [hv, Handler.outstanding])]
          simpa [hv, Handler.unserved, hone] using h
      | clear hv => simpa [hv, Handler.unserved] using h
      | word hv _ => simpa [hv, Handler.unserved] using h
      | drained hv _ => simpa [hv, Handler.unserved] using h
      | ended hv => simpa [hv, Handler.unserved] using h

theorem reachable_unexpected {p : System × Log} (h : (loggedSystem b).Reachable p) :
    BitVec.ofNat 64 (p.2.acknowledged.countP isUnexpected) =
      p.1.unexpectedCount + BitVec.ofNat 64 (p.1.handler.unserved isUnexpected) := by
  have hboth : p.2.acknowledged.filter isReal = p.2.ended ++ p.1.handler.outstanding ∧
      BitVec.ofNat 64 (p.2.acknowledged.countP isUnexpected) =
        p.1.unexpectedCount + BitVec.ofNat 64 (p.1.handler.unserved isUnexpected) := by
    refine Lts.Reachable.history_invariant (P := fun s log =>
      log.acknowledged.filter isReal = log.ended ++ s.handler.outstanding ∧
      BitVec.ofNat 64 (log.acknowledged.countP isUnexpected) =
        s.unexpectedCount + BitVec.ofNat 64 (s.handler.unserved isUnexpected)) ?_ ?_ h
    · intro s hs
      rw [hs.handler, hs.unexpectedCount]
      exact ⟨rfl, rfl⟩
    · intro s log e t _ ih hstep
      have hreal : ∀ v ∈ s.handler.outstanding, isReal v = true :=
        fun v hv => (mem_of_outstanding ih.1 hv).2
      exact ⟨bracketed_step ih.1 hstep, unexpected_step hreal ih.2 hstep⟩
  exact hboth.2

/-- No step enables or disables an interrupt. -/
theorem enabled_step {e : Event} (hstep : Step s e t) (i : ℕ) :
    (t.controller.distributor.interrupt i).enabled =
      (s.controller.distributor.interrupt i).enabled := by
  cases hstep with
  | count n => rfl
  | arrive words _ _ => rfl
  | others lines hc _ _ =>
      rw [hc]
      rfl
  | access _ => rfl
  | exception _ => rfl
  | @acknowledge v _ _ hack =>
      cases hack with
      | spurious _ _ => rfl
      | interrupt _ _ =>
          rw [Controller.interrupt_activate]
          by_cases hi : i = (gicInterruptId v).toNat
          · rw [hi, Function.update_self]
          · rw [Function.update_of_ne hi]
  | handle sev hhandle => cases irqHandle_cases hhandle <;> rfl

/-- Only the interrupts of the timer and of the UART are enabled. -/
def OthersDisabled (s : System) : Prop :=
  ∀ i, i ≠ 30 → i ≠ 33 → (s.controller.distributor.interrupt i).enabled = 0

/-- Where nothing else is enabled, nothing else is acknowledged. -/
theorem reachable_expected {p : System × Log} (h : (loggedSystem b).Reachable p)
    (hothers : OthersDisabled p.1) : ∀ v ∈ p.2.acknowledged, isUnexpected v = false := by
  refine Lts.Reachable.history_invariant (P := fun s log => OthersDisabled s →
    ∀ v ∈ log.acknowledged, isUnexpected v = false) ?_ ?_ h hothers
  · intro s _ _ v hv
    cases hv
  · intro s log e t _ ih hstep hothers
    have hbefore : OthersDisabled s := by
      intro i hi hi'
      rw [← enabled_step hstep]
      exact hothers i hi hi'
    cases hstep with
    | count n => exact ih hbefore
    | arrive words _ _ => exact ih hbefore
    | others _ _ _ _ => exact ih hbefore
    | access _ => exact ih hbefore
    | exception _ => exact ih hbefore
    | @acknowledge v _ _ hack =>
        intro w hw
        rcases List.mem_append.1 hw with hw | hw
        · exact ih hbefore w hw
        · obtain rfl := List.mem_singleton.1 hw
          by_contra htrue
          have hunexpected := Bool.eq_true_of_not_eq_false htrue
          simp only [isUnexpected, isTimer, isUart, Bool.and_eq_true, Bool.not_eq_true',
            decide_eq_false_iff_not] at hunexpected
          obtain ⟨⟨hreal, htimer⟩, huart⟩ := hunexpected
          cases hack with
          | spurious _ hge => exact absurd (of_decide_eq_true hreal) (Nat.not_lt.2 hge)
          | interrupt hsignals _ =>
              have hzero := hbefore (gicInterruptId w).toNat
                (fun h30 => htimer (BitVec.eq_of_toNat_eq h30))
                (fun h33 => huart (BitVec.eq_of_toNat_eq h33))
              rw [hsignals.enabled] at hzero
              exact absurd hzero (by decide)
    | handle _ _ =>
        rw [Log.record, acknowledged_handled]
        exact ih hbefore

/-- **The count of unexpected interrupts is exact.**  Whenever the handler does not run,
`irq_unexpected_count` is the number of interrupts that were ended and were neither the timer's nor the
UART's, as a 64-bit word.  Where no other interrupt is enabled the count is zero at any time, and no
other interrupt was ever acknowledged. -/
theorem unexpected_count_exact (h : (loggedSystem b).Reachable (s, log)) :
    (s.handler.outstanding = [] →
      irqUnexpectedCount s = BitVec.ofNat 64 (log.ended.countP isUnexpected)) ∧
    (OthersDisabled s → irqUnexpectedCount s = 0 ∧
      ∀ v ∈ log.acknowledged, isReal v = true → isTimer v = true ∨ isUart v = true) := by
  have hcount := reachable_unexpected h
  refine ⟨?_, ?_⟩
  · intro hnone
    have hended : log.acknowledged.filter isReal = log.ended := by
      rw [reachable_bracketed h, hnone, List.append_nil]
    have hunserved : s.handler.unserved isUnexpected = 0 := by
      cases hv : s.handler with
      | acknowledged v =>
          rw [hv] at hnone
          cases hnone
      | _ => rfl
    have hfilter : (log.acknowledged.filter isReal).countP isUnexpected =
        log.acknowledged.countP isUnexpected := by
      rw [List.countP_filter]
      refine List.countP_congr fun v _ => ?_
      rw [Bool.and_eq_true]
      exact ⟨fun hv => hv.1, fun hv => ⟨hv, isReal_of_isUnexpected v hv⟩⟩
    rw [hunserved] at hcount
    rw [← hended, hfilter, hcount]
    exact (BitVec.add_zero _).symm
  · intro hothers
    have hexpected := reachable_expected h hothers
    refine ⟨?_, ?_⟩
    · have hzero : log.acknowledged.countP isUnexpected = 0 :=
        List.countP_eq_zero.2 fun v hv => by simp [hexpected v hv]
      have hunserved : s.handler.unserved isUnexpected = 0 := by
        cases hv : s.handler with
        | acknowledged v =>
            have hmem := mem_of_outstanding (reachable_bracketed h) (v := v) (by
              rw [hv]
              exact List.mem_singleton_self v)
            exact if_neg (by simp [hexpected v hmem.1])
        | _ => rfl
      rw [hzero, hunserved] at hcount
      exact (hcount.trans (BitVec.add_zero _)).symm
    · intro v hv hreal
      have hnot := hexpected v hv
      rw [isUnexpected, hreal, Bool.true_and] at hnot
      cases htimer : isTimer v with
      | true => exact Or.inl rfl
      | false =>
          rw [htimer] at hnot
          simpa using hnot

/-- A controller on which interrupt 40 was enabled before the kernel. -/
def strayController : Controller := (resetController.enable 40 0x80).getD resetController

/-- The kernel on this controller, with the line of the interrupt asserted. -/
def straySystem : System :=
  { bootSystem shortTicks with
    controller := (enableInterrupts strayController).getD strayController
    otherLines := fun i => decide (i = 40) }

/-- There the interrupt can be acknowledged. -/
theorem booted_straySystem : Booted shortTicks straySystem ∧ ∀ line : ℕ → Bool, line 40 = true →
    straySystem.controller.Acknowledges line 40 (straySystem.controller.activate 40) := by
  obtain ⟨c, hc, hlistens, hothers, -, hactive⟩ :=
    Controller.enable_spec (40 : BitVec 32) (by decide) (by decide) resetController
  obtain ⟨d, hd, -, -, -, -, hsame⟩ := enableInterrupts_spec c
  have hstray : strayController = c := by
    rw [strayController, hc]
    rfl
  have hboot : straySystem.controller = d := by
    rw [straySystem, hstray, hd]
    rfl
  have hmiddle : ∀ j, (c.distributor.interrupt j).enabled = 1 →
      (c.distributor.interrupt j).priority = 0x80 := by
    intro j hj
    by_cases hj40 : j = (40 : BitVec 32).toNat
    · rw [hj40]
      exact hlistens.priority
    · rw [hothers j hj40, enabled_resetController] at hj
      exact absurd hj (by decide)
  refine ⟨⟨⟨c, hactive, hboot.symm ▸ hd⟩, ⟨0, 0, rfl⟩, le_rfl, rfl, rfl, rfl, rfl, rfl⟩,
    fun line hline => ?_⟩
  rw [hboot]
  exact acknowledges_enabled hactive hd hmiddle (hlistens.congr (hsame 40 (by decide) (by decide)))
    (by decide) hline

/-- The kernel when it has ended the interrupt. -/
def strayEnded : System :=
  { straySystem with
    unexpectedCount := 1
    controller := { straySystem.controller.activate 40 with
      active := (straySystem.controller.activate 40).active.erase 40 } }

theorem reachable_strayEnded :
    (loggedSystem shortTicks).Reachable (strayEnded, ⟨[40], [40], [], [], 0, []⟩) := by
  have hboot : (loggedSystem shortTicks).Reachable (straySystem, ⟨[], [], [], [], 0, []⟩) :=
    Lts.Reachable.init ⟨booted_straySystem.1, rfl⟩
  have hrun : (loggedSystem shortTicks).Run (straySystem, ⟨[], [], [], [], 0, []⟩)
      [Event.exception, Event.acknowledge 40, Event.handle, Event.handle]
      (strayEnded, ⟨[40], [40], [], [], 0, []⟩) := by
    refine .cons (t := (_, _)) ⟨Step.exception rfl, rfl⟩ ?_
    refine .cons (t := (_, _)) ⟨Step.acknowledge rfl (booted_straySystem.2 _ rfl), rfl⟩ ?_
    refine .cons (t := (_, _)) ⟨Step.handle false rfl, rfl⟩ ?_
    exact .cons (t := (_, _)) ⟨Step.handle false rfl, rfl⟩ .nil
  exact hboot.run hrun

/-- The interrupt that nothing in the kernel has enabled is counted. -/
theorem unexpected_count_exact_stray : irqUnexpectedCount strayEnded = 1 ∧
    irqUnexpectedCount strayEnded = BitVec.ofNat 64 ([40].countP isUnexpected) :=
  ⟨rfl, (unexpected_count_exact reachable_strayEnded).1 rfl⟩

/-- On a controller with nothing else enabled, nothing else gets enabled. -/
theorem othersDisabled_tickedSystem : OthersDisabled tickedSystem := by
  intro i hi hi'
  change ((dueSystem.controller.activate 30).distributor.interrupt i).enabled = 0
  rw [Controller.interrupt_activate, Function.update_of_ne hi]
  exact enabled_bootSystem shortTicks hi hi'

end Irq

end MiniOs
