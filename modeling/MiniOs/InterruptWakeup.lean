/-
**The handlers are as good as atomic.**

Elsewhere a handler runs in one step: it finds some words in the FIFO, or some value of the counter, and
leaves its effect on the memory.  Here the handler runs access by access, words arrive while it drains the
FIFO, and the counter goes on.  The program is stopped meanwhile, so it sees the memory and the event
register only before and after; and what it sees is what an atomic handler would have left behind, for
the words that were read in all.  So what holds of the program under atomic handlers holds under
these.

Main definitions:

* `Irq.Kernel`, `Irq.kernel` — the program and the handler, access by access;
* `Irq.Serving` — **what the handler has done so far**, in terms of the state at its start.

Main results:

* `Irq.serving_handles` — a step of the handler is no step of the atomic system, but for the last one;
* `Irq.handlers_are_atomic` — **what the program sees, it sees under atomic handlers**, and it sleeps only
  while there is nothing to do.
-/

import MiniOs.InterruptTraffic
import MiniOs.Wakeup

set_option relaxedAutoImplicit false
set_option autoImplicit false

namespace MiniOs

namespace Irq

open Gic (gicInterruptId)
open Timer (timerTicks timerHandleInterrupt)
open Uart (Rx buffered receive drainRxFifo drainRxFifo_concat uartHandleInterrupt)
open Wakeup (Point)

/-! ### The program and the handler -/

/-- What the program sees, and how far it has got. -/
abbrev Core : Type := EventRegister.Core Point Wakeup.Memory

/-- The kernel under its interrupts, with the event register and the point of the program.  Whether the
WFE at that point has slept is known as well. -/
structure Kernel where
  sys : System
  event : Bool
  slept : Bool
  pc : Point

/-- What the program sees. -/
def Kernel.core (k : Kernel) : Core :=
  ⟨k.event, k.slept, k.pc, ⟨k.sys.driver.rx, k.sys.timer⟩⟩

/-- The program has made a step. -/
def Kernel.withCore (k : Kernel) (c : Core) : Kernel where
  sys := { k.sys with driver := { k.sys.driver with rx := c.mem.rx }, timer := c.mem.timer }
  event := c.event
  slept := c.slept
  pc := c.pc

/-- What happens next. -/
inductive KernelEvent
  /-- The devices go on, the CPU takes the exception, or the handler acknowledges an interrupt. -/
  | devices (e : Event)
  /-- The handler goes on. -/
  | handle
  /-- The program goes on. -/
  | main

/-- One step of the devices, of the handler or of the program, which is stopped while the handler
runs. -/
inductive KernelStep : Kernel → KernelEvent → Kernel → Prop
  | devices {k : Kernel} {e : Event} {t : System} : e ≠ Event.access → e ≠ Event.handle →
      Step k.sys e t → KernelStep k (KernelEvent.devices e) { k with sys := t }
  | handle {k : Kernel} {sev : Bool} {t : System} : irqHandle k.sys = some (sev, t) →
      KernelStep k KernelEvent.handle { k with sys := t, event := k.event || sev }
  | main {k : Kernel} {c : Core} : k.sys.handler = Handler.idle →
      EventRegister.Step Wakeup.program k.core EventRegister.Event.main c →
      KernelStep k KernelEvent.main (k.withCore c)

/-- **The kernel, access by access**, from `irq_enable` on; the event register holds anything. -/
def kernel (b : Boot) : Lts Kernel KernelEvent where
  init k := Booted b k.sys ∧ k.slept = false ∧ k.pc = Point.other
  step := KernelStep

/-! ### What the handler has done so far -/

/-- A core after a run of an atomic handler. -/
def interrupted (c : Core) (e : Wakeup.Irq) :
    Core :=
  ⟨c.event || (Wakeup.handle e c.mem).1, c.slept, c.pc, (Wakeup.handle e c.mem).2⟩

/-- **What the handler has done so far**: what the program will see is `d`, and the atomic system is in
the state `c`.  That is the one in which the handler was entered, and with the last effect of the handler
it becomes the one the handler leaves behind. -/
def Serving (c d : Core) : Handler → Prop
  | .idle => d = c
  | .entered => d = c
  | .acknowledged _ => d = c
  | .pending _ _ => d = { c with mem := ⟨(uartHandleInterrupt [] c.mem.rx).2, c.mem.timer⟩ }
  | .draining _ _ received => ∃ fifo, (uartHandleInterrupt fifo c.mem.rx).1 = received ∧
      d = { c with mem := ⟨(uartHandleInterrupt fifo c.mem.rx).2, c.mem.timer⟩ }
  | .served _ => d = c

theorem serving_dispatch {c d : Core} (v : BitVec 32) : Serving c d (dispatch v) ↔ d = c := by
  rw [dispatch]
  split <;> rfl

variable {b : Boot} {k : Kernel} {c : Core}

/-- **A step of the handler**: the atomic handler runs with the last effect. -/
theorem serving_handles {sev : Bool} {t : System} (h : Serving c k.core k.sys.handler)
    (hstep : Handles k.sys sev t) :
    Serving c (Kernel.core { k with sys := t, event := k.event || sev }) t.handler ∨
      ∃ e, Serving (interrupted c e) (Kernel.core { k with sys := t, event := k.event || sev })
        t.handler := by
  cases hstep with
  | timer hv _ =>
      rw [hv] at h
      refine Or.inr ⟨Wakeup.Irq.timer k.sys.now, ?_⟩
      rw [← show k.core = c from h]
      rfl
  | uart hv _ =>
      rw [hv] at h
      left
      rw [← show k.core = c from h, Kernel.core, Bool.or_false]
      rfl
  | unexpected hv _ _ =>
      rw [hv] at h
      left
      rw [← show k.core = c from h, Kernel.core, Bool.or_false]
      rfl
  | clear hv =>
      rw [hv] at h
      left
      refine ⟨[], rfl, ?_⟩
      rw [Kernel.core, Bool.or_false]
      exact h
  | @word v pending received data rest hv hfifo =>
      rw [hv] at h
      obtain ⟨fifo, hreceived, hcore⟩ := h
      have hconcat := drainRxFifo_concat fifo (data.setWidth 32)
        { c.mem.rx with rxInterrupts := c.mem.rx.rxInterrupts + 1 }
      obtain ⟨hevent, hslept, hpc, hmem⟩ := EventRegister.Core.mk.inj hcore
      obtain ⟨hrx, htimer⟩ := Wakeup.Memory.mk.inj hmem
      left
      refine ⟨fifo ++ [data.setWidth 32], ?_, ?_⟩
      · rw [uartHandleInterrupt, hconcat, hrx, ← hreceived]
        rfl
      · rw [uartHandleInterrupt, hconcat, Kernel.core, Bool.or_false]
        dsimp only
        rw [hevent, hslept, hpc, hrx, htimer]
        rfl
  | drained hv hempty =>
      rw [hv] at h
      obtain ⟨fifo, hreceived, hcore⟩ := h
      obtain ⟨hevent, hslept, hpc, hmem⟩ := EventRegister.Core.mk.inj hcore
      obtain ⟨hrx, htimer⟩ := Wakeup.Memory.mk.inj hmem
      refine Or.inr ⟨Wakeup.Irq.uart fifo, ?_⟩
      change (⟨k.event || sev, k.slept, k.pc, ⟨k.sys.driver.rx, k.sys.timer⟩⟩ : Core) = _
      rw [← hreceived, hevent, hslept, hpc, hrx, htimer]
      rfl
  | ended hv =>
      rw [hv] at h
      left
      rw [← show k.core = c from h, Kernel.core, Bool.or_false]
      rfl

/-- What the devices do, the exception and the acknowledgement leave what the program sees alone, and
the handler at its start, if it was there. -/
theorem serving_devices {e : Event} {t : System} (h : Serving c k.core k.sys.handler)
    (haccess : e ≠ Event.access) (hhandle : e ≠ Event.handle) (hstep : Step k.sys e t) :
    Serving c (Kernel.core { k with sys := t }) t.handler := by
  cases hstep with
  | count n => exact h
  | arrive words _ _ => exact h
  | others _ _ _ _ => exact h
  | access _ => exact absurd rfl haccess
  | exception hidle =>
      rw [hidle] at h
      exact h
  | @acknowledge v _ hentered _ =>
      rw [hentered] at h
      exact (serving_dispatch v).2 h
  | handle _ _ => exact absurd rfl hhandle

/-- **Every step is one step of the atomic system, or none.** -/
theorem serving_step {k' : Kernel} {e : KernelEvent} (h : Serving c k.core k.sys.handler)
    (hstep : KernelStep k e k') : Serving c k'.core k'.sys.handler ∨
      ∃ d c', EventRegister.Step Wakeup.program c d c' ∧ Serving c' k'.core k'.sys.handler := by
  cases hstep with
  | devices haccess hhandle hstep => exact Or.inl (serving_devices h haccess hhandle hstep)
  | handle hhandle =>
      rcases serving_handles h (irqHandle_cases hhandle) with hsame | ⟨e, hrun⟩
      · exact Or.inl hsame
      · exact Or.inr ⟨EventRegister.Event.interrupt e, _, EventRegister.Step.interrupt c e, hrun⟩
  | @main c' hidle hmain =>
      rw [hidle] at h
      have hcore : k.core = c := h
      refine Or.inr ⟨EventRegister.Event.main, c', hcore ▸ hmain, ?_⟩
      change Serving c' (k.withCore c').core k.sys.handler
      rw [hidle]
      rfl

/-- The first state of the kernel, as `uart_init` and `timer_init` leave it, is one of the atomic
system. -/
theorem serving_init (hsys : Booted b k.sys) (hslept : k.slept = false) (hpc : k.pc = Point.other) :
    Wakeup.core.Reachable k.core ∧ Serving k.core k.core k.sys.handler := by
  refine ⟨?_, ?_⟩
  · obtain ⟨cntpCval, cntpCtl, htimer⟩ := hsys.timer
    have hboot : Wakeup.core.Reachable ⟨k.event, false, Point.other,
        ⟨Rx.boot, Timer.State.boot cntpCval cntpCtl⟩⟩ :=
      Lts.Reachable.init ⟨rfl, rfl, cntpCval, cntpCtl, rfl⟩
    have huart := Wakeup.reachable_access
      (Or.inr (Or.inr (Wakeup.otherCode.uartInit (b.drained.map (·.setWidth 32))))) hboot
    have hinit := Wakeup.reachable_access
      (Or.inr (Or.inr (Wakeup.otherCode.timerInit b.frequency (BitVec.ofNat 64 b.origin)))) huart
    rw [Kernel.core, hslept, hpc, hsys.driver, htimer]
    exact hinit
  · rw [hsys.handler]
    rfl

/-- **What the program sees, it sees under atomic handlers.**  In every interleaving of the program with
the devices and the accesses of the handler, whenever the handler does not run, the memory of the
drivers, the event register and the point of the program are such as the atomic handlers lead to.  So no
wake-up is lost: the core is asleep in `uart_getc` only while the ring is empty, and in
`timer_sleep_ticks` only while the duration has not passed. -/
theorem handlers_are_atomic (h : (kernel b).Reachable k) (hidle : k.sys.handler = Handler.idle) :
    Wakeup.core.Reachable k.core ∧
    (k.core.Asleep → k.pc = Point.otherWait ∨
      (k.pc = Point.getcWait ∧ k.sys.driver.rx.rxHead = k.sys.driver.rx.rxTail) ∨
      ∃ durationTicks start, k.pc = Point.sleepWait durationTicks start ∧
        timerTicks k.sys.timer - start < durationTicks) := by
  have hreachable : Wakeup.core.Reachable k.core := by
    obtain ⟨c, hc, hserving⟩ : ∃ c, Wakeup.core.Reachable c ∧
        Serving c k.core k.sys.handler := by
      refine h.simulation (R := fun k c => Serving c k.core k.sys.handler) ?_ ?_
      · rintro k ⟨hsys, hslept, hpc⟩
        exact ⟨k.core, serving_init hsys hslept hpc⟩
      · intro k e k' c _ _ hserving hstep
        exact serving_step hserving hstep
    rw [hidle] at hserving
    rw [show k.core = c from hserving]
    exact hc
  refine ⟨hreachable, fun hasleep => ?_⟩
  have hpc : ¬ Wakeup.Waits Point.other := not_false
  obtain ⟨hwait, hnot⟩ :=
    (Wakeup.announced.reachable hpc (fun _ _ => trivial) hreachable).no_lost_wakeup hasleep
  obtain ⟨sys, event, slept, pc⟩ := k
  cases pc with
  | otherWait => exact Or.inl rfl
  | getcWait => exact Or.inr (Or.inl ⟨rfl, not_not.1 hnot⟩)
  | sleepWait durationTicks start =>
      exact Or.inr (Or.inr ⟨durationTicks, start, rfl, BitVec.not_le.1 hnot⟩)
  | _ => exact absurd hwait not_false

/-- A run of the devices and the handler, with the program where it is. -/
theorem run_kernel {s t : System} {l : List Event} (h : (system b).Run s l t)
    (hl : Event.access ∉ l) (event slept : Bool) (pc : Point) :
    ∃ events event', (kernel b).Run ⟨s, event, slept, pc⟩ events ⟨t, event', slept, pc⟩ := by
  induction h generalizing event with
  | nil => exact ⟨[], event, Lts.Run.nil⟩
  | @cons s t u e l hstep _ ih =>
      rw [List.mem_cons, not_or] at hl
      by_cases he : e = Event.handle
      · subst he
        cases hstep with
        | handle sev hhandle =>
            obtain ⟨events, event', hrun⟩ := ih hl.2 (event || sev)
            exact ⟨_, event', Lts.Run.cons (KernelStep.handle hhandle) hrun⟩
      · obtain ⟨events, event', hrun⟩ := ih hl.2 event
        exact ⟨_, event', Lts.Run.cons (KernelStep.devices (Ne.symm hl.1) he hstep) hrun⟩

/-- The letter that has come in is in the ring, as if it had been handled at once. -/
theorem handlers_are_atomic_letter : ∃ event,
    Wakeup.core.Reachable (Kernel.core ⟨letterSystem, event, false, Point.other⟩) ∧
      buffered letterSystem.driver.rx = [0x61] := by
  have hboot : (kernel shortTicks).Reachable ⟨bootSystem shortTicks, true, false, Point.other⟩ :=
    Lts.Reachable.init ⟨booted_bootSystem shortTicks, rfl, rfl⟩
  obtain ⟨events, event, hrun⟩ :=
    run_kernel run_letterSystem.fst (by simp) true false Point.other
  exact ⟨event, (handlers_are_atomic (hboot.run hrun) rfl).1, by decide⟩

end Irq

end MiniOs
