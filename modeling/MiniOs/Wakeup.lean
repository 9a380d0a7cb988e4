/-
**Waiting for a byte and for a tick: no wake-up is lost.**

`uart_getc` and `timer_sleep_ticks` look at what the interrupt handlers leave in memory, and sleep in
WFE when it is not there yet.  Looking and sleeping are separate instructions, so a handler may run
between them, and a wake-up may come from the other device or be left over from an earlier wait.  The
UART's handler issues SEV when it has stored a byte, and the timer's always does.

Main definitions:

* `Wakeup.Memory`, `Wakeup.Irq`, `Wakeup.handle` — the memory of the two drivers, and their handlers;
* `Wakeup.Point`, `Wakeup.uartGetc`, `Wakeup.timerSleepTicks`, `Wakeup.program` — the two
  functions, one instruction at a time, and the program that calls them.

Main results:

* `Wakeup.handle_announces` — a handler that brings about what is waited for issues SEV;
* `Wakeup.never_asleep_when_ready` — **neither function sleeps when it could go on**.
-/

import MiniOs.EventRegister
import MiniOs.Timer
import MiniOs.UartRx

set_option relaxedAutoImplicit false
set_option autoImplicit false

namespace MiniOs

namespace Wakeup

open EventRegister (Instr Program Announced)
open Timer (timerTicks timerInit timerHandleInterrupt)
open Uart (popStep drainRxFifo uartHandleInterrupt)

/-! ### The drivers and their handlers -/

/-- The static variables of the two drivers. -/
structure Memory where
  rx : Uart.Rx
  timer : Timer.State

/-- An interrupt, with what its handler reads from the device. -/
inductive Irq
  | uart (fifo : List (BitVec 32))
  | timer (now : Word)

/-- What a handler does to the memory, and whether it issues SEV. -/
def handle : Irq → Memory → Bool × Memory
  | .uart fifo, m =>
      let (received, rx) := uartHandleInterrupt fifo m.rx
      (received, { m with rx := rx })
  | .timer now, m => (true, { m with timer := timerHandleInterrupt now m.timer })

/-! ### The functions that wait -/

/-- The points of the program. -/
inductive Point
  /-- Code that neither sleeps nor looks at the two drivers. -/
  | other
  /-- A WFE of other code. -/
  | otherWait
  /-- The start of `uart_getc`. -/
  | getc
  /-- In `uart_getc`, a call of `rx_buffer_pop` that has got so far. -/
  | getcPop (pop : Uart.Pop)
  /-- The WFE of `uart_getc`. -/
  | getcWait
  /-- The start of `timer_sleep_ticks`. -/
  | sleep (durationTicks : Word)
  /-- In `timer_sleep_ticks`, the condition of the loop. -/
  | sleepTest (durationTicks start : Word)
  /-- The WFE of `timer_sleep_ticks`. -/
  | sleepWait (durationTicks start : Word)

/-- Where `uart_getc` goes on after an access of `rx_buffer_pop`: in the same call, at its WFE, or
back in its caller. -/
def afterAccess (m : Memory) : Uart.Pop × Uart.Rx × Option Uart.PopResult → Point × Memory
  | (pop, rx, none) => (.getcPop pop, { m with rx := rx })
  | (_, rx, some .empty) => (.getcWait, { m with rx := rx })
  | (_, rx, some (.byte _)) => (.other, { m with rx := rx })

/-- Model of `uart_getc`. -/
inductive uartGetc : Point → Instr Point Memory → Prop
  | sevl : uartGetc .getc (Instr.sevl (.getcPop .idle))
  | pop (pop : Uart.Pop) : uartGetc (.getcPop pop)
      (Instr.access fun m => afterAccess m (popStep pop m.rx))
  | wfe : uartGetc .getcWait (Instr.wfe (.getcPop .idle))

/-- Model of `timer_sleep_ticks`. -/
inductive timerSleepTicks : Point → Instr Point Memory → Prop
  | start (durationTicks : Word) : timerSleepTicks (.sleep durationTicks)
      (Instr.access fun m => (.sleepTest durationTicks (timerTicks m.timer), m))
  | test (durationTicks start : Word) : timerSleepTicks (.sleepTest durationTicks start)
      (Instr.access fun m =>
        if timerTicks m.timer - start < durationTicks then (.sleepWait durationTicks start, m)
        else (.other, m))
  | wfe (durationTicks start : Word) : timerSleepTicks (.sleepWait durationTicks start)
      (Instr.wfe (.sleepTest durationTicks start))

/-- The other code: it initialises the drivers, calls the functions that wait, and may sleep
itself. -/
inductive otherCode : Point → Instr Point Memory → Prop
  | uartInit (fifo : List (BitVec 32)) : otherCode .other
      (Instr.access fun m => (.other, { m with rx := (drainRxFifo fifo m.rx).2 }))
  | timerInit (frequency counter : Word) : otherCode .other
      (Instr.access fun m => (.other, { m with timer := timerInit frequency counter m.timer }))
  | getc : otherCode .other (Instr.access fun m => (.getc, m))
  | sleep (durationTicks : Word) : otherCode .other
      (Instr.access fun m => (.sleep durationTicks, m))
  | wait : otherCode .other (Instr.access fun m => (.otherWait, m))
  | wfe : otherCode .otherWait (Instr.wfe .other)

/-- The program under the interrupts of the two devices. -/
def program : Program Point Memory Irq where
  code p i := uartGetc p i ∨ timerSleepTicks p i ∨ otherCode p i
  handle := handle

/-- **The core from boot on**, with anything in the registers of the timer. -/
def core : Lts (EventRegister.Core Point Memory) (EventRegister.Event Irq) :=
  EventRegister.system program .other fun m =>
    ∃ cntpCval cntpCtl, m = ⟨Uart.Rx.boot, Timer.State.boot cntpCval cntpCtl⟩

/-! ### What is waited for, and who announces it -/

/-- The points at which the program has decided to sleep. -/
def Waits : Point → Prop
  | .otherWait | .getcWait | .sleepWait _ _ => True
  | _ => False

/-- What is waited for there: a byte in the ring, or the end of the duration. -/
def Ready : Point → Memory → Prop
  | .getcWait, m => m.rx.rxHead ≠ m.rx.rxTail
  | .sleepWait durationTicks start, m => durationTicks ≤ timerTicks m.timer - start
  | _, _ => False

/-- A pop that has loaded the tail index finds it unchanged. -/
def TailLoaded : Point → Memory → Prop
  | .getcPop (.haveTail tail), m => tail = m.rx.rxTail
  | _, _ => True

theorem rxBufferPush_rxTail (value : Byte) (s : Uart.Rx) :
    (Uart.rxBufferPush value s).2.rxTail = s.rxTail := by
  unfold Uart.rxBufferPush
  dsimp only
  split
  · rfl
  · rfl

theorem rxBufferPush_false {value : Byte} {s : Uart.Rx}
    (h : (Uart.rxBufferPush value s).1 = false) :
    (Uart.rxBufferPush value s).2.rxHead = s.rxHead := by
  unfold Uart.rxBufferPush at h ⊢
  dsimp only at h ⊢
  split at h
  · next hfull => rw [if_pos hfull]
  · exact absurd h (by simp)

/-- A drain does not move the tail. -/
theorem drainRxFifo_rxTail (fifo : List (BitVec 32)) (s : Uart.Rx) :
    (drainRxFifo fifo s).2.rxTail = s.rxTail := by
  induction fifo generalizing s with
  | nil => rfl
  | cons data fifo ih => exact (ih (Uart.receive data s).2).trans (rxBufferPush_rxTail _ _)

/-- A drain that has stored nothing **does not move the head** either. -/
theorem drainRxFifo_false {fifo : List (BitVec 32)} {s : Uart.Rx}
    (h : (drainRxFifo fifo s).1 = false) : (drainRxFifo fifo s).2.rxHead = s.rxHead := by
  induction fifo generalizing s with
  | nil => rfl
  | cons data fifo ih =>
      obtain ⟨hstored, hrest⟩ := Bool.or_eq_false_iff.1 h
      exact (ih hrest).trans (rxBufferPush_false hstored)

/-- The pop that has loaded both indices is done when they are equal. -/
theorem afterAccess_haveTail (tail : BitVec 32) (m : Memory) :
    afterAccess m (popStep (.haveTail tail) m.rx) =
      if tail = m.rx.rxHead then (.getcWait, m) else (.getcPop (.haveHead tail), m) := by
  change afterAccess m (if tail = m.rx.rxHead then _ else _) = _
  split
  · rfl
  · rfl

/-- No handler moves the tail. -/
theorem handle_rxTail (e : Irq) (m : Memory) : (handle e m).2.rx.rxTail = m.rx.rxTail := by
  cases e with
  | timer now => rfl
  | uart fifo => exact drainRxFifo_rxTail fifo _

/-- A handler that brings about what is waited for **issues SEV**. -/
theorem handle_announces {p : Point} {m : Memory} {e : Irq} (hready : Ready p (handle e m).2) :
    Ready p m ∨ (handle e m).1 = true := by
  cases e with
  | timer now => exact Or.inr rfl
  | uart fifo =>
      cases hsev : (uartHandleInterrupt fifo m.rx).1 with
      | true => exact Or.inr hsev
      | false =>
          left
          cases p with
          | getcWait =>
              intro hempty
              have htail := handle_rxTail (.uart fifo) m
              exact hready ((drainRxFifo_false hsev).trans (hempty.trans htail.symm))
          | _ => exact hready

theorem kept_tailLoaded : EventRegister.Kept program TailLoaded where
  access p run m hcode hinv := by
    rcases hcode with hcode | hcode | hcode
    · cases hcode with
      | pop pop =>
          cases pop with
          | idle => rfl
          | haveTail tail =>
              beta_reduce
              rw [afterAccess_haveTail]
              split
              · trivial
              · trivial
          | haveHead tail => trivial
          | haveByte tail value => trivial
    · cases hcode with
      | start durationTicks => trivial
      | test durationTicks start =>
          dsimp only
          split
          · trivial
          · trivial
    · cases hcode <;> trivial
  sevl p next m hcode hinv := by
    rcases hcode with hcode | hcode | hcode
    · cases hcode
      trivial
    · cases hcode
    · cases hcode
  wfe p next m hcode hinv := by
    rcases hcode with hcode | hcode | hcode <;> cases hcode <;> trivial
  handle p e m hinv := by
    have htail := handle_rxTail e m
    cases p with
    | getcPop pop =>
        cases pop with
        | haveTail tail => exact Eq.trans hinv htail.symm
        | _ => trivial
    | _ => trivial

/-- The program meets the conditions: it **decides to sleep only while there is nothing**. -/
theorem announced : Announced program TailLoaded Waits Ready where
  kept := kept_tailLoaded
  wfe p next hcode := by
    rcases hcode with hcode | hcode | hcode <;> cases hcode <;> exact ⟨trivial, not_false⟩
  decide p run m hcode hinv hwait := by
    rcases hcode with hcode | hcode | hcode
    · cases hcode with
      | pop pop =>
          cases pop with
          | haveTail tail =>
              have hinv' : tail = m.rx.rxTail := hinv
              beta_reduce at hwait ⊢
              rw [afterAccess_haveTail] at hwait ⊢
              by_cases htail : tail = m.rx.rxHead
              · rw [if_pos htail]
                exact fun hne => hne (htail.symm.trans hinv')
              · rw [if_neg htail] at hwait
                exact absurd hwait not_false
          | _ => exact absurd hwait not_false
    · cases hcode with
      | start durationTicks => exact absurd hwait not_false
      | test durationTicks start =>
          dsimp only at hwait ⊢
          by_cases htest : timerTicks m.timer - start < durationTicks
          · rw [if_pos htest]
            exact BitVec.not_le.2 htest
          · rw [if_neg htest] at hwait
            exact absurd hwait not_false
    · cases hcode <;> exact not_false
  handle p m e _ hready := handle_announces hready

/-- **Neither function sleeps when it could go on.**  In every interleaving of the program and the
handlers, wherever the core is asleep, it is so in `uart_getc` only while the ring is empty, and in
`timer_sleep_ticks` only while the duration has not passed; and a function that has decided to sleep
although it could go on finds the event register set. -/
theorem never_asleep_when_ready {c : EventRegister.Core Point Memory} (h : core.Reachable c) :
    (c.Asleep → c.pc = .otherWait ∨
      (c.pc = .getcWait ∧ c.mem.rx.rxHead = c.mem.rx.rxTail) ∨
      ∃ durationTicks start, c.pc = .sleepWait durationTicks start ∧
        timerTicks c.mem.timer - start < durationTicks) ∧
    (c.pc = .getcWait → c.mem.rx.rxHead ≠ c.mem.rx.rxTail → c.event = true) ∧
    ∀ durationTicks start, c.pc = .sleepWait durationTicks start →
      durationTicks ≤ timerTicks c.mem.timer - start → c.event = true := by
  have hpc : ¬ Waits Point.other := not_false
  have halert := announced.reachable hpc (fun _ _ => trivial) h
  refine ⟨fun hasleep => ?_, fun hpc hne => ?_, fun durationTicks start hpc hpassed => ?_⟩
  · obtain ⟨hwait, hnot⟩ := halert.no_lost_wakeup hasleep
    obtain ⟨event, slept, pc, mem⟩ := c
    cases pc with
    | otherWait => exact Or.inl rfl
    | getcWait => exact Or.inr (Or.inl ⟨rfl, not_not.1 hnot⟩)
    | sleepWait durationTicks start =>
        exact Or.inr (Or.inr ⟨durationTicks, start, rfl, BitVec.not_le.1 hnot⟩)
    | _ => exact absurd hwait not_false
  · exact halert.event (by rw [hpc]; trivial) (by rw [hpc]; exact hne)
  · exact halert.event (by rw [hpc]; trivial) (by rw [hpc]; exact hpassed)

/-- The memory at boot, with zero in the registers of the timer. -/
def bootMemory : Memory := ⟨Uart.Rx.boot, Timer.State.boot 0 0⟩

/-- The program makes its next access. -/
theorem reachable_access {event : Bool} {p : Point} {m : Memory} {run : Memory → Point × Memory}
    (hcode : program.code p (Instr.access run)) (h : core.Reachable ⟨event, false, p, m⟩) :
    core.Reachable ⟨event, false, (run m).1, (run m).2⟩ :=
  h.step (e := EventRegister.Event.main)
    (EventRegister.Step.access (c := ⟨event, false, p, m⟩) rfl hcode)

/-- The first WFE of `uart_getc` ends at once, and the second one sleeps. -/
theorem reachable_asleep : core.Reachable ⟨false, true, .getcWait, bootMemory⟩ := by
  have hboot : core.Reachable ⟨false, false, .other, bootMemory⟩ :=
    Lts.Reachable.init ⟨rfl, rfl, 0, 0, rfl⟩
  have hcall : core.Reachable ⟨false, false, .getc, bootMemory⟩ :=
    reachable_access (Or.inr (Or.inr otherCode.getc)) hboot
  have hsevl : core.Reachable ⟨true, false, .getcPop .idle, bootMemory⟩ :=
    hcall.step (e := EventRegister.Event.main)
      (EventRegister.Step.sevl rfl (Or.inl uartGetc.sevl))
  have hload : core.Reachable ⟨true, false, .getcPop (.haveTail 0), bootMemory⟩ :=
    reachable_access (Or.inl (uartGetc.pop _)) hsevl
  have hempty : core.Reachable ⟨true, false, .getcWait, bootMemory⟩ :=
    reachable_access (Or.inl (uartGetc.pop _)) hload
  have hagain : core.Reachable ⟨false, false, .getcPop .idle, bootMemory⟩ :=
    hempty.step (e := EventRegister.Event.main)
      (EventRegister.Step.wfe rfl rfl (Or.inl uartGetc.wfe))
  have hload' : core.Reachable ⟨false, false, .getcPop (.haveTail 0), bootMemory⟩ :=
    reachable_access (Or.inl (uartGetc.pop _)) hagain
  have hempty' : core.Reachable ⟨false, false, .getcWait, bootMemory⟩ :=
    reachable_access (Or.inl (uartGetc.pop _)) hload'
  exact hempty'.step (e := EventRegister.Event.main)
    (EventRegister.Step.sleep rfl rfl (Or.inl uartGetc.wfe))

/-- A byte that arrives while `uart_getc` sleeps sets the register. -/
theorem never_asleep_when_ready_byte :
    (false || (handle (.uart [0x61#32]) bootMemory).1) = true := by
  have hbyte : core.Reachable ⟨false || (handle (.uart [0x61#32]) bootMemory).1, true, .getcWait,
      (handle (.uart [0x61#32]) bootMemory).2⟩ :=
    reachable_asleep.step (e := EventRegister.Event.interrupt (.uart [0x61#32]))
      (EventRegister.Step.interrupt _ _)
  exact (never_asleep_when_ready hbyte).2.1 rfl (by decide)

end Wakeup

end MiniOs
