/-
**The receive ring is a lossless queue under interrupts.**

The shell pops bytes while interrupts push them.  The handler runs to completion between any two
accesses of a pop, also after the pop has chosen its slot and before it has published the new
tail.  A log records, beside the state of the driver, the bytes whose push returned 1 and the bytes
the pops have returned.

Main definitions:

* `Uart.Driver`, `Uart.Event`, `Uart.driver` — the shell's pops and the interrupts, interleaved;
* `Uart.Log`, `Uart.loggedDriver` — the same with the log.

Main results:

* `Uart.inv_step` — what one access or one interrupt preserves;
* `Uart.rx_ring_lossless` — **the popped bytes followed by the buffered ones are the accepted ones**,
  in every interleaving.
-/

import MiniOs.Lts
import MiniOs.UartRx

set_option relaxedAutoImplicit false
set_option autoImplicit false

namespace MiniOs

namespace Uart

/-! ### The driver under interrupts -/

/-- The static variables, and how far the shell's call of `rx_buffer_pop` has got. -/
structure Driver where
  rx : Rx
  pop : Pop

/-- What happens next. -/
inductive Event
  /-- The shell makes its next access of `rx_buffer_pop`. -/
  | access
  /-- The receive interrupt fires, and finds these words in the hardware FIFO. -/
  | interrupt (fifo : List (BitVec 32))
  /-- `uart_init` drains these words from the hardware FIFO. -/
  | uartInit (fifo : List (BitVec 32))

/-- One step of the shell, or one run of the handler. -/
inductive Step : Driver → Event → Driver → Prop
  | access (s : Driver) :
      Step s Event.access ⟨(popStep s.pop s.rx).2.1, (popStep s.pop s.rx).1⟩
  | interrupt (s : Driver) (fifo : List (BitVec 32)) :
      Step s (Event.interrupt fifo) ⟨(uartHandleInterrupt fifo s.rx).2, s.pop⟩
  | uartInit {s : Driver} (fifo : List (BitVec 32)) : s.pop = Pop.idle →
      Step s (Event.uartInit fifo) ⟨(drainRxFifo fifo s.rx).2, Pop.idle⟩

/-- **The driver under interrupts**, from boot on. -/
def driver : Lts Driver Event where
  init s := s = ⟨Rx.boot, Pop.idle⟩
  step := Step

/-- The bytes whose push returned 1, and the bytes returned by pops, each oldest first. -/
structure Log where
  accepted : List Byte
  popped : List Byte

/-- What the log adds for the end of a pop. -/
def Log.returned (log : Log) : Option PopResult → Log
  | some (PopResult.byte value) => { log with popped := log.popped ++ [value] }
  | _ => log

/-- What the log adds for an event. -/
def Log.record (log : Log) (s : Driver) (e : Event) (_ : Driver) : Log :=
  match e with
  | .access => log.returned (popStep s.pop s.rx).2.2
  | .interrupt fifo =>
      { log with
        accepted := log.accepted ++
          acceptedBytes fifo { s.rx with rxInterrupts := s.rx.rxInterrupts + 1 } }
  | .uartInit fifo => { log with accepted := log.accepted ++ acceptedBytes fifo s.rx }

/-- The driver with its log. -/
def loggedDriver : Lts (Driver × Log) Event := driver.withHistory ⟨[], []⟩ Log.record

/-! ### The invariant -/

/-- What a pop under way relies on.  The interrupts may append to the queue meanwhile, but they do
not move the tail and do not overwrite the slot the pop has chosen. -/
def PopOk (pop : Pop) (s : Rx) : Prop :=
  match pop with
  | .idle => True
  | .haveTail tail => tail = s.rxTail
  | .haveHead tail => tail = s.rxTail ∧ s.rxHead ≠ s.rxTail
  | .haveByte tail value => tail = s.rxTail ∧ (buffered s).head? = some value

/-- The popped bytes followed by the buffered ones are the accepted ones. -/
structure Inv (s : Rx) (pop : Pop) (log : Log) : Prop where
  count_le : count s ≤ 256
  accepted : log.accepted = log.popped ++ buffered s
  popOk : PopOk pop s

theorem rxHead_ne_iff (s : Rx) : s.rxHead ≠ s.rxTail ↔ buffered s ≠ [] := by
  rw [Ne, Ne, ← RingIndex.used_eq_zero_iff, ← List.length_eq_zero_iff, buffered_length]
  rfl

/-- Appending to the queue without moving the tail keeps what a pop under way relies on. -/
theorem popOk_of_append {pop : Pop} {s t : Rx} {l : List Byte} (h : PopOk pop s)
    (htail : t.rxTail = s.rxTail) (hbuf : buffered t = buffered s ++ l) : PopOk pop t := by
  cases pop with
  | idle => trivial
  | haveTail tail => exact h.trans htail.symm
  | haveHead tail =>
      refine ⟨h.1.trans htail.symm, ?_⟩
      have hne := (rxHead_ne_iff s).1 h.2
      rw [rxHead_ne_iff, hbuf]
      simp [hne]
  | haveByte tail value =>
      refine ⟨h.1.trans htail.symm, ?_⟩
      rw [hbuf, List.head?_append, h.2]
      rfl

/-- Draining words keeps the invariant, when the log adds the accepted bytes. -/
theorem inv_drain {s : Rx} {pop : Pop} {log : Log} (fifo : List (BitVec 32)) (h : Inv s pop log) :
    Inv (drainRxFifo fifo s).2 pop
      { log with accepted := log.accepted ++ acceptedBytes fifo s } := by
  obtain ⟨hle, htail, hbuf⟩ := buffered_drain fifo h.count_le
  refine ⟨hle, ?_, popOk_of_append h.popOk htail hbuf⟩
  rw [hbuf, ← List.append_assoc, ← h.accepted]

/-- One access of a pop keeps the invariant: only the last access moves the tail, and it returns
the byte at the head of the queue. -/
theorem inv_access {s : Rx} {pop : Pop} {log : Log} (h : Inv s pop log) :
    Inv (popStep pop s).2.1 (popStep pop s).1 (log.returned (popStep pop s).2.2) := by
  obtain ⟨hle, hlog, hpop⟩ := h
  cases pop with
  | idle => exact ⟨hle, hlog, rfl⟩
  | haveTail tail =>
      by_cases htail : tail = s.rxHead
      · rw [popStep, if_pos htail]
        exact ⟨hle, hlog, trivial⟩
      · rw [popStep, if_neg htail]
        have hpop' : tail = s.rxTail := hpop
        exact ⟨hle, hlog, hpop, fun heq => htail (hpop'.trans heq.symm)⟩
  | haveHead tail =>
      obtain ⟨htail, hne⟩ := hpop
      refine ⟨hle, hlog, htail, ?_⟩
      change (buffered s).head? = some (s.rxBuffer (slot tail))
      rw [(buffered_advance hne).2, htail, List.head?_cons]
  | haveByte tail value =>
      obtain ⟨htail, hhead⟩ := hpop
      have hne : s.rxHead ≠ s.rxTail := by
        rw [rxHead_ne_iff]
        intro hnil
        simp [hnil] at hhead
      obtain ⟨hcount, hbuf⟩ := buffered_advance hne
      rw [hbuf, List.head?_cons, Option.some_inj] at hhead
      rw [popStep, htail]
      refine ⟨?_, ?_, trivial⟩
      · change count { s with rxTail := s.rxTail + 1 } ≤ 256
        omega
      · change log.accepted = log.popped ++ [value] ++ buffered { s with rxTail := s.rxTail + 1 }
        rw [hlog, hbuf, hhead, List.append_assoc]
        rfl

/-- **What one step preserves**, be it an access, an interrupt or the draining of `uart_init`. -/
theorem inv_step {s t : Driver} {log : Log} {e : Event} (h : Inv s.rx s.pop log)
    (hstep : Step s e t) : Inv t.rx t.pop (log.record s e t) := by
  cases hstep with
  | access => exact inv_access h
  | interrupt fifo =>
      have h' : Inv { s.rx with rxInterrupts := s.rx.rxInterrupts + 1 } s.pop log :=
        ⟨h.count_le, h.accepted, h.popOk⟩
      exact inv_drain fifo h'
  | uartInit fifo hidle => exact inv_drain fifo (hidle ▸ h)

theorem reachable_inv {p : Driver × Log} (h : loggedDriver.Reachable p) :
    Inv p.1.rx p.1.pop p.2 := by
  refine Lts.Reachable.history_invariant (P := fun s log => Inv s.rx s.pop log) ?_ ?_ h
  · rintro s rfl
    exact ⟨by decide, by decide, trivial⟩
  · intro s log e t _ hs hstep
    exact inv_step hs hstep

/-! ### The ring is lossless -/

/-- **The receive ring loses, duplicates and alters nothing.**  In every interleaving of pops and
interrupts at most 256 bytes are buffered; the bytes returned by pops followed by the buffered ones
are the accepted ones; a pop returns 0 only when the ring is empty as it loads the head; and a push
of the handler returns 0 only when 256 bytes are buffered, and then changes neither the indices nor
the buffer. -/
theorem rx_ring_lossless {s : Driver} {log : Log} (h : loggedDriver.Reachable (s, log)) :
    (s.rx.rxHead - s.rx.rxTail).toNat ≤ 256 ∧
    log.popped <+: log.accepted ∧ log.accepted = log.popped ++ buffered s.rx ∧
    (buffered s.rx).length = (s.rx.rxHead - s.rx.rxTail).toNat ∧
    ((popStep s.pop s.rx).2.2 = some PopResult.empty →
      s.rx.rxHead = s.rx.rxTail ∧ buffered s.rx = []) ∧
    ∀ fifo value, (rxBufferPush value (drainRxFifo fifo s.rx).2).1 = false →
      (buffered (drainRxFifo fifo s.rx).2).length = 256 ∧
      (rxBufferPush value (drainRxFifo fifo s.rx).2).2.rxHead = (drainRxFifo fifo s.rx).2.rxHead ∧
      (rxBufferPush value (drainRxFifo fifo s.rx).2).2.rxTail = (drainRxFifo fifo s.rx).2.rxTail ∧
      (rxBufferPush value (drainRxFifo fifo s.rx).2).2.rxBuffer =
        (drainRxFifo fifo s.rx).2.rxBuffer := by
  obtain ⟨hle, hlog, hpop⟩ := reachable_inv h
  dsimp only at hle hlog hpop
  refine ⟨hle, ⟨buffered s.rx, hlog.symm⟩, hlog, buffered_length s.rx, ?_, ?_⟩
  · intro hempty
    have heq : s.rx.rxHead = s.rx.rxTail := by
      obtain ⟨s, pop⟩ := s
      cases pop with
      | idle => simp [popStep] at hempty
      | haveTail tail =>
          by_cases htail : tail = s.rxHead
          · exact htail.symm.trans hpop
          · simp [popStep, htail] at hempty
      | haveHead tail => simp [popStep] at hempty
      | haveByte tail value => simp [popStep] at hempty
    refine ⟨heq, ?_⟩
    by_contra hne
    exact (rxHead_ne_iff s.rx).2 hne heq
  · intro fifo value hfalse
    obtain ⟨hle', -, -⟩ := buffered_drain fifo hle
    rcases Nat.lt_or_ge (count (drainRxFifo fifo s.rx).2) 256 with hlt | hge
    · rw [(push_of_lt hlt value).1] at hfalse
      exact absurd hfalse (by simp)
    · rw [buffered_length, push_of_full hge]
      exact ⟨le_antisymm hle' hge, rfl, rfl, rfl⟩

/-- A byte that arrives while a pop has loaded only the tail is buffered, and the pop goes on to
return it. -/
theorem rx_ring_lossless_late_byte :
    (⟨[0x61#8], []⟩ : Log).accepted =
      (⟨[0x61#8], []⟩ : Log).popped ++
        buffered (uartHandleInterrupt [0x61#32] Rx.boot).2 := by
  have hboot : loggedDriver.Reachable (⟨Rx.boot, Pop.idle⟩, ⟨[], []⟩) :=
    Lts.Reachable.init ⟨rfl, rfl⟩
  have hload : loggedDriver.Reachable (⟨Rx.boot, Pop.haveTail 0⟩, ⟨[], []⟩) :=
    hboot.step (e := Event.access) ⟨Step.access _, rfl⟩
  have hlate : loggedDriver.Reachable
      (⟨(uartHandleInterrupt [0x61#32] Rx.boot).2, Pop.haveTail 0⟩, ⟨[0x61#8], []⟩) :=
    hload.step (e := Event.interrupt [0x61#32]) ⟨Step.interrupt _ _, rfl⟩
  exact (rx_ring_lossless hlate).2.2.1

end Uart

end MiniOs
