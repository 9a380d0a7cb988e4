/-
**The receive path of the UART driver (`src/uart.c`).**

Received bytes travel from the hardware FIFO through the interrupt handler into a ring of 256
bytes, and from there to the shell.  The handler runs to completion on the only core, so towards
the shell it is one step; the shell's side, `rx_buffer_pop`, can be interrupted between any two of
its accesses, so it is given here as the sequence of those accesses.

Main definitions:

* `Uart.Rx` — the static variables of the receive path;
* `Uart.rxBufferPush`, `Uart.drainRxFifo`, `Uart.uartHandleInterrupt` — the side of the handler;
* `Uart.Pop`, `Uart.popStep` — the side of the shell, one access at a time;
* `Uart.buffered` — the bytes in the ring, oldest first.

Main results:

* `Uart.buffered_push_of_lt`, `Uart.push_of_full` — **a push appends a byte, or changes nothing when
  256 bytes are buffered**;
* `Uart.buffered_advance` — advancing the tail removes the oldest byte;
* `Uart.buffered_drain` — **draining the hardware FIFO appends the accepted bytes**.
-/

import MiniOs.Machine
import MiniOs.RingIndex

set_option relaxedAutoImplicit false
set_option autoImplicit false

namespace MiniOs

namespace Uart

/-! ### State -/

/-- `UART_RX_BUFFER_CAPACITY`. -/
def uartRxBufferCapacity : BitVec 32 := 256#32

/-- `UART_DR_ERROR_MASK`, the four error bits of a word read from the data register. -/
def uartDrErrorMask : BitVec 32 := 0xf00#32

/-- The static variables of the receive path. -/
structure Rx where
  rxBuffer : ℕ → Byte
  rxHead : BitVec 32
  rxTail : BitVec 32
  rxInterrupts : Word
  rxBytes : Word
  rxOverflows : Word
  rxErrors : Word
  rxHighWatermark : BitVec 32

/-- The state at boot: static variables are zero. -/
def Rx.boot : Rx where
  rxBuffer := fun _ => 0
  rxHead := 0
  rxTail := 0
  rxInterrupts := 0
  rxBytes := 0
  rxOverflows := 0
  rxErrors := 0
  rxHighWatermark := 0

/-- The position in the buffer of a free-running index. -/
def slot (index : BitVec 32) : ℕ := (index &&& (uartRxBufferCapacity - 1)).toNat

/-! ### The side of the handler -/

/-- Model of `rx_buffer_push`, which returns whether it stored the byte. -/
def rxBufferPush (value : Byte) (s : Rx) : Bool × Rx :=
  let head := s.rxHead
  let used := head - s.rxTail
  if uartRxBufferCapacity ≤ used then
    (false, { s with rxOverflows := s.rxOverflows + 1 })
  else
    (true, { s with
      rxBuffer := Function.update s.rxBuffer (slot head) value
      rxHead := head + 1
      rxHighWatermark := if s.rxHighWatermark < used + 1 then used + 1 else s.rxHighWatermark })

/-- The body of the loop of `drain_rx_fifo` on a word read from the data register: count the word,
count its error bits, and push its low byte. -/
def receive (data : BitVec 32) (s : Rx) : Bool × Rx :=
  rxBufferPush (data.setWidth 8) { s with
    rxBytes := s.rxBytes + 1
    rxErrors := if data &&& uartDrErrorMask ≠ 0 then s.rxErrors + 1 else s.rxErrors }

/-- Model of `drain_rx_fifo`: the words the hardware FIFO delivers until it is empty are received
one after the other.  Returns whether a byte was stored. -/
def drainRxFifo : List (BitVec 32) → Rx → Bool × Rx
  | [], s => (false, s)
  | data :: fifo, s =>
      let (stored, s) := receive data s
      let (received, s) := drainRxFifo fifo s
      (stored || received, s)

/-- Model of `uart_handle_interrupt` over the words the hardware FIFO delivers.  Returns whether
the handler issues `sev`. -/
def uartHandleInterrupt (fifo : List (BitVec 32)) (s : Rx) : Bool × Rx :=
  drainRxFifo fifo { s with rxInterrupts := s.rxInterrupts + 1 }

/-- The bytes of a delivery whose push returned 1, in the order of the pushes. -/
def acceptedBytes : List (BitVec 32) → Rx → List Byte
  | [], _ => []
  | data :: fifo, s =>
      let rest := acceptedBytes fifo (receive data s).2
      if (receive data s).1 then data.setWidth 8 :: rest else rest

/-! ### The side of the shell -/

/-- How far a call of `rx_buffer_pop` has got. -/
inductive Pop
  /-- No call is under way. -/
  | idle
  /-- The tail index is loaded. -/
  | haveTail (tail : BitVec 32)
  /-- The head index is loaded as well, and differs from the tail index. -/
  | haveHead (tail : BitVec 32)
  /-- The slot is read, the new tail index not yet stored. -/
  | haveByte (tail : BitVec 32) (value : Byte)

/-- What a call of `rx_buffer_pop` returns: 0, or 1 with the byte it has stored in `*value`. -/
inductive PopResult
  | empty
  | byte (value : Byte)

/-- The next access of `rx_buffer_pop`, and what the call returns when it is the last one. -/
def popStep (pop : Pop) (s : Rx) : Pop × Rx × Option PopResult :=
  match pop with
  | .idle => (.haveTail s.rxTail, s, none)
  | .haveTail tail =>
      if tail = s.rxHead then (.idle, s, some .empty) else (.haveHead tail, s, none)
  | .haveHead tail => (.haveByte tail (s.rxBuffer (slot tail)), s, none)
  | .haveByte tail value => (.idle, { s with rxTail := tail + 1 }, some (.byte value))

/-! ### The queue in the ring -/

/-- `head - tail`, the number of bytes buffered. -/
def count (s : Rx) : ℕ := RingIndex.used s.rxHead s.rxTail

/-- The bytes buffered, oldest first. -/
def buffered (s : Rx) : List Byte := RingIndex.contents 256 s.rxBuffer s.rxTail (count s)

@[simp] theorem buffered_length (s : Rx) : (buffered s).length = count s :=
  RingIndex.contents_length _ _ _

theorem capacity_dvd : 256 ∣ 2 ^ 32 := by decide

theorem slot_eq (index : BitVec 32) : slot index = RingIndex.slot 256 index := by
  have h : (uartRxBufferCapacity - 1).toNat = 2 ^ 8 - 1 := by decide
  rw [slot, BitVec.toNat_and, h, Nat.and_two_pow_sub_one_eq_mod]
  rfl

theorem capacity_le_iff (s : Rx) : uartRxBufferCapacity ≤ s.rxHead - s.rxTail ↔ 256 ≤ count s := by
  rw [BitVec.le_def]
  rfl

/-- A push that finds 256 bytes buffered **changes neither the indices nor the buffer**, and
returns 0. -/
theorem push_of_full {s : Rx} (h : 256 ≤ count s) (value : Byte) :
    rxBufferPush value s = (false, { s with rxOverflows := s.rxOverflows + 1 }) :=
  if_pos ((capacity_le_iff s).2 h)

/-- A push that finds room returns 1. -/
theorem push_of_lt {s : Rx} (h : count s < 256) (value : Byte) :
    (rxBufferPush value s).1 = true ∧
      (rxBufferPush value s).2.rxBuffer = Function.update s.rxBuffer (slot s.rxHead) value ∧
      (rxBufferPush value s).2.rxHead = s.rxHead + 1 ∧
      (rxBufferPush value s).2.rxTail = s.rxTail := by
  have hif : ¬ uartRxBufferCapacity ≤ s.rxHead - s.rxTail := by
    rw [capacity_le_iff]
    omega
  unfold rxBufferPush
  simp only [if_neg hif]
  exact ⟨trivial, trivial, trivial, trivial⟩

/-- A push that finds room **appends its byte** to the queue. -/
theorem buffered_push_of_lt {s : Rx} (h : count s < 256) (value : Byte) :
    count (rxBufferPush value s).2 = count s + 1 ∧
      buffered (rxBufferPush value s).2 = buffered s ++ [value] := by
  obtain ⟨-, hbuf, hhead, htail⟩ := push_of_lt h value
  have hcount : count (rxBufferPush value s).2 = count s + 1 := by
    rw [count, hhead, htail]
    exact RingIndex.used_succ_head (by unfold count at h; omega)
  refine ⟨hcount, ?_⟩
  have hslot : slot s.rxHead = RingIndex.slot 256 (s.rxTail + BitVec.ofNat 32 (count s)) := by
    rw [slot_eq, count, RingIndex.add_used]
  rw [buffered, hcount, hbuf, htail, hslot]
  exact RingIndex.contents_push capacity_dvd _ _ h value

/-- Advancing the tail of a ring that is not empty **removes the oldest byte** of the queue. -/
theorem buffered_advance {s : Rx} (h : s.rxHead ≠ s.rxTail) :
    count s = count { s with rxTail := s.rxTail + 1 } + 1 ∧
      buffered s = s.rxBuffer (slot s.rxTail) :: buffered { s with rxTail := s.rxTail + 1 } := by
  have hcount : count s = count { s with rxTail := s.rxTail + 1 } + 1 :=
    RingIndex.used_succ_tail h
  refine ⟨hcount, ?_⟩
  rw [buffered, hcount, RingIndex.contents_pop, slot_eq]
  rfl

/-! ### Draining the hardware FIFO -/

/-- Receiving a word appends its low byte when the push finds room, and changes nothing the queue
depends on otherwise. -/
theorem buffered_receive {s : Rx} (h : count s ≤ 256) (data : BitVec 32) :
    count (receive data s).2 ≤ 256 ∧ (receive data s).2.rxTail = s.rxTail ∧
      buffered (receive data s).2 =
        buffered s ++ (if (receive data s).1 then [data.setWidth 8] else []) := by
  -- the counters bumped before the push do not matter to the queue
  obtain ⟨c, hc⟩ : ∃ c : Rx, receive data s = rxBufferPush (data.setWidth 8) c ∧
      count c = count s ∧ buffered c = buffered s ∧ c.rxTail = s.rxTail := ⟨_, rfl, rfl, rfl, rfl⟩
  obtain ⟨hrec, hcount, hbuf, htail⟩ := hc
  rw [hrec, ← hbuf, ← htail]
  rcases Nat.lt_or_ge (count c) 256 with hlt | hge
  · obtain ⟨hpush, -, -, hpushTail⟩ := push_of_lt hlt (data.setWidth 8)
    obtain ⟨hpushCount, hpushBuf⟩ := buffered_push_of_lt hlt (data.setWidth 8)
    refine ⟨by omega, hpushTail, ?_⟩
    rw [hpushBuf, hpush, if_pos rfl]
  · rw [push_of_full hge]
    refine ⟨?_, rfl, ?_⟩
    · change count c ≤ 256
      omega
    · simp only [Bool.false_eq_true, if_false, List.append_nil]
      rfl

/-- Draining the hardware FIFO **appends the accepted bytes** to the queue, and leaves the tail
alone. -/
theorem buffered_drain (fifo : List (BitVec 32)) {s : Rx} (h : count s ≤ 256) :
    count (drainRxFifo fifo s).2 ≤ 256 ∧ (drainRxFifo fifo s).2.rxTail = s.rxTail ∧
      buffered (drainRxFifo fifo s).2 = buffered s ++ acceptedBytes fifo s := by
  induction fifo generalizing s with
  | nil => exact ⟨h, rfl, by simp [drainRxFifo, acceptedBytes]⟩
  | cons data fifo ih =>
      obtain ⟨hle, htail, hbuf⟩ := buffered_receive h data
      obtain ⟨hle', htail', hbuf'⟩ := ih hle
      refine ⟨hle', htail'.trans htail, ?_⟩
      change buffered (drainRxFifo fifo (receive data s).2).2 = _
      rw [hbuf', hbuf, acceptedBytes, List.append_assoc]
      split <;> rfl

end Uart

end MiniOs
