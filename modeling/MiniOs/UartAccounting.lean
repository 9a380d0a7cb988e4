/-
**The counters of the receive path.**

The driver counts the bytes it has received and those it has dropped, and keeps the largest number of
bytes that were ever buffered; the shell prints these.  The counters are updated in the handler, and
the indices they are about on both sides of the interrupt boundary.  A tally beside the state of the
code records what really happened: the pops that returned a byte, the bytes that arrived while the
ring was full, and the largest number of bytes buffered in any state so far, also between two pushes
of one handler.

Main definitions:

* `Uart.uartRxByteCount`, `Uart.uartRxOverflowCount`, `Uart.uartRxHighWatermark`,
  `Uart.uartRxBufferedCount` — the accessors of the file;
* `Uart.Tally`, `Uart.talliedDriver` — the driver with its tally;
* `Uart.Accounts` — **the counters agree with the tally**.

Main results:

* `Uart.accounts_receive` — what receiving one word preserves;
* `Uart.receive_accounting` — **every byte is popped, buffered or dropped**, and counted once.
-/

import MiniOs.UartFifo

set_option relaxedAutoImplicit false
set_option autoImplicit false

namespace MiniOs

namespace Uart

/-! ### The accessors -/

/-- Model of `uart_rx_byte_count`. -/
def uartRxByteCount (s : Rx) : Word := s.rxBytes

/-- Model of `uart_rx_overflow_count`. -/
def uartRxOverflowCount (s : Rx) : Word := s.rxOverflows

/-- Model of `uart_rx_high_watermark`. -/
def uartRxHighWatermark (s : Rx) : BitVec 32 := s.rxHighWatermark

/-- Model of `uart_rx_buffered_count`. -/
def uartRxBufferedCount (s : Rx) : BitVec 32 := s.rxHead - s.rxTail

/-! ### The tally -/

/-- What really happened: the number of pops that have returned a byte, the number of bytes that
arrived while 256 bytes were buffered, and the largest number of bytes buffered so far. -/
structure Tally where
  popped : ℕ
  dropped : ℕ
  peak : ℕ

/-- The tally sees another state. -/
def Tally.see (tally : Tally) (s : Rx) : Tally := { tally with peak := max tally.peak (count s) }

/-- What the tally adds for the end of a pop. -/
def Tally.returned (tally : Tally) : Option PopResult → Tally
  | some (.byte _) => { tally with popped := tally.popped + 1 }
  | _ => tally

/-- What the tally adds for a word that arrives. -/
def Tally.arrive (tally : Tally) (data : BitVec 32) (s : Rx) : Tally :=
  Tally.see { tally with dropped := if count s = 256 then tally.dropped + 1 else tally.dropped }
    (receive data s).2

/-- What the tally adds for the words that a drain receives. -/
def Tally.drain : List (BitVec 32) → Rx → Tally → Tally
  | [], _, tally => tally
  | data :: fifo, s, tally => Tally.drain fifo (receive data s).2 (tally.arrive data s)

/-- What the tally adds for an event. -/
def Tally.record (tally : Tally) (s : Driver) (e : Event) (t : Driver) : Tally :=
  match e with
  | .access => (tally.returned (popStep s.pop s.rx).2.2).see t.rx
  | .interrupt fifo => tally.drain fifo { s.rx with rxInterrupts := s.rx.rxInterrupts + 1 }
  | .uartInit fifo => tally.drain fifo s.rx

/-- The driver with its tally. -/
def talliedDriver : Lts (Driver × Tally) Event := driver.withHistory ⟨0, 0, 0⟩ Tally.record

/-! ### The counters agree with the tally -/

/-- **The counters agree with the tally.** -/
structure Accounts (s : Rx) (tally : Tally) : Prop where
  bytes : s.rxBytes = BitVec.ofNat 64 (tally.popped + count s) + s.rxOverflows
  overflows : s.rxOverflows = BitVec.ofNat 64 tally.dropped
  highWatermark : s.rxHighWatermark.toNat = tally.peak
  count_le : count s ≤ tally.peak
  peak_le : tally.peak ≤ 256

/-- A push that finds room counts nothing, and lifts the high-water mark. -/
theorem push_counters {s : Rx} (h : count s < 256) (value : Byte) :
    (rxBufferPush value s).2.rxBytes = s.rxBytes ∧
      (rxBufferPush value s).2.rxOverflows = s.rxOverflows ∧
      (rxBufferPush value s).2.rxHighWatermark.toNat =
        max s.rxHighWatermark.toNat (count s + 1) := by
  have hroom : ¬ uartRxBufferCapacity ≤ s.rxHead - s.rxTail := by
    rw [capacity_le_iff]
    omega
  have hused : (s.rxHead - s.rxTail + 1).toNat = count s + 1 := by
    have hone : (1 : BitVec 32).toNat = 1 := rfl
    change (s.rxHead - s.rxTail).toNat < 256 at h
    rw [BitVec.toNat_add_of_lt (by rw [hone]; omega)]
    rfl
  rw [rxBufferPush]
  simp only [if_neg hroom]
  refine ⟨trivial, trivial, ?_⟩
  split
  · next hlt =>
      rw [BitVec.lt_def, hused] at hlt
      rw [hused, Nat.max_eq_right (by omega)]
  · next hle =>
      rw [BitVec.lt_def, hused] at hle
      rw [Nat.max_eq_left (by omega)]

/-- Receiving a word counts it, and pushes its byte. -/
theorem receive_eq_push (data : BitVec 32) (s : Rx) :
    ∃ c, receive data s = rxBufferPush (data.setWidth 8) c ∧ count c = count s ∧
      c.rxBytes = s.rxBytes + 1 ∧ c.rxOverflows = s.rxOverflows ∧
      c.rxHighWatermark = s.rxHighWatermark := ⟨_, rfl, rfl, rfl, rfl, rfl⟩

/-- A word that finds room is counted and buffered. -/
theorem receive_of_lt {s : Rx} (h : count s < 256) (data : BitVec 32) :
    (receive data s).2.rxBytes = s.rxBytes + 1 ∧
      (receive data s).2.rxOverflows = s.rxOverflows ∧ count (receive data s).2 = count s + 1 ∧
      (receive data s).2.rxHighWatermark.toNat = max s.rxHighWatermark.toNat (count s + 1) := by
  obtain ⟨c, hc, hcount, hbytes, hoverflows, hhigh⟩ := receive_eq_push data s
  rw [← hcount] at h
  obtain ⟨hbytes', hoverflows', hhigh'⟩ := push_counters h (data.setWidth 8)
  rw [hc, hbytes', hoverflows', hhigh', (buffered_push_of_lt h _).1, hcount, hhigh]
  exact ⟨hbytes, hoverflows, rfl, rfl⟩

/-- A word that finds the ring full is counted and dropped. -/
theorem receive_of_full {s : Rx} (h : 256 ≤ count s) (data : BitVec 32) :
    (receive data s).2.rxBytes = s.rxBytes + 1 ∧
      (receive data s).2.rxOverflows = s.rxOverflows + 1 ∧ count (receive data s).2 = count s ∧
      (receive data s).2.rxHighWatermark = s.rxHighWatermark := by
  obtain ⟨c, hc, hcount, hbytes, hoverflows, hhigh⟩ := receive_eq_push data s
  rw [← hcount] at h
  rw [hc, push_of_full h]
  exact ⟨hbytes, congrArg (· + 1) hoverflows, hcount, hhigh⟩

/-- **What receiving one word preserves.** -/
theorem accounts_receive {s : Rx} {tally : Tally} (h : Accounts s tally) (data : BitVec 32) :
    Accounts (receive data s).2 (tally.arrive data s) := by
  obtain ⟨hbytes, hoverflows, hhigh, hcount, hpeak⟩ := h
  rcases Nat.lt_or_ge (count s) 256 with hlt | hge
  · obtain ⟨hbytes', hoverflows', hcount', hhigh'⟩ := receive_of_lt hlt data
    rw [Tally.arrive, if_neg (by omega)]
    refine ⟨?_, hoverflows'.trans hoverflows, ?_, le_max_right _ _, ?_⟩
    · have hone : BitVec.ofNat 64 (tally.popped + (count s + 1)) =
          BitVec.ofNat 64 (tally.popped + count s) + 1 := BitVec.ofNat_add _ 1
      change _ = BitVec.ofNat 64 (tally.popped + count (receive data s).2) + _
      rw [hbytes', hbytes, hoverflows', hcount', hone]
      grind
    · change _ = max tally.peak (count (receive data s).2)
      rw [hhigh', hhigh, hcount']
    · change max tally.peak (count (receive data s).2) ≤ 256
      omega
  · obtain ⟨hbytes', hoverflows', hcount', hhigh'⟩ := receive_of_full hge data
    have hfull : max tally.peak (count (receive data s).2) = tally.peak := by omega
    rw [Tally.arrive, if_pos (by omega)]
    refine ⟨?_, ?_, ?_, le_max_right _ _, ?_⟩
    · change _ = BitVec.ofNat 64 (tally.popped + count (receive data s).2) + _
      rw [hbytes', hbytes, hoverflows', hcount']
      grind
    · change _ = BitVec.ofNat 64 (tally.dropped + 1)
      rw [hoverflows', hoverflows]
      exact (BitVec.ofNat_add tally.dropped 1).symm
    · change _ = max tally.peak (count (receive data s).2)
      rw [hhigh', hhigh, hfull]
    · change max tally.peak (count (receive data s).2) ≤ 256
      rw [hfull]
      exact hpeak

theorem accounts_drain {s : Rx} {tally : Tally} (fifo : List (BitVec 32)) (h : Accounts s tally) :
    Accounts (drainRxFifo fifo s).2 (tally.drain fifo s) := by
  induction fifo generalizing s tally with
  | nil => exact h
  | cons data fifo ih => exact ih (accounts_receive h data)

/-- One access of a pop moves a byte from the buffered ones to the popped ones, or changes nothing. -/
theorem accounts_access {s : Rx} {pop : Pop} {tally : Tally} (h : Accounts s tally)
    (hpop : PopOk pop s) : Accounts (popStep pop s).2.1
      ((tally.returned (popStep pop s).2.2).see (popStep pop s).2.1) := by
  have hpeak : max tally.peak (count s) = tally.peak := Nat.max_eq_left h.count_le
  have hsame : Accounts s (tally.see s) := by
    rw [Tally.see, hpeak]
    exact h
  cases pop with
  | idle => exact hsame
  | haveTail tail =>
      by_cases htail : tail = s.rxHead
      · rw [popStep, if_pos htail]
        exact hsame
      · rw [popStep, if_neg htail]
        exact hsame
  | haveHead tail => exact hsame
  | haveByte tail value =>
      obtain ⟨rfl, hhead⟩ := hpop
      have hne : s.rxHead ≠ s.rxTail := by
        rw [rxHead_ne_iff]
        intro hnil
        simp [hnil] at hhead
      have hcount := (buffered_advance hne).1
      have hle := h.count_le
      have hpeak' : max tally.peak (count { s with rxTail := s.rxTail + 1 }) = tally.peak := by
        omega
      refine ⟨?_, h.overflows, ?_, le_max_right _ _, ?_⟩
      · have hmove : tally.popped + count s =
            tally.popped + 1 + count { s with rxTail := s.rxTail + 1 } := by omega
        have hbytes := h.bytes
        rw [hmove] at hbytes
        exact hbytes
      · exact h.highWatermark.trans hpeak'.symm
      · exact hpeak'.trans_le h.peak_le

/-- **What one step preserves.** -/
theorem accounts_step {s t : Driver} {tally : Tally} {e : Event} (h : Accounts s.rx tally)
    (hpop : PopOk s.pop s.rx) (hstep : Step s e t) : Accounts t.rx (tally.record s e t) := by
  cases hstep with
  | access => exact accounts_access h hpop
  | interrupt fifo =>
      have h' : Accounts { s.rx with rxInterrupts := s.rx.rxInterrupts + 1 } tally :=
        ⟨h.bytes, h.overflows, h.highWatermark, h.count_le, h.peak_le⟩
      exact accounts_drain fifo h'
  | uartInit fifo _ => exact accounts_drain fifo h

/-- A pop under way relies on what holds, in every reachable state of the driver. -/
theorem reachable_popOk {s : Driver} (h : driver.Reachable s) : PopOk s.pop s.rx := by
  obtain ⟨log, hlog⟩ : ∃ log, loggedDriver.Reachable (s, log) := h.exists_history
  exact (reachable_inv hlog).popOk

theorem reachable_accounts {p : Driver × Tally} (h : talliedDriver.Reachable p) :
    Accounts p.1.rx p.2 := by
  refine Lts.Reachable.history_invariant (P := fun s tally => Accounts s.rx tally) ?_ ?_ h
  · rintro s rfl
    exact ⟨by decide, by decide, by decide, by decide, by decide⟩
  · intro s tally e t hr hs hstep
    exact accounts_step hs (reachable_popOk hr) hstep

/-- **Receive accounting is exact.**  In every interleaving of `uart_init`, the receive interrupts and
the pops, the bytes received are the bytes popped, the bytes buffered and the bytes dropped, as 64-bit
words; the bytes dropped are exactly those that arrived while 256 bytes were buffered; and the
high-water mark is the largest number of bytes buffered in any state so far, and at most 256. -/
theorem receive_accounting {s : Driver} {tally : Tally} (h : talliedDriver.Reachable (s, tally)) :
    uartRxByteCount s.rx = BitVec.ofNat 64 tally.popped +
      (uartRxBufferedCount s.rx).setWidth 64 + uartRxOverflowCount s.rx ∧
    uartRxOverflowCount s.rx = BitVec.ofNat 64 tally.dropped ∧
    (uartRxHighWatermark s.rx).toNat = tally.peak ∧ (uartRxHighWatermark s.rx).toNat ≤ 256 := by
  obtain ⟨hbytes, hoverflows, hhigh, -, hpeak⟩ := reachable_accounts h
  refine ⟨?_, hoverflows, hhigh, hhigh.trans_le hpeak⟩
  have hcount : (uartRxBufferedCount s.rx).setWidth 64 = BitVec.ofNat 64 (count s.rx) :=
    (BitVec.ofNat_toNat 64 _).symm
  rw [hcount, ← BitVec.ofNat_add]
  exact hbytes

/-- The state after three bytes have arrived. -/
def threeBytes : Rx := (uartHandleInterrupt [0x61#32, 0x62#32, 0x63#32] Rx.boot).2

/-- The state after the first of them was popped. -/
def twoBytes : Rx := { threeBytes with rxTail := 1 }

theorem reachable_twoBytes : talliedDriver.Reachable (⟨twoBytes, Pop.idle⟩, ⟨1, 0, 3⟩) := by
  have hboot : talliedDriver.Reachable (⟨Rx.boot, Pop.idle⟩, ⟨0, 0, 0⟩) :=
    Lts.Reachable.init ⟨rfl, rfl⟩
  have harrive : talliedDriver.Reachable (⟨threeBytes, Pop.idle⟩, ⟨0, 0, 3⟩) :=
    hboot.step (e := Event.interrupt [0x61#32, 0x62#32, 0x63#32]) ⟨Step.interrupt _ _, rfl⟩
  have htail : talliedDriver.Reachable (⟨threeBytes, Pop.haveTail 0⟩, ⟨0, 0, 3⟩) :=
    harrive.step (e := Event.access) ⟨Step.access _, rfl⟩
  have hhead : talliedDriver.Reachable (⟨threeBytes, Pop.haveHead 0⟩, ⟨0, 0, 3⟩) :=
    htail.step (e := Event.access) ⟨Step.access _, rfl⟩
  have hbyte : talliedDriver.Reachable (⟨threeBytes, Pop.haveByte 0 0x61⟩, ⟨0, 0, 3⟩) :=
    hhead.step (e := Event.access) ⟨Step.access _, rfl⟩
  exact hbyte.step (e := Event.access) ⟨Step.access _, rfl⟩

/-- Of three bytes one is popped and two are buffered, and the mark stays at three. -/
theorem receive_accounting_twoBytes : uartRxByteCount twoBytes = BitVec.ofNat 64 1 +
      (uartRxBufferedCount twoBytes).setWidth 64 + uartRxOverflowCount twoBytes ∧
    (uartRxHighWatermark twoBytes).toNat = 3 := by
  obtain ⟨hbytes, -, hhigh, -⟩ := receive_accounting reachable_twoBytes
  exact ⟨hbytes, hhigh⟩

end Uart

end MiniOs
