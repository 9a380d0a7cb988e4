/-
**Draining the hardware FIFO (`drain_rx_fifo` in `src/uart.c`).**

The handler tests a flag of the device and reads its data register until the flag says that the FIFO
is empty, which a level-triggered interrupt requires of it.  The registers of the device that it
uses are modelled here, and the loop over them is shown to receive the words of the FIFO one after
the other, as the receive path has it.  What a whole burst does then depends on two numbers only:
its length, and the room that was left in the ring.

Main definitions:

* `Uart.Device` — the registers of the device;
* `Uart.Device.drainRxFifo`, `Uart.Device.uartHandleInterrupt` — **the loop over them, and the
  handler**.

Main results:

* `Uart.Device.drainLoop_eq` — the loop empties the FIFO, and receives its words;
* `Uart.Received`, `Uart.received_drainRxFifo` — **what a burst adds**, by what one word adds;
* `Uart.burst_keeps_earliest` — the earliest bytes are kept, the others are counted.
-/

import MiniOs.UartAccounting

set_option relaxedAutoImplicit false
set_option autoImplicit false

namespace MiniOs

namespace Uart

/-! ### The device -/

/-- `UART_FR_RXFE`. -/
def uartFrRxfe : BitVec 32 := 1#32 <<< 4

/-- `UART_INT_ERROR_MASK`: the interrupts `UART_INT_FE`, `UART_INT_PE`, `UART_INT_BE` and
`UART_INT_OE`. -/
def uartIntErrorMask : BitVec 32 := 1#32 <<< 7 ||| 1#32 <<< 8 ||| 1#32 <<< 9 ||| 1#32 <<< 10

/-- The registers of the device that the handler uses. -/
structure Device where
  /-- The words in the receive FIFO, oldest first: eight data bits below four error bits. -/
  rxFifo : List (BitVec 12)
  /-- The other flags of `UART_FR`. -/
  flags : BitVec 32
  /-- `UART_MIS`, the interrupts that are pending. -/
  mis : BitVec 32
  /-- What was written last to `UART_ICR`. -/
  icr : BitVec 32
  /-- What was written last to `UART_RSR_ECR`. -/
  rsrEcr : BitVec 32

/-- Reading `UART_FR`. -/
def Device.uartFr (d : Device) : BitVec 32 :=
  (d.flags &&& ~~~uartFrRxfe) ||| (if d.rxFifo = [] then uartFrRxfe else 0)

/-- Reading `UART_DR`, which takes the oldest word from the FIFO. -/
def Device.uartDr (d : Device) : BitVec 32 × Device :=
  match d.rxFifo with
  | [] => (0, d)
  | data :: fifo => (data.setWidth 32, { d with rxFifo := fifo })

/-- The flag is clear while there are words. -/
theorem Device.uartFr_and_rxfe (d : Device) : d.uartFr &&& uartFrRxfe = 0 ↔ d.rxFifo ≠ [] := by
  have hflags : (d.flags &&& ~~~uartFrRxfe) &&& uartFrRxfe = 0 := by
    rw [BitVec.and_assoc, BitVec.and_comm (~~~uartFrRxfe), BitVec.and_not_self]
    exact BitVec.and_zero
  unfold uartFr
  by_cases h : d.rxFifo = []
  · rw [if_pos h, BitVec.and_or_distrib_right, hflags, BitVec.and_self]
    exact iff_of_false (by decide) fun hne => hne h
  · have hclear : (d.flags &&& ~~~uartFrRxfe) ||| 0 = d.flags &&& ~~~uartFrRxfe := BitVec.or_zero
    rw [if_neg h, hclear]
    exact iff_of_true hflags h

/-! ### The loop -/

/-- The loop of `drain_rx_fifo`: what it returns, the device and the ring. -/
def Device.drainLoop (received : Bool) (d : Device) (s : Rx) : Bool × Device × Rx :=
  if _h : d.uartFr &&& uartFrRxfe = 0 then
    let (stored, s) := receive d.uartDr.1 s
    drainLoop (if stored then true else received) d.uartDr.2 s
  else (received, d, s)
termination_by d.rxFifo.length
decreasing_by
  obtain ⟨data, fifo, hfifo⟩ := List.exists_cons_of_ne_nil (d.uartFr_and_rxfe.1 _h)
  simp only [uartDr, hfifo]
  exact Nat.lt_succ_self _

/-- Model of `drain_rx_fifo`. -/
def Device.drainRxFifo (d : Device) (s : Rx) : Bool × Device × Rx := d.drainLoop false s

/-- Model of `uart_handle_interrupt`: whether it issues `sev`, the device and the ring. -/
def Device.uartHandleInterrupt (d : Device) (s : Rx) : Bool × Device × Rx :=
  let pending := d.mis
  let s := { s with rxInterrupts := s.rxInterrupts + 1 }
  let d := { d with icr := pending &&& uartIntErrorMask }
  let (received, d, s) := d.drainRxFifo s
  let d := if pending &&& uartIntErrorMask ≠ 0 then { d with rsrEcr := 0 } else d
  (received, d, s)

/-- The words that the data register delivers. -/
def Device.words (d : Device) : List (BitVec 32) := d.rxFifo.map (·.setWidth 32)

theorem Device.drainLoop_nil (received : Bool) {d : Device} (s : Rx) (h : d.rxFifo = []) :
    d.drainLoop received s = (received, d, s) := by
  rw [Device.drainLoop, dif_neg fun hclear => d.uartFr_and_rxfe.1 hclear h]

theorem Device.drainLoop_cons (received : Bool) {d : Device} (s : Rx) {data : BitVec 12}
    {fifo : List (BitVec 12)} (h : d.rxFifo = data :: fifo) :
    d.drainLoop received s =
      Device.drainLoop (if (receive (data.setWidth 32) s).1 then true else received)
        { d with rxFifo := fifo } (receive (data.setWidth 32) s).2 := by
  have hne : d.rxFifo ≠ [] := by
    rw [h]
    exact List.cons_ne_nil data fifo
  rw [Device.drainLoop, dif_pos (d.uartFr_and_rxfe.2 hne)]
  simp only [uartDr, h]

/-- **The loop empties the FIFO**, and receives its words one after the other. -/
theorem Device.drainLoop_eq (received : Bool) (d : Device) (s : Rx) :
    d.drainLoop received s =
      (received || (Uart.drainRxFifo d.words s).1, { d with rxFifo := [] },
        (Uart.drainRxFifo d.words s).2) := by
  unfold words
  induction hfifo : d.rxFifo generalizing d received s with
  | nil =>
      have hempty : { d with rxFifo := [] } = d := by rw [← hfifo]
      rw [drainLoop_nil received s hfifo, hempty]
      simp [Uart.drainRxFifo]
  | cons data fifo ih =>
      rw [drainLoop_cons received s hfifo, ih _ { d with rxFifo := fifo } _ rfl]
      simp only [List.map_cons, Uart.drainRxFifo]
      cases (receive (data.setWidth 32) s).1 <;> simp

theorem Device.drainRxFifo_eq (d : Device) (s : Rx) :
    d.drainRxFifo s = ((Uart.drainRxFifo d.words s).1, { d with rxFifo := [] },
      (Uart.drainRxFifo d.words s).2) := by
  rw [drainRxFifo, drainLoop_eq, Bool.false_or]

/-- The handler empties the FIFO, and answers as the receive path says. -/
theorem Device.uartHandleInterrupt_eq (d : Device) (s : Rx) :
    (d.uartHandleInterrupt s).1 = (Uart.uartHandleInterrupt d.words s).1 ∧
      (d.uartHandleInterrupt s).2.1.rxFifo = [] ∧
      (d.uartHandleInterrupt s).2.2 = (Uart.uartHandleInterrupt d.words s).2 := by
  unfold uartHandleInterrupt
  simp only [drainRxFifo_eq]
  refine ⟨rfl, ?_, rfl⟩
  split <;> rfl

/-! ### A burst of words -/

/-- Whether the driver counts a word as an error. -/
def counted (data : BitVec 32) : Bool := decide (data &&& uartDrErrorMask ≠ 0)

/-- **What receiving some words adds** to the ring and to the counters, the first `k` of them being
stored. -/
structure Received (s : Rx) (fifo : List (BitVec 32)) (k : ℕ) (t : Rx) : Prop where
  buffered : buffered t = Uart.buffered s ++ (fifo.take k).map (·.setWidth 8)
  count : count t = Uart.count s + k
  rxTail : t.rxTail = s.rxTail
  rxBytes : t.rxBytes = s.rxBytes + BitVec.ofNat 64 fifo.length
  rxOverflows : t.rxOverflows = s.rxOverflows + BitVec.ofNat 64 (fifo.length - k)
  rxErrors : t.rxErrors = s.rxErrors + BitVec.ofNat 64 (fifo.countP counted)

/-- What a push leaves alone. -/
theorem rxBufferPush_kept (value : Byte) (s : Rx) :
    (rxBufferPush value s).2.rxTail = s.rxTail ∧
      (rxBufferPush value s).2.rxErrors = s.rxErrors := by
  simp only [rxBufferPush]
  split <;> exact ⟨rfl, rfl⟩

/-- What receiving a word does to the tail and to the errors. -/
theorem receive_kept (data : BitVec 32) (s : Rx) :
    (receive data s).2.rxTail = s.rxTail ∧
      (receive data s).2.rxErrors =
        s.rxErrors + BitVec.ofNat 64 (if counted data then 1 else 0) := by
  obtain ⟨htail, herrors⟩ := rxBufferPush_kept (data.setWidth 8) { s with
    rxBytes := s.rxBytes + 1
    rxErrors := if data &&& uartDrErrorMask ≠ 0 then s.rxErrors + 1 else s.rxErrors }
  refine ⟨htail, ?_⟩
  rw [receive, herrors, counted]
  by_cases h : data &&& uartDrErrorMask ≠ 0
  · rw [if_pos h, decide_eq_true h]
    rfl
  · rw [if_neg h, decide_eq_false h]
    exact (BitVec.add_zero _).symm

/-- A word that finds room is stored. -/
theorem received_of_lt {s : Rx} (h : count s < 256) (data : BitVec 32) :
    (receive data s).1 = true ∧ Received s [data] 1 (receive data s).2 := by
  obtain ⟨c, hc, hcount, -, -, -⟩ := receive_eq_push data s
  have hstored : (receive data s).1 = true := by
    rw [hc]
    exact (push_of_lt (by rw [hcount]; exact h) _).1
  obtain ⟨hbytes, hoverflows, hcount', -⟩ := receive_of_lt h data
  obtain ⟨htail, herrors⟩ := receive_kept data s
  obtain ⟨-, -, hbuf⟩ := buffered_receive (Nat.le_of_lt h) data
  rw [hstored, if_pos rfl] at hbuf
  refine ⟨hstored, hbuf, hcount', htail, hbytes, ?_, ?_⟩
  · rw [hoverflows]
    simp
  · rw [herrors, List.countP_singleton]

/-- A word that finds the ring full is dropped. -/
theorem received_of_full {s : Rx} (h : 256 ≤ count s) (data : BitVec 32) :
    (receive data s).1 = false ∧ Received s [data] 0 (receive data s).2 := by
  obtain ⟨hbytes, hoverflows, hcount, -⟩ := receive_of_full h data
  obtain ⟨htail, herrors⟩ := receive_kept data s
  have hfull : receive data s = _ := push_of_full (s := { s with
    rxBytes := s.rxBytes + 1
    rxErrors := if data &&& uartDrErrorMask ≠ 0 then s.rxErrors + 1 else s.rxErrors })
    h (data.setWidth 8)
  refine ⟨by rw [hfull], ?_, hcount, htail, hbytes, hoverflows, ?_⟩
  · rw [hfull, List.take_zero, List.map_nil, List.append_nil]
    rfl
  · rw [herrors, List.countP_singleton]

/-- Bursts that follow each other are one burst, if the first one left room or the second one found
none. -/
theorem Received.trans {s t r : Rx} {fifo fifo' : List (BitVec 32)} {k k' : ℕ}
    (h : Received s fifo k t) (h' : Received t fifo' k' r) (hk : k ≤ fifo.length)
    (hk' : k' ≤ fifo'.length) (hroom : k = fifo.length ∨ k' = 0) :
    Received s (fifo ++ fifo') (k + k') r where
  buffered := by
    have htake : (fifo ++ fifo').take (k + k') = fifo.take k ++ fifo'.take k' := by
      rcases hroom with rfl | rfl
      · rw [List.take_length_add_append, List.take_length]
      · rw [Nat.add_zero, List.take_append_of_le_length hk, List.take_zero, List.append_nil]
    rw [h'.buffered, h.buffered, htake, List.map_append, List.append_assoc]
  count := by rw [h'.count, h.count, Nat.add_assoc]
  rxTail := h'.rxTail.trans h.rxTail
  rxBytes := by
    rw [h'.rxBytes, h.rxBytes, List.length_append, BitVec.ofNat_add, BitVec.add_assoc]
  rxOverflows := by
    have hsub : (fifo ++ fifo').length - (k + k') = (fifo.length - k) + (fifo'.length - k') := by
      rw [List.length_append]
      omega
    rw [h'.rxOverflows, h.rxOverflows, hsub, BitVec.ofNat_add, BitVec.add_assoc]
  rxErrors := by
    rw [h'.rxErrors, h.rxErrors, List.countP_append, BitVec.ofNat_add, BitVec.add_assoc]

theorem received_nil (s : Rx) : Received s [] 0 s where
  buffered := (List.append_nil _).symm
  count := rfl
  rxTail := rfl
  rxBytes := (BitVec.add_zero _).symm
  rxOverflows := (BitVec.add_zero _).symm
  rxErrors := (BitVec.add_zero _).symm

/-- **What a burst adds**: as many of its words are stored as there is room for, the first ones, and
the drain returns 1 when that is any word at all. -/
theorem received_drainRxFifo (fifo : List (BitVec 32)) (s : Rx) :
    ((drainRxFifo fifo s).1 = true ↔ 0 < min fifo.length (256 - count s)) ∧
      Received s fifo (min fifo.length (256 - count s)) (drainRxFifo fifo s).2 := by
  induction fifo generalizing s with
  | nil =>
      rw [List.length_nil, Nat.zero_min]
      exact ⟨iff_of_false Bool.false_ne_true (Nat.lt_irrefl 0), received_nil s⟩
  | cons data fifo ih =>
      obtain ⟨hstored, hrest⟩ := ih (receive data s).2
      have hfirst : (drainRxFifo (data :: fifo) s).1 =
          ((receive data s).1 || (drainRxFifo fifo (receive data s).2).1) := rfl
      have hlast : (drainRxFifo (data :: fifo) s).2 =
          (drainRxFifo fifo (receive data s).2).2 := rfl
      rw [hfirst, hlast, List.length_cons]
      rcases Nat.lt_or_ge (count s) 256 with hlt | hge
      · obtain ⟨hone, hdata⟩ := received_of_lt hlt data
        have hk : min (fifo.length + 1) (256 - count s) =
            1 + min fifo.length (256 - count (receive data s).2) := by
          rw [hdata.count]
          omega
        rw [hone, Bool.true_or, hk]
        exact ⟨iff_of_true rfl (by omega),
          hdata.trans hrest (Nat.le_refl 1) (Nat.min_le_left _ _) (.inl rfl)⟩
      · obtain ⟨hzero, hdata⟩ := received_of_full hge data
        have hnone : min fifo.length (256 - count (receive data s).2) = 0 := by
          rw [hdata.count]
          omega
        have hk : min (fifo.length + 1) (256 - count s) = 0 := by omega
        rw [hnone] at hstored hrest
        rw [hzero, Bool.false_or, hk]
        exact ⟨hstored, hdata.trans hrest (Nat.zero_le 1) (Nat.zero_le _) (.inr rfl)⟩

/-! ### The words of the FIFO -/

/-- Whether any of the bits 11 to 8 of a word is set. -/
def hasError (data : BitVec 12) : Bool := decide (data.extractLsb' 8 4 ≠ 0)

theorem getLsbD_uartDrErrorMask :
    ∀ i < 32, uartDrErrorMask.getLsbD i = decide (8 ≤ i ∧ i < 12) := by decide

/-- The driver counts the words with an error bit. -/
theorem counted_setWidth (data : BitVec 12) : counted (data.setWidth 32) = hasError data := by
  have hiff : data.setWidth 32 &&& uartDrErrorMask = 0 ↔ data.extractLsb' 8 4 = 0 := by
    constructor
    · intro h
      apply BitVec.eq_of_getLsbD_eq
      intro i hi
      have hbit := congrArg (·.getLsbD (8 + i)) h
      simp only [BitVec.getLsbD_and, BitVec.getLsbD_setWidth] at hbit
      rw [getLsbD_uartDrErrorMask _ (by omega), decide_eq_true (by omega),
        decide_eq_true (by omega), Bool.and_true, Bool.true_and] at hbit
      rw [BitVec.getLsbD_extractLsb', decide_eq_true hi, Bool.true_and, hbit]
      exact BitVec.getLsbD_zero.trans BitVec.getLsbD_zero.symm
    · intro h
      apply BitVec.eq_of_getLsbD_eq
      intro i hi
      rw [BitVec.getLsbD_and, BitVec.getLsbD_setWidth, getLsbD_uartDrErrorMask i hi]
      by_cases hrange : 8 ≤ i ∧ i < 12
      · have hbit := congrArg (·.getLsbD (i - 8)) h
        simp only [BitVec.getLsbD_extractLsb'] at hbit
        rw [decide_eq_true (by omega), Bool.true_and, Nat.add_sub_cancel' hrange.1] at hbit
        rw [hbit]
        simp
      · rw [decide_eq_false hrange, Bool.and_false]
        exact BitVec.getLsbD_zero.symm
  rw [counted, hasError, decide_eq_decide, ne_eq, ne_eq, hiff]

theorem countP_words (d : Device) : d.words.countP counted = d.rxFifo.countP hasError := by
  rw [Device.words, List.countP_map]
  exact congrFun (congrArg List.countP (funext counted_setWidth)) d.rxFifo

theorem lowBytes_words (d : Device) (k : ℕ) :
    (d.words.take k).map (·.setWidth 8) = (d.rxFifo.take k).map (·.setWidth 8) := by
  rw [Device.words, ← List.map_take, List.map_map]
  exact List.map_congr_left fun data _ => BitVec.setWidth_setWidth_of_le data (by decide)

/-- **A receive interrupt empties the FIFO and keeps the earliest bytes.**  Whatever the indices are
and however long the burst is, the loop ends with the FIFO empty; the low bytes of as many words as
there is room for stand in the ring behind what was there, in order, and the other words are dropped.
The counters say how many words came, were dropped and had an error bit.  The handler issues `sev`
just when a byte was stored. -/
theorem burst_keeps_earliest (d : Device) (s : Rx) :
    let n := d.rxFifo.length
    let k := min n (256 - count s)
    let (received, d', s') := d.drainRxFifo s
    d'.rxFifo = [] ∧
      buffered s' = buffered s ++ (d.rxFifo.take k).map (·.setWidth 8) ∧
      s'.rxBytes = s.rxBytes + BitVec.ofNat 64 n ∧
      s'.rxOverflows = s.rxOverflows + BitVec.ofNat 64 (n - k) ∧
      s'.rxErrors = s.rxErrors + BitVec.ofNat 64 (d.rxFifo.countP hasError) ∧
      s'.rxTail = s.rxTail ∧
      (received = true ↔ 0 < k) ∧
      (d.uartHandleInterrupt s).2.1.rxFifo = [] ∧
      ((d.uartHandleInterrupt s).1 = true ↔ 0 < k) := by
  have hlength : d.words.length = d.rxFifo.length := List.length_map _
  obtain ⟨hstored, hburst⟩ := received_drainRxFifo d.words s
  obtain ⟨hsev, hempty, -⟩ := d.uartHandleInterrupt_eq s
  obtain ⟨hstored', -⟩ := received_drainRxFifo d.words { s with rxInterrupts := s.rxInterrupts + 1 }
  rw [hlength] at hstored hburst hstored'
  simp only [Device.drainRxFifo_eq]
  refine ⟨trivial, ?_, ?_, hburst.rxOverflows.trans (by rw [hlength]), ?_, hburst.rxTail, hstored,
    hempty, ?_⟩
  · rw [hburst.buffered, lowBytes_words]
  · rw [hburst.rxBytes, hlength]
  · rw [hburst.rxErrors, countP_words]
  · rw [hsev]
    exact hstored'

end Uart

end MiniOs
