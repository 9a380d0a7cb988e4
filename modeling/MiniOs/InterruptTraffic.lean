/-
**From the wire to the shell, and no interrupt for nothing.**

Words arrive at the UART at any time, also while the handler drains its FIFO.  Each of them goes from
the FIFO into the ring of the driver and from there to the shell, in the order of arrival, unless it
finds the ring full, and then it is counted.

Each interrupt has a cause of its own.  An interrupt of the timer has come due; an interrupt of the UART
finds a word that has arrived, or withdraws an error interrupt that was raised.  So there are no more
interrupts than there are such causes, whatever the devices do.

Main definitions:

* `Irq.Delivers` — what the ring and the counters make of the words received so far;
* `Irq.Handler.excuse`, `Irq.Caused` — what an interrupt of the UART that is being handled will find.

Main results:

* `Irq.delivers_receive`, `Irq.delivers_access` — what a word and what an access of a pop preserve;
* `Irq.wire_to_shell` — **no byte is lost on the way from the wire to the shell without being counted**;
* `Irq.interrupts_bounded` — **there is no storm of interrupts**.
-/

import MiniOs.InterruptRun

set_option relaxedAutoImplicit false
set_option autoImplicit false

namespace MiniOs

namespace Irq

open Gic (Controller gicInterruptId)
open Timer (timerTicks)
open Uart (Device Rx buffered count receive drainRxFifo popStep uartIntErrorMask
  uartIntReceiveMask)

variable {b : Boot} {s t : System} {log : Log}

/-! ### Words -/

/-- **What one step preserves**: a word that has arrived is received, or still in the FIFO. -/
theorem arrived_step {e : Event} (h : log.arrived = log.received ++ s.device.rxFifo)
    (hstep : Step s e t) :
    (log.record s e t).arrived = (log.record s e t).received ++ t.device.rxFifo := by
  cases hstep with
  | count n => exact h
  | arrive words _ _ =>
      change log.arrived ++ words = log.received ++ (s.device.rxFifo ++ words)
      rw [h, List.append_assoc]
  | others _ _ _ _ => exact h
  | access _ => exact h
  | exception _ => exact h
  | acknowledge _ _ => exact h
  | handle sev hhandle =>
      simp only [Log.record, Log.handled]
      cases irqHandle_cases hhandle with
      | timer hv _ => simpa [hv] using h
      | uart hv _ => simpa [hv] using h
      | unexpected hv _ _ => simpa [hv] using h
      | clear hv =>
          simp only [hv]
          exact h
      | @word v pending received data fifo hv hfifo =>
          simp only [hv]
          rw [(readDr_of_cons hfifo).2, h, hfifo, List.head?_cons, Option.toList_some,
            List.append_assoc]
          rfl
      | drained hv hempty =>
          simp only [hv]
          simp [h, hempty]
      | ended hv => simpa [hv] using h

/-! ### Bytes -/

/-- **What the ring and the counters make of the words received so far**: the bytes popped and the bytes
buffered are those of some of the words, in order, and the others are counted. -/
structure Delivers (words : List (BitVec 12)) (popped : List Byte) (d : Uart.Driver) : Prop where
  ring : Uart.Inv d.rx d.pop ⟨popped ++ buffered d.rx, popped⟩
  sublist : (popped ++ buffered d.rx).Sublist (words.map (·.setWidth 8))
  bytes : d.rx.rxBytes = BitVec.ofNat 64 words.length
  overflows : d.rx.rxOverflows =
    BitVec.ofNat 64 (words.length - (popped ++ buffered d.rx).length)

theorem Delivers.length_le {words : List (BitVec 12)} {popped : List Byte} {d : Uart.Driver}
    (h : Delivers words popped d) : (popped ++ buffered d.rx).length ≤ words.length := by
  have hle := h.sublist.length_le
  rwa [List.length_map] at hle

/-- **What receiving a word preserves.** -/
theorem delivers_receive {words : List (BitVec 12)} {popped : List Byte} {d : Uart.Driver}
    (h : Delivers words popped d) (data : BitVec 12) :
    Delivers (words ++ [data]) popped
      { d with rx := (receive (data.setWidth 32) d.rx).2 } := by
  obtain ⟨hcount, htail, hbuf⟩ := Uart.buffered_receive h.ring.count_le (data.setWidth 32)
  have hpop := Uart.popOk_of_append h.ring.popOk htail hbuf
  have hlow : (data.setWidth 32).setWidth 8 = data.setWidth 8 :=
    BitVec.setWidth_setWidth_of_le data (by decide)
  have hle := h.length_le
  have hwords : (words ++ [data]).map (·.setWidth 8) =
      words.map (·.setWidth 8) ++ [data.setWidth 8] := List.map_append
  have hlength : ∀ {α : Type} (l : List α) (a : α), (l ++ [a]).length = l.length + 1 :=
    fun l a => List.length_append
  rcases Nat.lt_or_ge (count d.rx) 256 with hlt | hge
  · -- the word finds room
    obtain ⟨hstored, hreceived⟩ := Uart.received_of_lt hlt (data.setWidth 32)
    have hnext : popped ++ buffered (receive (data.setWidth 32) d.rx).2 =
        popped ++ buffered d.rx ++ [data.setWidth 8] := by
      rw [hbuf, hstored, if_pos rfl, hlow, List.append_assoc]
    refine ⟨⟨hcount, rfl, hpop⟩, ?_, ?_, ?_⟩
    · rw [hnext, hwords]
      exact h.sublist.append (List.Sublist.refl _)
    · change (receive (data.setWidth 32) d.rx).2.rxBytes = _
      rw [hreceived.rxBytes, h.bytes, List.length_append, BitVec.ofNat_add]
      rfl
    · change (receive (data.setWidth 32) d.rx).2.rxOverflows = _
      rw [hreceived.rxOverflows, h.overflows, hnext, hlength, hlength, Nat.add_sub_add_right]
      exact BitVec.add_zero _
  · -- the word finds the ring full
    obtain ⟨hstored, hreceived⟩ := Uart.received_of_full hge (data.setWidth 32)
    have hnext : popped ++ buffered (receive (data.setWidth 32) d.rx).2 =
        popped ++ buffered d.rx := by
      rw [hbuf, hstored, if_neg Bool.false_ne_true, List.append_nil]
    refine ⟨⟨hcount, rfl, hpop⟩, ?_, ?_, ?_⟩
    · rw [hnext, hwords]
      exact h.sublist.trans (List.sublist_append_left _ _)
    · change (receive (data.setWidth 32) d.rx).2.rxBytes = _
      rw [hreceived.rxBytes, h.bytes, List.length_append, BitVec.ofNat_add]
      rfl
    · change (receive (data.setWidth 32) d.rx).2.rxOverflows = _
      rw [hreceived.rxOverflows, h.overflows, hnext, hlength, Nat.sub_add_comm hle,
        BitVec.ofNat_add]
      rfl

theorem delivers_drain {words : List (BitVec 12)} {popped : List Byte} {d : Uart.Driver}
    (h : Delivers words popped d) (l : List (BitVec 12)) :
    Delivers (words ++ l) popped
      { d with rx := (drainRxFifo (l.map (·.setWidth 32)) d.rx).2 } := by
  induction l generalizing words d with
  | nil =>
      rw [List.append_nil]
      exact h
  | cons data l ih =>
      have hrest := ih (delivers_receive h data)
      rw [List.append_assoc] at hrest
      exact hrest

/-- **What an access of a pop preserves.** -/
theorem delivers_access {words : List (BitVec 12)} {popped : List Byte} {d : Uart.Driver}
    (h : Delivers words popped d) :
    Delivers words (popped ++ returned (popStep d.pop d.rx).2.2)
      ⟨(popStep d.pop d.rx).2.1, (popStep d.pop d.rx).1⟩ := by
  have hnext := Uart.inv_access h.ring
  have hpopped : ∀ (log : Uart.Log) result, (log.returned result).popped =
      log.popped ++ returned result := by
    intro log result
    rcases result with _ | _ | value
    · exact (List.append_nil _).symm
    · exact (List.append_nil _).symm
    · rfl
  have haccepted : ∀ (log : Uart.Log) result, (log.returned result).accepted = log.accepted := by
    intro log result
    rcases result with _ | _ | value <;> rfl
  -- a byte that leaves the ring is popped
  have hsame : popped ++ returned (popStep d.pop d.rx).2.2 ++ buffered (popStep d.pop d.rx).2.1 =
      popped ++ buffered d.rx := by
    have hmoved := hnext.accepted
    rw [haccepted, hpopped] at hmoved
    exact hmoved.symm
  have hkept : (popStep d.pop d.rx).2.1.rxBytes = d.rx.rxBytes ∧
      (popStep d.pop d.rx).2.1.rxOverflows = d.rx.rxOverflows := by
    cases d.pop with
    | idle => exact ⟨rfl, rfl⟩
    | haveTail tail =>
        rw [popStep]
        split <;> exact ⟨rfl, rfl⟩
    | haveHead tail => exact ⟨rfl, rfl⟩
    | haveByte tail value => exact ⟨rfl, rfl⟩
  refine ⟨⟨hnext.count_le, rfl, hnext.popOk⟩, ?_, ?_, ?_⟩
  · rw [hsame]
    exact h.sublist
  · exact hkept.1.trans h.bytes
  · rw [hsame]
    exact hkept.2.trans h.overflows

theorem delivers_boot (drained : List (BitVec 12)) : Delivers drained []
    ⟨(drainRxFifo (drained.map (·.setWidth 32)) Rx.boot).2, Uart.Pop.idle⟩ := by
  have hboot : Delivers [] [] ⟨Rx.boot, Uart.Pop.idle⟩ := by
    refine ⟨⟨by decide, rfl, trivial⟩, ?_, rfl, rfl⟩
    exact List.nil_sublist _
  exact delivers_drain hboot drained

/-- **What one step preserves** of the way to the shell. -/
theorem delivers_step {e : Event} (h : Delivers (b.drained ++ log.received) log.popped s.driver)
    (hstep : Step s e t) :
    Delivers (b.drained ++ (log.record s e t).received) (log.record s e t).popped t.driver := by
  cases hstep with
  | count n => exact h
  | arrive words _ _ => exact h
  | others _ _ _ _ => exact h
  | access _ => exact delivers_access h
  | exception _ => exact h
  | acknowledge _ _ => exact h
  | handle sev hhandle =>
      simp only [Log.record, Log.handled]
      cases irqHandle_cases hhandle with
      | timer hv _ => simpa [hv] using h
      | uart hv _ =>
          simp only [hv]
          exact ⟨⟨h.ring.count_le, rfl, h.ring.popOk⟩, h.sublist, h.bytes, h.overflows⟩
      | unexpected hv _ _ => simpa [hv] using h
      | clear hv => simpa [hv] using h
      | word hv hfifo =>
          simp only [hv]
          rw [hfifo, List.head?_cons, Option.toList_some, ← List.append_assoc]
          exact delivers_receive h _
      | drained hv hempty =>
          simp only [hv]
          rw [hempty, List.head?_nil, Option.toList_none, List.append_nil]
          exact h
      | ended hv => simpa [hv] using h

theorem reachable_delivers {p : System × Log} (h : (loggedSystem b).Reachable p) :
    p.2.arrived = p.2.received ++ p.1.device.rxFifo ∧
      Delivers (b.drained ++ p.2.received) p.2.popped p.1.driver := by
  refine Lts.Reachable.history_invariant (P := fun s log =>
    log.arrived = log.received ++ s.device.rxFifo ∧
      Delivers (b.drained ++ log.received) log.popped s.driver) ?_ ?_ h
  · intro s hs
    rw [hs.rxFifo, hs.driver]
    refine ⟨rfl, ?_⟩
    change Delivers (b.drained ++ []) [] _
    rw [List.append_nil]
    exact delivers_boot b.drained
  · intro s log e t _ ih hstep
    exact ⟨arrived_step ih.1 hstep, delivers_step ih.2 hstep⟩

/-- **No byte is lost on the way from the wire to the shell without being counted.**  In every
interleaving of the devices, the handler and the shell, the words that have arrived are those the
handler has received, followed by those in the FIFO.  The bytes the shell has popped, followed by those
buffered in the ring, are the low bytes of the words received, in order and without some of them;
`uart_rx_byte_count` counts the words received, and `uart_rx_overflow_count` those left out.  So when
none is left out, the shell gets the bytes exactly as they arrived.  A word arrives when it gets into the
FIFO, which is taken never to be full. -/
theorem wire_to_shell (h : (loggedSystem b).Reachable (s, log)) :
    log.arrived = log.received ++ s.device.rxFifo ∧
    (log.popped ++ buffered s.driver.rx).Sublist
      ((b.drained ++ log.received).map (·.setWidth 8)) ∧
    Uart.uartRxByteCount s.driver.rx = BitVec.ofNat 64 (b.drained ++ log.received).length ∧
    ∃ dropped, Uart.uartRxOverflowCount s.driver.rx = BitVec.ofNat 64 dropped ∧
      (log.popped ++ buffered s.driver.rx).length + dropped =
        (b.drained ++ log.received).length ∧
      (dropped = 0 → log.popped ++ buffered s.driver.rx =
        (b.drained ++ log.received).map (·.setWidth 8)) := by
  obtain ⟨harrived, hdelivers⟩ := reachable_delivers h
  have hle := hdelivers.length_le
  refine ⟨harrived, hdelivers.sublist, hdelivers.bytes, _, hdelivers.overflows,
    Nat.add_sub_cancel' hle, ?_⟩
  intro hnone
  refine hdelivers.sublist.eq_of_length ?_
  rw [List.length_map]
  omega

/-- The kernel when the letter `a` has come in and its interrupt is ended. -/
def letterSystem : System :=
  { bootSystem shortTicks with
    controller := { (bootSystem shortTicks).controller.activate 33 with
      active := ((bootSystem shortTicks).controller.activate 33).active.erase 33 }
    driver := ⟨(Uart.receive 0x61 { Uart.Rx.boot with rxInterrupts := 1 }).2, Uart.Pop.idle⟩ }

/-- The handler of the UART, from the exception to `GICC_EOIR`. -/
theorem run_letterSystem : (loggedSystem shortTicks).Run
    (bootSystem shortTicks, ⟨[], [], [], [], 0, []⟩)
    [Event.arrive [0x61] 0x10, Event.exception, Event.acknowledge 33, Event.handle, Event.handle,
      Event.handle, Event.handle, Event.handle]
    (letterSystem, ⟨[33], [33], [0x61], [0x61], 0, []⟩) := by
  have hpending : ((bootSystem shortTicks).device.arrive [0x61] 0x10).Ok :=
    ⟨by decide, fun hempty => absurd hempty (List.cons_ne_nil _ _)⟩
  refine .cons (t := (_, _)) ⟨Step.arrive [0x61] hpending (by decide), rfl⟩ ?_
  refine .cons (t := (_, _)) ⟨Step.exception rfl, rfl⟩ ?_
  refine .cons (t := (_, _)) ⟨Step.acknowledge rfl
    (acknowledges_bootSystem shortTicks (Or.inr rfl) rfl), rfl⟩ ?_
  refine .cons (t := (_, _)) ⟨Step.handle false rfl, rfl⟩ ?_
  refine .cons (t := (_, _)) ⟨Step.handle false rfl, rfl⟩ ?_
  refine .cons (t := (_, _)) ⟨Step.handle false rfl, rfl⟩ ?_
  refine .cons (t := (_, _)) ⟨Step.handle true rfl, rfl⟩ ?_
  exact .cons (t := (_, _)) ⟨Step.handle false rfl, rfl⟩ .nil

/-- The kernel when the letter has been popped, too. -/
def poppedSystem : System :=
  { letterSystem with
    driver := ⟨{ letterSystem.driver.rx with rxTail := 1 }, Uart.Pop.idle⟩ }

theorem reachable_poppedSystem : (loggedSystem shortTicks).Reachable
    (poppedSystem, ⟨[33], [33], [0x61], [0x61], 0, [0x61]⟩) := by
  have hboot : (loggedSystem shortTicks).Reachable
      (bootSystem shortTicks, ⟨[], [], [], [], 0, []⟩) :=
    Lts.Reachable.init ⟨booted_bootSystem shortTicks, rfl⟩
  have hpop : (loggedSystem shortTicks).Run (letterSystem, ⟨[33], [33], [0x61], [0x61], 0, []⟩)
      [Event.access, Event.access, Event.access, Event.access]
      (poppedSystem, ⟨[33], [33], [0x61], [0x61], 0, [0x61]⟩) := by
    refine .cons (t := (_, _)) ⟨Step.access rfl, rfl⟩ ?_
    refine .cons (t := (_, _)) ⟨Step.access rfl, rfl⟩ ?_
    refine .cons (t := (_, _)) ⟨Step.access rfl, rfl⟩ ?_
    exact .cons (t := (_, _)) ⟨Step.access rfl, rfl⟩ .nil
  exact hboot.run (run_letterSystem.append hpop)

/-- The letter is popped as it came in, and the word is counted. -/
theorem wire_to_shell_popped : ([0x61] ++ buffered poppedSystem.driver.rx).Sublist [(0x61 : Byte)] ∧
    Uart.uartRxByteCount poppedSystem.driver.rx = 1 := by
  obtain ⟨-, hsub, hbytes, -⟩ := wire_to_shell reachable_poppedSystem
  exact ⟨hsub, hbytes⟩

/-! ### Error interrupts -/

/-- A property is split by another one. -/
theorem countP_and_not_add {α : Type} (p q : α → Bool) (l : List α) :
    l.countP (fun a => p a && !q a) + l.countP (fun a => p a && q a) = l.countP p := by
  induction l with
  | nil => rfl
  | cons a l ih =>
      rw [List.countP_cons, List.countP_cons, List.countP_cons, ← ih]
      cases hp : p a <;> cases hq : q a <;> simp <;> omega

theorem errorCount_congr {x y : BitVec 32}
    (h : ∀ i, 7 ≤ i → i < 11 → x.getLsbD i = y.getLsbD i) : errorCount x = errorCount y := by
  refine List.countP_congr fun i hi => ?_
  have hrange : 7 ≤ i ∧ i < 11 := by
    simp only [List.mem_cons, List.not_mem_nil, or_false] at hi
    omega
  rw [h i hrange.1 hrange.2]

/-- Withdrawing some interrupts takes those among them from the count. -/
theorem errorCount_and_not (x v : BitVec 32) :
    errorCount (x &&& ~~~v) + errorCount (x &&& v) = errorCount x := by
  rw [errorCount, errorCount, errorCount, ← countP_and_not_add x.getLsbD v.getLsbD]
  congr 1
  · refine List.countP_congr fun i hi => ?_
    have hlt : i < 32 := by
      simp only [List.mem_cons, List.not_mem_nil, or_false] at hi
      omega
    rw [BitVec.getLsbD_and, BitVec.getLsbD_not, decide_eq_true hlt, Bool.true_and]
  · refine List.countP_congr fun i _ => ?_
    rw [BitVec.getLsbD_and]

theorem getLsbD_uartIntErrorMask :
    ∀ i < 32, uartIntErrorMask.getLsbD i = decide (7 ≤ i ∧ i < 11) := by decide

theorem getLsbD_uartIntReceiveMask :
    ∀ i < 32, uartIntReceiveMask.getLsbD i = decide (i = 4 ∨ i = 6) := by decide

theorem errorCount_and_mask (x v : BitVec 32) :
    errorCount (x &&& (v &&& uartIntErrorMask)) = errorCount (x &&& v) := by
  refine errorCount_congr fun i hlo hhi => ?_
  rw [BitVec.getLsbD_and, BitVec.getLsbD_and, BitVec.getLsbD_and,
    getLsbD_uartIntErrorMask i (by omega), decide_eq_true ⟨hlo, hhi⟩, Bool.and_true]

/-- Withdrawing the receive interrupts leaves the error interrupts. -/
theorem errorCount_receive (x : BitVec 32) :
    errorCount (x &&& ~~~uartIntReceiveMask) = errorCount x := by
  refine errorCount_congr fun i hlo hhi => ?_
  have hother : ¬ (i = 4 ∨ i = 6) := by omega
  have hlt : i < 32 := by omega
  rw [BitVec.getLsbD_and, BitVec.getLsbD_not, getLsbD_uartIntReceiveMask i hlt,
    decide_eq_false hother, decide_eq_true hlt]
  exact Bool.and_true _

/-- An error interrupt is pending when one of the bits of the mask is set. -/
theorem errorCount_pos {x : BitVec 32} (h : x &&& uartIntErrorMask ≠ 0) : 0 < errorCount x := by
  by_contra hnone
  have hzero := List.countP_eq_zero.1 (Nat.eq_zero_of_not_pos hnone)
  refine h (BitVec.eq_of_getLsbD_eq fun i hi => ?_)
  rw [BitVec.getLsbD_and, getLsbD_uartIntErrorMask i hi]
  by_cases hrange : 7 ≤ i ∧ i < 11
  · have hbit := hzero i (by
      simp only [List.mem_cons, List.not_mem_nil, or_false]
      omega)
    rw [Bool.eq_false_of_not_eq_true hbit]
    simp
  · rw [decide_eq_false hrange, Bool.and_false]
    exact BitVec.getLsbD_zero.symm

/-- An error interrupt that is not withdrawn stays pending. -/
theorem errorBit_kept {x y : BitVec 32} (h : x &&& uartIntErrorMask &&& ~~~y = 0) {i : ℕ}
    (hlo : 7 ≤ i) (hhi : i < 11) (hx : x.getLsbD i = true) : y.getLsbD i = true := by
  have hlt : i < 32 := by omega
  have hbit := congrArg (·.getLsbD i) h
  simp only [BitVec.getLsbD_and, BitVec.getLsbD_not, getLsbD_uartIntErrorMask i hlt,
    decide_eq_true (And.intro hlo hhi), decide_eq_true hlt, hx, Bool.true_and] at hbit
  cases hy : y.getLsbD i with
  | true => rfl
  | false =>
      rw [hy] at hbit
      exact absurd hbit (by simp)

/-- Interrupts that are raised are added to the count, when no error interrupt is withdrawn. -/
theorem errorCount_raise {x y : BitVec 32} (h : x &&& uartIntErrorMask &&& ~~~y = 0) :
    errorCount y = errorCount x + errorCount (y &&& ~~~x) := by
  have hkept : errorCount (y &&& x) = errorCount x := by
    refine errorCount_congr fun i hlo hhi => ?_
    rw [BitVec.getLsbD_and]
    cases hx : x.getLsbD i with
    | false => exact Bool.and_false _
    | true => rw [errorBit_kept h hlo hhi hx, Bool.true_and]
  rw [← errorCount_and_not y x, hkept, Nat.add_comm]

theorem errorCount_and_mono {x y : BitVec 32} (h : x &&& uartIntErrorMask &&& ~~~y = 0)
    (v : BitVec 32) : errorCount (x &&& v) ≤ errorCount (y &&& v) := by
  refine List.countP_mono_left fun i hi hbit => ?_
  have hrange : 7 ≤ i ∧ i < 11 := by
    simp only [List.mem_cons, List.not_mem_nil, or_false] at hi
    omega
  rw [BitVec.getLsbD_and, Bool.and_eq_true] at hbit ⊢
  exact ⟨errorBit_kept h hrange.1 hrange.2 hbit.1, hbit.2⟩

/-- When the UART asserts its line there is a word in the FIFO, or an error interrupt. -/
theorem cause_of_mis {d : Device} (hok : d.Ok) (hmis : d.mis ≠ 0) :
    d.rxFifo ≠ [] ∨ 0 < errorCount d.mis := by
  by_contra hnone
  obtain ⟨hempty, hzero⟩ := not_or.1 hnone
  have hreceive := hok.receive (not_not.1 hempty)
  have herror : d.mis &&& uartIntErrorMask = 0 := by
    by_contra hne
    exact hzero (errorCount_pos hne)
  have hboth : d.mis &&& (uartIntReceiveMask ||| uartIntErrorMask) = 0 := by
    rw [BitVec.and_or_distrib_left, hreceive, herror]
    exact BitVec.or_zero
  refine hmis ?_
  have hsplit : d.mis = (d.mis &&& (uartIntReceiveMask ||| uartIntErrorMask)) |||
      (d.mis &&& ~~~(uartIntReceiveMask ||| uartIntErrorMask)) := by
    rw [← BitVec.and_or_distrib_left, BitVec.or_not_self]
    exact BitVec.and_allOnes.symm
  rw [hsplit, hboth, hok.masked]
  exact BitVec.or_zero

/-! ### No interrupt for nothing -/

/-- One for an interrupt of the UART that has found neither a word nor an error yet, but will. -/
def Handler.excuse (fifo : List (BitVec 12)) : Handler → ℕ
  | .acknowledged acknowledgeValue => if isUart acknowledgeValue then 1 else 0
  | .pending _ _ => 1
  | .draining _ _ _ => if fifo = [] then 0 else 1
  | _ => 0

/-- What an interrupt of the UART that is being handled will find. -/
def Caused (d : Device) : Handler → Prop
  | .acknowledged acknowledgeValue =>
      isUart acknowledgeValue = true → d.rxFifo ≠ [] ∨ 0 < errorCount d.mis
  | .pending _ pending => d.rxFifo ≠ [] ∨ 0 < errorCount (d.mis &&& pending)
  | _ => True

/-- **The interrupts of the UART against their causes**: the words received, and the error interrupts
raised and withdrawn again. -/
structure Bounded (s : System) (log : Log) : Prop where
  caused : Caused s.device s.handler
  errors : errorCount s.device.mis ≤ log.raised
  bound : log.acknowledged.countP isUart + errorCount s.device.mis ≤
    log.received.length + log.raised + s.handler.excuse s.device.rxFifo

/-- What arrives does not take away a cause. -/
theorem bounded_arrive {words : List (BitVec 12)} {mis : BitVec 32} (h : Bounded s log)
    (hkept : s.device.mis &&& uartIntErrorMask &&& ~~~mis = 0) :
    Bounded { s with device := s.device.arrive words mis } { log with
      arrived := log.arrived ++ words
      raised := log.raised + errorCount (mis &&& ~~~s.device.mis) } := by
  obtain ⟨hcaused, herrors, hbound⟩ := h
  have hraise := errorCount_raise hkept
  have hfifo : s.device.rxFifo ≠ [] → s.device.rxFifo ++ words ≠ [] :=
    fun hne hnil => hne (List.append_eq_nil_iff.1 hnil).1
  have hexcuse : s.handler.excuse s.device.rxFifo ≤
      s.handler.excuse (s.device.rxFifo ++ words) := by
    cases s.handler with
    | draining v pending received =>
        simp only [Handler.excuse]
        by_cases hempty : s.device.rxFifo = []
        · rw [if_pos hempty]
          exact Nat.zero_le _
        · rw [if_neg hempty, if_neg (hfifo hempty)]
    | _ => exact le_rfl
  refine ⟨?_, ?_, ?_⟩
  · change Caused (s.device.arrive words mis) s.handler
    cases hv : s.handler with
    | acknowledged v =>
        rw [hv] at hcaused
        intro huart
        refine (hcaused huart).imp hfifo fun hpos => ?_
        change 0 < errorCount mis
        omega
    | pending v pending =>
        rw [hv] at hcaused
        refine hcaused.imp hfifo fun hpos => ?_
        exact Nat.lt_of_lt_of_le hpos (errorCount_and_mono hkept pending)
    | _ => trivial
  · change errorCount mis ≤ _
    dsimp only
    omega
  · change log.acknowledged.countP isUart + errorCount mis ≤
      log.received.length + (log.raised + errorCount (mis &&& ~~~s.device.mis)) +
        s.handler.excuse (s.device.rxFifo ++ words)
    omega

/-- Acknowledging an interrupt of the UART means that there is a cause. -/
theorem bounded_acknowledge {v : BitVec 32} {c : Controller} (hinv : Inv b s) (h : Bounded s log)
    (hentered : s.handler = Handler.entered) (hack : s.controller.Acknowledges s.line v c) :
    Bounded { s with controller := c, handler := dispatch v }
      { log with acknowledged := log.acknowledged ++ [v] } := by
  obtain ⟨-, herrors, hbound⟩ := h
  rw [hentered] at hbound
  have hcount : (log.acknowledged ++ [v]).countP isUart =
      log.acknowledged.countP isUart + if isUart v then 1 else 0 := by
    rw [List.countP_append, List.countP_singleton]
  cases hack with
  | spurious _ hge =>
      have hother : isUart v = false := by
        by_contra huart
        have hreal := isReal_of_isUart v (Bool.eq_true_of_not_eq_false huart)
        exact absurd (of_decide_eq_true hreal) (Nat.not_lt.2 hge)
      rw [dispatch_of_ge hge]
      refine ⟨trivial, herrors, ?_⟩
      change (log.acknowledged ++ [v]).countP isUart + _ ≤ _
      rw [hcount, hother]
      exact hbound
  | interrupt hsignals _ =>
      rw [dispatch_of_lt hsignals.lt]
      refine ⟨fun huart => ?_, herrors, ?_⟩
      · have hid : gicInterruptId v = uartInterruptId := of_decide_eq_true huart
        rw [hid] at hsignals
        have hline := hinv.uartListens.pending_iff.1 hsignals.pending
        rw [line_uart] at hline
        exact cause_of_mis hinv.device (of_decide_eq_true hline)
      · change (log.acknowledged ++ [v]).countP isUart + errorCount s.device.mis ≤
          log.received.length + log.raised + if isUart v then 1 else 0
        rw [hcount]
        change _ ≤ log.received.length + log.raised + 0 at hbound
        omega

/-- Reading a word leaves the error interrupts. -/
theorem errorCount_readDr {d : Device} {data : BitVec 12} {fifo : List (BitVec 12)}
    (hfifo : d.rxFifo = data :: fifo) : errorCount d.readDr.2.mis = errorCount d.mis := by
  simp only [Device.readDr, Device.uartDr, hfifo]
  split
  · exact errorCount_receive d.mis
  · rfl

/-- **What one step of the handler preserves**: it receives a word, or withdraws an error interrupt. -/
theorem bounded_handles {sev : Bool} (h : Bounded s log) (hstep : Handles s sev t) :
    Bounded t (log.handled s) := by
  obtain ⟨hcaused, herrors, hbound⟩ := h
  cases hstep with
  | @timer v hv hid =>
      have hother : isUart v = false := decide_eq_false (by rw [hid]; decide)
      simp only [Log.handled, hv] at hbound ⊢
      refine ⟨trivial, herrors, ?_⟩
      rwa [Handler.excuse, hother] at hbound
  | @uart v hv hid =>
      have huart : isUart v = true := decide_eq_true hid
      simp only [Log.handled, hv] at hcaused hbound ⊢
      refine ⟨?_, herrors, ?_⟩
      · change _ ∨ 0 < errorCount (s.device.mis &&& s.device.mis)
        rw [BitVec.and_self]
        exact hcaused huart
      · rwa [Handler.excuse, huart] at hbound
  | @unexpected v hv _ hne =>
      have hother : isUart v = false := decide_eq_false hne
      simp only [Log.handled, hv] at hbound ⊢
      refine ⟨trivial, herrors, ?_⟩
      rwa [Handler.excuse, hother] at hbound
  | @clear v pending hv =>
      simp only [Log.handled, hv] at hcaused hbound ⊢
      -- the error interrupts that are withdrawn are those of `pending`
      have hsplit := errorCount_and_not s.device.mis (pending &&& uartIntErrorMask)
      rw [errorCount_and_mask] at hsplit
      refine ⟨trivial, ?_, ?_⟩
      · change errorCount (s.device.mis &&& ~~~(pending &&& uartIntErrorMask)) ≤ log.raised
        omega
      · change log.acknowledged.countP isUart +
          errorCount (s.device.mis &&& ~~~(pending &&& uartIntErrorMask)) ≤
            log.received.length + log.raised + if s.device.rxFifo = [] then 0 else 1
        change _ ≤ log.received.length + log.raised + 1 at hbound
        by_cases hempty : s.device.rxFifo = []
        · have hpos := hcaused.resolve_left (not_not.2 hempty)
          rw [if_pos hempty]
          omega
        · rw [if_neg hempty]
          omega
  | @word v pending received data fifo hv hfifo =>
      have hmis := errorCount_readDr hfifo
      simp only [Log.handled, hv] at hbound ⊢
      refine ⟨trivial, ?_, ?_⟩
      · rw [hmis]
        exact herrors
      · rw [Handler.excuse, hfifo, if_neg (List.cons_ne_nil _ _)] at hbound
        rw [hmis, hfifo, List.head?_cons, Option.toList_some, List.length_append]
        refine hbound.trans ?_
        rw [Nat.add_right_comm]
        exact Nat.le_add_right _ _
  | @drained v pending received hv hempty =>
      simp only [Log.handled, hv] at hbound ⊢
      rw [Handler.excuse, if_pos hempty] at hbound
      rw [hempty, List.head?_nil, Option.toList_none, List.append_nil]
      refine ⟨trivial, ?_, ?_⟩
      · simpa using herrors
      · simpa [Handler.excuse] using hbound
  | ended hv =>
      simp only [Log.handled, hv] at hbound ⊢
      exact ⟨trivial, herrors, hbound⟩

/-- **What one step preserves.** -/
theorem bounded_step {e : Event} (hinv : Inv b s) (h : Bounded s log) (hstep : Step s e t) :
    Bounded t (log.record s e t) := by
  cases hstep with
  | count n => exact ⟨h.caused, h.errors, h.bound⟩
  | arrive words _ hkept => exact bounded_arrive h hkept
  | others _ _ _ _ => exact ⟨h.caused, h.errors, h.bound⟩
  | access _ => exact ⟨h.caused, h.errors, h.bound⟩
  | exception hidle =>
      obtain ⟨-, herrors, hbound⟩ := h
      rw [hidle] at hbound
      exact ⟨trivial, herrors, hbound⟩
  | acknowledge hentered hack => exact bounded_acknowledge hinv h hentered hack
  | handle sev hhandle => exact bounded_handles h (irqHandle_cases hhandle)

theorem reachable_bounded {p : System × Log} (h : (loggedSystem b).Reachable p)
    (hroom : p.1.counter + b.interval < 2 ^ 64) : Bounded p.1 p.2 := by
  refine Lts.Reachable.history_invariant (P := fun s log =>
    s.counter + b.interval < 2 ^ 64 → Bounded s log) ?_ ?_ h hroom
  · intro s hs _
    have hzero : errorCount s.device.mis = 0 := by
      rw [hs.mis]
      decide
    refine ⟨?_, ?_, ?_⟩
    · rw [hs.handler]
      trivial
    · exact Nat.le_of_eq hzero
    · rw [hzero]
      exact Nat.zero_le _
  · intro s log e t hr ih hstep hroom
    have hle := counter_le hstep
    exact bounded_step (reachable_inv hr (by omega)) (ih (by omega)) hstep

/-- What an interrupt of the UART still has to find is there. -/
theorem bounded_le (h : Bounded s log) (harrived : log.arrived = log.received ++ s.device.rxFifo) :
    log.acknowledged.countP isUart ≤ log.arrived.length + log.raised := by
  obtain ⟨hcaused, herrors, hbound⟩ := h
  have hlength : log.arrived.length = log.received.length + s.device.rxFifo.length := by
    rw [harrived, List.length_append]
  have hword : s.device.rxFifo ≠ [] → 0 < s.device.rxFifo.length := List.length_pos_of_ne_nil
  have hexcuse : s.handler.excuse s.device.rxFifo ≤
      s.device.rxFifo.length + errorCount s.device.mis := by
    cases hv : s.handler with
    | acknowledged v =>
        rw [hv] at hcaused
        rw [Handler.excuse]
        split
        · next huart =>
            rcases hcaused huart with hne | hpos
            · have := hword hne
              omega
            · omega
        · exact Nat.zero_le _
    | pending v pending =>
        rw [hv] at hcaused
        have hsplit := errorCount_and_not s.device.mis pending
        rw [Handler.excuse]
        rcases hcaused with hne | hpos
        · have := hword hne
          omega
        · omega
    | draining v pending received =>
        rw [Handler.excuse]
        split
        · exact Nat.zero_le _
        · next hne =>
            have := hword hne
            omega
    | _ => exact Nat.zero_le _
  omega

/-- The interrupts of the timer against the ticks that have passed: one that is acknowledged and not
yet served has come due. -/
theorem timers_le {p : System × Log} (h : (loggedSystem b).Reachable p)
    (hroom : p.1.counter + b.interval < 2 ^ 64) :
    p.2.acknowledged.countP isTimer ≤ (p.1.counter - b.origin) / b.interval := by
  have hinv := reachable_inv h.fst hroom
  obtain ⟨last, horigin, hlast, hon⟩ := hinv.schedule
  have hcount := reachable_timers h hroom
  have hle : (timerTicks p.1.timer).toNat ≤ (p.1.counter - b.origin) / b.interval := by
    rw [timerTicks, hon.tickCount]
    exact Periods.ended_mono hlast
  cases hv : p.1.handler with
  | acknowledged v =>
      rw [hv, Handler.unserved] at hcount
      split at hcount
      · next htimer =>
          have hdue := hinv.due v hv (of_decide_eq_true htimer)
          have hlt := (nextDeadline_le_iff hon horigin hlast (by omega)).1 hdue
          exact hcount.trans hlt
      · exact hcount.trans hle
  | _ =>
      rw [hv] at hcount
      exact hcount.trans hle

/-- A property that is covered by two others. -/
theorem countP_le_add {α : Type} {p q r : α → Bool} {l : List α}
    (h : ∀ a ∈ l, p a = true → q a = true ∨ r a = true) :
    l.countP p ≤ l.countP q + l.countP r := by
  induction l with
  | nil => exact Nat.zero_le _
  | cons a l ih =>
      obtain ⟨ha, hl⟩ := List.forall_mem_cons.1 h
      have hrest := ih hl
      rw [List.countP_cons, List.countP_cons, List.countP_cons]
      cases hp : p a with
      | false =>
          rw [if_neg Bool.false_ne_true]
          omega
      | true =>
          rcases ha hp with hq | hr
          · rw [hq, if_pos rfl]
            omega
          · rw [hr, if_pos rfl]
            omega

/-- Where nothing else is enabled, the interrupts acknowledged are at most as many as their causes. -/
theorem real_le (h : (loggedSystem b).Reachable (s, log))
    (hroom : s.counter + b.interval < 2 ^ 64) (hothers : OthersDisabled s) :
    log.acknowledged.countP isReal ≤
      (s.counter - b.origin) / b.interval + (log.arrived.length + log.raised) := by
  have htimer : log.acknowledged.countP isTimer ≤ (s.counter - b.origin) / b.interval :=
    timers_le h hroom
  have huart : log.acknowledged.countP isUart ≤ log.arrived.length + log.raised :=
    bounded_le (reachable_bounded h hroom) (reachable_delivers h).1
  have hexpected := reachable_expected h hothers
  have hreal : log.acknowledged.countP isReal ≤
      log.acknowledged.countP isTimer + log.acknowledged.countP isUart := by
    refine countP_le_add fun v hv hreal => ?_
    have hnot := hexpected v hv
    rw [isUnexpected, hreal, Bool.true_and] at hnot
    cases hv : isTimer v with
    | true => exact Or.inl rfl
    | false =>
        rw [hv] at hnot
        exact Or.inr (by simpa using hnot)
  omega

/-- **There is no storm of interrupts.**  At any time, in every interleaving, the interrupts of the
timer that were acknowledged are at most as many as ticks have passed since `timer_init`, and those of
the UART at most as many as words have arrived and error interrupts were raised.  Where no other
interrupt is enabled, all the interrupts together are at most as many as these causes. -/
theorem interrupts_bounded (h : (loggedSystem b).Reachable (s, log))
    (hroom : s.counter + b.interval < 2 ^ 64) :
    log.acknowledged.countP isTimer ≤ (s.counter - b.origin) / b.interval ∧
    log.acknowledged.countP isUart ≤ log.arrived.length + log.raised ∧
    (OthersDisabled s → log.ended.length ≤
      (s.counter - b.origin) / b.interval + (log.arrived.length + log.raised)) := by
  refine ⟨timers_le h hroom, bounded_le (reachable_bounded h hroom) (reachable_delivers h).1,
    fun hothers => ?_⟩
  have hreal := real_le h hroom hothers
  have hended : log.ended.length ≤ log.acknowledged.countP isReal := by
    have hbracketed : log.acknowledged.filter isReal = log.ended ++ s.handler.outstanding :=
      reachable_bracketed h
    rw [List.countP_eq_length_filter, hbracketed, List.length_append]
    exact Nat.le_add_right _ _
  omega

/-- The interrupt that has counted the first tick is paid for by this tick. -/
theorem interrupts_bounded_ticked : [30].countP isTimer ≤ (18 - 5) / 10 ∧
    [(30 : BitVec 32)].length ≤ (18 - 5) / 10 + 0 := by
  obtain ⟨htimers, -, hall⟩ := interrupts_bounded reachable_tickedSystem (by decide)
  exact ⟨htimers, hall othersDisabled_tickedSystem⟩

end Irq

end MiniOs
