/-
**Sending (`uart_putc`, `uart_puts` and `uart_flush` in `src/uart.c`).**

`uart_putc` polls `UART_FR` until there is room in the FIFO of the UART, and then writes the character to
`UART_DR`.  `uart_flush` polls it until the FIFO is empty and the UART is not busy, with two reads of the
register for the two tests.  Between two accesses the UART goes on by any number of steps; the handlers
of interrupts do not send anything.  All that the kernel prints goes through these functions, so what it
prints is a list of characters to send and of flushes to wait for.

`UART_FR_BUSY` is set while a character is shifted out.  Some devices set it as soon as there is one in
the FIFO, and `uart_flush` works with them as well.

Main definitions:

* `Uart.Op`, `Uart.Sender` — what is left to do, and the device that does it;
* `Uart.uartFr` — the register that is polled;
* `Uart.sendStep` — **the program, one access of the UART at a time**.

Main results:

* `Uart.sent_step` — what one access preserves;
* `Uart.transmit_exact` — **what was printed before a flush is on the wire after it, and nothing is lost**;
* `Uart.transmit_completes` — **everything gets printed, at whatever pace the UART goes on**.
-/

import MiniOs.Console
import MiniOs.Driven
import MiniOs.Transmitter

set_option relaxedAutoImplicit false
set_option autoImplicit false

namespace MiniOs

namespace Uart

open Transmitter (pass put)

/-! ### The register -/

/-- `UART_FR_TXFF`: the FIFO is full. -/
def uartFrTxff : BitVec 32 := 1#32 <<< 5

/-- `UART_FR_BUSY`: a character is being sent. -/
def uartFrBusy : BitVec 32 := 1#32 <<< 3

/-- `UART_FR_TXFE`: the FIFO is empty. -/
def uartFrTxfe : BitVec 32 := 1#32 <<< 7

/-- What the environment decides: how far the device gets before the next access, whether it is busy
with a character that is still in the FIFO, and the other bits of the register. -/
structure Pace where
  advances : ℕ
  early : Bool
  others : BitVec 32

/-- A flag of the register. -/
def flag (mask : BitVec 32) (b : Bool) : BitVec 32 := if b then mask else 0

/-- Reading `UART_FR`; the FIFO holds up to `depth` characters. -/
def uartFr (depth : ℕ) (p : Pace) (t : Transmitter Byte) : BitVec 32 :=
  p.others &&& ~~~(uartFrTxff ||| uartFrBusy ||| uartFrTxfe) |||
    flag uartFrTxff (decide (depth ≤ t.fifo.length)) |||
    flag uartFrBusy (t.shifting.isSome || (p.early && !t.fifo.isEmpty)) |||
    flag uartFrTxfe t.fifo.isEmpty

/-- Writing `UART_DR`. -/
def uartDrWrite (depth : ℕ) (data : BitVec 32) (t : Transmitter Byte) : Transmitter Byte :=
  put depth (data.setWidth 8) t

section Flags

variable {depth : ℕ} {p : Pace} {t : Transmitter Byte}

/-- The three flags stand in bits of their own. -/
theorem flags_and {m : BitVec 32} (o : BitVec 32) (a b c : Bool)
    (hm : m = uartFrTxff ∨ m = uartFrBusy ∨ m = uartFrTxfe) :
    (o &&& ~~~(uartFrTxff ||| uartFrBusy ||| uartFrTxfe) ||| flag uartFrTxff a |||
      flag uartFrBusy b ||| flag uartFrTxfe c) &&& m =
      (flag uartFrTxff a ||| flag uartFrBusy b ||| flag uartFrTxfe c) &&& m := by
  have hnone : ~~~(uartFrTxff ||| uartFrBusy ||| uartFrTxfe) &&& m = 0#32 := by
    rcases hm with rfl | rfl | rfl <;> decide
  have hmasked : o &&& ~~~(uartFrTxff ||| uartFrBusy ||| uartFrTxfe) &&& m = 0#32 := by
    rw [BitVec.and_assoc, hnone, BitVec.and_zero]
  rw [BitVec.or_assoc, BitVec.or_assoc, BitVec.and_or_distrib_right, hmasked, BitVec.zero_or,
    BitVec.or_assoc]

theorem uartFr_txff : uartFr depth p t &&& uartFrTxff ≠ 0 ↔ depth ≤ t.fifo.length := by
  have hflags : ∀ a b c : Bool, (flag uartFrTxff a ||| flag uartFrBusy b ||| flag uartFrTxfe c) &&&
      uartFrTxff ≠ 0 ↔ a = true := by decide
  rw [uartFr, flags_and _ _ _ _ (Or.inl rfl), hflags, decide_eq_true_iff]

theorem uartFr_busy : uartFr depth p t &&& uartFrBusy ≠ 0 ↔
    (t.shifting.isSome || (p.early && !t.fifo.isEmpty)) = true := by
  have hflags : ∀ a b c : Bool, (flag uartFrTxff a ||| flag uartFrBusy b ||| flag uartFrTxfe c) &&&
      uartFrBusy ≠ 0 ↔ b = true := by decide
  rw [uartFr, flags_and _ _ _ _ (Or.inr (Or.inl rfl)), hflags]

theorem uartFr_txfe : uartFr depth p t &&& uartFrTxfe = 0 ↔ t.fifo ≠ [] := by
  have hflags : ∀ a b c : Bool, (flag uartFrTxff a ||| flag uartFrBusy b ||| flag uartFrTxfe c) &&&
      uartFrTxfe = 0 ↔ ¬ c = true := by decide
  rw [uartFr, flags_and _ _ _ _ (Or.inr (Or.inr rfl)), hflags, List.isEmpty_iff]

/-- The UART is not busy when it has nothing to do. -/
theorem not_idle_of_busy (h : uartFr depth p t &&& uartFrBusy ≠ 0) : ¬ t.Idle := by
  rintro ⟨hfifo, hshifting⟩
  rw [uartFr_busy, hfifo, hshifting, List.isEmpty_nil, Bool.not_true, Bool.and_false] at h
  exact absurd h Bool.false_ne_true

/-- The FIFO is empty and the UART is not busy just when it has nothing to do. -/
theorem idle_of_not_busy (hfifo : t.fifo = []) (h : ¬ uartFr depth p t &&& uartFrBusy ≠ 0) :
    t.Idle := by
  rw [uartFr_busy, Bool.or_eq_true, not_or] at h
  exact ⟨hfifo, Option.not_isSome_iff_eq_none.1 h.1⟩

end Flags

/-! ### The program -/

/-- A call of `uart_putc`, or of `uart_flush`. -/
inductive Op
  | putc (c : Byte)
  | flush

/-- Model of `uart_puts`. -/
def putsOps (text : List Byte) : List Op := (Console.uartPuts text).map Op.putc

/-- The characters that are sent. -/
def sentBytes (ops : List Op) : List Byte :=
  ops.flatMap fun op => match op with
    | .putc c => [c]
    | .flush => []

@[simp] theorem sentBytes_append (l m : List Op) :
    sentBytes (l ++ m) = sentBytes l ++ sentBytes m := List.flatMap_append

/-- The device, and what is left to do.  The first call may have read `UART_FR` and found room for its
character, or the FIFO empty; then it is `checked`. -/
structure Sender where
  device : Transmitter Byte
  todo : List Op
  checked : Bool

/-- Model of `uart_putc` and of `uart_flush`: **the next access of the UART**. -/
def sendStep (depth : ℕ) (p : Pace) (s : Sender) : Option Sender :=
  let t := pass p.advances s.device
  let fr := uartFr depth p t
  match s.todo, s.checked with
  | [], _ => some { s with device := t }
  | .putc _ :: _, false => some { s with device := t, checked := !decide (fr &&& uartFrTxff ≠ 0) }
  | .putc c :: todo, true => some ⟨uartDrWrite depth (c.setWidth 32) t, todo, false⟩
  | .flush :: _, false => some { s with device := t, checked := !decide (fr &&& uartFrTxfe = 0) }
  | .flush :: todo, true =>
      if fr &&& uartFrBusy ≠ 0 then some { s with device := t, checked := false }
      else some ⟨t, todo, false⟩

/-- What the next access can do, when the device has got to `t`. -/
inductive Sends (depth : ℕ) (t : Transmitter Byte) (s : Sender) : Sender → Prop
  | idle : s.todo = [] → Sends depth t s { s with device := t }
  | full {c : Byte} {todo : List Op} : s.todo = .putc c :: todo → s.checked = false →
      depth ≤ t.fifo.length → Sends depth t s ⟨t, s.todo, false⟩
  | room {c : Byte} {todo : List Op} : s.todo = .putc c :: todo → s.checked = false →
      t.fifo.length < depth → Sends depth t s ⟨t, s.todo, true⟩
  | write {c : Byte} {todo : List Op} : s.todo = .putc c :: todo → s.checked = true →
      Sends depth t s ⟨put depth c t, todo, false⟩
  | filled {todo : List Op} : s.todo = .flush :: todo → s.checked = false → t.fifo ≠ [] →
      Sends depth t s ⟨t, s.todo, false⟩
  | empty {todo : List Op} : s.todo = .flush :: todo → s.checked = false → t.fifo = [] →
      Sends depth t s ⟨t, s.todo, true⟩
  | busy {todo : List Op} : s.todo = .flush :: todo → s.checked = true → ¬ t.Idle →
      Sends depth t s ⟨t, s.todo, false⟩
  | flushed {todo : List Op} : s.todo = .flush :: todo → s.checked = true →
      (t.fifo = [] → t.Idle) → Sends depth t s ⟨t, todo, false⟩

/-- **All that one access can do**; and there always is one. -/
theorem sendStep_cases (depth : ℕ) (p : Pace) (s : Sender) :
    ∃ t, sendStep depth p s = some t ∧ Sends depth (pass p.advances s.device) s t := by
  obtain ⟨device, todo, checked⟩ := s
  cases todo with
  | nil => exact ⟨_, rfl, Sends.idle rfl⟩
  | cons op todo =>
      cases op with
      | putc c =>
          cases checked with
          | false =>
              by_cases hfull : uartFr depth p (pass p.advances device) &&& uartFrTxff ≠ 0
              · refine ⟨_, rfl, ?_⟩
                rw [decide_eq_true hfull]
                exact Sends.full rfl rfl (uartFr_txff.1 hfull)
              · refine ⟨_, rfl, ?_⟩
                rw [decide_eq_false hfull]
                exact Sends.room rfl rfl (Nat.lt_of_not_le (mt uartFr_txff.2 hfull))
          | true =>
              refine ⟨_, rfl, ?_⟩
              rw [uartDrWrite, BitVec.setWidth_setWidth_of_le c (by decide), BitVec.setWidth_eq]
              exact Sends.write rfl rfl
      | flush =>
          cases checked with
          | false =>
              by_cases hfilled : uartFr depth p (pass p.advances device) &&& uartFrTxfe = 0
              · refine ⟨_, rfl, ?_⟩
                rw [decide_eq_true hfilled]
                exact Sends.filled rfl rfl (uartFr_txfe.1 hfilled)
              · refine ⟨_, rfl, ?_⟩
                rw [decide_eq_false hfilled]
                exact Sends.empty rfl rfl (not_not.1 (mt uartFr_txfe.2 hfilled))
          | true =>
              have hstep : sendStep depth p ⟨device, .flush :: todo, true⟩ =
                  if uartFr depth p (pass p.advances device) &&& uartFrBusy ≠ 0 then
                    some ⟨pass p.advances device, .flush :: todo, false⟩
                  else some ⟨pass p.advances device, todo, false⟩ := rfl
              rw [hstep]
              by_cases hbusy : uartFr depth p (pass p.advances device) &&& uartFrBusy ≠ 0
              · rw [if_pos hbusy]
                exact ⟨_, rfl, Sends.busy rfl rfl (not_idle_of_busy hbusy)⟩
              · rw [if_neg hbusy]
                exact ⟨_, rfl, Sends.flushed rfl rfl fun hempty => idle_of_not_busy hempty hbusy⟩

/-! ### What was sent -/

variable {depth n : ℕ} {p : Pace} {env : ℕ → Pace} {s t : Sender} {start : Transmitter Byte}
  {script done : List Op}

/-- What is known once the register was read. -/
def Checked (depth : ℕ) (t : Transmitter Byte) : List Op → Prop
  | [] => True
  | .putc _ :: _ => t.fifo.length < depth
  | .flush :: _ => t.fifo = []

/-- What the device does in between does not change it. -/
theorem Checked.pass {t : Transmitter Byte} {todo : List Op} (h : Checked depth t todo) (n : ℕ) :
    Checked depth (Transmitter.pass n t) todo := by
  match todo, h with
  | [], _ => exact trivial
  | .putc _ :: _, h => exact Nat.lt_of_le_of_lt (Transmitter.length_fifo_pass n t) h
  | .flush :: _, h => exact Transmitter.fifo_pass_eq_nil h n

/-- **What was sent so far**: the device was given the characters of the calls that have returned, and
when one of them is a flush, those before it are on the wire. -/
structure Sent (depth : ℕ) (start : Transmitter Byte) (script done : List Op) (s : Sender) :
    Prop where
  script : script = done ++ s.todo
  taken : s.device.taken = start.taken ++ sentBytes done
  flushed : ∀ before, before ++ [Op.flush] <+: done →
    start.taken ++ sentBytes before <+: s.device.wire
  checked : s.checked = true → Checked depth s.device s.todo

theorem sent_start (h : s.checked = false) : Sent depth s.device s.todo [] s where
  script := rfl
  taken := (List.append_nil _).symm
  flushed before hbefore := by
    have hlen := hbefore.length_le
    simp at hlen
  checked hchecked := by
    rw [h] at hchecked
    cases hchecked

/-- A prefix that ends in a flush ends before the last call, or that one is a flush. -/
theorem prefix_concat_flush {before done : List Op} {op : Op}
    (h : before ++ [Op.flush] <+: done ++ [op]) :
    before ++ [Op.flush] <+: done ∨ (op = Op.flush ∧ before = done) := by
  rcases List.prefix_concat_iff.1 h with hsame | hbefore
  · right
    obtain ⟨hdone, hop⟩ := List.append_inj' hsame rfl
    exact ⟨(List.cons.inj hop).1.symm, hdone⟩
  · exact Or.inl hbefore

/-- The device goes on. -/
theorem Sent.pass (h : Sent depth start script done s) (n : ℕ) :
    Sent depth start script done { s with device := Transmitter.pass n s.device } where
  script := h.script
  taken := (Transmitter.pass_taken n s.device).trans h.taken
  flushed before hbefore := (h.flushed before hbefore).trans (Transmitter.wire_prefix_pass n s.device)
  checked hchecked := (h.checked hchecked).pass n

/-- A character is written. -/
theorem Sent.write (h : Sent depth start script done s) {c : Byte} {todo : List Op}
    (htodo : s.todo = .putc c :: todo) (hroom : s.device.fifo.length < depth) :
    Sent depth start script (done ++ [.putc c]) ⟨put depth c s.device, todo, false⟩ where
  script := by
    rw [h.script, htodo, List.append_assoc]
    rfl
  taken := by
    rw [Transmitter.put_taken hroom, h.taken, sentBytes_append, List.append_assoc]
    rfl
  flushed before hbefore := by
    rcases prefix_concat_flush hbefore with hearlier | ⟨hop, -⟩
    · rw [Transmitter.put_wire]
      exact h.flushed before hearlier
    · cases hop
  checked := nofun

/-- The device has nothing to do, and a flush returns. -/
theorem Sent.flush (h : Sent depth start script done s) {todo : List Op}
    (htodo : s.todo = .flush :: todo) (hidle : s.device.Idle) :
    Sent depth start script (done ++ [.flush]) ⟨s.device, todo, false⟩ where
  script := by
    rw [h.script, htodo, List.append_assoc]
    rfl
  taken := by
    rw [h.taken, sentBytes_append]
    exact congrArg _ (List.append_nil _).symm
  flushed before hbefore := by
    rcases prefix_concat_flush hbefore with hearlier | ⟨-, rfl⟩
    · exact h.flushed before hearlier
    · rw [Transmitter.wire_of_idle hidle, h.taken]
  checked := nofun

/-- **What one access preserves.** -/
theorem sent_step (h : Sent depth start script done s) (hstep : sendStep depth p s = some t) :
    ∃ done', Sent depth start script done' t := by
  obtain ⟨t', ht', hsends⟩ := sendStep_cases depth p s
  obtain rfl := Option.some_inj.1 (ht'.symm.trans hstep)
  have hpass := h.pass p.advances
  cases hsends with
  | idle _ => exact ⟨done, hpass⟩
  | full _ _ _ => exact ⟨done, hpass.script, hpass.taken, hpass.flushed, nofun⟩
  | room htodo _ hroom =>
      refine ⟨done, hpass.script, hpass.taken, hpass.flushed, fun _ => ?_⟩
      rw [htodo]
      exact hroom
  | write htodo hchecked =>
      have hroom := hpass.checked hchecked
      rw [htodo] at hroom
      exact ⟨_, hpass.write htodo hroom⟩
  | filled _ _ _ => exact ⟨done, hpass.script, hpass.taken, hpass.flushed, nofun⟩
  | empty htodo _ hempty =>
      refine ⟨done, hpass.script, hpass.taken, hpass.flushed, fun _ => ?_⟩
      rw [htodo]
      exact hempty
  | busy _ _ _ => exact ⟨done, hpass.script, hpass.taken, hpass.flushed, nofun⟩
  | flushed htodo hchecked hidle =>
      have hempty := hpass.checked hchecked
      rw [htodo] at hempty
      exact ⟨_, hpass.flush htodo (hidle hempty)⟩

theorem run_sent (h : Driven.run (sendStep depth) env n s = some t) (hchecked : s.checked = false) :
    ∃ done, Sent depth s.device s.todo done t := by
  refine Driven.run_invariant (P := fun t => ∃ done, Sent depth s.device s.todo done t) ?_
    ⟨[], sent_start hchecked⟩ h
  rintro p u v ⟨done, hsent⟩ hstep
  exact sent_step hsent hstep

/-- A program that has ended with a flush has left the device idle. -/
theorem Sent.ended (h : Sent depth start script done s) (htodo : s.todo = []) {before : List Op}
    (hflush : script = before ++ [.flush]) :
    s.device.wire = start.taken ++ sentBytes script ∧ s.device.Idle := by
  have hdone : script = done := by rw [h.script, htodo, List.append_nil]
  have hbytes : sentBytes script = sentBytes before := by
    rw [hflush, sentBytes_append]
    exact List.append_nil _
  have htaken := h.taken
  have hwire := h.flushed before (by rw [← hdone, hflush])
  rw [← hdone] at htaken
  rw [← hbytes, ← htaken] at hwire
  have hidle := Transmitter.idle_of_wire hwire
  exact ⟨(Transmitter.wire_of_idle hidle).trans htaken, hidle⟩

/-- **What was printed before a flush is on the wire after it, and nothing is lost.**  Whatever the pace
of the UART and the depth of its FIFO, after any number of accesses the calls that have returned are the
first ones of the program, and what is on the wire, being shifted out and in the FIFO is what was there
at the start, followed by the characters of these calls.  When one of them is a flush, all before it is
on the wire. -/
theorem transmit_exact (h : Driven.run (sendStep depth) env n s = some t)
    (hchecked : s.checked = false) : ∃ done, s.todo = done ++ t.todo ∧
      t.device.wire ++ t.device.shifting.toList ++ t.device.fifo =
        s.device.taken ++ sentBytes done ∧
      ∀ before, before ++ [Op.flush] <+: done →
        s.device.taken ++ sentBytes before <+: t.device.wire := by
  obtain ⟨done, hsent⟩ := run_sent h hchecked
  exact ⟨done, hsent.script, hsent.taken, hsent.flushed⟩

/-- A UART that goes on by one step between two accesses. -/
def steady : ℕ → Pace := fun _ => ⟨1, true, 0x10#32⟩

/-- A program that prints a character and waits for it. -/
def printing : Sender := ⟨⟨[], none, []⟩, [.putc 0x61#8, .flush], false⟩

/-- After five accesses the character is on the wire. -/
theorem transmit_exact_printing : ∃ t, Driven.run (sendStep 1) steady 5 printing = some t ∧
    ∃ done, printing.todo = done ++ t.todo ∧
      t.device.wire ++ t.device.shifting.toList ++ t.device.fifo = sentBytes done := by
  have hrun : Driven.run (sendStep 1) steady 5 printing =
      some ⟨⟨[], none, [0x61#8]⟩, [], false⟩ := rfl
  obtain ⟨done, hscript, htaken, -⟩ := transmit_exact hrun rfl
  exact ⟨_, hrun, done, hscript, htaken⟩

/-! ### Everything gets printed -/

/-- The device has nothing to do, and the first call knows. -/
def Sender.Ready (s : Sender) : Prop := s.device.Idle ∧ s.checked = true

/-- What is left to do: two steps of the device for each character, and the calls. -/
def Sender.remaining (s : Sender) : ℕ :=
  s.device.work + 2 * (sentBytes s.todo).length + s.todo.length

open Classical in
/-- The variant.  A call that is ready is done with the next access. -/
noncomputable def Sender.variant (s : Sender) : ℕ := 2 * s.remaining + if s.Ready then 0 else 1

theorem Sender.variant_of_ready (h : s.Ready) : s.variant = 2 * s.remaining := by
  rw [variant, if_pos h, Nat.add_zero]

theorem Sender.variant_of_not_ready (h : ¬ s.Ready) : s.variant = 2 * s.remaining + 1 := by
  rw [variant, if_neg h]

theorem Sender.variant_le (s : Sender) : s.variant ≤ 2 * s.remaining + 1 := by
  rw [variant]
  split <;> omega

/-- Less is left to do, so the variant decreases. -/
theorem variant_lt_of_remaining (h : t.remaining < s.remaining) : t.variant < s.variant := by
  have hle := t.variant_le
  have hge : 2 * s.remaining ≤ s.variant := Nat.le_add_right _ _
  omega

/-- The device has done some of its work, and the call still goes on. -/
theorem variant_lt_of_work {d : Transmitter Byte} (h : d.work < s.device.work) (b : Bool) :
    Sender.variant ⟨d, s.todo, b⟩ < s.variant := by
  refine variant_lt_of_remaining ?_
  change d.work + 2 * (sentBytes s.todo).length + s.todo.length <
    s.device.work + 2 * (sentBytes s.todo).length + s.todo.length
  omega

/-- The call still goes on, and it has not become ready. -/
theorem variant_le_of_waits {d : Transmitter Byte} (hd : d = s.device ∨ d.work < s.device.work)
    (hs : ¬ s.Ready) (b : Bool) : Sender.variant ⟨d, s.todo, b⟩ ≤ s.variant := by
  rcases hd with rfl | hlt
  · have hle := Sender.variant_le ⟨s.device, s.todo, b⟩
    rw [Sender.variant_of_not_ready hs]
    exact hle
  · exact Nat.le_of_lt (variant_lt_of_work hlt b)

/-- **What one access does to the variant**: it is not increased, and it is decreased when the device
goes on. -/
theorem variant_step (hdepth : 0 < depth) (htodo : s.todo ≠ [])
    (hstep : sendStep depth p s = some t) :
    t.variant ≤ s.variant ∧ (0 < p.advances → t.variant < s.variant) := by
  obtain ⟨t', ht', hsends⟩ := sendStep_cases depth p s
  obtain rfl := Option.some_inj.1 (ht'.symm.trans hstep)
  have hdevice := Transmitter.pass_eq_or_work_lt p.advances s.device
  have hwork : 0 < p.advances → s.device.Idle ∨
      (pass p.advances s.device).work < s.device.work := by
    intro hpos
    by_cases hidle : s.device.Idle
    · exact Or.inl hidle
    · exact Or.inr (Transmitter.pass_work_lt hpos hidle)
  have hle : (pass p.advances s.device).work ≤ s.device.work := Transmitter.pass_work_le _ _
  have hnotready : s.checked = false → ¬ s.Ready := by
    intro hchecked hready
    rw [hready.2] at hchecked
    cases hchecked
  -- a call that becomes ready
  have hready : s.device.Idle → s.checked = false →
      Sender.variant ⟨pass p.advances s.device, s.todo, true⟩ < s.variant := by
    intro hidle hchecked
    rw [hidle.pass, Sender.variant_of_not_ready (hnotready hchecked), Sender.variant_of_ready]
    · exact Nat.lt_succ_self _
    · exact ⟨hidle, rfl⟩
  cases hsends with
  | idle hnil => exact absurd hnil htodo
  | full _ hchecked hfull =>
      refine ⟨variant_le_of_waits hdevice (hnotready hchecked) false, fun hpos => ?_⟩
      rcases hwork hpos with hidle | hlt
      · rw [hidle.pass, hidle.1] at hfull
        exact absurd hdepth (Nat.not_lt.2 hfull)
      · exact variant_lt_of_work hlt false
  | room _ hchecked _ =>
      refine ⟨variant_le_of_waits hdevice (hnotready hchecked) true, fun hpos => ?_⟩
      rcases hwork hpos with hidle | hlt
      · exact hready hidle hchecked
      · exact variant_lt_of_work hlt true
  | @write c todo hcall _ =>
      have hlt : Sender.remaining ⟨put depth c (pass p.advances s.device), todo, false⟩ <
          s.remaining := by
        have hput := Transmitter.put_work_le depth c (pass p.advances s.device)
        have hbytes : (sentBytes (.putc c :: todo)).length = (sentBytes todo).length + 1 := rfl
        change (put depth c _).work + 2 * (sentBytes todo).length + todo.length <
          s.device.work + 2 * (sentBytes s.todo).length + s.todo.length
        rw [hcall, hbytes, List.length_cons]
        omega
      have hvariant := variant_lt_of_remaining hlt
      exact ⟨Nat.le_of_lt hvariant, fun _ => hvariant⟩
  | filled _ hchecked hfilled =>
      refine ⟨variant_le_of_waits hdevice (hnotready hchecked) false, fun hpos => ?_⟩
      rcases hwork hpos with hidle | hlt
      · rw [hidle.pass] at hfilled
        exact absurd hidle.1 hfilled
      · exact variant_lt_of_work hlt false
  | empty _ hchecked _ =>
      refine ⟨variant_le_of_waits hdevice (hnotready hchecked) true, fun hpos => ?_⟩
      rcases hwork hpos with hidle | hlt
      · exact hready hidle hchecked
      · exact variant_lt_of_work hlt true
  | busy _ _ hbusy =>
      have hnotidle : ¬ s.device.Idle := by
        intro hidle
        rw [hidle.pass] at hbusy
        exact hbusy hidle
      refine ⟨variant_le_of_waits hdevice (fun hready => hnotidle hready.1) false, fun hpos => ?_⟩
      exact variant_lt_of_work ((hwork hpos).resolve_left hnotidle) false
  | @flushed todo hcall _ _ =>
      have hlt : Sender.remaining ⟨pass p.advances s.device, todo, false⟩ < s.remaining := by
        have hbytes : (sentBytes (.flush :: todo)).length = (sentBytes todo).length := rfl
        change (pass p.advances s.device).work + 2 * (sentBytes todo).length + todo.length <
          s.device.work + 2 * (sentBytes s.todo).length + s.todo.length
        rw [hcall, hbytes, List.length_cons]
        omega
      have hvariant := variant_lt_of_remaining hlt
      exact ⟨Nat.le_of_lt hvariant, fun _ => hvariant⟩

theorem completes (hdepth : 0 < depth) (hfair : Driven.Fair (fun p : Pace => 0 < p.advances) env)
    (s : Sender) : ∃ n t, Driven.run (sendStep depth) env n s = some t ∧ t.todo = [] := by
  have hstep : ∀ p s, True → s.todo ≠ [] → ∃ t, sendStep depth p s = some t ∧ True ∧
      t.variant ≤ s.variant ∧ (0 < p.advances → t.variant < s.variant) := by
    intro p s _ htodo
    obtain ⟨t, ht, -⟩ := sendStep_cases depth p s
    obtain ⟨hle, hless⟩ := variant_step hdepth htodo ht
    exact ⟨t, ht, trivial, hle, hless⟩
  obtain ⟨n, t, ht, -, hdone⟩ := hfair.reaches hstep trivial
  exact ⟨n, t, ht, hdone⟩

/-- **Everything gets printed, at whatever pace the UART goes on.**  When the UART has room for a
character and goes on again and again, with any number of accesses in between, the program gets to its
end; all its characters have been given to the UART in order, after those it had; and when the last call
is a flush they are all on the wire. -/
theorem transmit_completes (hdepth : 0 < depth)
    (hfair : Driven.Fair (fun p : Pace => 0 < p.advances) env) (hchecked : s.checked = false) :
    ∃ n t, Driven.run (sendStep depth) env n s = some t ∧ t.todo = [] ∧
      t.device.taken = s.device.taken ++ sentBytes s.todo ∧
      ∀ before, s.todo = before ++ [Op.flush] →
        t.device.wire = s.device.taken ++ sentBytes s.todo ∧ t.device.Idle := by
  obtain ⟨n, t, ht, htodo⟩ := completes hdepth hfair s
  obtain ⟨done, hsent⟩ := run_sent ht hchecked
  have hdone : s.todo = done := by rw [hsent.script, htodo, List.append_nil]
  refine ⟨n, t, ht, htodo, ?_, fun before hbefore => hsent.ended htodo hbefore⟩
  rw [hdone]
  exact hsent.taken

/-- A UART that always goes on. -/
theorem fair_steady : Driven.Fair (fun p : Pace => 0 < p.advances) steady :=
  fun i => ⟨i, Nat.le_refl i, Nat.one_pos⟩

/-- The character and the wait for it come to an end. -/
theorem transmit_completes_printing : ∃ n t, Driven.run (sendStep 1) steady n printing = some t ∧
    t.device.wire = [0x61#8] := by
  obtain ⟨n, t, ht, -, -, hflush⟩ := transmit_completes (s := printing) Nat.one_pos fair_steady rfl
  exact ⟨n, t, ht, (hflush [.putc 0x61#8] rfl).1⟩

end Uart

end MiniOs
