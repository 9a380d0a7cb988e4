/-
**The handler always returns (`src/irq.c`).**

While `irq_handle` runs, interrupts are masked and the program waits.  The loop of `drain_rx_fifo` goes on
as long as there are words in the FIFO, and more of them may arrive meanwhile, so how long the handler
takes depends on the device.  But each word is read once, and besides that an interrupt takes four steps
at most.  So the work left is a potential: the handler lives on it, and only words and interrupts add to
it.

Main definitions:

* `Irq.work` — the steps the handler has left, if no word arrives;
* `Irq.Event.handles`, `Irq.Event.gain` — what an event takes from it, and what it adds to it.

Main results:

* `Irq.work_step` — **the potential in one step**;
* `Irq.handler_returns` — **the handler never gets stuck, and comes to its end**;
* `Irq.handler_load_bounded` — **the time spent in the handler since boot is bounded by its causes**.
-/

import MiniOs.InterruptTraffic

set_option relaxedAutoImplicit false
set_option autoImplicit false

namespace MiniOs

namespace Irq

open Gic (Controller gicInterruptId gicInterruptId_toNat)
open Lts (total)

/-! ### The work left -/

/-- The steps the handler has left when the FIFO is empty. -/
def Handler.steps : Handler → ℕ
  | .idle => 0
  | .entered => 0
  | .acknowledged _ => 4
  | .pending _ _ => 3
  | .draining _ _ _ => 2
  | .served _ => 1

/-- The steps the handler has left, if no word arrives. -/
def work (s : System) : ℕ := s.handler.steps + s.device.rxFifo.length

/-- The steps of the handler after the acknowledgement. -/
def Event.handles : Event → ℕ
  | .handle => 1
  | _ => 0

/-- The words that arrive. -/
def Event.words : Event → ℕ
  | .arrive words _ => words.length
  | _ => 0

/-- The interrupts that are acknowledged. -/
def Event.interrupts : Event → ℕ
  | .acknowledge acknowledgeValue => if isReal acknowledgeValue then 1 else 0
  | _ => 0

/-- What an event adds to the work left. -/
def Event.gain (e : Event) : ℕ := e.words + 4 * e.interrupts

variable {b : Boot} {s t : System} {log : Log}

theorem steps_dispatch (v : BitVec 32) :
    (dispatch v).steps = 4 * (Event.acknowledge v).interrupts := by
  rcases Nat.lt_or_ge (gicInterruptId v).toNat 1020 with hlt | hge
  · have hreal : isReal v = true := decide_eq_true hlt
    rw [dispatch_of_lt hlt, Event.interrupts, hreal]
    rfl
  · have hreal : isReal v = false := decide_eq_false (Nat.not_lt.2 hge)
    rw [dispatch_of_ge hge, Event.interrupts, hreal]
    rfl

/-- A step of the handler is one step of its work. -/
theorem work_handles {sev : Bool} (h : Handles s sev t) : 1 + work t ≤ work s := by
  cases h with
  | timer hv _ =>
      simp only [work, hv, Handler.steps]
      omega
  | uart hv _ =>
      simp only [work, hv, Handler.steps]
      omega
  | unexpected hv _ _ =>
      simp only [work, hv, Handler.steps]
      omega
  | clear hv =>
      simp only [work, hv, Handler.steps, Uart.Device.writeIcr]
      omega
  | word hv hfifo =>
      simp only [work, hv, Handler.steps, (readDr_of_cons hfifo).2, hfifo, List.length_cons]
      omega
  | drained hv _ =>
      simp only [work, hv, Handler.steps, Uart.Device.clearErrors_rxFifo]
      omega
  | ended hv =>
      simp only [work, hv, Handler.steps]
      omega

/-- **The potential in one step.** -/
theorem work_step {e : Event} (h : Step s e t) : e.handles + work t ≤ work s + e.gain := by
  cases h with
  | count n => exact Nat.le_of_eq (Nat.zero_add _)
  | arrive words _ _ =>
      simp only [work, Event.handles, Event.gain, Event.words, Event.interrupts,
        Uart.Device.arrive, List.length_append]
      omega
  | others _ _ _ _ => exact Nat.le_of_eq (Nat.zero_add _)
  | access _ => exact Nat.le_of_eq (Nat.zero_add _)
  | exception hidle =>
      simp only [work, hidle, Handler.steps, Event.handles]
      omega
  | @acknowledge v _ hentered _ =>
      have hsteps := steps_dispatch v
      have hbefore : s.handler.steps = 0 := by rw [hentered]; rfl
      simp only [work, Event.handles, Event.gain, Event.words]
      omega
  | handle sev hhandle => exact work_handles (irqHandle_cases hhandle)

/-! ### The next step -/

/-- The handler is never stuck between two accesses. -/
theorem exists_handle (h : s.handler ≠ Handler.idle) (h' : s.handler ≠ Handler.entered) :
    ∃ sev t, irqHandle s = some (sev, t) := by
  cases hs : irqHandle s with
  | some p => exact ⟨p.1, p.2, rfl⟩
  | none =>
      unfold irqHandle at hs
      split at hs
      · next hidle => exact absurd hidle h
      · next hentered => exact absurd hentered h'
      · dsimp only at hs
        split_ifs at hs
      · cases hs
      · split_ifs at hs
      · rw [Gic.gicEndInterrupt_eq] at hs
        cases hs

/-- Reading `GICC_IAR` always gives a value: that of a signalled interrupt with the highest priority, or
of a spurious one. -/
theorem exists_acknowledge (c : Controller) (line : ℕ → Bool) :
    ∃ v d, c.Acknowledges line v d := by
  classical
  by_cases hsome : ∃ n i, c.Signals line i ∧ (c.distributor.interrupt i).priority.toNat = n
  · obtain ⟨i, hi, hleast⟩ := Nat.find_spec hsome
    have hvalue : (gicInterruptId (BitVec.ofNat 32 i)).toNat = i := by
      have hlt := hi.lt
      rw [gicInterruptId_toNat, BitVec.toNat_ofNat]
      omega
    refine ⟨BitVec.ofNat 32 i, _, Controller.Acknowledges.interrupt ?_ ?_⟩
    · rwa [hvalue]
    · intro j hj
      rw [hvalue, BitVec.le_def, hleast]
      exact Nat.find_min' hsome ⟨j, hj, rfl⟩
  · refine ⟨1023#32, c, Controller.Acknowledges.spurious (fun i hi => ?_) (by decide)⟩
    exact hsome ⟨_, i, hi, rfl⟩

/-- A step of the handler does not take an exception. -/
theorem handler_handles {sev : Bool} (h : Handles s sev t) : t.handler ≠ Handler.entered := by
  cases h <;> exact fun h => Handler.noConfusion h

/-- After the acknowledgement the handler comes to its end when nothing else happens. -/
theorem handler_finishes (b : Boot) (n : ℕ) (hwork : work s ≤ n) (h : s.handler ≠ Handler.entered) :
    ∃ events t, (system b).Run s events t ∧ t.handler = Handler.idle ∧
      (∀ e ∈ events, e = Event.handle) ∧ events.length ≤ n := by
  induction n generalizing s with
  | zero =>
      have hsteps : s.handler.steps = 0 := Nat.eq_zero_of_add_eq_zero_right (Nat.le_zero.1 hwork)
      refine ⟨[], s, Lts.Run.nil, ?_, fun e he => absurd he List.not_mem_nil, Nat.le_refl 0⟩
      cases hs : s.handler with
      | idle => rfl
      | entered => exact absurd hs h
      | acknowledged v => rw [hs] at hsteps; exact Nat.noConfusion hsteps
      | pending v p => rw [hs] at hsteps; exact Nat.noConfusion hsteps
      | draining v p r => rw [hs] at hsteps; exact Nat.noConfusion hsteps
      | served v => rw [hs] at hsteps; exact Nat.noConfusion hsteps
  | succ n ih =>
      by_cases hidle : s.handler = Handler.idle
      · exact ⟨[], s, Lts.Run.nil, hidle, fun e he => absurd he List.not_mem_nil, Nat.zero_le _⟩
      · obtain ⟨sev, t, hstep⟩ := exists_handle hidle h
        have hcases := irqHandle_cases hstep
        have hless := work_handles hcases
        obtain ⟨events, u, hrun, hu, hevents, hlength⟩ := ih (by omega) (handler_handles hcases)
        refine ⟨Event.handle :: events, u, Lts.Run.cons (Step.handle sev hstep) hrun, hu, ?_,
          Nat.succ_le_succ hlength⟩
        exact List.forall_mem_cons.2 ⟨rfl, hevents⟩

/-! ### The main results -/

theorem total_gain (events : List Event) : total Event.gain events =
    total Event.words events + 4 * total Event.interrupts events := by
  induction events with
  | nil => rfl
  | cons e events ih =>
      simp only [total, Event.gain] at ih ⊢
      omega

/-- **The handler never gets stuck, and comes to its end.**  From any state it may go on by itself until
it has returned, in five steps and one for each word in the FIFO at most.  And in every run, whatever the
devices and the shell do in between, its steps are at most as many as it has left at the start, with one
for each word that arrives and four for each interrupt that is acknowledged. -/
theorem handler_returns (b : Boot) (s : System) :
    (∃ events t, (system b).Run s events t ∧ t.handler = Handler.idle ∧
      (∀ e ∈ events, e = Event.handle ∨ ∃ v, e = Event.acknowledge v) ∧
      events.length ≤ 5 + s.device.rxFifo.length) ∧
    ∀ events t, (system b).Run s events t → total Event.handles events ≤
      work s + total Event.words events + 4 * total Event.interrupts events := by
  constructor
  · have hle : ∀ s : System, work s ≤ 4 + s.device.rxFifo.length := by
      intro s
      refine Nat.add_le_add_right ?_ _
      cases s.handler <;> exact Nat.le_of_ble_eq_true rfl
    by_cases hentered : s.handler = Handler.entered
    · obtain ⟨v, c, hack⟩ := exists_acknowledge s.controller s.line
      have hstep := Step.acknowledge hentered hack
      have hdispatch : dispatch v ≠ Handler.entered := by
        unfold dispatch
        split_ifs <;> exact fun h => Handler.noConfusion h
      obtain ⟨events, t, hrun, hidle, hevents, hlength⟩ := handler_finishes
        (s := { s with controller := c, handler := dispatch v }) b _ (hle _) hdispatch
      refine ⟨_, t, Lts.Run.cons hstep hrun, hidle, ?_, ?_⟩
      · exact List.forall_mem_cons.2 ⟨Or.inr ⟨v, rfl⟩, fun e he => Or.inl (hevents e he)⟩
      · rw [List.length_cons]
        change events.length ≤ 4 + s.device.rxFifo.length at hlength
        omega
    · obtain ⟨events, t, hrun, hidle, hevents, hlength⟩ :=
        handler_finishes b _ (hle s) hentered
      exact ⟨events, t, hrun, hidle, fun e he => Or.inl (hevents e he), by omega⟩
  · intro events t hrun
    have hbound := Lts.Run.potential Event.handles Event.gain work (fun _ _ _ => work_step) hrun
    have hgain := total_gain events
    omega

/-- The kernel under its interrupts, with the log and the number of steps the handler has made. -/
def countedSystem (b : Boot) : Lts ((System × Log) × ℕ) Event :=
  (loggedSystem b).withHistory 0 fun n _ e _ => n + e.handles

/-- What an event adds to the work left is in the log. -/
theorem record_gain (log : Log) (s : System) (e : Event) (t : System) :
    (log.record s e t).arrived.length = log.arrived.length + e.words ∧
      (log.record s e t).acknowledged.countP isReal =
        log.acknowledged.countP isReal + e.interrupts := by
  cases e with
  | arrive words mis => exact ⟨List.length_append, rfl⟩
  | acknowledge v =>
      refine ⟨rfl, ?_⟩
      change (log.acknowledged ++ [v]).countP isReal = _
      rw [List.countP_append, List.countP_singleton]
      rfl
  | handle =>
      refine ⟨?_, congrArg _ (acknowledged_handled log s)⟩
      change (log.handled s).arrived.length = _
      unfold Log.handled
      split <;> rfl
  | count n => exact ⟨rfl, rfl⟩
  | others lines latched => exact ⟨rfl, rfl⟩
  | access => exact ⟨rfl, rfl⟩
  | exception => exact ⟨rfl, rfl⟩

/-- **What holds in every reachable state**: the steps made and the work left are paid for. -/
theorem reachable_paid {p : (System × Log) × ℕ} (h : (countedSystem b).Reachable p) :
    p.2 + work p.1.1 ≤
      p.1.2.arrived.length + 4 * p.1.2.acknowledged.countP isReal := by
  refine Lts.Reachable.history_invariant (P := fun (p : System × Log) n => n + work p.1 ≤
    p.2.arrived.length + 4 * p.2.acknowledged.countP isReal) ?_ ?_ h
  · rintro ⟨s, log⟩ ⟨hboot, rfl⟩
    have hwork : work s = 0 := by
      rw [work, hboot.handler, hboot.rxFifo]
      rfl
    dsimp only
    rw [hwork]
    exact Nat.zero_le _
  · rintro ⟨s, log⟩ n e ⟨t, log'⟩ _ ih ⟨hstep, hlog⟩
    dsimp only at hstep hlog
    subst hlog
    obtain ⟨harrived, hacknowledged⟩ := record_gain log s e t
    have hwork := work_step hstep
    dsimp only at ih ⊢
    unfold Event.gain at hwork
    rw [harrived, hacknowledged]
    omega

/-- **The time spent in the handler since boot is bounded by its causes.**  In every run from
`irq_enable` on, the steps of the handler are at most one for each word that has arrived and four for
each interrupt that was acknowledged and not spurious; and where no other interrupt is enabled, they are
at most five for each word and four for each tick that has passed and each error interrupt raised. -/
theorem handler_load_bounded {n : ℕ} (h : (countedSystem b).Reachable ((s, log), n))
    (hroom : s.counter + b.interval < 2 ^ 64) :
    n ≤ log.arrived.length + 4 * log.acknowledged.countP isReal ∧
    (OthersDisabled s →
      n ≤ 5 * log.arrived.length + 4 * ((s.counter - b.origin) / b.interval + log.raised)) := by
  have hpaid : n + work s ≤ log.arrived.length + 4 * log.acknowledged.countP isReal :=
    reachable_paid h
  refine ⟨by omega, fun hothers => ?_⟩
  have hreal := real_le h.fst hroom hothers
  omega

/-- A run of the system is one of the system that counts. -/
theorem run_counted {p q : System × Log} {l : List Event} (h : (loggedSystem b).Run p l q) (n : ℕ) :
    (countedSystem b).Run (p, n) l (q, n + Lts.total Event.handles l) := by
  induction h generalizing n with
  | nil => exact Lts.Run.nil
  | @cons p q r e l hstep _ ih =>
      have hrest := ih (n + e.handles)
      rw [Nat.add_assoc] at hrest
      exact Lts.Run.cons (t := (q, n + e.handles)) ⟨hstep, rfl⟩ hrest

/-- The handler has made two steps for the first tick, which allows four. -/
theorem handler_load_bounded_ticked : ∃ log, (countedSystem shortTicks).Reachable
    ((tickedSystem, log), 2) ∧ 2 ≤ 4 * ((18 - 5) / 10) := by
  have hboot : (countedSystem shortTicks).Reachable
      ((bootSystem shortTicks, ⟨[], [], [], [], 0, []⟩), 0) :=
    Lts.Reachable.init ⟨⟨booted_bootSystem shortTicks, rfl⟩, rfl⟩
  have hdue := hboot.step (e := Event.count 13)
    (t := ((dueSystem, ⟨[], [], [], [], 0, []⟩), 0)) ⟨⟨Step.count _ _, rfl⟩, rfl⟩
  have hticked := hdue.run (run_counted run_tickedSystem 0)
  exact ⟨_, hticked, (handler_load_bounded hticked (by decide)).2 othersDisabled_tickedSystem⟩

end Irq

end MiniOs
