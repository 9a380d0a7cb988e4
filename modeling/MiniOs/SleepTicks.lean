/-
**How long `timer_sleep_ticks` waits (`src/timer.c`).**

The function waits until the tick count has grown by a number of ticks.  A tick is counted at the end
of a period of the timer, however long before that the call was made, so the first of the ticks may
be a part of a period only.  Here the counter of the timer runs beside the core, and the handler of
the timer reads it.  The counter goes on without end, and what is read are its low 64 bits; what is
said about a call is said as long as the deadline it waits for is one the timer can be armed for.

Main definitions:

* `SleepTicks.sleepCall` — **a call of `timer_sleep_ticks`** under the interrupts of both devices,
  with the counter;
* `SleepTicks.Scheduled` — the timer after any schedule of interrupts;
* `SleepTicks.NeverEarly` — the call never returns early;
* `SleepTicks.Waiting` — what holds before the deadline the call waits for.

Main results:

* `SleepTicks.waiting_step` — what a step of the call preserves;
* `SleepTicks.le_return`, `SleepTicks.earliest_return` — when the call may return at the earliest, and
  that it may then;
* `SleepTicks.never_early_iff` — **which calls never return early**.
-/

import MiniOs.Wakeup

set_option relaxedAutoImplicit false
set_option autoImplicit false

namespace MiniOs

namespace SleepTicks

open EventRegister (Program)
open Timer (State interval interval_pos timerInit interrupts timerHandleInterrupt
  timerTicksPerSecond tickInterval_timerInit)
open Wakeup (Irq Point timerSleepTicks handle)

/-! ### The call -/

/-- `timer_sleep_ticks` under the interrupts of the two devices. -/
def sleeper : Program Point Wakeup.Memory Irq where
  code := timerSleepTicks
  handle := handle

/-- The core and the counter of the timer. -/
structure Timed where
  core : EventRegister.Core Point Wakeup.Memory
  counter : ℕ

/-- What happens next: the counter goes on, or something happens in the core. -/
inductive Event
  | pass (counter : ℕ)
  | core (e : EventRegister.Event Irq)

/-- One step.  The handler of the timer reads the low bits of the counter. -/
inductive Step : Timed → Event → Timed → Prop
  | pass {x : Timed} {counter : ℕ} : x.counter ≤ counter →
      Step x (.pass counter) { x with counter := counter }
  | core {x : Timed} {e : EventRegister.Event Irq} {c : EventRegister.Core Point Wakeup.Memory} :
      (∀ now, e = .interrupt (.timer now) → now = BitVec.ofNat 64 x.counter) →
      EventRegister.Step sleeper x.core e c → Step x (.core e) { x with core := c }

/-- **A call of `timer_sleep_ticks`** at a value of the counter; the event register holds anything.
The call has returned at `Point.other`. -/
def sleepCall (durationTicks : Word) (m : Wakeup.Memory) (counter : ℕ) : Lts Timed Event where
  init x := x.core.slept = false ∧ x.core.pc = .sleep durationTicks ∧ x.core.mem = m ∧
    x.counter = counter
  step := Step

/-- The timer after `timer_init`, which has read `origin`, and any interrupts that were served since,
up to a value of the counter. -/
def Scheduled (frequency origin counter : Word) (t : State) : Prop :=
  ∃ nows cntpCval cntpCtl, t = interrupts nows (timerInit frequency origin (.boot cntpCval cntpCtl)) ∧
    (origin :: (nows ++ [counter])).Pairwise (· ≤ ·)

/-- **The call never returns early**: when it has returned, the duration has passed since it was
made. -/
def NeverEarly (frequency durationTicks : Word) (m : Wakeup.Memory) (counter : ℕ) : Prop :=
  ∀ x, (sleepCall durationTicks m counter).Reachable x → x.core.pc = .other →
    counter + durationTicks.toNat * interval frequency ≤ x.counter

/-! ### The timer before the call -/

/-- The timer ticks at its frequency, and the next deadline is no more than a period away. -/
structure Armed (frequency : Word) (now : ℕ) (t : State) : Prop where
  tickInterval : t.tickInterval.toNat = interval frequency
  nextDeadline_le : t.nextDeadline.toNat ≤ now + interval frequency

theorem armed_timerInit (frequency origin : Word) (t : State) :
    Armed frequency origin.toNat (timerInit frequency origin t) := by
  have hinterval := tickInterval_timerInit frequency origin t
  refine ⟨hinterval, ?_⟩
  rw [← hinterval]
  change (origin + (timerInit frequency origin t).tickInterval).toNat ≤ _
  rw [BitVec.toNat_add]
  exact Nat.mod_le _ _

/-- An interrupt puts the deadline off by no more than the periods that have ended. -/
theorem Armed.interrupt {frequency now : Word} {before : ℕ} {t : State}
    (h : Armed frequency before t) (hle : before ≤ now.toNat) :
    Armed frequency now.toNat (timerHandleInterrupt now t) := by
  by_cases hdue : t.nextDeadline ≤ now
  · rw [timerHandleInterrupt, if_pos hdue]
    refine ⟨h.tickInterval, ?_⟩
    have hsub : (now - t.nextDeadline).toNat = now.toNat - t.nextDeadline.toNat :=
      BitVec.toNat_sub_of_le hdue
    have helapsed : ((now - t.nextDeadline) / t.tickInterval + 1).toNat ≤
        (now.toNat - t.nextDeadline.toNat) / interval frequency + 1 := by
      rw [BitVec.toNat_add, BitVec.toNat_udiv, hsub, h.tickInterval]
      exact Nat.mod_le _ _
    have hmul := Nat.mul_le_mul_right (interval frequency) helapsed
    have hwhole := Nat.div_mul_le_self (now.toNat - t.nextDeadline.toNat) (interval frequency)
    have hdue' := BitVec.le_def.1 hdue
    calc (t.nextDeadline + ((now - t.nextDeadline) / t.tickInterval + 1) * t.tickInterval).toNat
        ≤ t.nextDeadline.toNat +
            (((now - t.nextDeadline) / t.tickInterval + 1) * t.tickInterval).toNat := by
          rw [BitVec.toNat_add]
          exact Nat.mod_le _ _
      _ ≤ t.nextDeadline.toNat +
            ((now - t.nextDeadline) / t.tickInterval + 1).toNat * interval frequency := by
          rw [BitVec.toNat_mul, h.tickInterval]
          exact Nat.add_le_add_left (Nat.mod_le _ _) _
      _ ≤ now.toNat + interval frequency := by
          rw [Nat.succ_mul] at hmul
          omega
  · rw [timerHandleInterrupt, if_neg hdue]
    exact ⟨h.tickInterval, h.nextDeadline_le.trans (Nat.add_le_add_right hle _)⟩

/-- The timer is armed after any schedule of interrupts. -/
theorem Scheduled.armed {frequency origin counter : Word} {t : State}
    (h : Scheduled frequency origin counter t) : Armed frequency counter.toNat t := by
  obtain ⟨nows, cntpCval, cntpCtl, rfl, hmono⟩ := h
  have hinit := armed_timerInit frequency origin (.boot cntpCval cntpCtl)
  revert hinit hmono
  generalize timerInit frequency origin (.boot cntpCval cntpCtl) = t
  intro hmono hinit
  induction nows generalizing origin t with
  | nil =>
      have hle := BitVec.le_def.1
        (List.rel_of_pairwise_cons hmono (List.mem_singleton_self counter))
      exact ⟨hinit.tickInterval, hinit.nextDeadline_le.trans (Nat.add_le_add_right hle _)⟩
  | cons now nows ih =>
      obtain ⟨hfirst, hrest⟩ := List.pairwise_cons.1 hmono
      have hle := BitVec.le_def.1 (hfirst now List.mem_cons_self)
      exact ih (timerHandleInterrupt now t) hrest (hinit.interrupt hle)

/-! ### What a step preserves -/

/-- The timer has counted some ticks more. -/
structure Grown (t : State) (ticks : ℕ) (u : State) : Prop where
  tickInterval : u.tickInterval = t.tickInterval
  tickCount : u.tickCount = t.tickCount + BitVec.ofNat 64 ticks
  nextDeadline : u.nextDeadline.toNat = t.nextDeadline.toNat + ticks * t.tickInterval.toNat

theorem Grown.refl (t : State) : Grown t 0 t where
  tickInterval := rfl
  tickCount := (BitVec.add_zero _).symm
  nextDeadline := by rw [Nat.zero_mul, Nat.add_zero]

/-- **An interrupt before a deadline counts only the deadlines before that one.** -/
theorem Grown.interrupt {t u : State} {ticks k : ℕ} {now : Word} (h : Grown t ticks u)
    (hpos : 0 < t.tickInterval.toNat) (hle : ticks ≤ k)
    (hrange : t.nextDeadline.toNat + k * t.tickInterval.toNat < 2 ^ 64)
    (hbefore : now.toNat < t.nextDeadline.toNat + k * t.tickInterval.toNat) :
    ∃ ticks', ticks ≤ ticks' ∧ ticks' ≤ k ∧ Grown t ticks' (timerHandleInterrupt now u) := by
  by_cases hdue : u.nextDeadline ≤ now
  · have hdue' := BitVec.le_def.1 hdue
    have hnext := h.nextDeadline
    obtain ⟨periods, hperiods⟩ : ∃ periods, periods =
        (now.toNat - u.nextDeadline.toNat) / t.tickInterval.toNat := ⟨_, rfl⟩
    have hsplit : k * t.tickInterval.toNat =
        ticks * t.tickInterval.toNat + (k - ticks) * t.tickInterval.toNat := by
      rw [← Nat.add_mul, Nat.add_sub_cancel' hle]
    have hfew : periods < k - ticks := by
      rw [hperiods, Nat.div_lt_iff_lt_mul hpos]
      omega
    have hk : k ≤ k * t.tickInterval.toNat := Nat.le_mul_of_pos_right k hpos
    obtain ⟨elapsed, helapsed⟩ : ∃ elapsed, elapsed =
        (now - u.nextDeadline) / u.tickInterval + 1 := ⟨_, rfl⟩
    have hcount : elapsed.toNat = periods + 1 := by
      have hdiv : ((now - u.nextDeadline) / u.tickInterval).toNat = periods := by
        rw [BitVec.toNat_udiv, BitVec.toNat_sub_of_le hdue, h.tickInterval, hperiods]
      have hone : (1 : Word).toNat = 1 := rfl
      rw [helapsed, BitVec.toNat_add_of_lt (by rw [hdiv, hone]; omega), hdiv, hone]
    have hadd : (ticks + (periods + 1)) * t.tickInterval.toNat =
        ticks * t.tickInterval.toNat + (periods + 1) * t.tickInterval.toNat := Nat.add_mul _ _ _
    have hless : (ticks + (periods + 1)) * t.tickInterval.toNat ≤ k * t.tickInterval.toNat :=
      Nat.mul_le_mul_right _ (by omega)
    have hmul : (elapsed * u.tickInterval).toNat = (periods + 1) * t.tickInterval.toNat := by
      rw [BitVec.toNat_mul, hcount, h.tickInterval]
      exact Nat.mod_eq_of_lt (by omega)
    rw [timerHandleInterrupt, if_pos hdue]
    simp only [← helapsed]
    refine ⟨ticks + (periods + 1), Nat.le_add_right _ _, by omega, h.tickInterval, ?_, ?_⟩
    · change u.tickCount + elapsed = _
      have hvalue : elapsed = BitVec.ofNat 64 (periods + 1) := by
        rw [← hcount, BitVec.ofNat_toNat, BitVec.setWidth_eq]
      rw [h.tickCount, hvalue, BitVec.add_assoc, ← BitVec.ofNat_add]
    · change (u.nextDeadline + elapsed * u.tickInterval).toNat = _
      rw [BitVec.toNat_add_of_lt (by rw [hmul, hnext]; omega), hmul, hnext, hadd, Nat.add_assoc]
  · rw [timerHandleInterrupt, if_neg hdue]
    exact ⟨ticks, le_rfl, hle, h.tickInterval, h.tickCount, h.nextDeadline⟩

/-- Where the call is while it waits: it has started to count at a tick before the present one. -/
def AtPoint (first : Word) (ticks : ℕ) (durationTicks : Word) : Point → Prop
  | .sleep d => d = durationTicks
  | .sleepTest d start => d = durationTicks ∧ ∃ j ≤ ticks, start = first + BitVec.ofNat 64 j
  | .sleepWait d start => d = durationTicks ∧ ∃ j ≤ ticks, start = first + BitVec.ofNat 64 j
  | _ => False

/-- More ticks do not change where the call is. -/
theorem AtPoint.mono {first durationTicks : Word} {ticks ticks' : ℕ} {p : Point}
    (h : AtPoint first ticks durationTicks p) (hle : ticks ≤ ticks') :
    AtPoint first ticks' durationTicks p := by
  cases p with
  | sleep d => exact h
  | sleepTest d start =>
      obtain ⟨hd, j, hj, hstart⟩ := h
      exact ⟨hd, j, hj.trans hle, hstart⟩
  | sleepWait d start =>
      obtain ⟨hd, j, hj, hstart⟩ := h
      exact ⟨hd, j, hj.trans hle, hstart⟩
  | _ => exact h

/-- **The call waits**: `k` deadlines at most have passed since the timer was `t`, and these are not
enough. -/
def Waiting (t : State) (k : ℕ) (durationTicks : Word) (x : Timed) : Prop :=
  ∃ ticks ≤ k, Grown t ticks x.core.mem.timer ∧ AtPoint t.tickCount ticks durationTicks x.core.pc

section Step

variable {t : State} {k : ℕ} {durationTicks : Word} {x y : Timed}

/-- The ticks counted since the call has started are too few. -/
theorem ticks_lt {first start durationTicks : Word} {ticks j : ℕ} (hj : j ≤ ticks) (hle : ticks ≤ k)
    (hk : durationTicks.toNat = k + 1) (hstart : start = first + BitVec.ofNat 64 j) :
    first + BitVec.ofNat 64 ticks - start < durationTicks := by
  have hlt := durationTicks.isLt
  have hsub : first + BitVec.ofNat 64 ticks - start = BitVec.ofNat 64 (ticks - j) := by
    have hsum : BitVec.ofNat 64 ticks = BitVec.ofNat 64 j + BitVec.ofNat 64 (ticks - j) := by
      rw [← BitVec.ofNat_add, Nat.add_sub_cancel' hj]
    rw [hstart, hsum, ← BitVec.add_assoc, BitVec.add_comm (first + _), BitVec.add_sub_cancel]
  rw [hsub, BitVec.lt_def, BitVec.toNat_ofNat, Nat.mod_eq_of_lt (by omega)]
  omega

/-- **What a step of the call preserves**, as long as the deadline it waits for has not come. -/
theorem waiting_step (hpos : 0 < t.tickInterval.toNat) (hk : durationTicks.toNat = k + 1)
    (hrange : t.nextDeadline.toNat + k * t.tickInterval.toNat < 2 ^ 64)
    (h : x.counter < t.nextDeadline.toNat + k * t.tickInterval.toNat → Waiting t k durationTicks x)
    {e : Event} (hstep : Step x e y)
    (hbefore : y.counter < t.nextDeadline.toNat + k * t.tickInterval.toNat) :
    Waiting t k durationTicks y := by
  cases hstep with
  | pass hle => exact h (Nat.lt_of_le_of_lt hle hbefore)
  | core hnow hcore =>
      obtain ⟨ticks, hle, hgrown, hpoint⟩ := h hbefore
      obtain ⟨⟨event, slept, pc, m⟩, now⟩ := x
      cases hcore with
      | access hawake hcode =>
          cases hcode with
          | start d => exact ⟨ticks, hle, hgrown, hpoint, ticks, le_rfl, hgrown.tickCount⟩
          | test d start =>
              obtain ⟨rfl, j, hj, hstart⟩ := hpoint
              have hwait : Timer.timerTicks m.timer - start < d := by
                rw [Timer.timerTicks, hgrown.tickCount]
                exact ticks_lt hj hle hk hstart
              have hnext : (if Timer.timerTicks m.timer - start < d then
                  (Point.sleepWait d start, m) else (Point.other, m)) =
                  (Point.sleepWait d start, m) := if_pos hwait
              simp only [hnext]
              exact ⟨ticks, hle, hgrown, rfl, j, hj, hstart⟩
      | sevl hawake hcode => cases hcode
      | wfe hawake hset hcode =>
          cases hcode with
          | wfe d start => exact ⟨ticks, hle, hgrown, hpoint⟩
      | sleep hawake hclear hcode => exact ⟨ticks, hle, hgrown, hpoint⟩
      | wake left hslept hset hcode =>
          cases hcode with
          | wfe d start => exact ⟨ticks, hle, hgrown, hpoint⟩
      | interrupt e =>
          cases e with
          | uart fifo => exact ⟨ticks, hle, hgrown, hpoint⟩
          | timer value =>
              have hvalue : value.toNat < t.nextDeadline.toNat + k * t.tickInterval.toNat := by
                rw [hnow value rfl, BitVec.toNat_ofNat]
                exact Nat.lt_of_le_of_lt (Nat.mod_le _ _) hbefore
              obtain ⟨ticks', hmore, hle', hgrown'⟩ := hgrown.interrupt hpos hle hrange hvalue
              exact ⟨ticks', hle', hgrown', hpoint.mono hmore⟩

end Step

/-! ### When the call returns -/

section Return

variable {durationTicks : Word} {counter : ℕ} {m : Wakeup.Memory} {x : Timed}

/-- The counter goes on. -/
theorem counter_le_of_reachable (hx : (sleepCall durationTicks m counter).Reachable x) :
    counter ≤ x.counter := by
  refine hx.invariant (P := fun x => counter ≤ x.counter) ?_ ?_
  · rintro x ⟨-, -, -, rfl⟩
    exact le_rfl
  · rintro x e y - hle hstep
    cases hstep with
    | pass hmore => exact hle.trans hmore
    | core hnow hcore => exact hle

/-- **The call does not return before** the last of as many deadlines as it was told to wait for. -/
theorem le_return (hpos : 0 < m.timer.tickInterval.toNat) {k : ℕ} (hk : durationTicks.toNat = k + 1)
    (hrange : m.timer.nextDeadline.toNat + k * m.timer.tickInterval.toNat < 2 ^ 64)
    (hx : (sleepCall durationTicks m counter).Reachable x) (hreturned : x.core.pc = .other) :
    m.timer.nextDeadline.toNat + k * m.timer.tickInterval.toNat ≤ x.counter := by
  by_contra hbefore
  have hwaiting : x.counter < m.timer.nextDeadline.toNat + k * m.timer.tickInterval.toNat →
      Waiting m.timer k durationTicks x := by
    refine hx.invariant (P := fun x => x.counter < _ → Waiting m.timer k durationTicks x) ?_ ?_
    · rintro ⟨⟨event, slept, pc, mem⟩, now⟩ ⟨rfl, rfl, rfl, rfl⟩ -
      exact ⟨0, Nat.zero_le k, Grown.refl _, rfl⟩
    · intro x e y _ hx hstep
      exact waiting_step hpos hk hrange hx hstep
  obtain ⟨ticks, -, -, hpoint⟩ := hwaiting (Nat.not_le.1 hbefore)
  rw [hreturned] at hpoint
  exact hpoint

/-- A step of the core other than an interrupt. -/
theorem reachable_main {c : EventRegister.Core Point Wakeup.Memory}
    (hx : (sleepCall durationTicks m counter).Reachable x)
    (hstep : EventRegister.Step sleeper x.core .main c) :
    (sleepCall durationTicks m counter).Reachable ⟨c, x.counter⟩ := by
  refine hx.step (e := .core .main) (.core ?_ hstep)
  intro now hnow
  cases hnow

variable {event : Bool} {start : Word}

/-- The call reads the tick count. -/
theorem step_start : EventRegister.Step sleeper ⟨event, false, .sleep durationTicks, m⟩ .main
    ⟨event, false, .sleepTest durationTicks m.timer.tickCount, m⟩ := by
  have hstep : EventRegister.Step sleeper ⟨event, false, .sleep durationTicks, m⟩ .main _ :=
    .access rfl (timerSleepTicks.start durationTicks)
  exact hstep

/-- The condition of the loop holds. -/
theorem step_wait (hlt : m.timer.tickCount - start < durationTicks) :
    EventRegister.Step sleeper ⟨event, false, .sleepTest durationTicks start, m⟩ .main
      ⟨event, false, .sleepWait durationTicks start, m⟩ := by
  have htest : (if Timer.timerTicks m.timer - start < durationTicks then
      (Point.sleepWait durationTicks start, m) else (Point.other, m)) =
      (Point.sleepWait durationTicks start, m) := if_pos hlt
  have hstep : EventRegister.Step sleeper ⟨event, false, .sleepTest durationTicks start, m⟩ .main _ :=
    .access rfl (timerSleepTicks.test durationTicks start)
  simp only [htest] at hstep
  exact hstep

/-- The condition of the loop does not hold, and the call returns. -/
theorem step_return (hge : ¬ m.timer.tickCount - start < durationTicks) :
    EventRegister.Step sleeper ⟨event, false, .sleepTest durationTicks start, m⟩ .main
      ⟨event, false, .other, m⟩ := by
  have htest : (if Timer.timerTicks m.timer - start < durationTicks then
      (Point.sleepWait durationTicks start, m) else (Point.other, m)) =
      (Point.other, m) := if_neg hge
  have hstep : EventRegister.Step sleeper ⟨event, false, .sleepTest durationTicks start, m⟩ .main _ :=
    .access rfl (timerSleepTicks.test durationTicks start)
  simp only [htest] at hstep
  exact hstep

/-- **And it may return then**: it starts to count at once, and only the interrupt of the timer at
that instant wakes it. -/
theorem earliest_return {now k : ℕ} (hnow : counter ≤ now) (hrange : now < 2 ^ 64)
    (hpos : 0 < m.timer.tickInterval.toNat) (hk : durationTicks.toNat = k + 1)
    (hdue : m.timer.nextDeadline.toNat + k * m.timer.tickInterval.toNat ≤ now)
    (hcount : (now - m.timer.nextDeadline.toNat) / m.timer.tickInterval.toNat + 1 < 2 ^ 64) :
    ∃ x, (sleepCall durationTicks m counter).Reachable x ∧ x.core.pc = .other ∧
      x.counter = now := by
  have hvalue : (BitVec.ofNat 64 now).toNat = now := by
    rw [BitVec.toNat_ofNat]
    exact Nat.mod_eq_of_lt hrange
  have hfirst : m.timer.tickCount - m.timer.tickCount < durationTicks := by
    rw [BitVec.sub_self, BitVec.lt_def, hk]
    exact Nat.succ_pos k
  have hsecond : ¬ (timerHandleInterrupt (BitVec.ofNat 64 now) m.timer).tickCount -
      m.timer.tickCount < durationTicks := by
    have hle : m.timer.nextDeadline ≤ BitVec.ofNat 64 now := by
      rw [BitVec.le_def, hvalue]
      omega
    have hdiv : ((BitVec.ofNat 64 now - m.timer.nextDeadline) / m.timer.tickInterval).toNat =
        (now - m.timer.nextDeadline.toNat) / m.timer.tickInterval.toNat := by
      rw [BitVec.toNat_udiv, BitVec.toNat_sub_of_le hle, hvalue]
    have henough : k ≤ (now - m.timer.nextDeadline.toNat) / m.timer.tickInterval.toNat := by
      rw [Nat.le_div_iff_mul_le hpos]
      omega
    have hone : (1 : Word).toNat = 1 := rfl
    rw [timerHandleInterrupt, if_pos hle]
    change ¬ m.timer.tickCount +
      ((BitVec.ofNat 64 now - m.timer.nextDeadline) / m.timer.tickInterval + 1) -
        m.timer.tickCount < durationTicks
    rw [BitVec.add_comm, BitVec.add_sub_cancel, BitVec.lt_def,
      BitVec.toNat_add_of_lt (by rw [hdiv, hone]; exact hcount), hdiv, hone, hk]
    omega
  let call := sleepCall durationTicks m counter
  let m' : Wakeup.Memory := ⟨m.rx, timerHandleInterrupt (BitVec.ofNat 64 now) m.timer⟩
  have hinit : call.Reachable ⟨⟨false, false, .sleep durationTicks, m⟩, counter⟩ :=
    .init ⟨rfl, rfl, rfl, rfl⟩
  have hstart : call.Reachable
      ⟨⟨false, false, .sleepTest durationTicks m.timer.tickCount, m⟩, counter⟩ :=
    reachable_main hinit step_start
  have hwait : call.Reachable
      ⟨⟨false, false, .sleepWait durationTicks m.timer.tickCount, m⟩, counter⟩ :=
    reachable_main hstart (step_wait hfirst)
  have hpass : call.Reachable
      ⟨⟨false, false, .sleepWait durationTicks m.timer.tickCount, m⟩, now⟩ :=
    hwait.step (e := .pass now) (.pass hnow)
  have hirq : call.Reachable
      ⟨⟨true, false, .sleepWait durationTicks m.timer.tickCount, m'⟩, now⟩ := by
    refine hpass.step (e := .core (.interrupt (.timer (BitVec.ofNat 64 now)))) (.core ?_ ?_)
    · rintro _ ⟨⟩
      rfl
    · exact EventRegister.Step.interrupt _ _
  have hwake : call.Reachable
      ⟨⟨false, false, .sleepTest durationTicks m.timer.tickCount, m'⟩, now⟩ :=
    reachable_main hirq (.wfe rfl rfl (timerSleepTicks.wfe durationTicks m.timer.tickCount))
  exact ⟨_, reachable_main hwake (step_return hsecond), rfl, rfl⟩

end Return

/-- A duration that is not zero, less one tick. -/
theorem exists_pred {durationTicks : Word} (h : durationTicks ≠ 0) :
    ∃ k, durationTicks.toNat = k + 1 :=
  Nat.exists_eq_succ_of_ne_zero fun h0 => h (BitVec.eq_of_toNat_eq h0)

/-! ### Which calls never return early -/

/-- `SLEEP_MAX_SECONDS`. -/
def sleepMaxSeconds : Word := 86400#64

/-- What the sleep command passes, in units of the counter. -/
theorem seconds_eq {frequency seconds : Word} (hle : seconds ≤ sleepMaxSeconds)
    (hhundred : 100 ≤ frequency.toNat) (hdvd : 100 ∣ frequency.toNat) :
    (seconds * timerTicksPerSecond).toNat * interval frequency =
      seconds.toNat * frequency.toNat := by
  have hinterval : 100 * interval frequency = frequency.toNat := by
    obtain ⟨n, hn⟩ := hdvd
    rw [interval]
    omega
  have hticks : (seconds * timerTicksPerSecond).toNat = seconds.toNat * 100 := by
    have hbound : seconds.toNat ≤ 86400 := BitVec.le_def.1 hle
    rw [BitVec.toNat_mul]
    exact Nat.mod_eq_of_lt (Nat.lt_of_le_of_lt (Nat.mul_le_mul_right 100 hbound) (by decide))
  rw [hticks, Nat.mul_assoc, hinterval]

/-- **Which calls never return early.**  Whatever interrupts the timer has had, a call of
`timer_sleep_ticks` never returns before its duration has passed, whatever interrupts of the two
devices arrive, if and only if the duration is zero or the call is made at the very beginning of a
period.  The same holds of the sleep command and its seconds.  The period that is running, and the
deadline that is the last one of the duration, are taken to end in the range of the counter. -/
theorem never_early_iff {frequency origin counter : Word} {m : Wakeup.Memory}
    (h : Scheduled frequency origin counter m.timer)
    (hroom : counter.toNat + interval frequency < 2 ^ 64) :
    (∀ durationTicks : Word,
      m.timer.nextDeadline.toNat + (durationTicks.toNat - 1) * interval frequency < 2 ^ 64 →
      (NeverEarly frequency durationTicks m counter.toNat ↔
        durationTicks = 0 ∨ counter.toNat + interval frequency = m.timer.nextDeadline.toNat)) ∧
    ∀ seconds : Word, seconds ≤ sleepMaxSeconds → 100 ≤ frequency.toNat → 100 ∣ frequency.toNat →
      m.timer.nextDeadline.toNat +
        ((seconds * timerTicksPerSecond).toNat - 1) * interval frequency < 2 ^ 64 →
      ((∀ x, (sleepCall (seconds * timerTicksPerSecond) m counter.toNat).Reachable x →
          x.core.pc = .other → counter.toNat + seconds.toNat * frequency.toNat ≤ x.counter) ↔
        seconds * timerTicksPerSecond = 0 ∨
          counter.toNat + interval frequency = m.timer.nextDeadline.toNat) := by
  obtain ⟨hinterval, hbegun⟩ := h.armed
  have hpos := interval_pos frequency
  have hticks : ∀ durationTicks : Word,
      m.timer.nextDeadline.toNat + (durationTicks.toNat - 1) * interval frequency < 2 ^ 64 →
      (NeverEarly frequency durationTicks m counter.toNat ↔
        durationTicks = 0 ∨ counter.toNat + interval frequency = m.timer.nextDeadline.toNat) := by
    intro durationTicks hrange
    rw [← hinterval] at hpos hrange hbegun hroom
    rcases eq_or_ne durationTicks 0 with rfl | hne
    · refine ⟨fun _ => Or.inl rfl, fun _ x hx _ => ?_⟩
      have hzero : (0 : Word).toNat * interval frequency = 0 := Nat.zero_mul _
      rw [hzero]
      exact counter_le_of_reachable hx
    obtain ⟨k, hk⟩ := exists_pred hne
    have hpred : durationTicks.toNat - 1 = k := by rw [hk, Nat.add_sub_cancel]
    rw [hpred] at hrange
    rw [NeverEarly, ← hinterval, hk, Nat.succ_mul]
    constructor
    · intro hnever
      refine Or.inr ?_
      -- the call may return at the last deadline, or at once when that has passed
      obtain ⟨now, hnow, hbefore, hdue, hlt, hcount⟩ : ∃ now, counter.toNat ≤ now ∧
          (now = counter.toNat ∨
            now = m.timer.nextDeadline.toNat + k * m.timer.tickInterval.toNat) ∧
          m.timer.nextDeadline.toNat + k * m.timer.tickInterval.toNat ≤ now ∧ now < 2 ^ 64 ∧
          (now - m.timer.nextDeadline.toNat) / m.timer.tickInterval.toNat + 1 < 2 ^ 64 := by
        rcases Nat.le_total (m.timer.nextDeadline.toNat + k * m.timer.tickInterval.toNat)
          counter.toNat with hpassed | hahead
        · have hdiv := Nat.div_le_self (counter.toNat - m.timer.nextDeadline.toNat)
            m.timer.tickInterval.toNat
          exact ⟨counter.toNat, le_rfl, Or.inl rfl, hpassed, counter.isLt, by omega⟩
        · refine ⟨_, hahead, Or.inr rfl, le_rfl, hrange, ?_⟩
          rw [Nat.add_sub_cancel_left, Nat.mul_div_cancel k hpos, ← hk]
          exact durationTicks.isLt
      obtain ⟨x, hx, hreturned, hcounter⟩ := earliest_return hnow hlt hpos hk hdue hcount
      have hle := hnever x hx hreturned
      rw [hcounter] at hle
      omega
    · rintro (h0 | hphase) x hx hreturned
      · exact absurd h0 hne
      · have hle := le_return hpos hk hrange hx hreturned
        omega
  refine ⟨hticks, fun seconds hle hhundred hdvd hrange => ?_⟩
  rw [← seconds_eq hle hhundred hdvd]
  exact hticks _ hrange

/-- The timer that ticks every ten units of the counter, just started at 0. -/
def startedTimer : State := timerInit 1000 0 (.boot 0 0)

theorem scheduled_startedTimer {counter : Word} : Scheduled 1000 0 counter startedTimer := by
  refine ⟨[], 0, 0, rfl, ?_⟩
  rw [List.nil_append]
  exact List.pairwise_pair.2 (BitVec.le_def.2 (Nat.zero_le _))

/-- A call at the very beginning of a period. -/
theorem never_early_iff_begun :
    NeverEarly 1000 100 ⟨Uart.Rx.boot, startedTimer⟩ (0 : Word).toNat :=
  ((never_early_iff (@scheduled_startedTimer 0) (by decide)).1 100 (by decide)).2
    (.inr (by decide))

/-- **`sleep 1` may end early**: called nine units into a period of ten, it returns 991 units later,
when a second is 1000 units. -/
theorem sleep_second_ends_early :
    Scheduled 1000 0 9 startedTimer ∧
      (∃ x, (sleepCall (1 * timerTicksPerSecond) ⟨Uart.Rx.boot, startedTimer⟩ 9).Reachable x ∧
        x.core.pc = .other ∧ x.counter = 1000) ∧
      ¬ NeverEarly 1000 (1 * timerTicksPerSecond) ⟨Uart.Rx.boot, startedTimer⟩ 9 := by
  obtain ⟨x, hx, hreturned, hcounter⟩ :
      ∃ x, (sleepCall (1 * timerTicksPerSecond) ⟨Uart.Rx.boot, startedTimer⟩ 9).Reachable x ∧
        x.core.pc = .other ∧ x.counter = 1000 :=
    earliest_return (k := 99) (by decide) (by decide) (by decide) rfl (by decide) (by decide)
  refine ⟨scheduled_startedTimer, ⟨x, hx, hreturned, hcounter⟩, fun hnever => ?_⟩
  have hle := hnever x hx hreturned
  rw [hcounter] at hle
  exact absurd hle (by decide)

end SleepTicks

end MiniOs
