/-
**The tick counter (`src/timer.c`).**

The generic timer of the CPU raises an interrupt when its counter reaches the compare register.  The
handler counts the periods that have ended and arms the register for the end of the next one.  It
may run late, by any number of periods, or early, or several times at one value of the counter.
The deadlines are the multiples of the period after the value `timer_init` has read, so that the tick
count depends on the last value the handler has read, and on nothing else.

Main definitions:

* `Timer.State` — the static variables of the file and the registers of the timer;
* `Timer.timerInit`, `Timer.timerHandleInterrupt`, `Timer.timerTicks`,
  `Timer.timerUptimeSeconds` — the interface of the file;
* `Timer.OnSchedule` — **the tick count and the deadline belong to an instant**.

Main results:

* `Timer.onSchedule_interrupt` — what one interrupt preserves;
* `Timer.ticks_exact` — **no drift and no lost tick, whatever the interrupts' timing**.
-/

import MiniOs.Machine
import MiniOs.Periods

set_option relaxedAutoImplicit false
set_option autoImplicit false

namespace MiniOs

namespace Timer

/-! ### State and interface -/

/-- `TIMER_TICKS_PER_SECOND`. -/
def timerTicksPerSecond : Word := 100#64

/-- The static variables of the file, and the compare and the control register of the timer. -/
structure State where
  tickCount : Word
  counterFrequency : Word
  tickInterval : Word
  nextDeadline : Word
  cntpCval : Word
  cntpCtl : Word

/-- The state at boot: static variables are zero, and the registers hold anything. -/
def State.boot (cntpCval cntpCtl : Word) : State where
  tickCount := 0
  counterFrequency := 0
  tickInterval := 0
  nextDeadline := 0
  cntpCval := cntpCval
  cntpCtl := cntpCtl

/-- Model of `set_compare_value`. -/
def setCompareValue (compareValue : Word) (s : State) : State := { s with cntpCval := compareValue }

/-- Model of `timer_init`, which reads `frequency` and `counter` from the timer.  The interrupt
controller, where it enables the interrupt, is not part of the state. -/
def timerInit (frequency counter : Word) (s : State) : State :=
  let tickInterval := frequency / timerTicksPerSecond
  let tickInterval := if tickInterval = 0 then 1 else tickInterval
  let nextDeadline := counter + tickInterval
  let s := setCompareValue nextDeadline { s with
    counterFrequency := frequency
    tickInterval := tickInterval
    nextDeadline := nextDeadline }
  { s with cntpCtl := 1 }

/-- Model of `timer_handle_interrupt`, which reads `now` from the counter, up to the `sev` at its
end. -/
def timerHandleInterrupt (now : Word) (s : State) : State :=
  let s :=
    if s.nextDeadline ≤ now then
      let elapsedTicks := (now - s.nextDeadline) / s.tickInterval + 1
      { s with
        tickCount := s.tickCount + elapsedTicks
        nextDeadline := s.nextDeadline + elapsedTicks * s.tickInterval }
    else s
  setCompareValue s.nextDeadline s

/-- Model of `timer_ticks`. -/
def timerTicks (s : State) : Word := s.tickCount

/-- Model of `timer_uptime_seconds`. -/
def timerUptimeSeconds (s : State) : Word := s.tickCount / timerTicksPerSecond

/-- One interrupt after the other, with the values the handler reads from the counter. -/
def interrupts (nows : List Word) (s : State) : State :=
  nows.foldl (fun s now => timerHandleInterrupt now s) s

/-! ### On schedule -/

/-- The period of the ticks at a frequency, in units of the counter. -/
def interval (frequency : Word) : ℕ := max 1 (frequency.toNat / 100)

theorem interval_pos (frequency : Word) : 0 < interval frequency :=
  Nat.lt_of_lt_of_le Nat.one_pos (Nat.le_max_left _ _)

/-- **The timer is on schedule at an instant**: the ticks are the periods that have ended since
`origin`, and the comparator is armed for the end of the period that is running. -/
structure OnSchedule (frequency : Word) (origin now : ℕ) (s : State) : Prop where
  counterFrequency : s.counterFrequency = frequency
  tickInterval : s.tickInterval.toNat = interval frequency
  tickCount : s.tickCount.toNat = Periods.ended origin (interval frequency) now
  nextDeadline : s.nextDeadline.toNat =
    Periods.deadline origin (interval frequency) (Periods.ended origin (interval frequency) now)
  cntpCval : s.cntpCval = s.nextDeadline
  cntpCtl : s.cntpCtl = 1

/-- What the timer is on schedule at is **determined by the instant**. -/
theorem OnSchedule.eq {frequency : Word} {origin now : ℕ} {s t : State}
    (hs : OnSchedule frequency origin now s) (ht : OnSchedule frequency origin now t) : s = t := by
  have hinterval : s.tickInterval = t.tickInterval :=
    BitVec.eq_of_toNat_eq (hs.tickInterval.trans ht.tickInterval.symm)
  have hcount : s.tickCount = t.tickCount :=
    BitVec.eq_of_toNat_eq (hs.tickCount.trans ht.tickCount.symm)
  have hdeadline : s.nextDeadline = t.nextDeadline :=
    BitVec.eq_of_toNat_eq (hs.nextDeadline.trans ht.nextDeadline.symm)
  have hfrequency := hs.counterFrequency.trans ht.counterFrequency.symm
  have hcval : s.cntpCval = t.cntpCval := by rw [hs.cntpCval, ht.cntpCval, hdeadline]
  have hctl := hs.cntpCtl.trans ht.cntpCtl.symm
  cases s
  cases t
  simp only at hinterval hcount hdeadline hfrequency hcval hctl
  rw [hinterval, hcount, hdeadline, hfrequency, hcval, hctl]

theorem tickInterval_timerInit (frequency counter : Word) (s : State) :
    (timerInit frequency counter s).tickInterval.toNat = interval frequency := by
  have hdiv : (frequency / timerTicksPerSecond).toNat = frequency.toNat / 100 := by
    simp [timerTicksPerSecond]
  change (if frequency / timerTicksPerSecond = 0 then (1 : Word)
    else frequency / timerTicksPerSecond).toNat = _
  rw [interval, ← hdiv]
  split
  · next hzero => simp [hzero]
  · next hzero =>
      have hne : (frequency / timerTicksPerSecond).toNat ≠ 0 :=
        fun h => hzero (BitVec.eq_of_toNat_eq h)
      omega

/-- `timer_init` starts the schedule at the value it reads. -/
theorem onSchedule_timerInit {frequency counter : Word}
    (hroom : counter.toNat + interval frequency < 2 ^ 64) (cntpCval cntpCtl : Word) :
    OnSchedule frequency counter.toNat counter.toNat
      (timerInit frequency counter (State.boot cntpCval cntpCtl)) := by
  have hinterval := tickInterval_timerInit frequency counter (State.boot cntpCval cntpCtl)
  refine ⟨rfl, hinterval, ?_, ?_, rfl, rfl⟩
  · rw [Periods.ended_self]
    rfl
  · rw [Periods.ended_self, Periods.deadline, Nat.zero_add, Nat.one_mul, ← hinterval]
    rw [← hinterval] at hroom
    exact BitVec.toNat_add_of_lt hroom

/-- The catch-up of the handler counts the periods since the deadline, and does not wrap. -/
theorem elapsedTicks_toNat {now nextDeadline tickInterval : Word} (hdue : nextDeadline ≤ now)
    (hpos : 0 < nextDeadline.toNat) :
    ((now - nextDeadline) / tickInterval + 1).toNat =
      (now.toNat - nextDeadline.toNat) / tickInterval.toNat + 1 := by
  have hlt := now.isLt
  have hle := BitVec.le_def.1 hdue
  have hquot := Nat.div_le_self (now.toNat - nextDeadline.toNat) tickInterval.toNat
  have hdiv : ((now - nextDeadline) / tickInterval).toNat =
      (now.toNat - nextDeadline.toNat) / tickInterval.toNat := by
    rw [BitVec.toNat_udiv, BitVec.toNat_sub_of_le hdue]
  rw [BitVec.toNat_add_of_lt (by rw [hdiv]; simp; omega), hdiv]
  rfl

/-- **What one interrupt preserves**: at whatever value of the counter it is handled, the timer is
on schedule for that value afterwards. -/
theorem onSchedule_interrupt {frequency now : Word} {origin before : ℕ} {s : State}
    (h : OnSchedule frequency origin before s) (horigin : origin ≤ before)
    (hle : before ≤ now.toNat) (hroom : now.toNat + interval frequency < 2 ^ 64) :
    OnSchedule frequency origin now.toNat (timerHandleInterrupt now s) := by
  have hpos := interval_pos frequency
  by_cases hdue : s.nextDeadline ≤ now
  · have hle' := BitVec.le_def.1 hdue
    have hnext : origin + interval frequency ≤ Periods.deadline origin (interval frequency)
        (Periods.ended origin (interval frequency) before) := Periods.period_le_deadline _
    have hlast : Periods.deadline origin (interval frequency)
        (Periods.ended origin (interval frequency) now.toNat) ≤
          now.toNat + interval frequency := Periods.deadline_ended_le (horigin.trans hle)
    have hended : Periods.ended origin (interval frequency) now.toNat ≤ now.toNat :=
      Periods.ended_le _
    obtain ⟨elapsed, helapsed⟩ : ∃ elapsed, elapsed =
        (now - s.nextDeadline) / s.tickInterval + 1 := ⟨_, rfl⟩
    have hcount : elapsed.toNat = (now.toNat - Periods.deadline origin (interval frequency)
        (Periods.ended origin (interval frequency) before)) / interval frequency + 1 := by
      rw [helapsed, elapsedTicks_toNat hdue (by rw [h.nextDeadline]; omega), h.nextDeadline,
        h.tickInterval]
    -- the handler makes up for the periods that have ended since the deadline
    have hcatch : Periods.ended origin (interval frequency) before + elapsed.toNat =
        Periods.ended origin (interval frequency) now.toNat := by
      rw [hcount]
      exact Periods.catch_up hpos (by rw [← h.nextDeadline]; exact hle')
    have hadd : Periods.deadline origin (interval frequency)
        (Periods.ended origin (interval frequency) before) + elapsed.toNat * interval frequency =
          Periods.deadline origin (interval frequency)
            (Periods.ended origin (interval frequency) before + elapsed.toNat) :=
      Periods.deadline_add _ _
    rw [hcatch] at hadd
    have hmul : (elapsed * s.tickInterval).toNat = elapsed.toNat * interval frequency := by
      rw [BitVec.toNat_mul, h.tickInterval]
      exact Nat.mod_eq_of_lt (by omega)
    rw [timerHandleInterrupt, if_pos hdue]
    simp only [← helapsed]
    refine ⟨h.counterFrequency, h.tickInterval, ?_, ?_, rfl, h.cntpCtl⟩
    · change (s.tickCount + elapsed).toNat = _
      rw [BitVec.toNat_add_of_lt (by rw [h.tickCount, hcatch]; omega), h.tickCount, hcatch]
    · change (s.nextDeadline + elapsed * s.tickInterval).toNat = _
      rw [BitVec.toNat_add_of_lt (by rw [h.nextDeadline, hmul, hadd]; omega), h.nextDeadline, hmul,
        hadd]
  · -- no further period has ended, and the handler only arms the comparator again
    have hlt : now.toNat < Periods.deadline origin (interval frequency)
        (Periods.ended origin (interval frequency) before) := by
      rw [← h.nextDeadline]
      exact BitVec.lt_def.1 (BitVec.not_le.1 hdue)
    have hended := Periods.ended_of_lt hpos hle hlt
    rw [timerHandleInterrupt, if_neg hdue]
    refine ⟨h.counterFrequency, h.tickInterval, ?_, ?_, rfl, h.cntpCtl⟩
    · rw [hended]
      exact h.tickCount
    · rw [hended]
      exact h.nextDeadline

/-- What a run of interrupts at values that do not decrease leaves behind. -/
theorem onSchedule_interrupts {frequency now : Word} {origin : ℕ} {before : Word} {nows : List Word}
    {s : State} (h : OnSchedule frequency origin before.toNat s) (horigin : origin ≤ before.toNat)
    (hmono : (before :: (nows ++ [now])).Pairwise (· ≤ ·))
    (hroom : now.toNat + interval frequency < 2 ^ 64) :
    OnSchedule frequency origin now.toNat (interrupts (nows ++ [now]) s) := by
  induction nows generalizing before s with
  | nil =>
      have hle := BitVec.le_def.1 (List.rel_of_pairwise_cons hmono (List.mem_singleton_self now))
      exact onSchedule_interrupt h horigin hle hroom
  | cons first nows ih =>
      obtain ⟨hfirst, hrest⟩ := List.pairwise_cons.1 hmono
      have hle := BitVec.le_def.1 (hfirst first (by simp))
      have hmem : now ∈ nows ++ [now] := List.mem_append_right nows List.mem_cons_self
      have hlast : first.toNat ≤ now.toNat :=
        BitVec.le_def.1 (List.rel_of_pairwise_cons hrest hmem)
      exact ih (onSchedule_interrupt h horigin hle (by omega)) (by omega) hrest

/-- No interrupt changes the period. -/
theorem tickInterval_interrupts (nows : List Word) (s : State) :
    (interrupts nows s).tickInterval = s.tickInterval := by
  induction nows generalizing s with
  | nil => rfl
  | cons now nows ih =>
      change (interrupts nows (timerHandleInterrupt now s)).tickInterval = _
      rw [ih, timerHandleInterrupt]
      split
      · rfl
      · rfl

/-- A tick count of a hundred to the second is divided into seconds. -/
theorem ended_div_ticksPerSecond {frequency : Word} (hle : 100 ≤ frequency.toNat)
    (hdvd : 100 ∣ frequency.toNat) (origin now : ℕ) :
    Periods.ended origin (interval frequency) now / 100 = (now - origin) / frequency.toNat := by
  have hinterval : interval frequency * 100 = frequency.toNat := by
    obtain ⟨n, hn⟩ := hdvd
    rw [interval]
    omega
  rw [Periods.ended, Nat.div_div_eq_div_mul, hinterval]

/-- **No drift and no lost tick.**  After any number of interrupts that the handler has served at
values of the counter that do not decrease, late, early or repeated, the tick count is the number of
whole periods from the value `timer_init` has read to the last value the handler has read; the next
deadline is the end of the period that is running, lies ahead, and is in the comparator.  The timing
of the earlier interrupts does not matter, no division is by zero, and the uptime is the number of
whole seconds. -/
theorem ticks_exact {frequency counter now cntpCval cntpCtl : Word} {nows : List Word} {s : State}
    (hrun : s = interrupts (nows ++ [now]) (timerInit frequency counter (State.boot cntpCval cntpCtl)))
    (hmono : (counter :: (nows ++ [now])).Pairwise (· ≤ ·))
    (hroom : now.toNat + max 1 (frequency.toNat / 100) < 2 ^ 64) :
    s.tickInterval.toNat = max 1 (frequency.toNat / 100) ∧
    (timerTicks s).toNat = (now.toNat - counter.toNat) / max 1 (frequency.toNat / 100) ∧
    s.nextDeadline.toNat =
      counter.toNat + ((timerTicks s).toNat + 1) * max 1 (frequency.toNat / 100) ∧
    now < s.nextDeadline ∧ s.cntpCval = s.nextDeadline ∧
    (∀ nows' cntpCval' cntpCtl', (counter :: (nows' ++ [now])).Pairwise (· ≤ ·) →
      interrupts (nows' ++ [now]) (timerInit frequency counter (State.boot cntpCval' cntpCtl')) =
        s) ∧
    (∀ nows', (interrupts nows'
      (timerInit frequency counter (State.boot cntpCval cntpCtl))).tickInterval ≠ 0) ∧
    (100 ≤ frequency.toNat → 100 ∣ frequency.toNat →
      (timerUptimeSeconds s).toNat = (now.toNat - counter.toNat) / frequency.toNat) := by
  change now.toNat + interval frequency < 2 ^ 64 at hroom
  have hmem : now ∈ nows ++ [now] := List.mem_append_right nows List.mem_cons_self
  have hle : counter.toNat ≤ now.toNat :=
    BitVec.le_def.1 (List.rel_of_pairwise_cons hmono hmem)
  have hall : ∀ nows' cntpCval' cntpCtl', (counter :: (nows' ++ [now])).Pairwise (· ≤ ·) →
      OnSchedule frequency counter.toNat now.toNat (interrupts (nows' ++ [now])
        (timerInit frequency counter (State.boot cntpCval' cntpCtl'))) := by
    intro nows' cntpCval' cntpCtl' hmono'
    exact onSchedule_interrupts (onSchedule_timerInit (by omega) cntpCval' cntpCtl') le_rfl hmono'
      hroom
  have hs := hall nows cntpCval cntpCtl hmono
  rw [← hrun] at hs
  refine ⟨hs.tickInterval, hs.tickCount, ?_, ?_, hs.cntpCval, ?_, ?_, ?_⟩
  · rw [hs.nextDeadline, timerTicks, hs.tickCount]
    rfl
  · rw [BitVec.lt_def, hs.nextDeadline]
    exact Periods.lt_deadline_ended (interval_pos frequency) now.toNat
  · intro nows' cntpCval' cntpCtl' hmono'
    exact (hall nows' cntpCval' cntpCtl' hmono').eq hs
  · intro nows' hzero
    rw [tickInterval_interrupts] at hzero
    have hinterval := tickInterval_timerInit frequency counter (State.boot cntpCval cntpCtl)
    rw [hzero] at hinterval
    exact absurd hinterval (interval_pos frequency).ne
  · intro hhundred hdvd
    have hdiv : (timerUptimeSeconds s).toNat = s.tickCount.toNat / 100 := by
      simp [timerUptimeSeconds, timerTicksPerSecond]
    rw [hdiv, hs.tickCount, ended_div_ticksPerSecond hhundred hdvd]

/-- An early interrupt, one at the deadline and one that is two periods late: five ticks of ten units
have passed. -/
theorem ticks_exact_late : (timerTicks (interrupts ([103#64, 110#64] ++ [151#64])
    (timerInit 1000 100 (State.boot 0 0)))).toNat = (151 - 100) / 10 :=
  (ticks_exact rfl (by decide) (by decide)).2.1

end Timer

end MiniOs
