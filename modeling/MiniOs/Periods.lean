/-
**Instants counted by the period they are in.**

From an origin on, time is cut into periods of one length.  What has ended by some instant, and when
the period that is running ends, is a matter of one quotient; a clock that looked at an earlier
instant last makes up for what it missed by the quotient since its deadline.

Main definitions:

* `Periods.ended` — how many periods have ended at an instant;
* `Periods.deadline` — the end of a period.

Main results:

* `Periods.lt_deadline_ended`, `Periods.deadline_ended_le` — the period that is running ends later,
  and within a period;
* `Periods.ended_of_lt`, `Periods.catch_up` — **what a later instant adds to the count**, before and
  after the deadline.
-/

import Mathlib.Init

set_option relaxedAutoImplicit false
set_option autoImplicit false

namespace Periods

variable {origin period : Nat}

/-- The number of periods after `origin` that have ended at an instant. -/
def ended (origin period now : Nat) : Nat := (now - origin) / period

/-- The instant at which the period after `n` others ends. -/
def deadline (origin period n : Nat) : Nat := origin + (n + 1) * period

theorem ended_self : ended origin period origin = 0 := by
  rw [ended, Nat.sub_self, Nat.zero_div]

theorem ended_le (now : Nat) : ended origin period now ≤ now :=
  Nat.le_trans (Nat.div_le_self _ _) (Nat.sub_le _ _)

/-- Time does not undo the end of a period. -/
theorem ended_mono {now now' : Nat} (h : now ≤ now') :
    ended origin period now ≤ ended origin period now' :=
  Nat.div_le_div_right (Nat.sub_le_sub_right h origin)

/-- A number of periods has ended just when the last of them has reached its end. -/
theorem lt_ended_iff (hpos : 0 < period) {n now : Nat} (hle : origin ≤ now) :
    n < ended origin period now ↔ deadline origin period n ≤ now := by
  rw [ended, deadline, Nat.lt_iff_add_one_le, Nat.le_div_iff_mul_le hpos]
  omega

/-- A deadline is at least one period away from the origin. -/
theorem period_le_deadline (n : Nat) : origin + period ≤ deadline origin period n := by
  rw [deadline, Nat.succ_mul]
  omega

/-- The period that is running has not ended. -/
theorem lt_deadline_ended (hpos : 0 < period) (now : Nat) :
    now < deadline origin period (ended origin period now) := by
  have hlt := Nat.lt_mul_div_succ (now - origin) hpos
  rw [deadline, ended, Nat.mul_comm]
  omega

/-- The period that is running ends within a period. -/
theorem deadline_ended_le {now : Nat} (hle : origin ≤ now) :
    deadline origin period (ended origin period now) ≤ now + period := by
  have hmul := Nat.div_mul_le_self (now - origin) period
  rw [deadline, ended, Nat.succ_mul]
  omega

/-- Before the deadline **no further period has ended**. -/
theorem ended_of_lt (hpos : 0 < period) {now now' : Nat} (hle : now ≤ now')
    (hlt : now' < deadline origin period (ended origin period now)) :
    ended origin period now' = ended origin period now := by
  have hroom : 0 < (ended origin period now + 1) * period := Nat.mul_pos (Nat.succ_pos _) hpos
  rw [deadline] at hlt
  refine Nat.le_antisymm ?_ (Nat.div_le_div_right (by omega))
  refine Nat.le_of_lt_succ ((Nat.div_lt_iff_lt_mul hpos).2 ?_)
  change now' - origin < (ended origin period now + 1) * period
  omega

/-- **Catching up**: from the deadline on, the periods that have ended since it are counted by a
quotient. -/
theorem catch_up (hpos : 0 < period) {n now : Nat} (hle : deadline origin period n ≤ now) :
    n + ((now - deadline origin period n) / period + 1) = ended origin period now := by
  have hsplit : now - origin = (now - deadline origin period n) + (n + 1) * period := by
    unfold deadline at hle ⊢
    omega
  rw [ended, hsplit, Nat.add_mul_div_right _ _ hpos]
  omega

/-- Whole periods after a deadline there is the deadline of a later period. -/
theorem deadline_add (n k : Nat) :
    deadline origin period n + k * period = deadline origin period (n + k) := by
  have hsum : n + 1 + k = n + k + 1 := by omega
  rw [deadline, deadline, Nat.add_assoc, ← Nat.add_mul, hsum]

end Periods
