/-
**Sleeping on an event register.**

A core runs one program and is interrupted by handlers, which run to completion and share memory with
it.  Beside the memory there is a register of one bit: SEV, which a handler may issue at its end, and
SEVL set it; WFE clears it and goes on when it is set, and otherwise sleeps until it is.  The bit
remembers that something happened, not what, and earlier wake-ups consume it, so a program looks at
the memory again after each WFE.

What such a program relies on is a property of a few places only: where it has decided to sleep, what
it waits for is either not there or announced by the bit.  This module derives that from conditions
on single instructions and single handlers.

Main definitions:

* `EventRegister.Instr` — what may come next in a program;
* `EventRegister.Core`, `EventRegister.system` — the core, and its runs under interrupts;
* `EventRegister.Core.Asleep` — the core sleeps in a WFE;
* `EventRegister.Announced`, `EventRegister.Alert` — **the conditions**, and what holds under them.

Main results:

* `EventRegister.Announced.reachable` — what is waited for is announced, wherever the program has
  decided to sleep;
* `EventRegister.Alert.no_lost_wakeup` — **the core never sleeps while it is there**.
-/

import MiniOs.Lts

set_option relaxedAutoImplicit false
set_option autoImplicit false

universe u v w

namespace EventRegister

/-! ### Programs and runs -/

/-- What may come next in a program with points `π` over a memory `σ`. -/
inductive Instr (π : Type u) (σ : Type v)
  /-- Everything but the instructions for the event register. -/
  | access (run : σ → π × σ)
  | sevl (next : π)
  | wfe (next : π)

/-- A program under interrupts: which instructions may come next at a point, and what a run of a
handler does, with whether it issues SEV. -/
structure Program (π : Type u) (σ : Type v) (η : Type w) where
  code : π → Instr π σ → Prop
  handle : η → σ → Bool × σ

/-- The core: the event register, whether the WFE at the present point has found it clear, the point
of the program and the memory. -/
structure Core (π : Type u) (σ : Type v) where
  event : Bool
  slept : Bool
  pc : π
  mem : σ

/-- The core sleeps: a WFE has found the register clear, and it was not set since. -/
def Core.Asleep {π : Type u} {σ : Type v} (c : Core π σ) : Prop :=
  c.slept = true ∧ c.event = false

/-- What happens next. -/
inductive Event (η : Type w)
  /-- The program goes on. -/
  | main
  /-- A handler runs. -/
  | interrupt (e : η)

variable {π : Type u} {σ : Type v} {η : Type w}

/-- One step.  A WFE that has slept may leave the register set or clear as it ends. -/
inductive Step (P : Program π σ η) : Core π σ → Event η → Core π σ → Prop
  | access {c : Core π σ} {run : σ → π × σ} : c.slept = false → P.code c.pc (Instr.access run) →
      Step P c Event.main ⟨c.event, false, (run c.mem).1, (run c.mem).2⟩
  | sevl {c : Core π σ} {next : π} : c.slept = false → P.code c.pc (Instr.sevl next) →
      Step P c Event.main ⟨true, false, next, c.mem⟩
  | wfe {c : Core π σ} {next : π} : c.slept = false → c.event = true →
      P.code c.pc (Instr.wfe next) → Step P c Event.main ⟨false, false, next, c.mem⟩
  | sleep {c : Core π σ} {next : π} : c.slept = false → c.event = false →
      P.code c.pc (Instr.wfe next) → Step P c Event.main ⟨false, true, c.pc, c.mem⟩
  | wake {c : Core π σ} {next : π} (left : Bool) : c.slept = true → c.event = true →
      P.code c.pc (Instr.wfe next) → Step P c Event.main ⟨left, false, next, c.mem⟩
  | interrupt (c : Core π σ) (e : η) : Step P c (Event.interrupt e)
      ⟨c.event || (P.handle e c.mem).1, c.slept, c.pc, (P.handle e c.mem).2⟩

/-- The runs of a program under interrupts, from a point and a memory on; the register holds
anything. -/
def system (P : Program π σ η) (pc : π) (init : σ → Prop) : Lts (Core π σ) (Event η) where
  init c := c.slept = false ∧ c.pc = pc ∧ init c.mem
  step := Step P

/-! ### Invariants of a program -/

/-- What no instruction and no handler breaks. -/
structure Kept (P : Program π σ η) (inv : π → σ → Prop) : Prop where
  access : ∀ p run m, P.code p (Instr.access run) → inv p m → inv (run m).1 (run m).2
  sevl : ∀ p next m, P.code p (Instr.sevl next) → inv p m → inv next m
  wfe : ∀ p next m, P.code p (Instr.wfe next) → inv p m → inv next m
  handle : ∀ p e m, inv p m → inv p (P.handle e m).2

theorem Kept.step {P : Program π σ η} {inv : π → σ → Prop} (h : Kept P inv) {c d : Core π σ}
    {e : Event η} (hinv : inv c.pc c.mem) (hstep : Step P c e d) : inv d.pc d.mem := by
  cases hstep with
  | access _ hcode => exact h.access _ _ _ hcode hinv
  | sevl _ hcode => exact h.sevl _ _ _ hcode hinv
  | wfe _ _ hcode => exact h.wfe _ _ _ hcode hinv
  | sleep _ _ _ => exact hinv
  | wake _ _ _ hcode => exact h.wfe _ _ _ hcode hinv
  | interrupt => exact h.handle _ _ _ hinv

/-! ### No lost wake-up -/

/-- **The conditions on a program that waits.**  `waits` are the points at which it has decided to
sleep, and `ready` is what it waits for there: it decides only while that is not there, it looks again
after each WFE, and the handlers announce what they bring about. -/
structure Announced (P : Program π σ η) (inv : π → σ → Prop) (waits : π → Prop)
    (ready : π → σ → Prop) : Prop where
  kept : Kept P inv
  wfe : ∀ p next, P.code p (Instr.wfe next) → waits p ∧ ¬ waits next
  decide : ∀ p run m, P.code p (Instr.access run) → inv p m → waits (run m).1 →
    ¬ ready (run m).1 (run m).2
  handle : ∀ p m e, waits p → ready p (P.handle e m).2 → ready p m ∨ (P.handle e m).1 = true

/-- What holds of a core whose program meets the conditions: what it waits for is announced by the
register, and it has slept only where it waits. -/
structure Alert (inv : π → σ → Prop) (waits : π → Prop) (ready : π → σ → Prop) (c : Core π σ) :
    Prop where
  inv : inv c.pc c.mem
  event : waits c.pc → ready c.pc c.mem → c.event = true
  slept : c.slept = true → waits c.pc

namespace Announced

variable {P : Program π σ η} {inv : π → σ → Prop} {waits : π → Prop} {ready : π → σ → Prop}

theorem step (h : Announced P inv waits ready) {c d : Core π σ} {e : Event η}
    (hc : Alert inv waits ready c) (hstep : Step P c e d) : Alert inv waits ready d := by
  refine ⟨h.kept.step hc.inv hstep, ?_, ?_⟩
  · cases hstep with
    | access _ hcode => exact fun hwait hr => absurd hr (h.decide _ _ _ hcode hc.inv hwait)
    | sevl _ _ => exact fun _ _ => rfl
    | wfe _ _ hcode => exact fun hwait _ => absurd hwait (h.wfe _ _ hcode).2
    | sleep _ hclear _ =>
        intro hwait hr
        rw [hc.event hwait hr] at hclear
        exact absurd hclear (by simp)
    | wake _ _ _ hcode => exact fun hwait _ => absurd hwait (h.wfe _ _ hcode).2
    | interrupt =>
        intro hwait hr
        rcases h.handle _ _ _ hwait hr with hbefore | hsev
        · simp [hc.event hwait hbefore]
        · simp [hsev]
  · cases hstep with
    | sleep _ _ hcode => exact fun _ => (h.wfe _ _ hcode).1
    | interrupt => exact hc.slept
    | _ => exact fun hs => absurd hs (by simp)

/-- Wherever the program has decided to sleep, **what it waits for is announced by the register**. -/
theorem reachable (h : Announced P inv waits ready) {pc : π} {init : σ → Prop} (hpc : ¬ waits pc)
    (hinit : ∀ m, init m → inv pc m) {c : Core π σ} (hc : (system P pc init).Reachable c) :
    Alert inv waits ready c := by
  refine hc.invariant (P := Alert inv waits ready) ?_ ?_
  · rintro c ⟨hs, rfl, hm⟩
    exact ⟨hinit _ hm, fun hwait => absurd hwait hpc,
      fun hslept => absurd (hs.symm.trans hslept) (by simp)⟩
  · intro c e d _ halert hstep
    exact h.step halert hstep

end Announced

/-- **No lost wake-up**: the core sleeps only where the program waits, and only while what it waits
for is not there. -/
theorem Alert.no_lost_wakeup {inv : π → σ → Prop} {waits : π → Prop} {ready : π → σ → Prop}
    {c : Core π σ} (h : Alert inv waits ready c) (hasleep : c.Asleep) :
    waits c.pc ∧ ¬ ready c.pc c.mem := by
  refine ⟨h.slept hasleep.1, fun hr => ?_⟩
  have hset := h.event (h.slept hasleep.1) hr
  rw [hasleep.2] at hset
  exact absurd hset (by simp)

end EventRegister
