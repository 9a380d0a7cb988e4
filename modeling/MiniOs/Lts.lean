/-
**Labelled transition systems, their runs, and history variables.**

A reactive component is given by its initial states and by a labelled step relation.  What is
proved about it is proved of every state some finite run reaches, and often relates that state to
what happened on the way.  This module supplies the rules such proofs rest on:

* the invariant rule — a property that holds initially and is kept by every step of a reachable
  state holds of every reachable state (`Lts.Reachable.invariant`);
* the simulation rule — what a system reaches is related to what a coarser one reaches, when each of
  its steps is one step there or none (`Lts.Reachable.simulation`);
* the rule of potentials — what the steps of a run cost together (`Lts.Run.potential`);
* history variables — a system may be run together with a record of its past
  (`Lts.withHistory`) without changing which states it reaches (`Lts.Reachable.fst`,
  `Lts.Reachable.exists_history`), and what relates a state to its record is proved step by step
  (`Lts.Reachable.history_invariant`).

Main definitions:

* `Lts` — a labelled transition system;
* `Lts.Reachable` — the states reached from an initial one;
* `Lts.Run` — the labelled runs between two states;
* `Lts.total` — the sum of a quantity over a run;
* `Lts.after` — the system started in another state, for what happens from there on;
* `Lts.withHistory` — the system that carries a record of its past along.
-/

import Mathlib.Init

set_option relaxedAutoImplicit false
set_option autoImplicit false

universe u v w x

/-- A labelled transition system: the initial states, and which state a label leads to. -/
structure Lts (σ : Type u) (ε : Type v) where
  /-- The initial states. -/
  init : σ → Prop
  /-- The step relation. -/
  step : σ → ε → σ → Prop

namespace Lts

variable {σ : Type u} {ε : Type v} {γ : Type w}

/-! ### Reachable states -/

/-- The states reached from an initial state by finitely many steps. -/
inductive Reachable (S : Lts σ ε) : σ → Prop
  | init {s : σ} : S.init s → Reachable S s
  | step {s t : σ} {e : ε} : Reachable S s → S.step s e t → Reachable S t

/-- **The invariant rule**: a property of the initial states that every step out of a reachable
state keeps is a property of all reachable states. -/
theorem Reachable.invariant {S : Lts σ ε} {P : σ → Prop} (hinit : ∀ s, S.init s → P s)
    (hstep : ∀ s e t, S.Reachable s → P s → S.step s e t → P t) {s : σ} (h : S.Reachable s) :
    P s := by
  induction h with
  | init h0 => exact hinit _ h0
  | step hr hs ih => exact hstep _ _ _ hr ih hs

/-- A run from one state to another, with the labels of its steps. -/
inductive Run (S : Lts σ ε) : σ → List ε → σ → Prop
  | nil {s : σ} : Run S s [] s
  | cons {s t u : σ} {e : ε} {l : List ε} : S.step s e t → Run S t l u → Run S s (e :: l) u

/-- A run goes on where another one has ended. -/
theorem Run.append {S : Lts σ ε} {s t u : σ} {l m : List ε} (h : S.Run s l t) (h' : S.Run t m u) :
    S.Run s (l ++ m) u := by
  induction h with
  | nil => exact h'
  | cons hs _ ih => exact Run.cons hs (ih h')

/-- What a run out of a reachable state gets to is reachable. -/
theorem Reachable.run {S : Lts σ ε} {s t : σ} {l : List ε} (h : S.Reachable s) (hrun : S.Run s l t) :
    S.Reachable t := by
  induction hrun with
  | nil => exact h
  | cons hs _ ih => exact ih (h.step hs)

/-- The sum of a quantity over the labels of a run. -/
def total (f : ε → Nat) : List ε → Nat
  | [] => 0
  | e :: l => f e + total f l

/-- **The rule of potentials**: when the cost of a step is covered by what it takes from a potential and
what its label adds, the cost of a run is covered by the potential at its start and what all its labels
add. -/
theorem Run.potential {S : Lts σ ε} (cost gain : ε → Nat) (potential : σ → Nat)
    (hstep : ∀ s e t, S.step s e t → cost e + potential t ≤ potential s + gain e) {s t : σ}
    {l : List ε} (h : S.Run s l t) :
    total cost l + potential t ≤ potential s + total gain l := by
  induction h with
  | nil => exact Nat.le_of_eq (Nat.add_comm _ _)
  | cons hs _ ih =>
      have h := hstep _ _ _ hs
      rw [total, total]
      omega

/-- The continuations of a run: the system started in the state `s`. -/
def after (S : Lts σ ε) (s : σ) : Lts σ ε where
  init t := t = s
  step := S.step

/-- What a continuation reaches, the system reaches. -/
theorem Reachable.of_after {S : Lts σ ε} {s t : σ} (h : S.Reachable s)
    (ht : (S.after s).Reachable t) : S.Reachable t := by
  refine ht.invariant (P := S.Reachable) ?_ ?_
  · rintro _ rfl
    exact h
  · intro t e u _ ht hstep
    exact ht.step hstep

/-! ### Simulation -/

/-- **The simulation rule**: when a relation to the states of another system holds at the start, and
every step is matched by a step there or by none, each reachable state is related to a reachable
one. -/
theorem Reachable.simulation {τ : Type w} {δ : Type x} {S : Lts σ ε} {A : Lts τ δ} {R : σ → τ → Prop}
    (hinit : ∀ s, S.init s → ∃ a, A.Reachable a ∧ R s a)
    (hstep : ∀ s e t a, S.Reachable s → A.Reachable a → R s a → S.step s e t →
      R t a ∨ ∃ d a', A.step a d a' ∧ R t a') {s : σ} (h : S.Reachable s) :
    ∃ a, A.Reachable a ∧ R s a := by
  induction h with
  | init h0 => exact hinit _ h0
  | @step s t e hr hs ih =>
      obtain ⟨a, ha, hrel⟩ := ih
      rcases hstep s e t a hr ha hrel hs with hrel' | ⟨d, a', hd, hrel'⟩
      · exact ⟨a, ha, hrel'⟩
      · exact ⟨a', ha.step hd, hrel'⟩

/-! ### History variables -/

/-- The system `S` run together with a record of its past: the record starts as `h₀` and `upd`
adds to it what a step did. -/
def withHistory (S : Lts σ ε) (h₀ : γ) (upd : γ → σ → ε → σ → γ) : Lts (σ × γ) ε where
  init p := S.init p.1 ∧ p.2 = h₀
  step p e q := S.step p.1 e q.1 ∧ q.2 = upd p.2 p.1 e q.1

variable {S : Lts σ ε} {h₀ : γ} {upd : γ → σ → ε → σ → γ}

/-- A record of the past does not add reachable states. -/
theorem Reachable.fst {p : σ × γ} (h : (S.withHistory h₀ upd).Reachable p) : S.Reachable p.1 := by
  induction h with
  | init h0 => exact Reachable.init h0.1
  | step _ hs ih => exact Reachable.step ih hs.1

/-- Neither does it add runs. -/
theorem Run.fst {p q : σ × γ} {l : List ε} (h : (S.withHistory h₀ upd).Run p l q) :
    S.Run p.1 l q.1 := by
  induction h with
  | nil => exact Run.nil
  | cons hs _ ih => exact Run.cons hs.1 ih

/-- **The invariant rule with a record**: what holds of the initial states and the first record, and
is kept by every step together with what it adds to the record, holds of every reachable state and
its record. -/
theorem Reachable.history_invariant {P : σ → γ → Prop} (hinit : ∀ s, S.init s → P s h₀)
    (hstep : ∀ s g e t, S.Reachable s → P s g → S.step s e t → P t (upd g s e t)) {p : σ × γ}
    (h : (S.withHistory h₀ upd).Reachable p) : P p.1 p.2 := by
  refine h.invariant (P := fun p => P p.1 p.2) ?_ ?_
  · intro p hp
    rw [hp.2]
    exact hinit p.1 hp.1
  · intro p e q hr hp hs
    rw [hs.2]
    exact hstep p.1 p.2 e q.1 hr.fst hp hs.1

/-- A record of the past does not remove reachable states either. -/
theorem Reachable.exists_history {s : σ} (h : S.Reachable s) :
    ∃ g, (S.withHistory h₀ upd).Reachable (s, g) := by
  induction h with
  | init h0 => exact ⟨h₀, Reachable.init ⟨h0, rfl⟩⟩
  | @step s t e _ hs ih =>
      obtain ⟨g, hg⟩ := ih
      exact ⟨upd g s e t, Reachable.step hg ⟨hs, rfl⟩⟩

/-- A record that grows by one entry at a time: each of its prefixes was the record of an earlier
state. -/
theorem Reachable.exists_prefix {α : Type w} {upd : List α → σ → ε → σ → List α}
    (hupd : ∀ l s e t, upd l s e t = l ∨ ∃ a, upd l s e t = l ++ [a]) {p : σ × List α}
    (h : (S.withHistory [] upd).Reachable p) {l : List α} (hl : l <+: p.2) :
    ∃ s, (S.withHistory [] upd).Reachable (s, l) := by
  induction h with
  | @init p h0 =>
      rw [h0.2, List.prefix_nil] at hl
      rw [hl]
      exact ⟨p.1, Reachable.init ⟨h0.1, rfl⟩⟩
  | @step p q e hr hs ih =>
      rw [hs.2] at hl
      rcases hupd p.2 p.1 e q.1 with hsame | ⟨a, happend⟩
      · rw [hsame] at hl
        exact ih hl
      · rw [happend, List.prefix_concat_iff] at hl
        rcases hl with rfl | hl
        · exact ⟨q.1, hr.step ⟨hs.1, happend.symm⟩⟩
        · exact ih hl

end Lts
