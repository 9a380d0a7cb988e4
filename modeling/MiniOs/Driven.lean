/-
**Machines driven by an environment.**

At each step such a machine takes what the environment gives it, and it has no choice of its own.
What is proved about it is proved for every environment: that it gets somewhere, after some number of
steps that may depend on what it is given.  Such facts compose like total correctness of programs:
one after the other, and round after round of a loop.

Main definitions:

* `Driven.run` — a number of steps, with the inputs of an environment;
* `Driven.Leads` — **in every environment the machine gets to a state with the property**;
* `Driven.Fair` — the environment helps again and again.

Main results:

* `Driven.run_invariant` — what each step keeps, a run keeps;
* `Driven.Leads.of_step`, `Driven.Leads.trans`, `Driven.Leads.loop` — one step, one run after another,
  and a loop;
* `Driven.Fair.reaches`, `Driven.Fair.reaches_of_allowed` — a machine that may have to wait gets there in
  every fair environment.
-/

import Mathlib.Data.Nat.Notation

set_option relaxedAutoImplicit false
set_option autoImplicit false

universe u v

namespace Driven

variable {σ : Type u} {ε : Type v} {step : ε → σ → Option σ} {P Q : σ → Prop} {s t : σ}

/-! ### Runs -/

/-- The state after `n` steps, if the machine can make that many. -/
def run (step : ε → σ → Option σ) : (env : ℕ → ε) → ℕ → σ → Option σ
  | _, 0, s => some s
  | env, n + 1, s => (step (env 0) s).bind (run step (fun i => env (i + 1)) n)

theorem run_succ {env : ℕ → ε} {n : ℕ} (h : step (env 0) s = some t) :
    run step env (n + 1) s = run step (fun i => env (i + 1)) n t := by
  rw [run, h, Option.bind_some]

/-- A run goes on where another one has ended. -/
theorem run_add {env : ℕ → ε} {m : ℕ} (n : ℕ) (h : run step env m s = some t) :
    run step env (m + n) s = run step (fun i => env (i + m)) n t := by
  induction m generalizing env s with
  | zero =>
      cases h
      rw [Nat.zero_add]
      rfl
  | succ m ih =>
      rw [run] at h
      cases hs : step (env 0) s with
      | none =>
          rw [hs] at h
          cases h
      | some u =>
          rw [hs] at h
          rw [Nat.succ_add, run_succ hs, ih h]
          rfl

/-- **The invariant rule**: what each step keeps, a run keeps. -/
theorem run_invariant (hstep : ∀ e s t, P s → step e s = some t → P t) {env : ℕ → ε} {n : ℕ}
    (hs : P s) (h : run step env n s = some t) : P t := by
  induction n generalizing env s with
  | zero =>
      cases h
      exact hs
  | succ n ih =>
      rw [run] at h
      cases hu : step (env 0) s with
      | none =>
          rw [hu] at h
          cases h
      | some u =>
          rw [hu] at h
          exact ih (hstep _ _ _ hs hu) h

/-! ### Getting somewhere -/

/-- **In every environment the machine gets to a state with the property.** -/
def Leads (step : ε → σ → Option σ) (P : σ → Prop) (s : σ) : Prop :=
  ∀ env, ∃ n t, run step env n s = some t ∧ P t

namespace Leads

theorem here (h : P s) : Leads step P s := fun _ => ⟨0, s, rfl, h⟩

/-- Every step goes to a state that leads on. -/
theorem of_step (h : ∀ e, ∃ t, step e s = some t ∧ Leads step P t) : Leads step P s := by
  intro env
  obtain ⟨t, ht, hlead⟩ := h (env 0)
  obtain ⟨n, u, hu, hP⟩ := hlead fun i => env (i + 1)
  exact ⟨n + 1, u, (run_succ ht).trans hu, hP⟩

theorem trans (h : Leads step P s) (h' : ∀ t, P t → Leads step Q t) : Leads step Q s := by
  intro env
  obtain ⟨m, t, ht, hP⟩ := h env
  obtain ⟨n, u, hu, hQ⟩ := h' t hP fun i => env (i + m)
  exact ⟨m + n, u, (run_add n ht).trans hu, hQ⟩

/-- **The rule for loops**: round after round. -/
theorem loop {R : ℕ → σ → Prop} {n : ℕ} (hround : ∀ r < n, ∀ s, R r s → Leads step (R (r + 1)) s)
    (h : R 0 s) : Leads step (R n) s := by
  induction n with
  | zero => exact here h
  | succ n ih =>
      refine (ih fun r hr => hround r (Nat.lt_succ_of_lt hr)).trans ?_
      intro t ht
      exact hround n (Nat.lt_succ_self n) t ht

end Leads

/-! ### Fair environments -/

/-- The environment helps again and again. -/
def Fair (helps : ε → Prop) (env : ℕ → ε) : Prop := ∀ i, ∃ j, i ≤ j ∧ helps (env j)

/-- What comes later is fair as well. -/
theorem Fair.later {helps : ε → Prop} {env : ℕ → ε} (h : Fair helps env) (n : ℕ) :
    Fair helps fun i => env (i + n) := by
  intro i
  obtain ⟨j, hj, hhelps⟩ := h (i + n)
  obtain ⟨k, rfl⟩ := Nat.exists_eq_add_of_le hj
  refine ⟨i + k, Nat.le_add_right i k, ?_⟩
  rwa [Nat.add_right_comm] at hhelps

/-- The machine waits for the environment to help. -/
theorem Fair.decreases {helps : ε → Prop} {env : ℕ → ε} {variant : σ → ℕ}
    (hstep : ∀ e s, P s → ¬ Q s → ∃ t, step e s = some t ∧ P t ∧ variant t ≤ variant s ∧
      (helps e → variant t < variant s))
    (hfair : Fair helps env) (hs : P s) :
    ∃ n t, run step env n s = some t ∧ P t ∧ (Q t ∨ variant t < variant s) := by
  obtain ⟨j, -, hhelps⟩ := hfair 0
  -- by induction on how long the machine waits
  induction j generalizing env s with
  | zero =>
      by_cases hQ : Q s
      · exact ⟨0, s, rfl, hs, Or.inl hQ⟩
      · obtain ⟨t, ht, hP, -, hless⟩ := hstep (env 0) s hs hQ
        exact ⟨1, t, run_succ ht, hP, Or.inr (hless hhelps)⟩
  | succ j ih =>
      by_cases hQ : Q s
      · exact ⟨0, s, rfl, hs, Or.inl hQ⟩
      · obtain ⟨t, ht, hP, hle, -⟩ := hstep (env 0) s hs hQ
        obtain ⟨n, u, hu, hPu, hgoal⟩ := ih (hfair.later 1) hP hhelps
        refine ⟨n + 1, u, (run_succ ht).trans hu, hPu, ?_⟩
        exact hgoal.imp_right fun hlt => Nat.lt_of_lt_of_le hlt hle

/-- **The rule of fair progress**: the machine gets to the goal when no step increases the variant, and
each step for which the environment helps decreases it. -/
theorem Fair.reaches {helps : ε → Prop} {env : ℕ → ε} {variant : σ → ℕ}
    (hstep : ∀ e s, P s → ¬ Q s → ∃ t, step e s = some t ∧ P t ∧ variant t ≤ variant s ∧
      (helps e → variant t < variant s))
    (hfair : Fair helps env) (hs : P s) : ∃ n t, run step env n s = some t ∧ P t ∧ Q t := by
  obtain ⟨bound, hbound⟩ : ∃ bound, variant s < bound := ⟨_, Nat.lt_succ_self _⟩
  induction bound generalizing env s with
  | zero => exact absurd hbound (Nat.not_lt_zero _)
  | succ bound ih =>
      obtain ⟨m, t, ht, hP, hgoal⟩ := hfair.decreases hstep hs
      rcases hgoal with hQ | hless
      · exact ⟨m, t, ht, hP, hQ⟩
      · have hlt : variant t < bound := Nat.lt_of_lt_of_le hless (Nat.le_of_lt_succ hbound)
        obtain ⟨n, u, hu, hgoal⟩ := ih (hfair.later m) hP hlt
        exact ⟨m + n, u, (run_add n ht).trans hu, hgoal⟩

/-- Steps that are made in allowed environments only. -/
theorem run_restrict {allowed : ε → Prop} (env : ℕ → { e // allowed e }) (n : ℕ) (s : σ) :
    run (fun e : { e // allowed e } => step e.1) env n s = run step (fun i => (env i).1) n s := by
  induction n generalizing env s with
  | zero => rfl
  | succ n ih =>
      rw [run, run]
      exact congrArg _ (funext fun t => ih (fun i => env (i + 1)) t)

/-- The rule of fair progress, for environments of which more is known. -/
theorem Fair.reaches_of_allowed {helps allowed : ε → Prop} {env : ℕ → ε} {variant : σ → ℕ}
    (hstep : ∀ e s, allowed e → P s → ¬ Q s → ∃ t, step e s = some t ∧ P t ∧
      variant t ≤ variant s ∧ (helps e → variant t < variant s))
    (hfair : Fair helps env) (hallowed : ∀ i, allowed (env i)) (hs : P s) :
    ∃ n t, run step env n s = some t ∧ P t ∧ Q t := by
  have hfair' : Fair (fun e : { e // allowed e } => helps e.1) fun i => ⟨env i, hallowed i⟩ := hfair
  obtain ⟨n, t, hrun, hgoal⟩ := Fair.reaches (fun e s => hstep e.1 s e.2) hfair' hs
  rw [run_restrict] at hrun
  exact ⟨n, t, hrun, hgoal⟩

end Driven
