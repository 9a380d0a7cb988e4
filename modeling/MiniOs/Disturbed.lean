/-
**Programs that are disturbed between their steps.**

A program is a list of instructions, and each of them takes a state to the next one.  Before any
instruction, and after the last one, something else may happen to the state, any number of times.  If
the states on the way of the undisturbed program are such that a disturbance is not noticed there, and
no instruction tells two states apart that look the same, then the program ends as if nothing had
happened.

Main definitions:

* `Disturbed.run` — the undisturbed program;
* `Disturbed.Runs` — **the program with disturbances**.

Main results:

* `Disturbed.Runs.append_inv` — a disturbed program in two parts;
* `Disturbed.Runs.agrees` — **the disturbances make no difference that can be seen**.
-/

import Mathlib.Init

set_option relaxedAutoImplicit false
set_option autoImplicit false

universe u v

namespace Disturbed

variable {ι : Type u} {σ : Type v}

/-- The undisturbed program. -/
def run (step : ι → σ → σ) (program : List ι) (s : σ) : σ := program.foldl (fun s i => step i s) s

/-- **The program with disturbances**, from a state to another one. -/
inductive Runs (step : ι → σ → σ) (disturbs : σ → σ → Prop) : List ι → σ → σ → Prop
  | done (s : σ) : Runs step disturbs [] s s
  | disturbed {l : List ι} {s t u : σ} : disturbs s t → Runs step disturbs l t u →
      Runs step disturbs l s u
  | step {i : ι} {l : List ι} {s u : σ} : Runs step disturbs l (step i s) u →
      Runs step disturbs (i :: l) s u

variable {step : ι → σ → σ} {disturbs : σ → σ → Prop} {l m : List ι} {s t u : σ}

theorem run_append (l m : List ι) (s : σ) : run step (l ++ m) s = run step m (run step l s) :=
  List.foldl_append

/-- There may be no disturbance at all. -/
theorem runs_run (l : List ι) (s : σ) : Runs step disturbs l s (run step l s) := by
  induction l generalizing s with
  | nil => exact Runs.done s
  | cons i l ih => exact Runs.step (ih (step i s))

/-- A disturbed program in two parts. -/
theorem Runs.append_inv (h : Runs step disturbs (l ++ m) s u) :
    ∃ t, Runs step disturbs l s t ∧ Runs step disturbs m t u := by
  generalize hp : l ++ m = program at h
  induction h generalizing l with
  | done s =>
      obtain ⟨rfl, rfl⟩ := List.append_eq_nil_iff.1 hp
      exact ⟨s, Runs.done s, Runs.done s⟩
  | disturbed hd _ ih =>
      obtain ⟨t, hl, hm⟩ := ih hp
      exact ⟨t, Runs.disturbed hd hl, hm⟩
  | @step i rest s u hrun ih =>
      cases l with
      | nil =>
          obtain rfl : m = i :: rest := hp
          exact ⟨s, Runs.done s, Runs.step hrun⟩
      | cons j l =>
          obtain ⟨rfl, hrest⟩ := List.cons.inj hp
          obtain ⟨t, hl, hm⟩ := ih hrest
          exact ⟨t, Runs.step hl, hm⟩

/-- **The disturbances make no difference that can be seen.**  `Agrees s t` says that `t` looks like
the state `s` of the undisturbed program, and `Safe s` that a disturbance there is not noticed. -/
theorem Runs.agrees (Agrees : σ → σ → Prop) (Safe : σ → Prop)
    (hstep : ∀ i s t, i ∈ l → Safe s → Agrees s t → Agrees (step i s) (step i t))
    (hdisturb : ∀ s t u, Safe s → Agrees s t → disturbs t u → Agrees s u)
    (hsafe : ∀ i s, i ∈ l → Safe s → Safe (step i s))
    (h : Runs step disturbs l t u) (hs : Safe s) (hagree : Agrees s t) :
    Agrees (run step l s) u := by
  induction h generalizing s with
  | done t => exact hagree
  | disturbed hd _ ih => exact ih hstep hsafe hs (hdisturb _ _ _ hs hagree hd)
  | @step i l t u _ ih =>
      refine ih (s := step i s) (fun j s t hj => hstep j s t (List.mem_cons_of_mem i hj))
        (fun j s hj => hsafe j s (List.mem_cons_of_mem i hj)) ?_ ?_
      · exact hsafe i s List.mem_cons_self hs
      · exact hstep i s _ List.mem_cons_self hs hagree

end Disturbed
