/-
**High-water marks.**

A component that reserves more only when it has to keeps a level that is meant to be the highest
value some measure of it has had: the pages of a heap and the blocks in use, the slots of a table
and its live entries.  Two facts about single states and steps make a level such a mark: it is
never below the measure, and a step that changes it raises it to what the measure then is.  This
module proves from them that over every run the level is the greatest value the measure has had.

Main definitions:

* `Watermark.Tracks` — the two facts.

Main results:

* `Watermark.Tracks.isGreatest` — **the level is the greatest value so far of the measure**;
* `Watermark.Tracks.mono` — the level never falls.
-/

import Mathlib.Order.Bounds.Basic
import MiniOs.Lts

set_option relaxedAutoImplicit false
set_option autoImplicit false

universe u v w x

namespace Watermark

variable {σ : Type u} {ε : Type v} {γ : Type w} {α : Type x} [LinearOrder α]

/-- **The level keeps track of the measure** in the system `S`. -/
structure Tracks (S : Lts σ ε) (measure level : σ → α) : Prop where
  /-- The level is never below the measure. -/
  above : ∀ s, S.Reachable s → measure s ≤ level s
  /-- A step that changes the level raises it to the measure after the step. -/
  rises : ∀ s e t, S.Reachable s → S.step s e t →
    level t = level s ∨ level s ≤ level t ∧ level t = measure t

namespace Tracks

variable {S : Lts σ ε} {measure level : σ → α}

/-- The level never falls along a run. -/
theorem mono (h : Tracks S measure level) {s t : σ} (hs : S.Reachable s)
    (ht : (S.after s).Reachable t) : level s ≤ level t := by
  refine ht.invariant (P := fun u => level s ≤ level u) ?_ ?_
  · rintro _ rfl
    exact le_rfl
  · intro u e v hu hle hstep
    rcases h.rises u e v (hs.of_after hu) hstep with hsame | ⟨hrise, -⟩
    · rwa [hsame]
    · exact hle.trans hrise

/-- **The level is the greatest value so far of the measure**, when a record of the past adds the
measure after each step to the values it starts from. -/
theorem isGreatest (h : Tracks S measure level) {h₀ : γ} {upd : γ → σ → ε → σ → γ}
    (values : γ → Set α) (hinit : ∀ s, S.init s → IsGreatest (values h₀) (level s))
    (hupd : ∀ g s e t, values (upd g s e t) = insert (measure t) (values g)) {p : σ × γ}
    (hp : (S.withHistory h₀ upd).Reachable p) : IsGreatest (values p.2) (level p.1) := by
  refine hp.history_invariant (P := fun s g => IsGreatest (values g) (level s)) hinit ?_
  intro s g e t hs hg hstep
  have hgreatest := hg.insert (measure t)
  rw [hupd]
  rcases h.rises s e t hs hstep with hsame | ⟨hrise, hlevel⟩
  · have hle : measure t ≤ level s := hsame ▸ h.above t (hs.step hstep)
    rw [max_eq_right hle] at hgreatest
    rwa [hsame]
  · rw [hlevel] at hrise ⊢
    rwa [max_eq_left hrise] at hgreatest

end Tracks

end Watermark
