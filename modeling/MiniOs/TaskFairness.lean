/-
**The scheduler is fair.**

`find_next_ready` looks at the slots after the current one in cyclic order.  A READY slot therefore
comes closer with every context switch until it is dispatched, whatever is created, finished or
reaped meanwhile; and the slots dispatched while a task waits for its next turn come in the order of
their distance from its slot, so that none of them comes twice.

Main definitions:

* `Task.Switch`, `Task.recordSwitch` — the context switches of a run;
* `Task.kernelAfter` — what happens after a state, with its context switches;
* `Task.Waited` — what is known about the switches since a slot was dispatched.

Main results:

* `Task.step_nearest` — a context switch passes by no READY slot;
* `Task.step_ready` — a READY slot stays READY until it is dispatched;
* `Task.dispatch_fair` — **the bound, the turns, and yields that do not switch**.
-/

import MiniOs.TaskRun

set_option relaxedAutoImplicit false
set_option autoImplicit false

namespace MiniOs

namespace Task

open CyclicScan (distance distance_lt distance_pos distance_add_distance distance_add_swap)

variable {N : ℕ}

/-! ### Context switches -/

/-- A context switch: the slots that lost and got the CPU, and whether the first was FINISHED. -/
structure Switch (N : ℕ) where
  previous : Fin N
  next : Fin N
  finished : Bool

/-- The context switches so far: a step that changes the current slot adds one. -/
def recordSwitch (switches : List (Switch N)) (s : Sys N) (_ : Op N) (t : Sys N) :
    List (Switch N) :=
  if t.kernel.currentTask = s.kernel.currentTask then switches
  else switches ++ [⟨s.kernel.currentTask, t.kernel.currentTask,
    (t.kernel.tasks s.kernel.currentTask).state = .finished⟩]

variable [NeZero N]

/-- What happens after the state `s`, with the context switches since. -/
def kernelAfter (bootstrap kernelEnd : Word) (s : Sys N) :
    Lts (Sys N × List (Switch N)) (Op N) :=
  ((kernel bootstrap kernelEnd).after s).withHistory [] recordSwitch

variable {bootstrap : Word} {s t : Sys N} {op : Op N} {j : Fin N}

/-- **A context switch passes by no READY slot.** -/
theorem step_nearest (h : SchedInv s.kernel) (hstep : Step bootstrap s op t)
    (hne : t.kernel.currentTask ≠ s.kernel.currentTask) (hready : (s.kernel.tasks j).state = .ready) :
    distance s.kernel.currentTask t.kernel.currentTask ≤ distance s.kernel.currentTask j := by
  have hj : j ≠ s.kernel.currentTask := h.ne_current (by simp [hready])
  cases hregs : op.regs with
  | none => exact absurd (step_stay hstep hregs).1 hne
  | some regs =>
      obtain ⟨-, hleave⟩ := step_leave h hstep hregs
      generalize t.kernel = u at hne hleave ⊢
      cases hleave with
      | stay _ _ => exact absurd rfl hne
      | suspend _ hnext =>
          exact CyclicScan.first_distance_le hnext hj (decide_eq_true hready)
      | finish _ hcur hnext _ _ =>
          rw [findNextReady, retire_currentTask] at hnext
          rw [← (SchedInv.vacates_retire hcur).others j hj] at hready
          exact CyclicScan.first_distance_le hnext hj (decide_eq_true hready)

/-- **A READY slot stays READY** until it is dispatched. -/
theorem step_ready (h : SchedInv s.kernel) (hstep : Step bootstrap s op t)
    (hready : (s.kernel.tasks j).state = .ready) (hj : j ≠ t.kernel.currentTask) :
    (t.kernel.tasks j).state = .ready := by
  cases hregs : op.regs with
  | some regs =>
      have hcur : j ≠ s.kernel.currentTask := h.ne_current (by simp [hready])
      rw [h.leave_others (step_leave h hstep hregs).2 hcur hj]
      exact hready
  | none =>
      obtain ⟨-, -, ⟨hreaps, -⟩ | ⟨_, _, i, _, _, -, -, -, hst, -, hfill⟩⟩ := step_stay hstep hregs
      · rw [hreaps.tasks j (by simp [hready])]
        exact hready
      · have hji : j ≠ i := by
          rintro rfl
          rw [hst] at hready
          exact absurd hready (by simp)
        rw [hfill]
        simp only [fillSlot, State.setSlot, Function.update_of_ne hji]
        exact hready

/-- The slot that loses the CPU is READY or FINISHED. -/
theorem step_previous (h : SchedInv s.kernel) (hstep : Step bootstrap s op t)
    (hne : t.kernel.currentTask ≠ s.kernel.currentTask) :
    (t.kernel.tasks s.kernel.currentTask).state = .ready ∨
      (t.kernel.tasks s.kernel.currentTask).state = .finished := by
  cases hregs : op.regs with
  | none => exact absurd (step_stay hstep hregs).1 hne
  | some regs =>
      rcases h.leave_cases (step_leave h hstep hregs).2 with heq | ⟨next, v, hnext, -, hv, heq⟩
      · rw [heq] at hne
        exact absurd rfl hne
      · rw [heq, dispatch_state, if_neg hnext.symm]
        rcases hv.state with ⟨hst, -⟩ | ⟨hst, -⟩
        · exact Or.inl hst
        · exact Or.inr hst

/-! ### The bound -/

/-- The slot `j` was dispatched by one of the next `n` switches, or it is READY and the switches made
so far have brought it closer. -/
def Approaches (n : ℕ) (j : Fin N) (s : Sys N) (switches : List (Switch N)) : Prop :=
  j ∈ (switches.map Switch.next).take n ∨
    (s.kernel.tasks j).state = .ready ∧ distance s.kernel.currentTask j + switches.length ≤ n

theorem approaches_step {n : ℕ} {switches : List (Switch N)} (h : SchedInv s.kernel)
    (hstep : Step bootstrap s op t) (happ : Approaches n j s switches) :
    Approaches n j t (recordSwitch switches s op t) := by
  by_cases hsame : t.kernel.currentTask = s.kernel.currentTask
  · rw [recordSwitch, if_pos hsame]
    refine happ.imp_right fun ⟨hready, hle⟩ => ?_
    have hj : j ≠ s.kernel.currentTask := h.ne_current (by simp [hready])
    rw [hsame]
    exact ⟨step_ready h hstep hready (by rwa [hsame]), hle⟩
  · rw [recordSwitch, if_neg hsame, Approaches, List.map_append, List.take_append, List.mem_append,
      List.length_map]
    rcases happ with hmem | ⟨hready, hle⟩
    · exact Or.inl (Or.inl hmem)
    · have hj : j ≠ s.kernel.currentTask := h.ne_current (by simp [hready])
      have hpos := distance_pos hj
      by_cases hjt : j = t.kernel.currentTask
      · -- the turn has come before the bound is used up
        left
        right
        rw [List.take_of_length_le (by simp; omega), hjt]
        exact List.mem_singleton_self _
      · right
        have hpos' := distance_pos hsame
        have hadd := distance_add_distance (step_nearest h hstep hsame hready)
        refine ⟨step_ready h hstep hready hjt, ?_⟩
        rw [List.length_append, List.length_singleton]
        omega

/-! ### The turns -/

/-- The slots dispatched since the slot `i` was: none while it has the CPU; while it waits, READY, they
come in the order of their distance from it. -/
def Waited (i : Fin N) (s : Sys N) (turns : List (Fin N)) : Prop :=
  turns = [] ∧ s.kernel.currentTask = i ∨
    (s.kernel.tasks i).state = .ready ∧ (turns.map (distance i)).Pairwise (· < ·) ∧
      ∀ j ∈ turns, distance i j ≤ distance i s.kernel.currentTask

variable {i : Fin N} {turns : List (Fin N)}

omit [NeZero N] in
/-- Slots in the order of their distance are distinct. -/
theorem Waited.nodup (hw : Waited i s turns) : turns.Nodup := by
  rcases hw with ⟨rfl, -⟩ | ⟨-, hturns, -⟩
  · exact List.nodup_nil
  · exact List.Nodup.of_map (distance i) (hturns.imp Nat.ne_of_lt)

theorem waited_stay (h : SchedInv s.kernel) (hstep : Step bootstrap s op t)
    (hsame : t.kernel.currentTask = s.kernel.currentTask) (hw : Waited i s turns) :
    Waited i t turns := by
  rw [Waited, hsame]
  refine hw.imp_right fun ⟨hready, hturns⟩ => ⟨?_, hturns⟩
  have hi : i ≠ s.kernel.currentTask := h.ne_current (by simp [hready])
  exact step_ready h hstep hready (by rwa [hsame])

/-- **The next slot is farther away** than those dispatched before. -/
theorem waited_switch (h : SchedInv s.kernel) (hstep : Step bootstrap s op t)
    (hne : t.kernel.currentTask ≠ s.kernel.currentTask) (hi : t.kernel.currentTask ≠ i)
    (halive : s.kernel.currentTask = i → (t.kernel.tasks i).state ≠ .finished)
    (hw : Waited i s turns) : Waited i t (turns ++ [t.kernel.currentTask]) := by
  right
  rcases hw with ⟨rfl, rfl⟩ | ⟨hready, hturns, hle⟩
  · refine ⟨?_, List.pairwise_singleton _ _, ?_⟩
    · exact (step_previous h hstep hne).resolve_right (halive rfl)
    · intro j hj
      rw [List.mem_singleton.1 hj]
  · have hcur : i ≠ s.kernel.currentTask := h.ne_current (by simp [hready])
    -- the switch stops before it comes round to the waiting slot
    have hfarther : distance i s.kernel.currentTask < distance i t.kernel.currentTask := by
      have hadd := distance_add_distance (step_nearest h hstep hne hready)
      have hround := distance_add_swap hcur
      have hround' := distance_add_swap hi.symm
      have hpos := distance_pos hne
      omega
    refine ⟨step_ready h hstep hready hi.symm, ?_, ?_⟩
    · rw [List.map_append, List.pairwise_append]
      refine ⟨hturns, List.pairwise_singleton _ _, ?_⟩
      intro d hd e he
      obtain ⟨j, hj, rfl⟩ := List.mem_map.1 hd
      rw [List.map_singleton, List.mem_singleton] at he
      rw [he]
      exact (hle j hj).trans_lt hfarther
    · intro j hj
      rcases List.mem_append.1 hj with hj | hj
      · exact ((hle j hj).trans_lt hfarther).le
      · rw [List.mem_singleton.1 hj]

/-- The switches between two dispatches of the slot `i`, which is alive all the time: none dispatches
it, and none finishes it. -/
def Between (i : Fin N) (switches : List (Switch N)) : Prop :=
  ∀ x ∈ switches, x.next ≠ i ∧ ¬ (x.previous = i ∧ x.finished = true)

/-- All turns taken so far were waited for in order. -/
def TurnsInv (s : Sys N) (switches : List (Switch N)) : Prop :=
  ∀ before first between, switches = before ++ first :: between → Between first.next between →
    Waited first.next s (between.map Switch.next)

theorem turnsInv_step {switches : List (Switch N)} (h : SchedInv s.kernel)
    (hstep : Step bootstrap s op t) (hinv : TurnsInv s switches) :
    TurnsInv t (recordSwitch switches s op t) := by
  intro before first between heq hbetween
  by_cases hsame : t.kernel.currentTask = s.kernel.currentTask
  · rw [recordSwitch, if_pos hsame] at heq
    exact waited_stay h hstep hsame (hinv before first between heq hbetween)
  · rw [recordSwitch, if_neg hsame] at heq
    rcases List.eq_nil_or_concat between with rfl | ⟨between, last, rfl⟩
    · -- the slot was dispatched just now
      obtain ⟨-, hfirst⟩ := List.append_singleton_inj.1 heq
      rw [← hfirst]
      exact Or.inl ⟨rfl, rfl⟩
    · rw [List.concat_eq_append] at heq hbetween ⊢
      rw [← List.cons_append, ← List.append_assoc, List.append_singleton_inj] at heq
      obtain ⟨heq, rfl⟩ := heq
      have hlast := hbetween _ (List.mem_append_right _ (List.mem_singleton_self _))
      have hbefore : Between first.next between :=
        fun x hx => hbetween x (List.mem_append_left _ hx)
      rw [List.map_append, List.map_singleton]
      refine waited_switch h hstep hsame hlast.1 ?_ (hinv before first between heq hbefore)
      intro hprev hfin
      refine hlast.2 ⟨hprev, decide_eq_true ?_⟩
      rw [hprev]
      exact hfin

/-! ### Fairness -/

/-- The two invariants hold after every state that the system reaches. -/
theorem kernelAfter_inv {kernelEnd : Word} {switches : List (Switch N)}
    (h : (kernel bootstrap kernelEnd).Reachable s)
    (ht : (kernelAfter bootstrap kernelEnd s).Reachable (t, switches)) :
    SchedInv t.kernel ∧ TurnsInv t switches ∧
      ∀ j, (s.kernel.tasks j).state = .ready → Approaches (N - 1) j t switches := by
  refine ⟨reachable_schedInv (h.of_after ht.fst), ?_⟩
  refine Lts.Reachable.history_invariant (P := fun t switches => TurnsInv t switches ∧
    ∀ j, (s.kernel.tasks j).state = .ready → Approaches (N - 1) j t switches) ?_ ?_ ht
  · intro u hu
    have hu' : u = s := hu
    rw [hu']
    refine ⟨fun before first between heq _ => absurd heq (by simp), ?_⟩
    intro j hready
    have hlt := distance_lt s.kernel.currentTask j
    exact Or.inr ⟨hready, by rw [List.length_nil]; omega⟩
  · intro u switches op v hu ⟨hturns, happ⟩ hstep
    have hinv := reachable_schedInv (h.of_after hu)
    exact ⟨turnsInv_step hinv hstep hturns, fun j hready => approaches_step hinv hstep (happ j hready)⟩

/-- **The scheduler is fair.**  After any state the system reaches, and whatever happens: a slot that
was READY is dispatched by one of the next `N - 1` context switches; between two dispatches of a
slot that is alive all the time no slot is dispatched twice; and `task_yield` leaves the current
slot as it is only when no other is READY. -/
theorem dispatch_fair {kernelEnd : Word} {switches : List (Switch N)}
    (h : (kernel bootstrap kernelEnd).Reachable s)
    (ht : (kernelAfter bootstrap kernelEnd s).Reachable (t, switches)) :
    (∀ j, (s.kernel.tasks j).state = .ready → N - 1 ≤ switches.length →
      j ∈ (switches.map Switch.next).take (N - 1)) ∧
    (∀ before first between rest, switches = before ++ first :: between ++ rest →
      Between first.next between → (between.map Switch.next).Nodup) ∧
    ∀ regs, (taskYield regs t.kernel).currentTask = t.kernel.currentTask →
      ∀ i, i ≠ t.kernel.currentTask → (t.kernel.tasks i).state ≠ .ready := by
  obtain ⟨hinv, -, happ⟩ := kernelAfter_inv h ht
  refine ⟨?_, ?_, ?_⟩
  · intro j hready hlen
    rcases happ j hready with hmem | ⟨hready', hle⟩
    · exact hmem
    · have hpos := distance_pos (hinv.ne_current (i := j) (by simp [hready']))
      omega
  · intro before first between rest heq hbetween
    obtain ⟨u, hu⟩ := ht.exists_prefix (l := before ++ first :: between) (fun switches s op t => by
      rw [recordSwitch]
      split
      · exact Or.inl rfl
      · exact Or.inr ⟨_, rfl⟩) ⟨rest, heq.symm⟩
    exact ((kernelAfter_inv h hu).2.1 before first between rfl hbetween).nodup
  · intro regs hsame i hi hready
    rcases hinv.taskYield_cases regs with ⟨hf, heq⟩ | ⟨-, hnone, -⟩ | ⟨-, next, hnext, heq⟩
    · obtain ⟨next, -, hne, -, hexit⟩ := hinv.exitTask_eq hf.1 regs
      rw [heq, hexit, dispatch_currentTask] at hsame
      exact hne hsame
    · exact absurd (decide_eq_true hready) (by
        rw [CyclicScan.first_eq_none_iff.1 hnone i hi]
        simp)
    · rw [heq, dispatch_currentTask] at hsame
      exact (findNextReady_some hnext).1 hsame

/-- The boot flow and the task it has created yield in turn, `n` times in all. -/
def rotation (n : ℕ) : State taskMaxCount := (taskYield zeroCpu)^[n] firstCreate

theorem step_rotation (n : ℕ) :
    Step 0x40080000#64 ⟨rotation n, ∅⟩ (Op.yield zeroCpu) ⟨rotation (n + 1), ∅⟩ := by
  have hnext : rotation (n + 1) = taskYield zeroCpu (rotation n) :=
    Function.iterate_succ_apply' (taskYield zeroCpu) n firstCreate
  rw [hnext]
  exact Step.yield zeroCpu

theorem reachable_rotation : (kernelAfter 0x40080000#64 0x40100000#64 ⟨firstCreate, ∅⟩).Reachable
    (⟨rotation 3, ∅⟩, [⟨0, 1, false⟩, ⟨1, 0, false⟩, ⟨0, 1, false⟩]) := by
  let after := kernelAfter (N := taskMaxCount) 0x40080000#64 0x40100000#64 ⟨firstCreate, ∅⟩
  have h0 : after.Reachable (⟨rotation 0, ∅⟩, []) := Lts.Reachable.init ⟨rfl, rfl⟩
  have h1 : after.Reachable (⟨rotation 1, ∅⟩, [⟨0, 1, false⟩]) :=
    h0.step (e := .yield zeroCpu) ⟨step_rotation 0, rfl⟩
  have h2 : after.Reachable (⟨rotation 2, ∅⟩, [⟨0, 1, false⟩, ⟨1, 0, false⟩]) :=
    h1.step (e := .yield zeroCpu) ⟨step_rotation 1, rfl⟩
  exact h2.step (e := .yield zeroCpu) ⟨step_rotation 2, rfl⟩

/-- The created task is among those that the next three switches dispatch. -/
theorem dispatch_fair_rotation :
    (1 : Fin taskMaxCount) ∈ [(1 : Fin taskMaxCount), 0, 1].take 3 :=
  (dispatch_fair (reachable_bootKernel.step step_firstCreate) reachable_rotation).1 1 rfl (by decide)

end Task

end MiniOs
