/-
**The invariant of the scheduler.**

Exactly the current slot is RUNNING, the boot flow in slot 0 is always RUNNING or READY and has no
stack page, every other slot has a stack page exactly while it is in use, and only FINISHED slots
are marked as corrupted.  The second clause is what `task_exit` relies on without saying so: while
another task runs, the boot flow is READY, so there always is a slot to switch to.

Each operation is first cut into the few things it can do; the invariant is then proved of these.

Main definitions:

* `Task.SchedInv` — **the invariant**;
* `Task.Vacates` — a state in which the running task has left the CPU, just before a dispatch;
* `Task.Leave` — all that giving up the CPU can do.

Main results:

* `Task.SchedInv.leave_taskYield`, `Task.SchedInv.leave_taskExit` — what giving up the CPU does;
* `Task.taskCreate_cases`, `Task.taskReap_cases` — what creating and reaping do;
* `Task.SchedInv.inv_leave`, `Task.SchedInv.inv_taskCreate`, `Task.SchedInv.inv_taskReap`,
  `Task.SchedInv.inv_taskReapFinished` — **every operation keeps the invariant**.
-/

import MiniOs.Task

set_option relaxedAutoImplicit false
set_option autoImplicit false

namespace MiniOs

namespace Task

open PageAlloc (pageSize pageAlloc pageFree)

variable {N : ℕ} [NeZero N]

/-! ### The invariant -/

/-- **The invariant of the scheduler.** -/
structure SchedInv (s : State N) : Prop where
  initialized : s.initialized = true
  /-- Exactly the current slot is RUNNING. -/
  running : ∀ i, (s.tasks i).state = .running ↔ i = s.currentTask
  /-- The boot flow can always go on. -/
  boot : (s.tasks 0).state = .running ∨ (s.tasks 0).state = .ready
  /-- The boot flow has no stack page. -/
  bootPage : (s.tasks 0).stackPage = null
  /-- The other slots have a stack page exactly while they are in use. -/
  unused : ∀ i, i ≠ 0 → ((s.tasks i).state = .unused ↔ (s.tasks i).stackPage = null)
  /-- Only FINISHED slots are marked as corrupted. -/
  corrupted : ∀ i, (s.tasks i).stackCorrupted = true → (s.tasks i).state = .finished
  /-- The last loop of `task_exit` was not reached. -/
  halted : s.halted = false

/-- The next yield of the running task turns into an exit. -/
def Forced (s : State N) : Prop := s.currentTask ≠ 0 ∧ ¬ StackCanaryOk s.currentTask s

instance (s : State N) : Decidable (Forced s) := inferInstanceAs (Decidable (_ ∧ _))

/-- The running task steps back to READY, as `task_yield` does it before a dispatch. -/
def suspend (s : State N) : State N :=
  { s.setSlot s.currentTask { s.tasks s.currentTask with state := .ready } with
    yieldCalls := s.yieldCalls + 1 }

/-- **In `u` the running task of `s` has left the CPU**: its slot is READY or FINISHED, and nothing
else changed but counters and its mark as corrupted. -/
structure Vacates (s u : State N) : Prop where
  others : ∀ i, i ≠ s.currentTask → u.tasks i = s.tasks i
  own : u.tasks s.currentTask =
    { s.tasks s.currentTask with
      state := (u.tasks s.currentTask).state
      stackCorrupted := (u.tasks s.currentTask).stackCorrupted }
  state : ((u.tasks s.currentTask).state = .ready ∧
      (u.tasks s.currentTask).stackCorrupted = false) ∨
    ((u.tasks s.currentTask).state = .finished ∧ s.currentTask ≠ 0)
  alloc : u.alloc = s.alloc
  initialized : u.initialized = s.initialized
  halted : u.halted = s.halted

/-- Every slot has its stack page still. -/
theorem Vacates.stackPage {s u : State N} (hv : Vacates s u) (i : Fin N) :
    (u.tasks i).stackPage = (s.tasks i).stackPage := by
  rcases eq_or_ne i s.currentTask with rfl | hi
  · rw [hv.own]
  · rw [hv.others i hi]

/-- **Giving up the CPU**, for good if `final` holds: no other slot is READY and the task goes on, or
it is suspended, or it is finished. -/
inductive Leave (regs : Cpu) (s : State N) (final : Prop) : State N → Prop
  | stay : ¬ final → findNextReady s = none →
      Leave regs s final { s with yieldCalls := s.yieldCalls + 1 }
  | suspend {next : Fin N} : ¬ final → findNextReady s = some next →
      Leave regs s final (dispatch regs s.currentTask next (suspend s))
  | finish {next : Fin N} : final → s.currentTask ≠ 0 → findNextReady (retire s) = some next →
      next ≠ s.currentTask → (s.tasks next).state = .ready →
      Leave regs s final (dispatch regs s.currentTask next (retire s))

namespace SchedInv

variable {s u : State N}

/-! ### Giving up the CPU -/

/-- Only a FINISHED slot is marked as corrupted. -/
theorem clean_of_ne_finished (h : SchedInv s) {i : Fin N} (hst : (s.tasks i).state ≠ .finished) :
    (s.tasks i).stackCorrupted = false := by
  cases hc : (s.tasks i).stackCorrupted with
  | false => rfl
  | true => exact absurd (h.corrupted i hc) hst

/-- The running slot is not marked as corrupted. -/
theorem current_clean (h : SchedInv s) : (s.tasks s.currentTask).stackCorrupted = false := by
  have hrun := (h.running s.currentTask).2 rfl
  exact h.clean_of_ne_finished (by simp [hrun])

/-- A canary is missed only by a task other than the boot flow. -/
theorem forced_iff (h : SchedInv s) : Forced s ↔ ¬ StackCanaryOk s.currentTask s := by
  constructor
  · exact fun hf => hf.2
  · intro hbad
    refine ⟨fun hzero => hbad ?_, hbad⟩
    rw [hzero]
    exact Or.inl h.bootPage

/-- While another task runs, the boot flow is READY. -/
theorem boot_ready (h : SchedInv s) (hcur : s.currentTask ≠ 0) : (s.tasks 0).state = .ready := by
  rcases h.boot with hrun | hready
  · exact absurd ((h.running 0).1 hrun).symm hcur
  · exact hready

/-- All `task_yield` can do. -/
theorem taskYield_cases (h : SchedInv s) (regs : Cpu) :
    (Forced s ∧ taskYield regs s = exitTask regs s) ∨
      (¬ Forced s ∧ findNextReady s = none ∧
        taskYield regs s = { s with yieldCalls := s.yieldCalls + 1 }) ∨
      (¬ Forced s ∧ ∃ next, findNextReady s = some next ∧
        taskYield regs s = dispatch regs s.currentTask next (suspend s)) := by
  have hinit : ¬ s.initialized = false := by simp [h.initialized]
  by_cases hok : StackCanaryOk s.currentTask s
  · -- the canary is in place, so nothing is recorded and the task is not forced out
    right
    have hforced : ¬ Forced s := fun hf => hf.2 hok
    have hclean : ¬ ((s.tasks s.currentTask).stackCorrupted = true ∧ s.currentTask ≠ 0) := by
      simp [h.current_clean]
    cases hnext : findNextReady s with
    | none =>
        left
        refine ⟨hforced, rfl, ?_⟩
        have hnext' : findNextReady { s with yieldCalls := s.yieldCalls + 1 } = none := hnext
        simp only [taskYield, if_neg hinit, recordStackError_of_ok hok, if_neg hclean, hnext']
    | some next =>
        right
        refine ⟨hforced, next, rfl, ?_⟩
        have hnext' : findNextReady { s with yieldCalls := s.yieldCalls + 1 } = some next := hnext
        simp only [taskYield, if_neg hinit, recordStackError_of_ok hok, if_neg hclean, hnext']
        rfl
  · -- the canary is gone: the error is recorded and the call turns into an exit
    left
    have hforced := h.forced_iff.2 hok
    refine ⟨hforced, ?_⟩
    have hbad : ((recordStackError s.currentTask s).tasks s.currentTask).stackCorrupted = true ∧
        s.currentTask ≠ 0 := by
      refine ⟨?_, hforced.1⟩
      rw [recordStackError_tasks]
      simp [hok]
    simp only [taskYield, if_neg hinit, recordStackError_currentTask, if_pos hbad]
    exact exitTask_recordStackError regs s

/-- The running task that suspends itself has left the CPU. -/
theorem vacates_suspend (h : SchedInv s) : Vacates s (suspend s) where
  others i hi := Function.update_of_ne hi _ _
  own := by simp [suspend, State.setSlot]
  state := by
    left
    simp [suspend, State.setSlot, h.current_clean]
  alloc := rfl
  initialized := rfl
  halted := rfl

/-- The running task that retires has left the CPU. -/
theorem vacates_retire (hcur : s.currentTask ≠ 0) : Vacates s (retire s) where
  others i hi := by
    simp [retire, State.setSlot, recordStackError_tasks, hi]
  own := by simp [retire, State.setSlot, recordStackError_tasks]
  state := by
    right
    simp [retire, State.setSlot, hcur]
  alloc := by simp [retire, State.setSlot]
  initialized := by simp [retire, State.setSlot]
  halted := by simp [retire, State.setSlot]

/-- A task other than the boot flow that exits always **finds a slot to switch to**. -/
theorem exitTask_eq (h : SchedInv s) (hcur : s.currentTask ≠ 0) (regs : Cpu) :
    ∃ next, findNextReady (retire s) = some next ∧ next ≠ s.currentTask ∧
      (s.tasks next).state = .ready ∧
      exitTask regs s = dispatch regs s.currentTask next (retire s) := by
  have hothers := (vacates_retire hcur).others
  have hboot : ((retire s).tasks 0).state = .ready := by
    rw [hothers 0 hcur.symm]
    exact h.boot_ready hcur
  obtain ⟨next, hnext⟩ := exists_findNextReady (s := retire s)
    (by rw [retire_currentTask]; exact hcur.symm) hboot
  obtain ⟨hne, hready⟩ := findNextReady_some hnext
  rw [retire_currentTask] at hne
  rw [hothers next hne] at hready
  refine ⟨next, hnext, hne, hready, ?_⟩
  rw [exitTask, hnext]

/-- A slot that gets the CPU from a task that has left it keeps the invariant. -/
theorem inv_dispatch (h : SchedInv s) (hv : Vacates s u) {next : Fin N}
    (hne : next ≠ s.currentTask) (hready : (s.tasks next).state = .ready) (regs : Cpu) :
    SchedInv (dispatch regs s.currentTask next u) := by
  have hcurrent : (u.tasks s.currentTask).state ≠ .running ∧
      (u.tasks s.currentTask).state ≠ .unused := by
    rcases hv.state with ⟨hst, -⟩ | ⟨hst, -⟩ <;> simp [hst]
  constructor
  · rw [dispatch_initialized, hv.initialized]
    exact h.initialized
  · intro i
    rw [dispatch_state, dispatch_currentTask]
    by_cases hi : i = next
    · simp [hi]
    · rw [if_neg hi]
      by_cases hi' : i = s.currentTask
      · rw [hi']
        exact ⟨fun hst => absurd hst hcurrent.1, fun hst => absurd hst.symm hne⟩
      · rw [hv.others i hi', h.running i]
        exact ⟨fun hst => absurd hst hi', fun hst => absurd hst hi⟩
  · rw [dispatch_state]
    by_cases h0 : (0 : Fin N) = next
    · simp [h0]
    · rw [if_neg h0]
      by_cases hcur : (0 : Fin N) = s.currentTask
      · rcases hv.state with ⟨hst, -⟩ | ⟨-, hst⟩
        · rw [hcur, hst]
          exact Or.inr rfl
        · exact absurd hcur.symm hst
      · rw [hv.others 0 hcur]
        exact h.boot
  · rw [dispatch_stackPage, hv.stackPage]
    exact h.bootPage
  · intro i hi
    rw [dispatch_state, dispatch_stackPage, hv.stackPage, ← h.unused i hi]
    by_cases hnext : i = next
    · rw [hnext, hready]
      simp
    · rw [if_neg hnext]
      by_cases hcur : i = s.currentTask
      · have hrun := (h.running s.currentTask).2 rfl
        rw [hcur, hrun]
        exact ⟨fun hst => absurd hst hcurrent.2, fun hst => absurd hst (by simp)⟩
      · rw [hv.others i hcur]
  · intro i hc
    rw [dispatch_stackCorrupted] at hc
    rw [dispatch_state]
    by_cases hcur : i = s.currentTask
    · rw [hcur] at hc ⊢
      rw [if_neg hne.symm]
      rcases hv.state with ⟨-, hst⟩ | ⟨hst, -⟩
      · rw [hst] at hc
        exact absurd hc (by simp)
      · exact hst
    · rw [hv.others i hcur] at hc ⊢
      have hfin := h.corrupted i hc
      rw [if_neg fun hnext => ?_]
      · exact hfin
      · rw [hnext, hready] at hfin
        exact absurd hfin (by simp)
  · rw [dispatch_halted, hv.halted]
    exact h.halted

/-- `task_yield` gives up the CPU, for good when the canary is gone. -/
theorem leave_taskYield (h : SchedInv s) (regs : Cpu) :
    Leave regs s (Forced s) (taskYield regs s) := by
  rcases h.taskYield_cases regs with ⟨hf, heq⟩ | ⟨hf, hnone, heq⟩ | ⟨hf, next, hnext, heq⟩
  · obtain ⟨next, hnext, hne, hready, hexit⟩ := h.exitTask_eq hf.1 regs
    rw [heq, hexit]
    exact Leave.finish hf hf.1 hnext hne hready
  · rw [heq]
    exact Leave.stay hf hnone
  · rw [heq]
    exact Leave.suspend hf hnext

/-- `task_exit` gives up the CPU, for good unless it is called by the boot flow. -/
theorem leave_taskExit (h : SchedInv s) (regs : Cpu) :
    Leave regs s (s.currentTask ≠ 0) (taskExit regs s) := by
  by_cases hcur : s.currentTask = 0
  · have hnot : (s.currentTask ≠ 0) = Forced s :=
      propext ⟨fun hne => absurd hcur hne, fun hf => hf.1⟩
    rw [taskExit, if_pos (Or.inr hcur), hnot]
    exact h.leave_taskYield regs
  · obtain ⟨next, hnext, hne, hready, hexit⟩ := h.exitTask_eq hcur regs
    rw [taskExit, if_neg (by simp [h.initialized, hcur]), hexit]
    exact Leave.finish hcur hcur hnext hne hready

/-- Giving up the CPU for good dispatches a READY slot. -/
theorem leave_final {regs : Cpu} {final : Prop} (hl : Leave regs s final u) (hf : final) :
    ∃ next, s.currentTask ≠ 0 ∧ findNextReady (retire s) = some next ∧ next ≠ s.currentTask ∧
      (s.tasks next).state = .ready ∧ u = dispatch regs s.currentTask next (retire s) := by
  cases hl with
  | stay hnot _ => exact absurd hf hnot
  | suspend hnot _ => exact absurd hf hnot
  | @finish next _ hcur hnext hne hready => exact ⟨next, hcur, hnext, hne, hready, rfl⟩

/-- Giving up the CPU for a while finds no READY slot, or dispatches the next one. -/
theorem leave_not_final {regs : Cpu} {final : Prop} (hl : Leave regs s final u) (hf : ¬ final) :
    (findNextReady s = none ∧ u = { s with yieldCalls := s.yieldCalls + 1 }) ∨
      ∃ next, findNextReady s = some next ∧
        u = dispatch regs s.currentTask next (Task.suspend s) := by
  cases hl with
  | stay _ hnone => exact Or.inl ⟨hnone, rfl⟩
  | @suspend next _ hnext => exact Or.inr ⟨next, hnext, rfl⟩
  | finish hf' _ _ _ _ => exact absurd hf' hf

/-- Giving up the CPU **either changes a counter or dispatches a READY slot**. -/
theorem leave_cases (h : SchedInv s) {regs : Cpu} {final : Prop} (hl : Leave regs s final u) :
    u = { s with yieldCalls := s.yieldCalls + 1 } ∨
      ∃ next v, next ≠ s.currentTask ∧ (s.tasks next).state = .ready ∧ Vacates s v ∧
        u = dispatch regs s.currentTask next v := by
  cases hl with
  | stay _ _ => exact Or.inl rfl
  | @suspend next _ hnext =>
      obtain ⟨hne, hready⟩ := findNextReady_some hnext
      exact Or.inr ⟨next, Task.suspend s, hne, hready, h.vacates_suspend, rfl⟩
  | @finish next _ hcur _ hne hready =>
      exact Or.inr ⟨next, retire s, hne, hready, vacates_retire hcur, rfl⟩

/-- Giving up the CPU leaves every slot alone but those that lose and get it. -/
theorem leave_others (h : SchedInv s) {regs : Cpu} {final : Prop} (hl : Leave regs s final u)
    {i : Fin N} (hi : i ≠ s.currentTask) (hi' : i ≠ u.currentTask) : u.tasks i = s.tasks i := by
  rcases h.leave_cases hl with rfl | ⟨next, v, hne, -, hv, rfl⟩
  · rfl
  · rw [dispatch_tasks_of_ne _ _ _ _ hne hi hi', hv.others i hi]

/-- A slot that gets the CPU was READY. -/
theorem leave_next (h : SchedInv s) {regs : Cpu} {final : Prop} (hl : Leave regs s final u)
    (hne : u.currentTask ≠ s.currentTask) : (s.tasks u.currentTask).state = .ready := by
  rcases h.leave_cases hl with rfl | ⟨next, v, -, hready, -, rfl⟩
  · exact absurd rfl hne
  · exact hready

theorem inv_leave (h : SchedInv s) {regs : Cpu} {final : Prop} (hl : Leave regs s final u) :
    SchedInv u := by
  rcases h.leave_cases hl with rfl | ⟨next, v, hne, hready, hv, rfl⟩
  · exact ⟨h.initialized, h.running, h.boot, h.bootPage, h.unused, h.corrupted, h.halted⟩
  · exact h.inv_dispatch hv hne hready regs

/-! ### Creating and reaping -/

/-- The invariant does not speak of the allocator. -/
theorem inv_alloc (h : SchedInv s) (alloc : PageAlloc.State) :
    SchedInv { s with alloc := alloc } :=
  ⟨h.initialized, h.running, h.boot, h.bootPage, h.unused, h.corrupted, h.halted⟩

/-- Replacing a slot other than those of the boot flow and the running task keeps the invariant, when
the new slot is in order itself. -/
theorem inv_setSlot (h : SchedInv s) {i : Fin N} {task : TaskSlot} (hi : i ≠ 0)
    (hcur : i ≠ s.currentTask) (hrun : task.state ≠ .running)
    (hpage : task.state = .unused ↔ task.stackPage = null)
    (hcorrupted : task.stackCorrupted = true → task.state = .finished) :
    SchedInv (s.setSlot i task) := by
  have hself : (s.setSlot i task).tasks i = task := Function.update_self _ _ _
  have hother : ∀ j, j ≠ i → (s.setSlot i task).tasks j = s.tasks j :=
    fun j hj => Function.update_of_ne hj _ _
  constructor
  · exact h.initialized
  · intro j
    by_cases hj : j = i
    · rw [hj, hself]
      exact ⟨fun hst => absurd hst hrun, fun hst => absurd hst hcur⟩
    · rw [hother j hj]
      exact h.running j
  · rw [hother 0 hi.symm]
    exact h.boot
  · rw [hother 0 hi.symm]
    exact h.bootPage
  · intro j hj0
    by_cases hj : j = i
    · rw [hj, hself]
      exact hpage
    · rw [hother j hj]
      exact h.unused j hj0
  · intro j hc
    by_cases hj : j = i
    · rw [hj, hself] at hc ⊢
      exact hcorrupted hc
    · rw [hother j hj] at hc ⊢
      exact h.corrupted j hc
  · exact h.halted

/-- A slot in any state but RUNNING is not that of the running task. -/
theorem ne_current (h : SchedInv s) {i : Fin N} (hst : (s.tasks i).state ≠ .running) :
    i ≠ s.currentTask := fun hi => hst ((h.running i).2 hi)

/-- The slot of a finished task is not that of the boot flow. -/
theorem ne_zero_of_finished (h : SchedInv s) {i : Fin N} (hst : (s.tasks i).state = .finished) :
    i ≠ 0 := by
  intro hi
  rw [hi] at hst
  rcases h.boot with hboot | hboot <;> simp [hst] at hboot

/-- A finished task has its stack page still. -/
theorem stackPage_of_finished (h : SchedInv s) {i : Fin N} (hst : (s.tasks i).state = .finished) :
    (s.tasks i).stackPage ≠ null := by
  intro hnull
  have hun := (h.unused i (h.ne_zero_of_finished hst)).2 hnull
  rw [hst] at hun
  exact absurd hun (by simp)

end SchedInv

/-- All `task_create` can do. -/
theorem taskCreate_cases {bootstrap entry argument : Word} {s t : State N} {result : Option (Fin N)}
    (h : taskCreate bootstrap entry argument s = (result, t)) :
    (result = none ∧ t = s) ∨
      (∃ alloc, pageAlloc s.alloc = (null, alloc) ∧ result = none ∧
        t = { s with alloc := alloc }) ∨
      ∃ i stackPage alloc, findUnused s = some i ∧ pageAlloc s.alloc = (stackPage, alloc) ∧
        stackPage ≠ null ∧ result = some i ∧
        t = fillSlot bootstrap entry argument i stackPage { s with alloc := alloc } := by
  by_cases hguard : s.initialized = false ∨ entry = null
  · rw [taskCreate, if_pos hguard] at h
    cases h
    exact Or.inl ⟨rfl, rfl⟩
  · cases hi : findUnused s with
    | none =>
        rw [taskCreate, if_neg hguard, hi] at h
        cases h
        exact Or.inl ⟨rfl, rfl⟩
    | some i =>
        right
        obtain ⟨stackPage, alloc, hpage⟩ : ∃ stackPage alloc, pageAlloc s.alloc = (stackPage, alloc) :=
          ⟨_, _, rfl⟩
        by_cases hnull : stackPage = null
        · left
          simp only [taskCreate, if_neg hguard, hi, hpage, if_pos hnull] at h
          cases h
          exact ⟨alloc, by rw [hpage, hnull], rfl, rfl⟩
        · right
          simp only [taskCreate, if_neg hguard, hi, hpage, if_neg hnull] at h
          cases h
          exact ⟨i, stackPage, alloc, rfl, hpage, hnull, rfl, rfl⟩

/-- All `task_reap` can do: nothing at all, or, called by the boot flow for a FINISHED slot, record
that its canary is gone, or give back its stack while the canary is in place. -/
theorem taskReap_cases {id : BitVec 32} {s t : State N} {reaped : Bool}
    (h : taskReap id s = some (reaped, t)) :
    (reaped = false ∧ t = s) ∨
      ∃ i, s.currentTask = 0 ∧ (s.tasks i).state = .finished ∧
        ((reaped = false ∧ ¬ StackCanaryOk i s ∧ t = recordStackError i s) ∨
          (StackCanaryOk i s ∧ (s.tasks i).stackCorrupted = false ∧
            reapSlot i s = some (reaped, t))) := by
  have hrefuse : some (false, s) = some (reaped, t) → reaped = false ∧ t = s := by
    intro hsome
    obtain ⟨rfl, rfl⟩ := Prod.mk.inj (Option.some_inj.1 hsome)
    exact ⟨rfl, rfl⟩
  unfold taskReap at h
  split at h
  · next hlt =>
      obtain ⟨i, hi⟩ : ∃ i : Fin N, i = ⟨id.toNat, hlt⟩ := ⟨_, rfl⟩
      simp only [← hi] at h
      split at h
      · exact Or.inl (hrefuse h)
      · next hguard =>
          simp only [not_or, not_not] at hguard
          split at h
          · exact Or.inl (hrefuse h)
          · next hslot =>
              simp only [not_or, not_not] at hslot
              by_cases hok : StackCanaryOk i s
              · rw [recordStackError_of_ok hok] at h
                split at h
                · exact Or.inl (hrefuse h)
                · next hclean =>
                    refine Or.inr ⟨i, hguard.2.1, hslot.1, Or.inr ⟨hok, ?_, h⟩⟩
                    simpa using hclean
              · have hbad : ((recordStackError i s).tasks i).stackCorrupted = true := by
                  rw [recordStackError_tasks]
                  simp [hok]
                rw [if_pos hbad] at h
                obtain ⟨rfl, rfl⟩ := Prod.mk.inj (Option.some_inj.1 h)
                exact Or.inr ⟨i, hguard.2.1, hslot.1, Or.inl ⟨rfl, hok, rfl⟩⟩
  · exact Or.inl (hrefuse h)

namespace SchedInv

variable {s t : State N}

theorem inv_fillSlot (h : SchedInv s) {i : Fin N} {stackPage : Word} (hi : i ≠ 0)
    (hst : (s.tasks i).state = .unused) (hnull : stackPage ≠ null)
    (bootstrap entry argument : Word) :
    SchedInv (fillSlot bootstrap entry argument i stackPage s) := by
  have hset : SchedInv (s.setSlot i (newSlot bootstrap entry argument stackPage (s.tasks i))) :=
    h.inv_setSlot hi (h.ne_current (by simp [hst])) (by simp [newSlot]) (by simp [newSlot, hnull])
      (by simp [newSlot, clearSlot])
  exact ⟨hset.initialized, hset.running, hset.boot, hset.bootPage, hset.unused, hset.corrupted,
    hset.halted⟩

theorem inv_emptySlot (h : SchedInv s) {i : Fin N} (hst : (s.tasks i).state = .finished) :
    SchedInv (emptySlot i s) := by
  have hset : SchedInv (s.setSlot i (clearSlot (s.tasks i))) :=
    h.inv_setSlot (h.ne_zero_of_finished hst) (h.ne_current (by simp [hst])) (by simp [clearSlot])
      (by simp [clearSlot]) (by simp [clearSlot])
  exact ⟨hset.initialized, hset.running, hset.boot, hset.bootPage, hset.unused, hset.corrupted,
    hset.halted⟩

/-- The mark goes only to a slot that may have it. -/
theorem inv_recordStackError (h : SchedInv s) {i : Fin N} (hst : (s.tasks i).state = .finished) :
    SchedInv (recordStackError i s) := by
  have htasks := recordStackError_tasks i (s := s)
  constructor
  · rw [recordStackError_initialized]
    exact h.initialized
  · intro j
    rw [htasks, recordStackError_currentTask]
    exact h.running j
  · rw [htasks]
    exact h.boot
  · rw [htasks]
    exact h.bootPage
  · intro j hj
    rw [htasks]
    exact h.unused j hj
  · intro j hc
    rw [htasks] at hc ⊢
    by_cases hj : j = i
    · rw [hj]
      exact hst
    · exact h.corrupted j (by simpa [hj] using hc)
  · rw [recordStackError_halted]
    exact h.halted

theorem inv_taskCreate (h : SchedInv s) {bootstrap entry argument : Word} {result : Option (Fin N)}
    (hcreate : taskCreate bootstrap entry argument s = (result, t)) : SchedInv t := by
  rcases taskCreate_cases hcreate with
    ⟨-, rfl⟩ | ⟨alloc, -, -, rfl⟩ | ⟨i, stackPage, alloc, hi, -, hnull, -, rfl⟩
  · exact h
  · exact h.inv_alloc alloc
  · obtain ⟨hi0, hst⟩ := findUnused_some hi
    exact (h.inv_alloc alloc).inv_fillSlot hi0 hst hnull bootstrap entry argument

theorem inv_taskReap (h : SchedInv s) {id : BitVec 32} {reaped : Bool}
    (hreap : taskReap id s = some (reaped, t)) : SchedInv t := by
  rcases taskReap_cases hreap with
    ⟨-, rfl⟩ | ⟨i, -, hst, ⟨-, -, rfl⟩ | ⟨-, -, hslot⟩⟩
  · exact h
  · exact h.inv_recordStackError hst
  · obtain ⟨alloc, -, rfl⟩ := reapSlot_cases hslot
    cases reaped with
    | false => exact h.inv_alloc alloc
    | true => exact (h.inv_alloc alloc).inv_emptySlot hst

theorem inv_taskReapFinished (h : SchedInv s) {count : ℕ}
    (hreap : taskReapFinished s = some (count, t)) : SchedInv t :=
  taskReapFinished_invariant (fun _ _ _ _ hs hid => inv_taskReap hs hid) h hreap

/-- `task_init` sets the invariant up. -/
theorem inv_taskInit (alloc : PageAlloc.State) (cpu : Cpu) :
    SchedInv (taskInit (State.boot alloc cpu : State N)) := by
  have hinit : ¬ (State.boot alloc cpu : State N).initialized = true := by simp [State.boot]
  rw [taskInit, if_neg hinit]
  constructor
  · rfl
  · intro i
    by_cases hi : i = 0 <;> simp [hi, clearSlot]
  · exact Or.inl (by simp)
  · simp [clearSlot]
  · intro i hi
    simp [hi, clearSlot]
  · intro i hc
    by_cases hi : i = 0 <;> simp [hi, clearSlot] at hc
  · rfl

end SchedInv

end Task

end MiniOs
