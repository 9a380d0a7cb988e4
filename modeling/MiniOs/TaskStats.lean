/-
**The statistics of the scheduler are conserved.**

The counters of `src/task.c` are bumped in different functions, and reaping a slot erases what it
had counted itself.  Each of them is tied to the slots by an equation: what was created was reaped or
is still in use, what has exited was reaped or is still FINISHED, and so on.  The equations are about
numbers, so they need that the counters have not wrapped; a record counts the operations.

Main definitions:

* `Task.TaskStats`, `Task.taskGetStats` — the statistics that the code reports;
* `Task.total` — a number summed over the slots;
* `Task.StatsInv` — **the equations**;
* `Task.Counts`, `Task.kernelWithCounts` — the operations so far, and the counts of reaped slots.

Main results:

* `Task.statsInv_step` — every step keeps the equations, while the operations can be counted;
* `Task.stats_conserved` — **the equations, and what `task_get_stats` reports**.
-/

import Mathlib.Algebra.BigOperators.Group.Finset.Piecewise
import Mathlib.Algebra.Order.BigOperators.Group.Finset
import MiniOs.TaskRun

set_option relaxedAutoImplicit false
set_option autoImplicit false

namespace MiniOs

namespace Task

open PageAlloc (pageAllocInit)

variable {N : ℕ}

/-! ### What is reported -/

/-- `struct task_stats`. -/
structure TaskStats where
  currentTask : BitVec 32
  activeTasks : BitVec 32
  readyTasks : BitVec 32
  finishedTasks : BitVec 32
  createdTasks : Word
  contextSwitches : Word
  yieldCalls : Word
  exitedTasks : Word
  reapedTasks : Word
  stackErrors : Word

/-- The loop of `task_get_stats` for one of the numbers it counts. -/
def countStates (p : TaskState → Prop) [DecidablePred p] (s : State N) : BitVec 32 :=
  (List.finRange N).foldl (fun count i => if p (s.tasks i).state then count + 1 else count) 0

/-- Model of `task_get_stats`, with the address it is given; `none` when it returns 0. -/
def taskGetStats (stats : Word) (s : State N) : Option TaskStats :=
  if s.initialized = false ∨ stats = null then none
  else some {
    currentTask := BitVec.ofNat 32 s.currentTask
    activeTasks := countStates (fun state => state = .running ∨ state = .ready) s
    readyTasks := countStates (· = .ready) s
    finishedTasks := countStates (· = .finished) s
    createdTasks := s.createdTasks
    contextSwitches := s.contextSwitches
    yieldCalls := s.yieldCalls
    exitedTasks := s.exitedTasks
    reapedTasks := s.reapedTasks
    stackErrors := s.stackErrors }

/-! ### Sums over the slots -/

/-- A number that every slot has, summed over the slots. -/
def total (f : TaskSlot → ℕ) (s : State N) : ℕ := ∑ i, f (s.tasks i)

/-- What a slot adds to the number of slots in use. -/
def inUse (task : TaskSlot) : ℕ := if task.state = .unused then 0 else 1

/-- What a slot adds to the number of FINISHED slots. -/
def finished (task : TaskSlot) : ℕ := if task.state = .finished then 1 else 0

/-- What a slot adds to the number of slots marked as corrupted. -/
def corrupted (task : TaskSlot) : ℕ := if task.stackCorrupted then 1 else 0

/-- How often a slot was dispatched. -/
def count (task : TaskSlot) : ℕ := task.scheduleCount.toNat

theorem sum_update (g : Fin N → ℕ) (i : Fin N) (a : ℕ) :
    ∑ j, Function.update g i a j + g i = ∑ j, g j + a := by
  rw [Finset.sum_update_of_mem (Finset.mem_univ i), Finset.sdiff_singleton_eq_erase,
    ← Finset.add_sum_erase _ g (Finset.mem_univ i)]
  omega

/-- Replacing a slot replaces what it adds. -/
theorem total_setSlot (f : TaskSlot → ℕ) (s : State N) (i : Fin N) (task : TaskSlot) :
    total f (s.setSlot i task) + f (s.tasks i) = total f s + f task := by
  have hupdate : total f (s.setSlot i task) =
      ∑ j, Function.update (fun j => f (s.tasks j)) i (f task) j := by
    refine Finset.sum_congr rfl fun j _ => ?_
    exact Function.apply_update (fun _ => f) s.tasks i task j
  rw [hupdate]
  exact sum_update (fun j => f (s.tasks j)) i (f task)

theorem total_setSlot_eq {f : TaskSlot → ℕ} {s : State N} {i : Fin N} {task : TaskSlot}
    (h : f task = f (s.tasks i)) : total f (s.setSlot i task) = total f s := by
  have hset := total_setSlot f s i task
  omega

theorem add_le_total (f : TaskSlot → ℕ) (s : State N) {i j : Fin N} (h : i ≠ j) :
    f (s.tasks i) + f (s.tasks j) ≤ total f s :=
  Finset.add_le_sum (f := fun i => f (s.tasks i)) (fun _ _ => Nat.zero_le _) (Finset.mem_univ i)
    (Finset.mem_univ j) h

theorem total_le_total {f g : TaskSlot → ℕ} {s : State N} (h : ∀ i, f (s.tasks i) ≤ g (s.tasks i)) :
    total f s ≤ total g s := Finset.sum_le_sum fun i _ => h i

/-- A number that does not depend on the saved records is summed as before a switch. -/
theorem total_dispatch {f : TaskSlot → ℕ} (hf : ∀ task context, f { task with context := context } =
    f task) (regs : Cpu) (previous next : Fin N) (s : State N) :
    total f (dispatch regs previous next s) + f (s.tasks next) =
      total f s + f { s.tasks next with
        state := .running
        scheduleCount := (s.tasks next).scheduleCount + 1 } := by
  have hset : total f (dispatch regs previous next s) = total f (s.setSlot next
      { s.tasks next with
        state := .running
        scheduleCount := (s.tasks next).scheduleCount + 1 }) :=
    Finset.sum_congr rfl fun i _ => hf _ _
  rw [hset]
  exact total_setSlot f s next _

theorem total_dispatch_eq {f : TaskSlot → ℕ} (hf : ∀ task context,
    f { task with context := context } = f task) (regs : Cpu) (previous next : Fin N) {s : State N}
    (h : f { s.tasks next with
        state := .running
        scheduleCount := (s.tasks next).scheduleCount + 1 } = f (s.tasks next)) :
    total f (dispatch regs previous next s) = total f s := by
  have hdispatch := total_dispatch hf regs previous next s
  omega

theorem toNat_add_one {x : Word} (h : x.toNat + 1 < 2 ^ 64) : (x + 1).toNat = x.toNat + 1 := by
  rw [BitVec.toNat_add]
  exact Nat.mod_eq_of_lt h

/-! ### The equations -/

/-- **The equations** between the counters and the slots, after so many operations, with what the
reaped slots had counted. -/
structure StatsInv (operations discarded : ℕ) (s : State N) : Prop where
  created : s.createdTasks.toNat + 1 = s.reapedTasks.toNat + total inUse s
  exited : s.exitedTasks.toNat = s.reapedTasks.toNat + total finished s
  errors : s.stackErrors.toNat = total corrupted s
  switches : s.contextSwitches.toNat + 1 = total count s + discarded
  /-- Whoever runs was dispatched. -/
  current : 0 < count (s.tasks s.currentTask)
  /-- An unused slot has counted nothing. -/
  unused : ∀ i, (s.tasks i).state = .unused → count (s.tasks i) = 0
  switches_le : s.contextSwitches.toNat ≤ s.yieldCalls.toNat + s.exitedTasks.toNat
  created_le : s.createdTasks.toNat ≤ operations
  exited_le : s.exitedTasks.toNat ≤ operations
  yields_le : s.yieldCalls.toNat ≤ operations
  switches_ops : s.contextSwitches.toNat ≤ operations

namespace StatsInv

variable {operations discarded : ℕ} {s : State N}

/-- The equations do not get worse when the operations are counted further. -/
theorem mono (h : StatsInv operations discarded s) {more : ℕ} (hle : operations ≤ more) :
    StatsInv more discarded s :=
  { h with
    created_le := h.created_le.trans hle
    exited_le := h.exited_le.trans hle
    yields_le := h.yields_le.trans hle
    switches_ops := h.switches_ops.trans hle }

/-- The equations do not speak of the allocator. -/
theorem setAlloc (h : StatsInv operations discarded s) (alloc : PageAlloc.State) :
    StatsInv operations discarded { s with alloc := alloc } := { h with }

/-- A yield is counted. -/
theorem countYield (h : StatsInv operations discarded s) (hlt : operations + 1 < 2 ^ 64) :
    StatsInv (operations + 1) discarded { s with yieldCalls := s.yieldCalls + 1 } := by
  have hyields := h.yields_le
  have hle := h.switches_le
  have hcount : (s.yieldCalls + 1).toNat = s.yieldCalls.toNat + 1 := toNat_add_one (by omega)
  exact { h.mono (Nat.le_succ operations) with
    switches_le := by
      dsimp only
      omega
    yields_le := by
      dsimp only
      omega }

/-- A slot that is replaced by one that has counted as much. -/
theorem setSlot_count (h : StatsInv operations discarded s) (i : Fin N) (task : TaskSlot)
    (hcount : count task = count (s.tasks i))
    (hunused : task.state = .unused → (s.tasks i).state = .unused) :
    total count (s.setSlot i task) = total count s ∧
      0 < count ((s.setSlot i task).tasks s.currentTask) ∧
      ∀ j, ((s.setSlot i task).tasks j).state = .unused →
        count ((s.setSlot i task).tasks j) = 0 := by
  have hself : (s.setSlot i task).tasks i = task := Function.update_self ..
  have hother (j : Fin N) (hj : j ≠ i) : (s.setSlot i task).tasks j = s.tasks j :=
    Function.update_of_ne hj ..
  have hcounts (j : Fin N) : count ((s.setSlot i task).tasks j) = count (s.tasks j) := by
    rcases eq_or_ne j i with rfl | hj
    · rw [hself, hcount]
    · rw [hother j hj]
  refine ⟨total_setSlot_eq hcount, (hcounts _).symm ▸ h.current, ?_⟩
  intro j hj
  rw [hcounts]
  rcases eq_or_ne j i with rfl | hne
  · rw [hself] at hj
    exact h.unused j (hunused hj)
  · rw [hother j hne] at hj
    exact h.unused j hj

/-- A slot in use changes its state, but not to FINISHED or from it. -/
theorem setState (h : StatsInv operations discarded s) (i : Fin N) (state : TaskState)
    (hused : (s.tasks i).state ≠ .unused) (hstate : state ≠ .unused)
    (hfin : state = .finished ↔ (s.tasks i).state = .finished) :
    StatsInv operations discarded (s.setSlot i { s.tasks i with state := state }) := by
  obtain ⟨task, htask⟩ : ∃ task, task = { s.tasks i with state := state } := ⟨_, rfl⟩
  rw [← htask]
  have huse : total inUse (s.setSlot i task) = total inUse s :=
    total_setSlot_eq (by simp [htask, inUse, hused, hstate])
  have hfinished : total finished (s.setSlot i task) = total finished s :=
    total_setSlot_eq (by simp [htask, finished, hfin])
  have hcorrupted : total corrupted (s.setSlot i task) = total corrupted s :=
    total_setSlot_eq (by rw [htask]; rfl)
  obtain ⟨hcount, hcurrent, hunused⟩ := h.setSlot_count i task (by rw [htask]; rfl)
    fun h => absurd h (by rw [htask]; exact hstate)
  exact { h with
    created := huse.symm ▸ h.created
    exited := hfinished.symm ▸ h.exited
    errors := hcorrupted.symm ▸ h.errors
    switches := hcount.symm ▸ h.switches
    current := hcurrent
    unused := hunused }

/-- The running task is suspended. -/
theorem suspended (h : StatsInv operations discarded s)
    (hrun : (s.tasks s.currentTask).state = .running) (hlt : operations + 1 < 2 ^ 64) :
    StatsInv (operations + 1) discarded (suspend s) :=
  (h.countYield hlt).setState s.currentTask .ready (by simp [hrun]) (by simp) (by simp [hrun])

/-- An error is recorded. -/
theorem recorded (h : StatsInv operations discarded s) {i : Fin N}
    (hlt : (s.tasks i).stackCorrupted = false → s.stackErrors.toNat + 1 < 2 ^ 64) :
    StatsInv operations discarded (recordStackError i s) := by
  unfold recordStackError
  split
  · next hbad =>
      obtain ⟨task, htask⟩ : ∃ task, task = { s.tasks i with stackCorrupted := true } := ⟨_, rfl⟩
      rw [← htask]
      have huse : total inUse (s.setSlot i task) = total inUse s :=
        total_setSlot_eq (by rw [htask]; rfl)
      have hfinished : total finished (s.setSlot i task) = total finished s :=
        total_setSlot_eq (by rw [htask]; rfl)
      have hcorrupted := total_setSlot corrupted s i task
      obtain ⟨hcount, hcurrent, hunused⟩ := h.setSlot_count i task (by rw [htask]; rfl) (by
        rw [htask]
        exact id)
      have herrors : (s.stackErrors + 1).toNat = total corrupted (s.setSlot i task) := by
        have hone : corrupted task = 1 := by rw [htask, corrupted, if_pos rfl]
        have hzero : corrupted (s.tasks i) = 0 := by
          rw [corrupted, hbad.1]
          rfl
        have herrors := h.errors
        rw [toNat_add_one (hlt hbad.1)]
        omega
      exact { h with
        created := huse.symm ▸ h.created
        exited := hfinished.symm ▸ h.exited
        errors := herrors
        switches := hcount.symm ▸ h.switches
        current := hcurrent
        unused := hunused }
  · exact h

/-- A RUNNING slot becomes FINISHED, and an exit is counted. -/
theorem finishedSlot (h : StatsInv operations discarded s) {i : Fin N}
    (hrun : (s.tasks i).state = .running) (hlt : operations + 1 < 2 ^ 64) :
    StatsInv (operations + 1) discarded
      { s.setSlot i { s.tasks i with state := .finished } with
        exitedTasks := s.exitedTasks + 1 } := by
  obtain ⟨task, htask⟩ : ∃ task, task = { s.tasks i with state := .finished } := ⟨_, rfl⟩
  rw [← htask]
  have huse : total inUse (s.setSlot i task) = total inUse s :=
    total_setSlot_eq (by simp [htask, inUse, hrun])
  have hcorrupted : total corrupted (s.setSlot i task) = total corrupted s :=
    total_setSlot_eq (by rw [htask]; rfl)
  have hfinished := total_setSlot finished s i task
  obtain ⟨hcount, hcurrent, hunused⟩ := h.setSlot_count i task (by rw [htask]; rfl)
    fun hun => absurd hun (by simp [htask])
  have hle := h.exited_le
  have hsuc : (s.exitedTasks + 1).toNat = s.exitedTasks.toNat + 1 := toNat_add_one (by omega)
  have hexited : (s.exitedTasks + 1).toNat =
      s.reapedTasks.toNat + total finished (s.setSlot i task) := by
    have hone : finished task = 1 := by simp [htask, finished]
    have hzero : finished (s.tasks i) = 0 := by simp [hrun, finished]
    have hexited := h.exited
    omega
  have hswitches := h.switches_le
  have hswitches_le : s.contextSwitches.toNat ≤ s.yieldCalls.toNat + (s.exitedTasks + 1).toNat := by
    omega
  have hexited_le : (s.exitedTasks + 1).toNat ≤ operations + 1 := by omega
  exact { h.mono (Nat.le_succ operations) with
    created := huse.symm ▸ h.created
    exited := hexited
    errors := hcorrupted.symm ▸ h.errors
    switches := hcount.symm ▸ h.switches
    current := hcurrent
    unused := hunused
    switches_le := hswitches_le
    exited_le := hexited_le }

/-- The running task is finished. -/
theorem retired (h : StatsInv operations discarded s)
    (hrun : (s.tasks s.currentTask).state = .running) (herrors : s.stackErrors.toNat + 1 < 2 ^ 64)
    (hlt : operations + 1 < 2 ^ 64) : StatsInv (operations + 1) discarded (retire s) := by
  have hrun' : ((recordStackError s.currentTask s).tasks s.currentTask).state = .running := by
    rw [recordStackError_tasks]
    exact hrun
  exact (h.recorded fun _ => herrors).finishedSlot hrun' hlt

/-- A READY slot gets the CPU, and a switch is counted that a yield or an exit has paid for. -/
theorem dispatched (h : StatsInv operations discarded s) {next : Fin N}
    (hne : next ≠ s.currentTask) (hready : (s.tasks next).state = .ready)
    (hpaid : s.contextSwitches.toNat + 1 ≤ s.yieldCalls.toNat + s.exitedTasks.toNat)
    (hops : s.contextSwitches.toNat + 1 ≤ operations) (hlt : operations < 2 ^ 64) (regs : Cpu)
    (previous : Fin N) : StatsInv operations discarded (dispatch regs previous next s) := by
  have hsuc : (s.contextSwitches + 1).toNat = s.contextSwitches.toNat + 1 :=
    toNat_add_one (by omega)
  have hcurrent := h.current
  have hswitches := h.switches
  have hcounts := add_le_total count s hne
  -- somebody else was dispatched before, so the count of the slot has not reached its end
  have hcount_suc : ((s.tasks next).scheduleCount + 1).toNat = count (s.tasks next) + 1 :=
    toNat_add_one (by
      rw [count, count] at hcounts
      rw [count] at hcurrent
      omega)
  have huse : total inUse (dispatch regs previous next s) = total inUse s :=
    total_dispatch_eq (fun _ _ => rfl) regs previous next (by simp [inUse, hready])
  have hfinished : total finished (dispatch regs previous next s) = total finished s :=
    total_dispatch_eq (fun _ _ => rfl) regs previous next (by simp [finished, hready])
  have hcorrupted : total corrupted (dispatch regs previous next s) = total corrupted s :=
    total_dispatch_eq (fun _ _ => rfl) regs previous next rfl
  have hself : count ((dispatch regs previous next s).tasks next) = count (s.tasks next) + 1 := by
    rw [count, dispatch_scheduleCount, if_pos rfl, hcount_suc]
  have hother (j : Fin N) (hj : j ≠ next) :
      count ((dispatch regs previous next s).tasks j) = count (s.tasks j) := by
    rw [count, dispatch_scheduleCount, if_neg hj, count]
  have hcount : (s.contextSwitches + 1).toNat + 1 =
      total count (dispatch regs previous next s) + discarded := by
    have hdispatch := total_dispatch (f := count) (fun _ _ => rfl) regs previous next s
    rw [count, count, hcount_suc, count] at hdispatch
    omega
  exact {
    created := huse.symm ▸ h.created
    exited := hfinished.symm ▸ h.exited
    errors := hcorrupted.symm ▸ h.errors
    switches := hcount
    current := by
      rw [dispatch_currentTask, hself]
      exact Nat.succ_pos _
    unused := by
      intro j hj
      rw [dispatch_state] at hj
      by_cases hnext : j = next
      · rw [if_pos hnext] at hj
        exact absurd hj (by simp)
      · rw [if_neg hnext] at hj
        rw [hother j hnext]
        exact h.unused j hj
    switches_le := hsuc.trans_le hpaid
    created_le := h.created_le
    exited_le := h.exited_le
    yields_le := h.yields_le
    switches_ops := hsuc.trans_le hops }

/-- A slot other than that of the running task is replaced, and its count is 0 afterwards. -/
theorem setSlot_current (h : StatsInv operations discarded s) {i : Fin N} (hcur : i ≠ s.currentTask)
    {task : TaskSlot} (hcount : count task = 0) :
    0 < count ((s.setSlot i task).tasks s.currentTask) ∧
      ∀ j, ((s.setSlot i task).tasks j).state = .unused →
        count ((s.setSlot i task).tasks j) = 0 := by
  have hself : (s.setSlot i task).tasks i = task := Function.update_self ..
  have hother (j : Fin N) (hj : j ≠ i) : (s.setSlot i task).tasks j = s.tasks j :=
    Function.update_of_ne hj ..
  refine ⟨(hother _ hcur.symm).symm ▸ h.current, ?_⟩
  intro j hj
  rcases eq_or_ne j i with rfl | hne
  · rw [hself, hcount]
  · rw [hother j hne] at hj ⊢
    exact h.unused j hj

/-- A slot is filled in for a new task. -/
theorem filled (h : StatsInv operations discarded s) {i : Fin N}
    (hst : (s.tasks i).state = .unused) (hcur : i ≠ s.currentTask)
    (hclean : (s.tasks i).stackCorrupted = false) (hlt : operations + 1 < 2 ^ 64)
    (bootstrap entry argument stackPage : Word) :
    StatsInv (operations + 1) discarded (fillSlot bootstrap entry argument i stackPage s) := by
  obtain ⟨task, htask⟩ : ∃ task, task = newSlot bootstrap entry argument stackPage (s.tasks i) :=
    ⟨_, rfl⟩
  rw [fillSlot, ← htask]
  have hold := h.unused i hst
  have hnew : count task = 0 := by
    rw [htask]
    rfl
  have hfinished : total finished (s.setSlot i task) = total finished s :=
    total_setSlot_eq (by simp [htask, finished, hst, newSlot])
  have hcorrupted : total corrupted (s.setSlot i task) = total corrupted s :=
    total_setSlot_eq (by simp [htask, corrupted, hclean, newSlot, clearSlot])
  have hcount : total count (s.setSlot i task) = total count s :=
    total_setSlot_eq (hnew.trans hold.symm)
  obtain ⟨hcurrent, hunused⟩ := h.setSlot_current hcur hnew
  have hle := h.created_le
  have hsuc : (s.createdTasks + 1).toNat = s.createdTasks.toNat + 1 := toNat_add_one (by omega)
  have hcreated : (s.createdTasks + 1).toNat + 1 =
      s.reapedTasks.toNat + total inUse (s.setSlot i task) := by
    have huse := total_setSlot inUse s i task
    have hone : inUse task = 1 := by simp [htask, inUse, newSlot]
    have hzero : inUse (s.tasks i) = 0 := by simp [inUse, hst]
    have hcreated := h.created
    omega
  exact { h.mono (Nat.le_succ operations) with
    created := hcreated
    exited := hfinished.symm ▸ h.exited
    errors := hcorrupted.symm ▸ h.errors
    switches := hcount.symm ▸ h.switches
    current := hcurrent
    unused := hunused
    created_le := hsuc.trans_le (Nat.succ_le_succ hle) }

/-- A FINISHED slot is cleared, and what it had counted goes to the record. -/
theorem emptied (h : StatsInv operations discarded s) {i : Fin N}
    (hst : (s.tasks i).state = .finished) (hcur : i ≠ s.currentTask)
    (hclean : (s.tasks i).stackCorrupted = false) :
    StatsInv operations (discarded + count (s.tasks i)) (emptySlot i s) := by
  obtain ⟨task, htask⟩ : ∃ task, task = clearSlot (s.tasks i) := ⟨_, rfl⟩
  rw [emptySlot, ← htask]
  have hnew : count task = 0 := by
    rw [htask]
    rfl
  have hcorrupted : total corrupted (s.setSlot i task) = total corrupted s :=
    total_setSlot_eq (by simp [htask, corrupted, hclean, clearSlot])
  obtain ⟨hcurrent, hunused⟩ := h.setSlot_current hcur hnew
  have huse : total inUse (s.setSlot i task) + 1 = total inUse s := by
    have hset := total_setSlot inUse s i task
    have hzero : inUse task = 0 := by simp [htask, inUse, clearSlot]
    have hone : inUse (s.tasks i) = 1 := by simp [inUse, hst]
    omega
  have hfinished : total finished (s.setSlot i task) + 1 = total finished s := by
    have hset := total_setSlot finished s i task
    have hzero : finished task = 0 := by simp [htask, finished, clearSlot]
    have hone : finished (s.tasks i) = 1 := by simp [finished, hst]
    omega
  have hcount := total_setSlot count s i task
  have hcreated := h.created
  have hexited := h.exited
  have hexited_le := h.exited_le
  have hswitches := h.switches
  have hsuc : (s.reapedTasks + 1).toNat = s.reapedTasks.toNat + 1 := toNat_add_one (by omega)
  have hcreated' : s.createdTasks.toNat + 1 =
      (s.reapedTasks + 1).toNat + total inUse (s.setSlot i task) := by omega
  have hexited' : s.exitedTasks.toNat =
      (s.reapedTasks + 1).toNat + total finished (s.setSlot i task) := by omega
  have hswitches' : s.contextSwitches.toNat + 1 =
      total count (s.setSlot i task) + (discarded + count (s.tasks i)) := by omega
  exact { h with
    created := hcreated'
    exited := hexited'
    errors := hcorrupted.symm ▸ h.errors
    switches := hswitches'
    current := hcurrent
    unused := hunused }

end StatsInv

/-! ### What a reap discards -/

/-- What the slots that a step has reaped had counted. -/
def reapedCount (s t : State N) : ℕ :=
  ∑ i, if (s.tasks i).state = .finished ∧ (t.tasks i).state = .unused then count (s.tasks i) else 0

theorem reapedCount_eq_zero {s t : State N}
    (h : ∀ i, (s.tasks i).state = .finished → (t.tasks i).state ≠ .unused) :
    reapedCount s t = 0 := by
  refine Finset.sum_eq_zero fun i _ => if_neg fun hreaped => ?_
  exact h i hreaped.1 hreaped.2

theorem reapedCount_of_tasks {s t : State N} (h : t.tasks = s.tasks) : reapedCount s t = 0 :=
  reapedCount_eq_zero fun i hst hun => absurd (hst.symm.trans (h ▸ hun)) (by simp)

/-- The record is as before when nothing was reaped. -/
theorem StatsInv.keep {operations discarded : ℕ} {s t : State N}
    (h : StatsInv operations discarded t) (hzero : reapedCount s t = 0) :
    StatsInv operations (discarded + reapedCount s t) t := by
  rw [hzero]
  exact h

/-- One more slot is cleared. -/
theorem reapedCount_emptySlot {s u : State N} {i : Fin N} (hs : (s.tasks i).state = .finished)
    (hu : (u.tasks i).state = .finished) :
    reapedCount s (emptySlot i u) = reapedCount s u + count (s.tasks i) := by
  have hold : (if (s.tasks i).state = .finished ∧ (u.tasks i).state = .unused
      then count (s.tasks i) else 0) = 0 := if_neg (by simp [hu])
  have hset := sum_update (fun j => if (s.tasks j).state = .finished ∧ (u.tasks j).state = .unused
    then count (s.tasks j) else 0) i (count (s.tasks i))
  rw [hold, Nat.add_zero] at hset
  rw [reapedCount, reapedCount, ← hset]
  refine Finset.sum_congr rfl fun j _ => ?_
  rcases eq_or_ne j i with rfl | hj
  · rw [Function.update_self]
    exact if_pos ⟨hs, by simp [emptySlot, State.setSlot, clearSlot]⟩
  · rw [Function.update_of_ne hj]
    simp [emptySlot, State.setSlot, hj]

variable [NeZero N]

/-- Marked slots are FINISHED, so there are no more of them. -/
theorem total_corrupted_le {s : State N} (h : SchedInv s) : total corrupted s ≤ total finished s := by
  refine total_le_total fun i => ?_
  rw [corrupted, finished]
  split
  · next hc => rw [if_pos (h.corrupted i hc)]
  · exact Nat.zero_le _

/-- A FINISHED slot without a mark makes one more. -/
theorem total_corrupted_lt {s : State N} (h : SchedInv s) {i : Fin N}
    (hst : (s.tasks i).state = .finished) (hclean : (s.tasks i).stackCorrupted = false) :
    total corrupted s < total finished s := by
  obtain ⟨task, htask⟩ : ∃ task, task = { s.tasks i with stackCorrupted := true } := ⟨_, rfl⟩
  have hset := total_setSlot corrupted s i task
  have hone : corrupted task = 1 := by simp [htask, corrupted]
  have hzero : corrupted (s.tasks i) = 0 := by simp [corrupted, hclean]
  have hle : total corrupted (s.setSlot i task) ≤ total finished s := by
    refine Finset.sum_le_sum fun j _ => ?_
    rcases eq_or_ne j i with rfl | hj
    · have hself : (s.setSlot j task).tasks j = task := Function.update_self ..
      rw [hself, hone, finished, if_pos hst]
    · have hother : (s.setSlot i task).tasks j = s.tasks j := Function.update_of_ne hj ..
      rw [hother, corrupted, finished]
      split
      · next hc => rw [if_pos (h.corrupted j hc)]
      · exact Nat.zero_le _
  omega

/-- What holds of the state `t` while slots of the state `s` are being reaped. -/
structure Reaping (operations discarded : ℕ) (s t : State N) : Prop where
  inv : SchedInv t
  reaps : Reaps s t
  counts : ∀ i, (t.tasks i).state ≠ .unused → count (t.tasks i) = count (s.tasks i)
  stats : StatsInv operations (discarded + reapedCount s t) t

theorem Reaping.start {operations discarded : ℕ} {s : State N} (hinv : SchedInv s)
    (h : StatsInv operations discarded s) : Reaping operations discarded s s where
  inv := hinv
  reaps := Reaps.refl s
  counts _ _ := rfl
  stats := h.keep (reapedCount_of_tasks rfl)

theorem Reaping.taskReap {operations discarded : ℕ} {s t u : State N}
    (h : Reaping operations discarded s t) {id : BitVec 32} {reaped : Bool}
    (hreap : taskReap id t = some (reaped, u)) : Reaping operations discarded s u := by
  have hinv := h.inv.inv_taskReap hreap
  have hreaps := h.reaps.trans (reaps_taskReap hreap)
  rcases taskReap_cases hreap with ⟨-, rfl⟩ | ⟨i, -, hst, ⟨-, -, rfl⟩ | ⟨-, hclean, hslot⟩⟩
  · exact h
  · have hsame : reapedCount s (recordStackError i t) = reapedCount s t := by
      simp only [reapedCount, recordStackError_tasks]
    refine ⟨hinv, hreaps, ?_, ?_⟩
    · intro j hj
      rw [recordStackError_tasks] at hj ⊢
      exact h.counts j hj
    · rw [hsame]
      refine h.stats.recorded fun hclean => ?_
      have hlt := total_corrupted_lt h.inv hst hclean
      have herrors := h.stats.errors
      have hexited := h.stats.exited
      have hbound := t.exitedTasks.isLt
      omega
  · obtain ⟨alloc, -, rfl⟩ := reapSlot_cases hslot
    cases reaped with
    | false => exact ⟨hinv, hreaps, h.counts, h.stats.setAlloc alloc⟩
    | true =>
        have hs : (s.tasks i).state = .finished := by
          by_contra hne
          rw [h.reaps.tasks i hne] at hst
          exact hne hst
        have hcount := h.counts i (by simp [hst])
        refine ⟨hinv, hreaps, ?_, ?_⟩
        · intro j hj
          rcases eq_or_ne j i with rfl | hne
          · exact absurd (by simp [emptySlot, State.setSlot, clearSlot]) hj
          · have hother : (emptySlot i { t with alloc := alloc }).tasks j = t.tasks j :=
              Function.update_of_ne hne ..
            simp only [if_true, hother] at hj ⊢
            exact h.counts j hj
        · have hmore := (h.stats.setAlloc alloc).emptied hst (h.inv.ne_current (by simp [hst])) hclean
          have hsum := reapedCount_emptySlot (u := { t with alloc := alloc }) hs hst
          rw [if_pos rfl, hsum, ← Nat.add_assoc, ← hcount]
          exact hmore

/-! ### The equations over whole runs -/

/-- The operations of the scheduler so far, and what the slots reaped so far had counted. -/
structure Counts where
  operations : ℕ
  discarded : ℕ

/-- An operation of the scheduler is counted; what others do is not. -/
def Counts.record (counts : Counts) (s : Sys N) (op : Op N) (t : Sys N) : Counts where
  operations := match op with
    | .client _ => counts.operations
    | .writeStack _ _ => counts.operations
    | _ => counts.operations + 1
  discarded := counts.discarded + reapedCount s.kernel t.kernel

/-- The system with these counts. -/
def kernelWithCounts (bootstrap kernelEnd : Word) : Lts (Sys N × Counts) (Op N) :=
  (kernel bootstrap kernelEnd).withHistory ⟨0, 0⟩ Counts.record

variable {bootstrap : Word} {s t : Sys N} {op : Op N}

omit [NeZero N] in
/-- Retiring a task counts an exit, but no yield and no switch. -/
theorem retire_counters (s : State N) : (retire s).contextSwitches = s.contextSwitches ∧
    (retire s).yieldCalls = s.yieldCalls ∧ (retire s).exitedTasks = s.exitedTasks + 1 := by
  have hrecord (i : Fin N) : (recordStackError i s).contextSwitches = s.contextSwitches ∧
      (recordStackError i s).yieldCalls = s.yieldCalls ∧
      (recordStackError i s).exitedTasks = s.exitedTasks := by
    unfold recordStackError
    split
    · exact ⟨rfl, rfl, rfl⟩
    · exact ⟨rfl, rfl, rfl⟩
  obtain ⟨hswitches, hyields, hexited⟩ := hrecord s.currentTask
  exact ⟨hswitches, hyields, congrArg (· + 1) hexited⟩

/-- Giving up the CPU keeps the equations: a yield or an exit is counted for the switch. -/
theorem statsInv_leave {operations discarded : ℕ} {s u : State N} (hinv : SchedInv s)
    (h : StatsInv operations discarded s) {regs : Cpu} {final : Prop} (hl : Leave regs s final u)
    (hlt : operations + 1 < 2 ^ 64) : StatsInv (operations + 1) discarded u := by
  have hrun := (hinv.running s.currentTask).2 rfl
  have hle := h.switches_le
  have hops := h.switches_ops
  cases hl with
  | stay _ _ => exact h.countYield hlt
  | suspend _ hnext =>
      obtain ⟨hne, hready⟩ := findNextReady_some hnext
      have hyields := h.yields_le
      have hpaid : (s.yieldCalls + 1).toNat = s.yieldCalls.toNat + 1 := toNat_add_one (by omega)
      refine (h.suspended hrun hlt).dispatched hne ?_ ?_ ?_ hlt regs s.currentTask
      · rw [hinv.vacates_suspend.others _ hne]
        exact hready
      · have hgoal : s.contextSwitches.toNat + 1 ≤
            (s.yieldCalls + 1).toNat + s.exitedTasks.toNat := by omega
        exact hgoal
      · exact Nat.succ_le_succ hops
  | finish _ hcur _ hne hready =>
      obtain ⟨hswitches, hyields, hexited⟩ := retire_counters s
      have hexited_le := h.exited_le
      have hpaid : (s.exitedTasks + 1).toNat = s.exitedTasks.toNat + 1 := toNat_add_one (by omega)
      have herrors : s.stackErrors.toNat + 1 < 2 ^ 64 := by
        have hcorrupted := total_corrupted_le hinv
        have hequation := h.errors
        have hfinished := h.exited
        omega
      refine (h.retired hrun herrors hlt).dispatched ?_ ?_ ?_ ?_ hlt regs s.currentTask
      · rw [retire_currentTask]
        exact hne
      · rw [(SchedInv.vacates_retire hcur).others _ hne]
        exact hready
      · rw [hswitches, hyields, hexited]
        omega
      · rw [hswitches]
        omega

omit [NeZero N] in
/-- Filling a slot reaps none. -/
theorem reapedCount_fillSlot {s u : State N} {i : Fin N} (hsame : u.tasks = s.tasks)
    (hst : (s.tasks i).state = .unused) (bootstrap entry argument stackPage : Word) :
    reapedCount s (fillSlot bootstrap entry argument i stackPage u) = 0 := by
  refine reapedCount_eq_zero fun j hj hun => ?_
  rcases eq_or_ne j i with rfl | hne
  · exact absurd (hst.symm.trans hj) (by simp)
  · have hother : (fillSlot bootstrap entry argument i stackPage u).tasks j = u.tasks j :=
      Function.update_of_ne hne ..
    rw [hother, hsame, hj] at hun
    exact absurd hun (by simp)

/-- Creating a task keeps the equations. -/
theorem statsInv_taskCreate {operations discarded : ℕ} {s t : State N} (hinv : SchedInv s)
    (h : StatsInv operations discarded s) {entry argument : Word} {result : Option (Fin N)}
    (hcreate : taskCreate bootstrap entry argument s = (result, t))
    (hlt : operations + 1 < 2 ^ 64) :
    StatsInv (operations + 1) (discarded + reapedCount s t) t := by
  have hmore := h.mono (Nat.le_succ operations)
  rcases taskCreate_cases hcreate with
    ⟨-, rfl⟩ | ⟨alloc, -, -, rfl⟩ | ⟨i, stackPage, alloc, hi, -, -, -, rfl⟩
  · exact hmore.keep (reapedCount_of_tasks rfl)
  · exact (hmore.setAlloc alloc).keep (reapedCount_of_tasks rfl)
  · obtain ⟨-, hst⟩ := findUnused_some hi
    have hcur : i ≠ s.currentTask := hinv.ne_current (by simp [hst])
    have hclean := hinv.clean_of_ne_finished (i := i) (by simp [hst])
    have hfilled := (h.setAlloc alloc).filled hst hcur hclean hlt bootstrap entry argument stackPage
    exact hfilled.keep (reapedCount_fillSlot rfl hst bootstrap entry argument stackPage)

/-- **Every step keeps the equations**, while the operations can be counted. -/
theorem statsInv_step {counts : Counts} (hinv : SchedInv s.kernel)
    (h : StatsInv counts.operations counts.discarded s.kernel) (hstep : Step bootstrap s op t)
    (hlt : (counts.record s op t).operations < 2 ^ 64) :
    StatsInv (counts.record s op t).operations (counts.record s op t).discarded t.kernel := by
  have hdiscarded : (counts.record s op t).discarded =
      counts.discarded + reapedCount s.kernel t.kernel := rfl
  rw [hdiscarded]
  cases hregs : op.regs with
  | some regs =>
      have hleave := (step_leave hinv hstep hregs).2
      have hzero : reapedCount s.kernel t.kernel = 0 := by
        refine reapedCount_eq_zero fun i hst => ?_
        have hcur : i ≠ s.kernel.currentTask := hinv.ne_current (by simp [hst])
        by_cases hit : i = t.kernel.currentTask
        · rw [((hinv.inv_leave hleave).running i).2 hit]
          simp
        · rw [hinv.leave_others hleave hcur hit, hst]
          simp
      have hops : (counts.record s op t).operations = counts.operations + 1 := by
        rcases Op.eq_of_regs hregs with rfl | rfl
        · rfl
        · rfl
      rw [hops] at hlt ⊢
      exact (statsInv_leave hinv h hleave hlt).keep hzero
  | none =>
      have hmore := h.mono (Nat.le_succ counts.operations)
      cases hstep with
      | create hcreate => exact statsInv_taskCreate hinv h hcreate hlt
      | yield _ => exact absurd hregs (by simp [Op.regs])
      | exit _ => exact absurd hregs (by simp [Op.regs])
      | reap hreap =>
          exact ((Reaping.start hinv hmore).taskReap hreap).stats
      | reapFinished hreap =>
          exact (taskReapFinished_invariant (fun _ _ _ _ hs hid => hs.taskReap hid)
            (Reaping.start hinv hmore) hreap).stats
      | client _ _ => exact (h.setAlloc _).keep (reapedCount_of_tasks rfl)
      | writeStack _ _ => exact (h.setAlloc _).keep (reapedCount_of_tasks rfl)

theorem statsInv_init (alloc : PageAlloc.State) (cpu : Cpu) :
    StatsInv 0 0 (taskInit (State.boot alloc cpu : State N)) := by
  have hboot : (taskInit (State.boot alloc cpu : State N)).tasks 0 =
      { clearSlot ⟨fun _ => 0, null, 0, null, .unused, false, 0⟩ with
        state := .running
        scheduleCount := 1 } := rfl
  have hcleared (i : Fin N) (hi : i ≠ 0) : (taskInit (State.boot alloc cpu : State N)).tasks i =
      clearSlot ⟨fun _ => 0, null, 0, null, .unused, false, 0⟩ := if_neg hi
  -- only the slot of the boot flow adds to the sums
  have hsum (f : TaskSlot → ℕ) (hf : f (clearSlot ⟨fun _ => 0, null, 0, null, .unused, false, 0⟩) = 0) :
      total f (taskInit (State.boot alloc cpu : State N)) =
        f ((taskInit (State.boot alloc cpu : State N)).tasks 0) :=
    Finset.sum_eq_single_of_mem 0 (Finset.mem_univ 0) fun i _ hi => by rw [hcleared i hi, hf]
  constructor
  · rw [hsum inUse rfl, hboot]
    rfl
  · rw [hsum finished rfl, hboot]
    rfl
  · rw [hsum corrupted rfl, hboot]
    rfl
  · rw [hsum count rfl, hboot]
    rfl
  · exact Nat.one_pos
  · intro i hi
    rcases eq_or_ne i 0 with rfl | hne
    · exact absurd hi (by rw [hboot]; simp)
    · rw [hcleared i hne]
      rfl
  · exact Nat.zero_le _
  · exact Nat.le_refl 0
  · exact Nat.le_refl 0
  · exact Nat.le_refl 0
  · exact Nat.le_refl 0

/-- The equations hold in every reachable state, while the operations can be counted. -/
theorem reachable_statsInv {kernelEnd : Word} {p : Sys N × Counts}
    (h : (kernelWithCounts bootstrap kernelEnd).Reachable p) :
    p.2.operations < 2 ^ 64 → StatsInv p.2.operations p.2.discarded p.1.kernel := by
  refine Lts.Reachable.history_invariant (P := fun s counts => counts.operations < 2 ^ 64 →
    StatsInv counts.operations counts.discarded s.kernel) ?_ ?_ h
  · rintro _ ⟨mem, cpu, rfl⟩ -
    exact statsInv_init _ cpu
  · intro s counts op t hr hs hstep hlt
    have hle : counts.operations ≤ (counts.record s op t).operations := by
      cases op <;> simp [Counts.record]
    exact statsInv_step (reachable_schedInv hr) (hs (hle.trans_lt hlt)) hstep hlt

/-! ### What `task_get_stats` reports -/

omit [NeZero N] in
/-- The loop of `task_get_stats` counts the slots. -/
theorem toNat_countStates (hN : N < 2 ^ 32) (p : TaskState → Prop) [DecidablePred p] (s : State N) :
    (countStates p s).toNat = (Finset.univ.filter fun i => p (s.tasks i).state).card := by
  have hfold (l : List (Fin N)) (n : ℕ) :
      l.foldl (fun count i => if p (s.tasks i).state then count + 1 else count)
        (BitVec.ofNat 32 n) = BitVec.ofNat 32 (n + l.countP fun i => p (s.tasks i).state) := by
    induction l generalizing n with
    | nil => rfl
    | cons i l ih =>
        rw [List.foldl_cons, List.countP_cons]
        by_cases hp : p (s.tasks i).state
        · have hsuc : BitVec.ofNat 32 n + 1 = BitVec.ofNat 32 (n + 1) := by
            rw [BitVec.ofNat_add]
            rfl
          rw [if_pos hp, hsuc, ih, if_pos (by simpa using hp)]
          congr 1
          omega
        · rw [if_neg hp, ih, if_neg (by simpa using hp)]
          rfl
  have hcard : (Finset.univ.filter fun i => p (s.tasks i).state).card =
      (List.finRange N).countP fun i => p (s.tasks i).state := by
    rw [List.countP_eq_length_filter]
    rfl
  have hle := Finset.card_le_univ (Finset.univ.filter fun i => p (s.tasks i).state)
  rw [Fintype.card_fin] at hle
  have hcount := hfold (List.finRange N) 0
  rw [Nat.zero_add, ← hcard] at hcount
  calc (countStates p s).toNat
      = (BitVec.ofNat 32 (Finset.univ.filter fun i => p (s.tasks i).state).card).toNat :=
        congrArg BitVec.toNat hcount
    _ = (Finset.univ.filter fun i => p (s.tasks i).state).card := by
        rw [BitVec.toNat_ofNat, Nat.mod_eq_of_lt (by omega)]

omit [NeZero N] in
/-- Every slot is active, FINISHED or unused. -/
theorem card_states (s : State N) :
    (Finset.univ.filter fun i => (s.tasks i).state = .running ∨ (s.tasks i).state = .ready).card +
      (Finset.univ.filter fun i => (s.tasks i).state = .finished).card +
      (Finset.univ.filter fun i => (s.tasks i).state = .unused).card = N := by
  rw [Finset.card_filter, Finset.card_filter, Finset.card_filter, ← Finset.sum_add_distrib,
    ← Finset.sum_add_distrib]
  have hone : ∀ i ∈ Finset.univ, ((if (s.tasks i).state = .running ∨ (s.tasks i).state = .ready
      then 1 else 0) + (if (s.tasks i).state = .finished then 1 else 0) +
      if (s.tasks i).state = .unused then 1 else 0) = 1 := by
    intro i _
    cases (s.tasks i).state <;> simp
  rw [Finset.sum_congr rfl hone]
  simp

/-- The slots in use other than that of the boot flow. -/
theorem card_inUse {s : State N} (h : SchedInv s) :
    (Finset.univ.filter fun i => i ≠ 0 ∧ (s.tasks i).state ≠ .unused).card + 1 = total inUse s := by
  have hmem : (0 : Fin N) ∈ Finset.univ.filter fun i => (s.tasks i).state ≠ .unused := by
    rw [Finset.mem_filter]
    refine ⟨Finset.mem_univ 0, ?_⟩
    rcases h.boot with hst | hst <;> simp [hst]
  have herase : (Finset.univ.filter fun i => i ≠ 0 ∧ (s.tasks i).state ≠ .unused) =
      (Finset.univ.filter fun i => (s.tasks i).state ≠ .unused).erase 0 := by
    ext i
    simp
  rw [herase, Finset.card_erase_add_one hmem, Finset.card_filter]
  refine Finset.sum_congr rfl fun i _ => ?_
  rw [inUse, ite_not]

/-- **The statistics are conserved.**  In every run of fewer than `2 ^ 64` operations of the
scheduler: what was created was reaped or is in use; what has exited was reaped or is FINISHED; the
errors are the slots marked as corrupted; every switch was counted by a slot, one more for the boot
flow, or by a slot reaped since; a yield or an exit was counted for every switch; and `task_get_stats`
reports an active current task, and active, FINISHED and unused slots that are all there are. -/
theorem stats_conserved {kernelEnd : Word} {s : Sys taskMaxCount} {counts : Counts}
    (h : (kernelWithCounts bootstrap kernelEnd).Reachable (s, counts))
    (hops : counts.operations < 2 ^ 64) :
    s.kernel.createdTasks.toNat = s.kernel.reapedTasks.toNat +
      (Finset.univ.filter fun i => i ≠ 0 ∧ (s.kernel.tasks i).state ≠ .unused).card ∧
    s.kernel.exitedTasks.toNat = s.kernel.reapedTasks.toNat +
      (Finset.univ.filter fun i => (s.kernel.tasks i).state = .finished).card ∧
    s.kernel.stackErrors.toNat =
      (Finset.univ.filter fun i => (s.kernel.tasks i).stackCorrupted = true).card ∧
    s.kernel.contextSwitches.toNat + 1 =
      ∑ i, (s.kernel.tasks i).scheduleCount.toNat + counts.discarded ∧
    s.kernel.contextSwitches.toNat ≤ s.kernel.yieldCalls.toNat + s.kernel.exitedTasks.toNat ∧
    ∀ stats, stats ≠ null → ∃ r, taskGetStats stats s.kernel = some r ∧
      1 ≤ r.activeTasks.toNat ∧
      (∃ i : Fin taskMaxCount, r.currentTask = BitVec.ofNat 32 i ∧
        ((s.kernel.tasks i).state = .running ∨ (s.kernel.tasks i).state = .ready)) ∧
      r.activeTasks.toNat + r.finishedTasks.toNat +
        (Finset.univ.filter fun i => (s.kernel.tasks i).state = .unused).card = taskMaxCount := by
  have hinv : SchedInv s.kernel := reachable_schedInv h.fst
  have hstats := reachable_statsInv h hops
  dsimp only at hstats
  have hinUse := card_inUse hinv
  have hcreated := hstats.created
  have hexited := hstats.exited
  have herrors := hstats.errors
  refine ⟨by omega, ?_, ?_, hstats.switches, hstats.switches_le, ?_⟩
  · rw [hexited, Finset.card_filter]
    rfl
  · rw [herrors, Finset.card_filter]
    rfl
  · intro stats hnull
    have hcard := card_states s.kernel
    have hcurrent : s.kernel.currentTask ∈ Finset.univ.filter fun i =>
        (s.kernel.tasks i).state = .running ∨ (s.kernel.tasks i).state = .ready :=
      Finset.mem_filter.2 ⟨Finset.mem_univ _, Or.inl ((hinv.running _).2 rfl)⟩
    have hpos := Finset.card_pos.2 ⟨_, hcurrent⟩
    have hguard : ¬ (s.kernel.initialized = false ∨ stats = null) := by
      simp [hinv.initialized, hnull]
    have hactive := toNat_countStates (by decide)
      (fun state => state = .running ∨ state = .ready) s.kernel
    have hfinished := toNat_countStates (by decide) (· = .finished) s.kernel
    refine ⟨_, if_neg hguard, ?_, ⟨_, rfl, Or.inl ((hinv.running _).2 rfl)⟩, ?_⟩
    · dsimp only
      omega
    · dsimp only
      omega

/-- After a task was created and dispatched, one switch was counted for two slots. -/
theorem stats_conserved_firstRun : firstRun.contextSwitches.toNat = 1 ∧
    1 + 1 = ∑ i, (firstRun.tasks i).scheduleCount.toNat + 0 := by
  have hboot : (kernelWithCounts 0x40080000#64 0x40100000#64).Reachable (⟨bootKernel, ∅⟩, ⟨0, 0⟩) :=
    Lts.Reachable.init ⟨⟨fun _ => 0, zeroCpu, rfl⟩, rfl⟩
  have hcreate : (kernelWithCounts 0x40080000#64 0x40100000#64).Reachable
      (⟨firstCreate, ∅⟩, ⟨1, 0⟩) := hboot.step ⟨step_firstCreate, rfl⟩
  have hrun : (kernelWithCounts 0x40080000#64 0x40100000#64).Reachable (⟨firstRun, ∅⟩, ⟨2, 0⟩) :=
    hcreate.step ⟨step_firstRun, rfl⟩
  exact ⟨rfl, (stats_conserved hrun (by decide)).2.2.2.1⟩

end Task

end MiniOs
