/-
**The cooperative scheduler (`src/task.c`).**

A fixed table of slots holds the tasks.  Slot 0 is the boot flow and runs on the boot stack; every
other task gets a page from the page allocator as its stack, with a canary in the lowest word.  The
running task gives up the CPU by `task_yield` or `task_exit`, and the boot flow collects what
finished tasks leave behind.  This module is the code, function by function, for a table of any
size; what it does over whole runs starts in `MiniOs/TaskRun.lean`.

Main definitions:

* `Task.TaskSlot`, `Task.State` — a slot, and the static variables of the file, together with the
  allocator and the CPU;
* `Task.taskInit`, `Task.taskCreate`, `Task.taskYield`, `Task.taskExit`, `Task.taskReap`,
  `Task.taskReapFinished` — the interface of the file;
* `Task.taskBootstrap` — what a new task calls first.

Main results:

* `Task.findNextReady_some`, `Task.exists_findNextReady` — what the search for a ready slot finds;
* `Task.dispatch_switch` — **what a dispatch does to the registers and to the saved records**;
* `Task.reapSlots_invariant` — what one reap preserves, `task_reap_finished` preserves.
-/

import MiniOs.CyclicScan
import MiniOs.PageAlloc
import MiniOs.TaskSwitch

set_option relaxedAutoImplicit false
set_option autoImplicit false

namespace MiniOs

namespace Task

open PageAlloc (pageSize pageAlloc pageFree)

/-! ### Slots and state -/

/-- `enum task_state`. -/
inductive TaskState
  | unused
  | ready
  | running
  | finished
  deriving DecidableEq, Repr

/-- `struct task_slot`; entry points, arguments and pages are given by their addresses. -/
structure TaskSlot where
  context : Context
  entry : Word
  argument : Word
  stackPage : Word
  state : TaskState
  stackCorrupted : Bool
  scheduleCount : Word

/-- The static variables of the file, for a table of `N` slots, and what its functions work on: the
page allocator with the memory, and the CPU as the last switch left it. -/
structure State (N : ℕ) where
  tasks : Fin N → TaskSlot
  currentTask : Fin N
  createdTasks : Word
  contextSwitches : Word
  yieldCalls : Word
  exitedTasks : Word
  reapedTasks : Word
  stackErrors : Word
  initialized : Bool
  alloc : PageAlloc.State
  cpu : Cpu
  /-- The core is in the last loop of `task_exit`, which it never leaves. -/
  halted : Bool

/-- `TASK_MAX_COUNT`, the size of the table in the code. -/
abbrev taskMaxCount : ℕ := 4

instance : NeZero taskMaxCount := ⟨Nat.succ_ne_zero 3⟩

/-- `TASK_STACK_CANARY`. -/
def taskStackCanary : Word := 0x7461736b7374616b#64

variable {N : ℕ}

/-- Model of `stack_canary`. -/
def stackCanary (i : Fin N) : Word := taskStackCanary ^^^ BitVec.ofNat 64 i

/-- Model of `stack_canary_ok`. -/
def StackCanaryOk (i : Fin N) (s : State N) : Prop :=
  (s.tasks i).stackPage = null ∨ s.alloc.mem (s.tasks i).stackPage = stackCanary i

instance (i : Fin N) (s : State N) : Decidable (StackCanaryOk i s) :=
  inferInstanceAs (Decidable (_ ∨ _))

/-- Replace a slot of the table. -/
def State.setSlot (s : State N) (i : Fin N) (task : TaskSlot) : State N :=
  { s with tasks := Function.update s.tasks i task }

/-- Model of `record_stack_error`. -/
def recordStackError (i : Fin N) (s : State N) : State N :=
  if (s.tasks i).stackCorrupted = false ∧ ¬ StackCanaryOk i s then
    { s.setSlot i { s.tasks i with stackCorrupted := true } with
      stackErrors := s.stackErrors + 1 }
  else s

/-- Model of `clear_context`, which stores zero in every word of the record. -/
def clearContext (_ : Context) : Context := fun _ => 0

/-- Model of `clear_slot`. -/
def clearSlot (task : TaskSlot) : TaskSlot where
  context := clearContext task.context
  entry := null
  argument := 0
  stackPage := null
  state := .unused
  stackCorrupted := false
  scheduleCount := 0

section Interface

variable [NeZero N]

/-- The static variables at boot, before `task_init`: all zero. -/
def State.boot (alloc : PageAlloc.State) (cpu : Cpu) : State N where
  tasks _ := ⟨fun _ => 0, null, 0, null, .unused, false, 0⟩
  currentTask := 0
  createdTasks := 0
  contextSwitches := 0
  yieldCalls := 0
  exitedTasks := 0
  reapedTasks := 0
  stackErrors := 0
  initialized := false
  alloc := alloc
  cpu := cpu
  halted := false

/-! ### The functions of the file -/

/-- Model of `find_next_ready`; `none` stands for `TASK_ID_INVALID`. -/
def findNextReady (s : State N) : Option (Fin N) :=
  CyclicScan.first (fun candidate => (s.tasks candidate).state = .ready) s.currentTask

/-- The call `entry(argument)` that `task_bootstrap` makes, as the two values it reads. -/
def taskBootstrap (s : State N) : Word × Word :=
  ((s.tasks s.currentTask).entry, (s.tasks s.currentTask).argument)

/-- Model of `task_init`. -/
def taskInit (s : State N) : State N :=
  if s.initialized then s
  else
    { s with
      tasks := fun i =>
        let task := clearSlot (s.tasks i)
        if i = 0 then { task with state := .running, scheduleCount := 1 } else task
      currentTask := 0
      createdTasks := 0
      contextSwitches := 0
      yieldCalls := 0
      exitedTasks := 0
      reapedTasks := 0
      stackErrors := 0
      initialized := true }

/-- The loop of `task_create` over the slots after the first. -/
def findUnused (s : State N) : Option (Fin N) :=
  (List.finRange N).find? fun i => i ≠ 0 ∧ (s.tasks i).state = .unused

/-- The slot that `task_create` fills in; `bootstrap` is the address of `task_bootstrap`. -/
def newSlot (bootstrap entry argument stackPage : Word) (task : TaskSlot) : TaskSlot :=
  let task := clearSlot task
  { task with
    entry := entry
    argument := argument
    stackPage := stackPage
    state := .ready
    context := Function.update (Function.update task.context taskContextSpOffset
      (stackPage + pageSize)) taskContextX30Offset bootstrap }

/-- The end of `task_create`: fill in the slot and put the canary in the stack page. -/
def fillSlot (bootstrap entry argument : Word) (i : Fin N) (stackPage : Word) (s : State N) :
    State N :=
  { s.setSlot i (newSlot bootstrap entry argument stackPage (s.tasks i)) with
    alloc := { s.alloc with mem := Function.update s.alloc.mem stackPage (stackCanary i) }
    createdTasks := s.createdTasks + 1 }

/-- Model of `task_create`; `none` stands for `TASK_ID_INVALID`. -/
def taskCreate (bootstrap entry argument : Word) (s : State N) : Option (Fin N) × State N :=
  if s.initialized = false ∨ entry = null then (none, s)
  else
    match findUnused s with
    | none => (none, s)
    | some i =>
        let (stackPage, alloc) := pageAlloc s.alloc
        let s := { s with alloc := alloc }
        -- nothing was written to the slot yet, so there is nothing to undo
        if stackPage = null then (none, s)
        else (some i, fillSlot bootstrap entry argument i stackPage s)

/-- The call of `task_context_switch`, with `regs` in the CPU when it is reached. -/
def contextSwitch (regs : Cpu) (previous next : Fin N) (s : State N) : State N :=
  let m := exec (arguments previous next) taskContextSwitch ⟨regs, fun i => (s.tasks i).context⟩
  { s with
    tasks := fun i => { s.tasks i with context := m.mem i }
    cpu := m.cpu }

/-- The common end of `task_yield` and `task_exit`: the slot `next` gets the CPU. -/
def dispatch (regs : Cpu) (previous next : Fin N) (s : State N) : State N :=
  contextSwitch regs previous next
    { s.setSlot next
        { s.tasks next with
          state := .running
          scheduleCount := (s.tasks next).scheduleCount + 1 } with
      currentTask := next
      contextSwitches := s.contextSwitches + 1 }

/-- The running task is finished: the first half of `task_exit`. -/
def retire (s : State N) : State N :=
  let previous := s.currentTask
  let s := recordStackError previous s
  { s.setSlot previous { s.tasks previous with state := .finished } with
    exitedTasks := s.exitedTasks + 1 }

/-- `task_exit` called by a task other than the boot flow. -/
def exitTask (regs : Cpu) (s : State N) : State N :=
  match findNextReady (retire s) with
  | some next => dispatch regs s.currentTask next (retire s)
  | none => { retire s with halted := true }

/-- Model of `task_yield`, up to the switch; the task that gets the CPU goes on from there.  The
guard of `task_exit` lets the call in the corrupted case through. -/
def taskYield (regs : Cpu) (s : State N) : State N :=
  if s.initialized = false then s
  else
    let s := recordStackError s.currentTask s
    -- a task whose canary is gone does not get the CPU back
    if (s.tasks s.currentTask).stackCorrupted ∧ s.currentTask ≠ 0 then exitTask regs s
    else
      let s := { s with yieldCalls := s.yieldCalls + 1 }
      match findNextReady s with
      -- no other task is READY, and the caller goes on
      | none => s
      | some next =>
          dispatch regs s.currentTask next
            (s.setSlot s.currentTask { s.tasks s.currentTask with state := .ready })

/-- Model of `task_exit`.  The boot flow does not finish: it yields for ever, and this is its next
yield. -/
def taskExit (regs : Cpu) (s : State N) : State N :=
  if s.initialized = false ∨ s.currentTask = 0 then taskYield regs s else exitTask regs s

/-- The end of `task_reap`: clear the slot. -/
def emptySlot (i : Fin N) (s : State N) : State N :=
  { s.setSlot i (clearSlot (s.tasks i)) with reapedTasks := s.reapedTasks + 1 }

/-- `task_reap` after its tests: give the stack back and clear the slot. -/
def reapSlot (i : Fin N) (s : State N) : Option (Bool × State N) :=
  match pageFree (s.tasks i).stackPage s.alloc with
  | none => none
  | some (false, alloc) => some (false, { s with alloc := alloc })
  | some (true, alloc) => some (true, emptySlot i { s with alloc := alloc })

/-- Model of `task_reap`, which returns whether it reaped the slot; `none` when the call of
`page_free` does not end. -/
def taskReap (id : BitVec 32) (s : State N) : Option (Bool × State N) :=
  if h : id.toNat < N then
    let i : Fin N := ⟨id.toNat, h⟩
    if s.initialized = false ∨ s.currentTask ≠ 0 ∨ i = s.currentTask then some (false, s)
    else if (s.tasks i).state ≠ .finished ∨ (s.tasks i).stackPage = null then some (false, s)
    else
      let s := recordStackError i s
      -- a slot whose canary is gone keeps its stack and is never reaped
      if (s.tasks i).stackCorrupted then some (false, s) else reapSlot i s
  else some (false, s)

/-- The loop of `task_reap_finished` over the given slots, with the count so far. -/
def reapSlots : List ℕ → ℕ → State N → Option (ℕ × State N)
  | [], count, s => some (count, s)
  | id :: ids, count, s =>
      match taskReap (BitVec.ofNat 32 id) s with
      | none => none
      | some (reaped, t) => reapSlots ids (if reaped then count + 1 else count) t

/-- Model of `task_reap_finished`, which returns the number of slots it reaped. -/
def taskReapFinished (s : State N) : Option (ℕ × State N) :=
  if s.initialized = false then some (0, s) else reapSlots (List.range' 1 (N - 1)) 0 s

/-- `task_init` leaves the allocator as it is. -/
theorem taskInit_alloc (s : State N) : (taskInit s).alloc = s.alloc := by
  unfold taskInit
  split <;> rfl

end Interface

/-! ### Recording a stack error -/

theorem recordStackError_of_ok {i : Fin N} {s : State N} (h : StackCanaryOk i s) :
    recordStackError i s = s := if_neg fun hbad => hbad.2 h

theorem recordStackError_of_corrupted {i : Fin N} {s : State N}
    (h : (s.tasks i).stackCorrupted = true) : recordStackError i s = s := by
  refine if_neg fun hbad => ?_
  rw [h] at hbad
  exact absurd hbad.1 (by simp)

/-- Recording an error changes one flag of one slot. -/
theorem recordStackError_tasks (i j : Fin N) (s : State N) :
    (recordStackError i s).tasks j =
      { s.tasks j with
        stackCorrupted := (s.tasks j).stackCorrupted || decide (j = i ∧ ¬ StackCanaryOk i s) } := by
  unfold recordStackError
  split
  · next h =>
      by_cases hj : j = i
      · rw [hj]
        simp [State.setSlot, h.2]
      · simp [State.setSlot, hj]
  · next h =>
      by_cases hj : j = i
      · rw [hj]
        have hflag : ((s.tasks i).stackCorrupted || decide (i = i ∧ ¬ StackCanaryOk i s)) =
            (s.tasks i).stackCorrupted := by
          cases hc : (s.tasks i).stackCorrupted with
          | true => rfl
          | false =>
              have hok : StackCanaryOk i s := not_not.1 fun hbad => h ⟨hc, hbad⟩
              simp [hok]
        rw [hflag]
      · simp [hj]

@[simp] theorem recordStackError_alloc (i : Fin N) (s : State N) :
    (recordStackError i s).alloc = s.alloc := by
  unfold recordStackError
  split <;> rfl

@[simp] theorem recordStackError_currentTask (i : Fin N) (s : State N) :
    (recordStackError i s).currentTask = s.currentTask := by
  unfold recordStackError
  split <;> rfl

@[simp] theorem recordStackError_initialized (i : Fin N) (s : State N) :
    (recordStackError i s).initialized = s.initialized := by
  unfold recordStackError
  split <;> rfl

@[simp] theorem recordStackError_halted (i : Fin N) (s : State N) :
    (recordStackError i s).halted = s.halted := by
  unfold recordStackError
  split <;> rfl

/-- Recording an error twice records it once. -/
theorem recordStackError_idem (i : Fin N) (s : State N) :
    recordStackError i (recordStackError i s) = recordStackError i s := by
  by_cases hok : StackCanaryOk i s
  · rw [recordStackError_of_ok hok, recordStackError_of_ok hok]
  · refine recordStackError_of_corrupted ?_
    rw [recordStackError_tasks]
    simp [hok]

/-- Retiring a task does the recording that `task_yield` has already done. -/
theorem retire_recordStackError (s : State N) :
    retire (recordStackError s.currentTask s) = retire s := by
  simp only [retire, recordStackError_currentTask, recordStackError_idem]

theorem retire_currentTask (s : State N) : (retire s).currentTask = s.currentTask := by
  simp [retire, State.setSlot]

theorem exitTask_recordStackError [NeZero N] (regs : Cpu) (s : State N) :
    exitTask regs (recordStackError s.currentTask s) = exitTask regs s := by
  unfold exitTask
  rw [retire_recordStackError, recordStackError_currentTask]

/-! ### The search for a ready slot -/

section Search

variable [NeZero N]

/-- The search finds another slot that is ready. -/
theorem findNextReady_some {s : State N} {next : Fin N} (h : findNextReady s = some next) :
    next ≠ s.currentTask ∧ (s.tasks next).state = .ready := by
  obtain ⟨hne, hready⟩ := CyclicScan.first_some h
  exact ⟨hne, of_decide_eq_true hready⟩

/-- The search finds something as soon as another slot is ready. -/
theorem exists_findNextReady {s : State N} {i : Fin N} (hne : i ≠ s.currentTask)
    (hready : (s.tasks i).state = .ready) : ∃ next, findNextReady s = some next :=
  CyclicScan.exists_first hne (decide_eq_true hready)

/-- The slot `task_create` picks is unused, and not that of the boot flow. -/
theorem findUnused_some {s : State N} {i : Fin N} (h : findUnused s = some i) :
    i ≠ 0 ∧ (s.tasks i).state = .unused := by
  simpa using List.find?_some h

end Search

/-! ### Dispatching a slot -/

section Dispatch

variable (regs : Cpu) (previous next : Fin N) (s : State N)

/-- A dispatch changes the records, and the state and the count of the slot that gets the CPU. -/
theorem dispatch_tasks (i : Fin N) :
    (dispatch regs previous next s).tasks i =
      { s.tasks i with
        context := ((dispatch regs previous next s).tasks i).context
        state := if i = next then .running else (s.tasks i).state
        scheduleCount := if i = next then (s.tasks i).scheduleCount + 1
          else (s.tasks i).scheduleCount } := by
  by_cases hi : i = next
  · rw [hi]
    simp [dispatch, contextSwitch, State.setSlot]
  · simp [dispatch, contextSwitch, State.setSlot, hi]

@[simp] theorem dispatch_currentTask :
    (dispatch regs previous next s).currentTask = next := rfl

@[simp] theorem dispatch_initialized :
    (dispatch regs previous next s).initialized = s.initialized := rfl

@[simp] theorem dispatch_halted : (dispatch regs previous next s).halted = s.halted := rfl

@[simp] theorem dispatch_alloc : (dispatch regs previous next s).alloc = s.alloc := rfl

@[simp] theorem dispatch_state (i : Fin N) :
    ((dispatch regs previous next s).tasks i).state =
      if i = next then .running else (s.tasks i).state := by
  rw [dispatch_tasks]

@[simp] theorem dispatch_scheduleCount (i : Fin N) :
    ((dispatch regs previous next s).tasks i).scheduleCount =
      if i = next then (s.tasks i).scheduleCount + 1 else (s.tasks i).scheduleCount := by
  rw [dispatch_tasks]

@[simp] theorem dispatch_stackPage (i : Fin N) :
    ((dispatch regs previous next s).tasks i).stackPage = (s.tasks i).stackPage := by
  rw [dispatch_tasks]

@[simp] theorem dispatch_stackCorrupted (i : Fin N) :
    ((dispatch regs previous next s).tasks i).stackCorrupted = (s.tasks i).stackCorrupted := by
  rw [dispatch_tasks]

@[simp] theorem dispatch_entry (i : Fin N) :
    ((dispatch regs previous next s).tasks i).entry = (s.tasks i).entry := by
  rw [dispatch_tasks]

@[simp] theorem dispatch_argument (i : Fin N) :
    ((dispatch regs previous next s).tasks i).argument = (s.tasks i).argument := by
  rw [dispatch_tasks]

/-- A dispatch runs `task_context_switch` on the records of the table. -/
theorem dispatch_exec :
    (dispatch regs previous next s).cpu = (exec (arguments previous next) taskContextSwitch
        ⟨regs, fun i => (s.tasks i).context⟩).cpu ∧
      ∀ i, ((dispatch regs previous next s).tasks i).context =
        (exec (arguments previous next) taskContextSwitch
          ⟨regs, fun i => (s.tasks i).context⟩).mem i := by
  have hctx : (fun i => (Function.update s.tasks next
      { s.tasks next with
        state := .running
        scheduleCount := (s.tasks next).scheduleCount + 1 } i).context) =
      fun i => (s.tasks i).context := by
    funext i
    by_cases hi : i = next
    · rw [hi, Function.update_self]
    · rw [Function.update_of_ne hi]
  simp only [dispatch, contextSwitch, State.setSlot, hctx, implies_true, and_self]

/-- **What a dispatch does to the registers and the records**: the registers go to the record of the
slot that loses the CPU, those of the other slot come from its record, and no third record
changes. -/
theorem dispatch_switch (hne : next ≠ previous) :
    ((dispatch regs previous next s).tasks previous).context.Holds regs ∧
      (s.tasks next).context.Holds (dispatch regs previous next s).cpu ∧
      (dispatch regs previous next s).cpu.pc = (s.tasks next).context taskContextX30Offset ∧
      ∀ i, i ≠ previous →
        ((dispatch regs previous next s).tasks i).context = (s.tasks i).context := by
  obtain ⟨hcpu, hctx⟩ := dispatch_exec regs previous next s
  obtain ⟨hsave, hload, hpc, hframe⟩ := exec_taskContextSwitch hne
    ⟨regs, fun i => (s.tasks i).context⟩
  rw [hcpu, hctx]
  refine ⟨hsave, hload, hpc, ?_⟩
  intro i hi
  rw [hctx]
  exact hframe i hi

/-- A dispatch leaves every third slot alone. -/
theorem dispatch_tasks_of_ne (hne : next ≠ previous) {i : Fin N} (hi : i ≠ previous)
    (hi' : i ≠ next) : (dispatch regs previous next s).tasks i = s.tasks i := by
  obtain ⟨-, -, -, hframe⟩ := dispatch_switch regs previous next s hne
  rw [dispatch_tasks, hframe i hi]
  simp [hi']

end Dispatch

/-! ### Reaping -/

/-- All the end of `task_reap` can do. -/
theorem reapSlot_cases {i : Fin N} {s t : State N} {reaped : Bool}
    (h : reapSlot i s = some (reaped, t)) :
    ∃ alloc, pageFree (s.tasks i).stackPage s.alloc = some (reaped, alloc) ∧
      t = if reaped then emptySlot i { s with alloc := alloc } else { s with alloc := alloc } := by
  unfold reapSlot at h
  cases hfree : pageFree (s.tasks i).stackPage s.alloc with
  | none => simp [hfree] at h
  | some r =>
      obtain ⟨accepted, alloc⟩ := r
      cases accepted with
      | false =>
          simp only [hfree, Option.some.injEq, Prod.mk.injEq] at h
          obtain ⟨rfl, rfl⟩ := h
          exact ⟨alloc, rfl, rfl⟩
      | true =>
          simp only [hfree, Option.some.injEq, Prod.mk.injEq] at h
          obtain ⟨rfl, rfl⟩ := h
          exact ⟨alloc, rfl, rfl⟩

section Reap

variable [NeZero N]

/-- What one reap preserves, `task_reap_finished` preserves. -/
theorem reapSlots_invariant {P : State N → Prop}
    (hreap : ∀ id s reaped t, P s → taskReap id s = some (reaped, t) → P t)
    {ids : List ℕ} {count total : ℕ} {s t : State N} (hs : P s)
    (h : reapSlots ids count s = some (total, t)) : P t := by
  induction ids generalizing count s with
  | nil =>
      obtain ⟨-, rfl⟩ := Prod.mk.inj (Option.some_inj.1 h)
      exact hs
  | cons id ids ih =>
      rw [reapSlots] at h
      cases hid : taskReap (BitVec.ofNat 32 id) s with
      | none =>
          rw [hid] at h
          exact absurd h (by simp)
      | some r =>
          obtain ⟨reaped, u⟩ := r
          rw [hid] at h
          exact ih (hreap _ _ _ _ hs hid) h

/-- What one reap preserves, `task_reap_finished` preserves. -/
theorem taskReapFinished_invariant {P : State N → Prop}
    (hreap : ∀ id s reaped t, P s → taskReap id s = some (reaped, t) → P t)
    {total : ℕ} {s t : State N} (hs : P s) (h : taskReapFinished s = some (total, t)) : P t := by
  unfold taskReapFinished at h
  split at h
  · obtain ⟨-, rfl⟩ := Prod.mk.inj (Option.some_inj.1 h)
    exact hs
  · exact reapSlots_invariant hreap hs h

end Reap

end Task

end MiniOs
