/-
**Calls that succeed.**

The other modules on the scheduler say what a call can do in any state.  A client that knows more
about the state knows what the call does: who gets the CPU next, that a task is created, that a
finished task is reaped.  Here each of these calls is described by what it leaves as it was and what
it changes, counters included.

Main definitions:

* `Task.Hands` — the CPU goes from one slot to another;
* `Task.Creates`, `Task.Clears` — a slot is filled in, a slot is reaped;
* `Task.useStack` — the running task uses its stack, but not the lowest word.

Main results:

* `Task.findNextReady_of_lt`, `Task.findNextReady_of_gt` — who is next;
* `Task.taskYield_hands`, `Task.taskExit_hands` — **giving up the CPU**;
* `Task.taskCreate_creates`, `Task.taskReap_clears` — **creating and reaping**;
* `Task.useStack_canary` — using a stack leaves all canaries alone.
-/

import MiniOs.TaskOwnership
import MiniOs.TaskQuarantine

set_option relaxedAutoImplicit false
set_option autoImplicit false

namespace MiniOs

namespace Task

open CyclicScan (distance)
open PageAlloc (pageAlloc pageFree pageFreePages writePage release)

variable {N : ℕ} [NeZero N] {s t u : State N}

/-! ### Who is next -/

/-- The nearest READY slot is next. -/
theorem findNextReady_eq {next : Fin N} (hne : next ≠ s.currentTask)
    (hready : (s.tasks next).state = .ready)
    (hnearest : ∀ i, i ≠ s.currentTask → (s.tasks i).state = .ready →
      distance s.currentTask next ≤ distance s.currentTask i) : findNextReady s = some next :=
  CyclicScan.first_eq hne (decide_eq_true hready) fun i hi hst =>
    hnearest i hi (of_decide_eq_true hst)

/-- The next slot comes later in the table, and the other READY slots come after it or before the
current one. -/
theorem findNextReady_of_lt {next : Fin N} (hlt : s.currentTask < next)
    (hready : (s.tasks next).state = .ready)
    (hother : ∀ i, i ≠ s.currentTask → (s.tasks i).state = .ready →
      next ≤ i ∨ i < s.currentTask) : findNextReady s = some next := by
  refine findNextReady_eq (ne_of_gt hlt) hready fun i hi hst => ?_
  rw [CyclicScan.distance_of_le (Fin.le_def.1 (le_of_lt hlt))]
  rcases hother i hi hst with hle | hbefore
  · rw [CyclicScan.distance_of_le (Fin.le_def.1 ((le_of_lt hlt).trans hle))]
    exact Nat.sub_le_sub_right (Fin.le_def.1 hle) _
  · rw [CyclicScan.distance_of_lt (Fin.lt_def.1 hbefore)]
    have hbound := next.isLt
    omega

/-- The search has gone round: the next slot and the other READY slots come before the current one,
the next slot first. -/
theorem findNextReady_of_gt {next : Fin N} (hlt : next < s.currentTask)
    (hready : (s.tasks next).state = .ready)
    (hother : ∀ i, i ≠ s.currentTask → (s.tasks i).state = .ready →
      next ≤ i ∧ i < s.currentTask) : findNextReady s = some next := by
  refine findNextReady_eq (ne_of_lt hlt) hready fun i hi hst => ?_
  obtain ⟨hle, hbefore⟩ := hother i hi hst
  rw [CyclicScan.distance_of_lt (Fin.lt_def.1 hlt), CyclicScan.distance_of_lt (Fin.lt_def.1 hbefore)]
  have hle' := Fin.le_def.1 hle
  omega

/-! ### Calls as steps -/

section Calls

variable {bootstrap kernelEnd : Word} {clients : Finset Word}

theorem reachable_taskCreate (h : (kernel bootstrap kernelEnd).Reachable ⟨s, clients⟩)
    {entry argument : Word} {result : Option (Fin N)}
    (hcreate : taskCreate bootstrap entry argument s = (result, t)) :
    (kernel bootstrap kernelEnd).Reachable ⟨t, clients⟩ := by
  have hstep : Step bootstrap ⟨s, clients⟩ (Op.create entry argument) ⟨t, clients⟩ :=
    Step.create hcreate
  exact h.step hstep

theorem reachable_taskYield (h : (kernel bootstrap kernelEnd).Reachable ⟨s, clients⟩)
    (regs : Cpu) : (kernel bootstrap kernelEnd).Reachable ⟨taskYield regs s, clients⟩ := by
  have hstep : Step bootstrap ⟨s, clients⟩ (Op.yield regs) ⟨taskYield regs s, clients⟩ :=
    Step.yield regs
  exact h.step hstep

theorem reachable_taskExit (h : (kernel bootstrap kernelEnd).Reachable ⟨s, clients⟩)
    (regs : Cpu) : (kernel bootstrap kernelEnd).Reachable ⟨taskExit regs s, clients⟩ := by
  have hstep : Step bootstrap ⟨s, clients⟩ (Op.exit regs) ⟨taskExit regs s, clients⟩ :=
    Step.exit regs
  exact h.step hstep

theorem reachable_taskReap (h : (kernel bootstrap kernelEnd).Reachable ⟨s, clients⟩)
    {id : BitVec 32} {reaped : Bool} (hreap : taskReap id s = some (reaped, t)) :
    (kernel bootstrap kernelEnd).Reachable ⟨t, clients⟩ := by
  have hstep : Step bootstrap ⟨s, clients⟩ (Op.reap id) ⟨t, clients⟩ := Step.reap hreap
  exact h.step hstep

end Calls

/-! ### The CPU goes to another slot -/

/-- **The CPU goes from the slot `previous`, which is left in a state, to the slot `next`.** -/
structure Hands (s t : State N) (previous next : Fin N) (state : TaskState) : Prop where
  currentTask : t.currentTask = next
  state : ∀ i, (t.tasks i).state =
    if i = next then .running else if i = previous then state else (s.tasks i).state
  slot : ∀ i, (t.tasks i).entry = (s.tasks i).entry ∧
    (t.tasks i).argument = (s.tasks i).argument ∧
    (t.tasks i).stackPage = (s.tasks i).stackPage ∧
    (t.tasks i).stackCorrupted = (s.tasks i).stackCorrupted
  scheduleCount : ∀ i, (t.tasks i).scheduleCount =
    if i = next then (s.tasks i).scheduleCount + 1 else (s.tasks i).scheduleCount
  others : ∀ i, i ≠ previous → i ≠ next → t.tasks i = s.tasks i
  alloc : t.alloc = s.alloc
  contextSwitches : t.contextSwitches = s.contextSwitches + 1
  createdTasks : t.createdTasks = s.createdTasks
  reapedTasks : t.reapedTasks = s.reapedTasks
  stackErrors : t.stackErrors = s.stackErrors

omit [NeZero N] in
theorem hands_dispatch {previous next : Fin N} (hne : next ≠ previous) (regs : Cpu)
    (state : TaskState) (hu : u.tasks = Function.update s.tasks previous
      { s.tasks previous with state := state }) (halloc : u.alloc = s.alloc)
    (hswitches : u.contextSwitches = s.contextSwitches) (hcreated : u.createdTasks = s.createdTasks)
    (hreaped : u.reapedTasks = s.reapedTasks) (herrors : u.stackErrors = s.stackErrors) :
    Hands s (dispatch regs previous next u) previous next state := by
  have hother : ∀ i, i ≠ previous → u.tasks i = s.tasks i := by
    intro i hi
    rw [hu, Function.update_of_ne hi]
  have hself : u.tasks previous = { s.tasks previous with state := state } := by
    rw [hu, Function.update_self]
  refine ⟨rfl, ?_, ?_, ?_, ?_, ?_, ?_, hcreated, hreaped, herrors⟩
  · intro i
    rw [dispatch_state]
    by_cases hi : i = previous
    · rw [hi, hself, if_pos rfl]
    · rw [hother i hi, if_neg hi]
  · intro i
    rw [dispatch_entry, dispatch_argument, dispatch_stackPage, dispatch_stackCorrupted]
    by_cases hi : i = previous
    · rw [hi, hself]
      exact ⟨rfl, rfl, rfl, rfl⟩
    · rw [hother i hi]
      exact ⟨rfl, rfl, rfl, rfl⟩
  · intro i
    rw [dispatch_scheduleCount]
    by_cases hi : i = previous
    · rw [hi, hself]
    · rw [hother i hi]
  · intro i hi hi'
    rw [dispatch_tasks_of_ne _ _ _ _ hne hi hi', hother i hi]
  · exact halloc
  · change u.contextSwitches + 1 = _
    rw [hswitches]

/-- **A yield to the slot that is next.** -/
theorem taskYield_hands (h : SchedInv s) (hok : StackCanaryOk s.currentTask s) {next : Fin N}
    (hnext : findNextReady s = some next) (regs : Cpu) :
    Hands s (taskYield regs s) s.currentTask next .ready ∧
      (taskYield regs s).yieldCalls = s.yieldCalls + 1 ∧
      (taskYield regs s).exitedTasks = s.exitedTasks := by
  have hne := (findNextReady_some hnext).1
  rcases h.taskYield_cases regs with ⟨hf, -⟩ | ⟨-, hnone, -⟩ | ⟨-, next', hnext', heq⟩
  · exact absurd hok hf.2
  · rw [hnone] at hnext
    cases hnext
  · obtain rfl : next' = next := Option.some_inj.1 (hnext'.symm.trans hnext)
    rw [heq]
    exact ⟨hands_dispatch hne regs .ready rfl rfl rfl rfl rfl rfl, rfl, rfl⟩

/-- **An exit to the slot that is next.** -/
theorem taskExit_hands (h : SchedInv s) (hcur : s.currentTask ≠ 0)
    (hok : StackCanaryOk s.currentTask s) {next : Fin N}
    (hnext : findNextReady s = some next) (regs : Cpu) :
    Hands s (taskExit regs s) s.currentTask next .finished ∧
      (taskExit regs s).yieldCalls = s.yieldCalls ∧
      (taskExit regs s).exitedTasks = s.exitedTasks + 1 := by
  have hne := (findNextReady_some hnext).1
  have hretire : retire s =
      { s.setSlot s.currentTask { s.tasks s.currentTask with state := .finished } with
        exitedTasks := s.exitedTasks + 1 } := by
    simp only [retire, recordStackError_of_ok hok]
  -- the search looks at the other slots only
  have hsame : findNextReady (retire s) = findNextReady s := by
    have hready : ∀ i, i ≠ s.currentTask → ((retire s).tasks i).state = (s.tasks i).state := by
      intro i hi
      rw [hretire]
      exact congrArg TaskSlot.state (Function.update_of_ne hi _ _)
    rw [hnext]
    refine findNextReady_eq ?_ ?_ ?_
    · rwa [retire_currentTask]
    · rw [hready next hne]
      exact (findNextReady_some hnext).2
    · intro i hi hst
      rw [retire_currentTask] at hi ⊢
      rw [hready i hi] at hst
      exact CyclicScan.first_distance_le hnext hi (decide_eq_true hst)
  rw [taskExit, if_neg (by simp [h.initialized, hcur]), exitTask, hsame, hnext]
  dsimp only
  rw [hretire]
  exact ⟨hands_dispatch hne regs .finished rfl rfl rfl rfl rfl rfl, rfl, rfl⟩

/-! ### Using a stack -/

/-- The running task uses its stack: its page holds anything afterwards, but its lowest word is as it
was.  The stack of the boot flow is not in a page. -/
def useStack (contents : ℕ → Word) (s : State N) : State N :=
  let page := (s.tasks s.currentTask).stackPage
  if page = null then s
  else
    { s with
      alloc := { s.alloc with
        mem := writePage page (Function.update contents 0 (s.alloc.mem page)) s.alloc.mem } }

omit [NeZero N] in
/-- Using a stack changes nothing but the memory. -/
theorem useStack_eq (contents : ℕ → Word) (s : State N) :
    ∃ mem, useStack contents s = { s with alloc := { s.alloc with mem := mem } } := by
  unfold useStack
  by_cases hpage : (s.tasks s.currentTask).stackPage = null
  · rw [if_pos hpage]
    exact ⟨s.alloc.mem, rfl⟩
  · rw [if_neg hpage]
    exact ⟨_, rfl⟩

omit [NeZero N] in
@[simp] theorem useStack_tasks (contents : ℕ → Word) (s : State N) :
    (useStack contents s).tasks = s.tasks := by
  obtain ⟨mem, hmem⟩ := useStack_eq contents s
  rw [hmem]

omit [NeZero N] in
@[simp] theorem useStack_currentTask (contents : ℕ → Word) (s : State N) :
    (useStack contents s).currentTask = s.currentTask := by
  obtain ⟨mem, hmem⟩ := useStack_eq contents s
  rw [hmem]

section Use

variable {bootstrap kernelEnd : Word} {clients : Finset Word} (contents : ℕ → Word)

/-- Using a stack is something that may happen in a run of the scheduler. -/
theorem reachable_useStack (h : (kernel bootstrap kernelEnd).Reachable ⟨s, clients⟩) :
    (kernel bootstrap kernelEnd).Reachable ⟨useStack contents s, clients⟩ := by
  unfold useStack
  by_cases hpage : (s.tasks s.currentTask).stackPage = null
  · rw [if_pos hpage]
    exact h
  · rw [if_neg hpage]
    have hstep : Step bootstrap ⟨s, clients⟩ (Op.writeStack s.currentTask
        (Function.update contents 0 (s.alloc.mem (s.tasks s.currentTask).stackPage)))
        ⟨{ s with
            alloc := { s.alloc with
              mem := writePage (s.tasks s.currentTask).stackPage
                (Function.update contents 0 (s.alloc.mem (s.tasks s.currentTask).stackPage))
                s.alloc.mem } }, clients⟩ := Step.writeStack _ hpage
    exact h.step hstep

/-- **Using a stack leaves all canaries alone.** -/
theorem useStack_canary (h : (kernel bootstrap kernelEnd).Reachable ⟨s, clients⟩) {i : Fin N} :
    StackCanaryOk i (useStack contents s) ↔ StackCanaryOk i s := by
  obtain ⟨out, hown⟩ := reachable_owns h
  unfold useStack
  by_cases hpage : (s.tasks s.currentTask).stackPage = null
  · rw [if_pos hpage]
  · rw [if_neg hpage]
    by_cases hi : (s.tasks i).stackPage = null
    · exact iff_of_true (.inl hi) (.inl hi)
    · -- the lowest word of any stack page is as it was
      have hword : writePage (s.tasks s.currentTask).stackPage
          (Function.update contents 0 (s.alloc.mem (s.tasks s.currentTask).stackPage)) s.alloc.mem
          (s.tasks i).stackPage = s.alloc.mem (s.tasks i).stackPage := by
        rcases eq_or_ne i s.currentTask with rfl | hne
        · rw [PageAlloc.writePage_self, Function.update_self]
        · have hal := (PageAlloc.reachable_mem hown.reachable (hown.stackPage_mem hpage)).1
          have hal' := (PageAlloc.reachable_mem hown.reachable (hown.stackPage_mem hi)).1
          exact PageAlloc.writePage_of_ne hal hal'
            (fun heq => hne (hown.distinct _ _ hpage heq).symm) _ _
      have hsame : StackCanaryOk i { s with
          alloc := { s.alloc with
            mem := writePage (s.tasks s.currentTask).stackPage
              (Function.update contents 0 (s.alloc.mem (s.tasks s.currentTask).stackPage))
              s.alloc.mem } } ↔
          ((s.tasks i).stackPage = null ∨ s.alloc.mem (s.tasks i).stackPage = stackCanary i) :=
        or_congr_right (by rw [← hword])
      exact hsame

end Use

/-! ### Creating a task -/

/-- **A slot is filled in.** -/
structure Creates (s t : State N) (entry argument : Word) (i : Fin N) : Prop where
  ne_zero : i ≠ 0
  unused : (s.tasks i).state = .unused
  first : ∀ j, j ≠ 0 → j < i → (s.tasks j).state ≠ .unused
  state : (t.tasks i).state = .ready
  entry : (t.tasks i).entry = entry
  argument : (t.tasks i).argument = argument
  stackCorrupted : (t.tasks i).stackCorrupted = false
  canary : StackCanaryOk i t
  canaries : ∀ j, StackCanaryOk j s → StackCanaryOk j t
  others : ∀ j, j ≠ i → t.tasks j = s.tasks j
  currentTask : t.currentTask = s.currentTask
  freePages : (pageFreePages t.alloc).toNat + 1 = (pageFreePages s.alloc).toNat
  createdTasks : t.createdTasks = s.createdTasks + 1
  contextSwitches : t.contextSwitches = s.contextSwitches
  yieldCalls : t.yieldCalls = s.yieldCalls
  exitedTasks : t.exitedTasks = s.exitedTasks
  reapedTasks : t.reapedTasks = s.reapedTasks
  stackErrors : t.stackErrors = s.stackErrors

/-- `task_create` picks the first unused slot. -/
theorem findUnused_first {i : Fin N} (h : findUnused s = some i) {j : Fin N} (hj : j ≠ 0)
    (hlt : j < i) : (s.tasks j).state ≠ .unused := by
  obtain ⟨-, before, after, hlist, hbefore⟩ := List.find?_eq_some_iff_append.1 h
  have hmem : j ∈ before ++ i :: after := hlist ▸ List.mem_finRange j
  have hsorted : (before ++ i :: after).Pairwise (· < ·) := hlist ▸ List.pairwise_lt_finRange N
  rcases List.mem_append.1 hmem with hin | hin
  · have hnot := hbefore j hin
    simp only [Bool.not_eq_true', decide_eq_false_iff_not, not_and] at hnot
    exact hnot hj
  · -- it would come later
    have hle : i ≤ j := by
      rcases List.mem_cons.1 hin with rfl | hin
      · exact le_rfl
      · exact le_of_lt ((List.pairwise_cons.1 (List.pairwise_append.1 hsorted).2.1).1 j hin)
    exact absurd hlt (not_lt.2 hle)

section Clients

variable {bootstrap kernelEnd : Word} {clients : Finset Word}

/-- Filling in the slot that was found, with the page that was allocated. -/
theorem creates_fillSlot (h : (kernel bootstrap kernelEnd).Reachable ⟨s, clients⟩) {i : Fin N}
    {stackPage : Word} {alloc : PageAlloc.State} (hi : findUnused s = some i)
    (hpage : pageAlloc s.alloc = (stackPage, alloc)) (hnull : stackPage ≠ null)
    (entry argument : Word) :
    Creates s (fillSlot bootstrap entry argument i stackPage { s with alloc := alloc }) entry
      argument i := by
  have hinv : SchedInv s := reachable_schedInv h
  obtain ⟨out, hown⟩ := reachable_owns h
  obtain ⟨hi0, hst⟩ := findUnused_some hi
  obtain ⟨hnotOut, hmem, hreach⟩ := PageAlloc.reachable_alloc hown.reachable hpage hnull
  have hal := (PageAlloc.reachable_mem hreach (Finset.mem_insert_self _ _)).1
  have hself : (fillSlot bootstrap entry argument i stackPage { s with alloc := alloc }).tasks i =
      newSlot bootstrap entry argument stackPage (s.tasks i) := Function.update_self _ _ _
  have hother : ∀ j, j ≠ i →
      (fillSlot bootstrap entry argument i stackPage { s with alloc := alloc }).tasks j =
        s.tasks j := fun j hj => Function.update_of_ne hj _ _
  have hcanary : StackCanaryOk i
      (fillSlot bootstrap entry argument i stackPage { s with alloc := alloc }) := by
    refine .inr ?_
    rw [hself]
    exact Function.update_self _ _ _
  refine ⟨hi0, hst, fun j hj hlt => findUnused_first hi hj hlt, by rw [hself]; rfl,
    by rw [hself]; rfl, by rw [hself]; rfl, by rw [hself]; rfl, hcanary, ?_, hother, rfl, ?_,
    rfl, rfl, rfl, rfl, rfl, rfl⟩
  · intro j hok
    rcases eq_or_ne j i with rfl | hj
    · exact hcanary
    · unfold StackCanaryOk at hok ⊢
      rw [hother j hj]
      rcases hok with hnone | hword
      · exact .inl hnone
      · by_cases hjnull : (s.tasks j).stackPage = null
        · exact .inl hjnull
        have hpage' := hown.stackPage_mem hjnull
        have hne : stackPage ≠ (s.tasks j).stackPage := fun heq => hnotOut (heq ▸ hpage')
        have hal' := (PageAlloc.reachable_mem hown.reachable hpage').1
        refine .inr ?_
        change Function.update alloc.mem stackPage _ _ = _
        rw [Function.update_of_ne hne.symm, hmem, PageAlloc.zeroPage_of_ne hal hal' hne]
        exact hword
  · have hfilled := hown.fillSlot ((hinv.unused i hi0).1 hst) hpage hnull bootstrap entry argument
    have hbefore := PageAlloc.reachable_freePages hown.reachable
    have hafter := PageAlloc.reachable_freePages hfilled.reachable
    rw [Finset.card_insert_of_notMem hnotOut] at hafter
    dsimp only at hbefore hafter
    omega

/-- **Creating a task** fails without a trace when there is no slot or no page, and fills in the first
unused slot otherwise. -/
theorem taskCreate_creates (h : (kernel bootstrap kernelEnd).Reachable ⟨s, clients⟩)
    {entry : Word} (hentry : entry ≠ null) (argument : Word) :
    (taskCreate bootstrap entry argument s = (none, s) ∧
      ((∀ i, i ≠ 0 → (s.tasks i).state ≠ .unused) ∨ (pageFreePages s.alloc).toNat = 0)) ∨
    ∃ i t, taskCreate bootstrap entry argument s = (some i, t) ∧ Creates s t entry argument i := by
  have hinv : SchedInv s := reachable_schedInv h
  obtain ⟨out, hown⟩ := reachable_owns h
  have hguard : ¬ (s.initialized = false ∨ entry = null) := by simp [hinv.initialized, hentry]
  cases hi : findUnused s with
  | none =>
      left
      refine ⟨by simp only [taskCreate, if_neg hguard, hi], .inl fun i hi0 hst => ?_⟩
      have hnone := List.find?_eq_none.1 hi i (List.mem_finRange i)
      simp [hi0, hst] at hnone
  | some i =>
      obtain ⟨stackPage, alloc, hpage⟩ : ∃ stackPage alloc, pageAlloc s.alloc = (stackPage, alloc) :=
        ⟨_, _, rfl⟩
      by_cases hnull : stackPage = null
      · left
        have hzero := PageAlloc.reachable_alloc_null_iff hown.reachable
        dsimp only at hzero
        rw [hpage] at hzero
        have hsame : alloc = s.alloc :=
          PageAlloc.reachable_alloc_null hown.reachable (hpage.trans (by rw [hnull]))
        refine ⟨?_, .inr (hzero.1 hnull)⟩
        simp only [taskCreate, if_neg hguard, hi, hpage, if_pos hnull, hsame]
      · right
        have hcreate : taskCreate bootstrap entry argument s =
            (some i, fillSlot bootstrap entry argument i stackPage { s with alloc := alloc }) := by
          simp only [taskCreate, if_neg hguard, hi, hpage, if_neg hnull]
        exact ⟨i, _, hcreate, creates_fillSlot h hi hpage hnull entry argument⟩

/-! ### Reaping a task -/

/-- **A slot is reaped.** -/
structure Clears (s t : State N) (i : Fin N) : Prop where
  state : (t.tasks i).state = .unused
  canaries : ∀ j, StackCanaryOk j s → StackCanaryOk j t
  others : ∀ j, j ≠ i → t.tasks j = s.tasks j
  currentTask : t.currentTask = s.currentTask
  reapedTasks : t.reapedTasks = s.reapedTasks + 1
  contextSwitches : t.contextSwitches = s.contextSwitches
  yieldCalls : t.yieldCalls = s.yieldCalls
  createdTasks : t.createdTasks = s.createdTasks
  exitedTasks : t.exitedTasks = s.exitedTasks
  stackErrors : t.stackErrors = s.stackErrors

/-- **Reaping** a FINISHED slot with a canary that is in place and no mark. -/
theorem taskReap_clears (h : (kernel bootstrap kernelEnd).Reachable ⟨s, clients⟩)
    (hcur : s.currentTask = 0) {i : Fin N} (hst : (s.tasks i).state = .finished)
    (hclean : (s.tasks i).stackCorrupted = false) (hok : StackCanaryOk i s) {id : BitVec 32}
    (hid : id.toNat = i) : ∃ t, taskReap id s = some (true, t) ∧ Clears s t i := by
  have hinv : SchedInv s := reachable_schedInv h
  obtain ⟨out, hown⟩ := reachable_owns h
  have hpage := hinv.stackPage_of_finished hst
  have hi0 := hinv.ne_zero_of_finished hst
  have hex : Examines s (.reap id) i := ⟨hid, hcur, hcur ▸ hi0, hst, hpage⟩
  obtain ⟨hfree, -⟩ := PageAlloc.reachable_free hown.reachable (hown.stackPage_mem hpage)
  dsimp only at hfree
  refine ⟨emptySlot i { s with alloc := release (s.tasks i).stackPage s.alloc }, ?_, ?_⟩
  · rw [taskReap_of_examines hinv hex, recordStackError_of_ok hok,
      if_neg (by rw [hclean]; exact Bool.false_ne_true), reapSlot, hfree]
  have hself : (emptySlot i { s with alloc := release (s.tasks i).stackPage s.alloc }).tasks i =
      clearSlot (s.tasks i) := Function.update_self _ _ _
  have hother : ∀ j, j ≠ i →
      (emptySlot i { s with alloc := release (s.tasks i).stackPage s.alloc }).tasks j =
        s.tasks j := fun j hj => Function.update_of_ne hj _ _
  refine ⟨by rw [hself]; rfl, ?_, hother, rfl, rfl, rfl, rfl, rfl, rfl, rfl⟩
  intro j hj
  rcases eq_or_ne j i with rfl | hji
  · refine .inl ?_
    rw [hself]
    rfl
  · unfold StackCanaryOk at hj ⊢
    rw [hother j hji]
    rcases hj with hnone | hword
    · exact .inl hnone
    · by_cases hjnull : (s.tasks j).stackPage = null
      · exact .inl hjnull
      refine .inr ?_
      change Function.update s.alloc.mem (s.tasks i).stackPage _ _ = _
      rw [Function.update_of_ne fun heq => hji (hown.distinct j i hjnull heq)]
      exact hword

end Clients

end Task

end MiniOs
