/-
**Registers across context switches.**

What a task finds in the registers when it gets the CPU back was put into its record when it last
gave the CPU up, or, for a new task, when it was created.  In between other tasks come and go, and
the records of their slots are cleared, filled in and overwritten.  Beside the state of the code
this module records, for each slot, what it expects of its next dispatch, and shows that every
dispatch meets it.

Main definitions:

* `Task.Start` — what a slot expects of its next dispatch;
* `Task.kernelWithStart` — the system with a record of these expectations.

Main results:

* `Task.startInv_step` — every step keeps the records of the READY slots as they are expected;
* `Task.registers_preserved` — **a task gets its registers back, and a new task starts in
  `task_bootstrap` on its own stack**.
-/

import MiniOs.TaskRun

set_option relaxedAutoImplicit false
set_option autoImplicit false

namespace MiniOs

namespace Task

open PageAlloc (pageSize)

variable {N : ℕ} [NeZero N]

/-! ### What a slot expects -/

/-- What a slot expects of its next dispatch: to go on with the registers it had when it yielded, or
to start with an entry point and its argument. -/
inductive Start
  | resume (regs : Cpu)
  | fresh (entry argument : Word)

/-- The slot is as it has to be for what it expects. -/
def Start.Ready (bootstrap : Word) (task : TaskSlot) : Start → Prop
  | .resume regs => task.context.Holds regs
  | .fresh entry argument =>
      task.entry = entry ∧ task.argument = argument ∧
        task.context taskContextX30Offset = bootstrap ∧
        task.context taskContextSpOffset = task.stackPage + pageSize ∧
        ∀ r, 19 ≤ r → r ≤ 29 → task.context (8 * (r - 19)) = 0

/-- The expectations after a step: a slot that leaves the CPU by a yield expects its registers, one
that leaves for good expects nothing, and one that is filled in expects to start. -/
def recordStart (bootstrap : Word) (start : Fin N → Option Start) (s : Sys N) (op : Op N)
    (t : Sys N) : Fin N → Option Start :=
  match op with
  | .create entry argument =>
      match (taskCreate bootstrap entry argument s.kernel).1 with
      | some i => Function.update start i (some (.fresh entry argument))
      | none => start
  | op =>
      match op.regs with
      | some regs =>
          if Exits s.kernel op then Function.update start s.kernel.currentTask none
          else if t.kernel.currentTask = s.kernel.currentTask then start
          else Function.update start s.kernel.currentTask (some (.resume regs))
      | none => start

/-- The system, with a record of what the slots expect. -/
def kernelWithStart (bootstrap kernelEnd : Word) : Lts (Sys N × (Fin N → Option Start)) (Op N) :=
  (kernel bootstrap kernelEnd).withHistory (fun _ => none) (recordStart bootstrap)

/-- Every READY slot expects something, and is as it has to be. -/
def StartInv (bootstrap : Word) (s : State N) (start : Fin N → Option Start) : Prop :=
  ∀ i, (s.tasks i).state = .ready →
    ∃ expected, start i = some expected ∧ expected.Ready bootstrap (s.tasks i)

/-! ### Every step keeps the records -/

variable {bootstrap : Word} {s t : Sys N} {op : Op N} {start : Fin N → Option Start}

/-- A step that gives up the CPU leaves the expectations of the other slots alone. -/
theorem recordStart_of_leave {regs : Cpu} (hregs : op.regs = some regs) :
    recordStart bootstrap start s op t =
      if Exits s.kernel op then Function.update start s.kernel.currentTask none
      else if t.kernel.currentTask = s.kernel.currentTask then start
      else Function.update start s.kernel.currentTask (some (.resume regs)) := by
  rcases Op.eq_of_regs hregs with rfl | rfl
  · rfl
  · rfl

/-- A step that neither gives up the CPU nor fills in a slot leaves all expectations alone. -/
theorem recordStart_of_stay (hregs : op.regs = none)
    (hcreate : ∀ entry argument, op = .create entry argument →
      (taskCreate bootstrap entry argument s.kernel).1 = none) :
    recordStart bootstrap start s op t = start := by
  cases op with
  | create entry argument => simp only [recordStart, hcreate entry argument rfl]
  | yield _ => exact absurd hregs (by simp [Op.regs])
  | exit _ => exact absurd hregs (by simp [Op.regs])
  | reap _ => rfl
  | reapFinished => rfl
  | client _ => rfl
  | writeStack _ _ => rfl

/-- A slot that is filled in is as a new task needs it. -/
theorem ready_newSlot (bootstrap entry argument stackPage : Word) (task : TaskSlot) :
    (Start.fresh entry argument).Ready bootstrap
      (newSlot bootstrap entry argument stackPage task) := by
  refine ⟨rfl, rfl, ?_, ?_, ?_⟩
  · simp [newSlot, clearSlot]
  · simp [newSlot, clearSlot, taskContextSpOffset, taskContextX30Offset]
  · intro r hlo hhi
    have hx30 : 8 * (r - 19) ≠ taskContextX30Offset := by
      unfold taskContextX30Offset
      omega
    have hsp : 8 * (r - 19) ≠ taskContextSpOffset := by
      unfold taskContextSpOffset
      omega
    simp only [newSlot, clearSlot, Function.update_of_ne hx30, Function.update_of_ne hsp]
    rfl

/-- **Every step keeps the records of the READY slots** as their tasks expect them. -/
theorem startInv_step (h : SchedInv s.kernel) (hstart : StartInv bootstrap s.kernel start)
    (hstep : Step bootstrap s op t) :
    StartInv bootstrap t.kernel (recordStart bootstrap start s op t) := by
  intro i hi
  cases hregs : op.regs with
  | some regs =>
      have hl := (step_leave h hstep hregs).2
      have hrun := ((inv_step h hstep).running t.kernel.currentTask).2 rfl
      have hnext : i ≠ t.kernel.currentTask := by
        rintro rfl
        rw [hrun] at hi
        exact absurd hi (by simp)
      rw [recordStart_of_leave hregs]
      rcases eq_or_ne i s.kernel.currentTask with rfl | hcur
      · -- the slot that lost the CPU is READY, so its task has yielded
        have hexits : ¬ Exits s.kernel op := by
          intro hexits
          obtain ⟨next, -, -, -, -, hfin⟩ := step_exits h hstep hexits
          rw [hfin] at hi
          exact absurd hi (by simp)
        rw [if_neg hexits, if_neg hnext.symm, Function.update_self]
        refine ⟨.resume regs, rfl, ?_⟩
        rcases SchedInv.leave_not_final hl hexits with ⟨-, heq⟩ | ⟨next, hfind, heq⟩
        · exact absurd (by rw [heq]) hnext
        · rw [heq]
          exact (dispatch_switch regs _ next _ (findNextReady_some hfind).1).1
      · -- a third slot, which the step leaves alone
        have hsame := h.leave_others hl hcur hnext
        rw [hsame] at hi ⊢
        obtain ⟨expected, hexp, hready⟩ := hstart i hi
        refine ⟨expected, ?_, hready⟩
        split
        · rwa [Function.update_of_ne hcur]
        · split
          · exact hexp
          · rwa [Function.update_of_ne hcur]
  | none =>
      obtain ⟨-, -, ⟨hreaps, hcreate⟩ | ⟨entry, argument, j, stackPage, alloc, rfl, hres, -, -, -,
        hfill⟩⟩ := step_stay hstep hregs
      · have hfin : (s.kernel.tasks i).state ≠ .finished := by
          intro hfin
          rcases hreaps.finished i hfin with hst | hst <;> rw [hst] at hi <;>
            exact absurd hi (by simp)
        rw [hreaps.tasks i hfin] at hi ⊢
        rw [recordStart_of_stay hregs hcreate]
        exact hstart i hi
      · simp only [recordStart, hres]
        rcases eq_or_ne i j with rfl | hij
        · refine ⟨.fresh entry argument, Function.update_self _ _ _, ?_⟩
          rw [hfill]
          simp only [fillSlot, State.setSlot, Function.update_self]
          exact ready_newSlot bootstrap entry argument stackPage _
        · rw [hfill] at hi ⊢
          simp only [fillSlot, State.setSlot, Function.update_of_ne hij] at hi ⊢
          exact hstart i hi

theorem reachable_startInv {kernelEnd : Word} {p : Sys N × (Fin N → Option Start)}
    (h : (kernelWithStart bootstrap kernelEnd).Reachable p) : StartInv bootstrap p.1.kernel p.2 := by
  refine Lts.Reachable.history_invariant (P := fun s start => StartInv bootstrap s.kernel start)
    ?_ ?_ h
  · rintro _ ⟨mem, cpu, rfl⟩ i hi
    refine absurd hi ?_
    rcases eq_or_ne i 0 with rfl | hi0
    · simp [taskInit, State.boot]
    · simp [taskInit, State.boot, clearSlot, hi0]
  · intro s start op t hr hs hstep
    exact startInv_step (reachable_schedInv hr) hs hstep

/-! ### What a task finds in the registers -/

/-- **Registers are preserved over any schedule.**  Whenever a step gives the CPU to a slot, either
the task of the slot had yielded, and `x19` to `x30` and the stack pointer are those it entered
`task_context_switch` with, which returns to its caller; or the task is new, and it starts at
`task_bootstrap` with the top of its own stack page as stack pointer, `x19` to `x29` zero, and its
own entry point and argument for `task_bootstrap` to read. -/
theorem registers_preserved {kernelEnd : Word} {s t : Sys N} {op : Op N}
    {start : Fin N → Option Start}
    (h : (kernelWithStart bootstrap kernelEnd).Reachable (s, start))
    (hstep : Step bootstrap s op t) (hne : t.kernel.currentTask ≠ s.kernel.currentTask) :
    (∃ regs, start t.kernel.currentTask = some (.resume regs) ∧
      (∀ r, 19 ≤ r → r ≤ 30 → t.kernel.cpu.x r = regs.x r) ∧ t.kernel.cpu.sp = regs.sp ∧
      t.kernel.cpu.pc = regs.x 30) ∨
    ∃ entry argument, start t.kernel.currentTask = some (.fresh entry argument) ∧
      t.kernel.cpu.pc = bootstrap ∧
      t.kernel.cpu.sp = (t.kernel.tasks t.kernel.currentTask).stackPage + 4096#64 ∧
      (∀ r, 19 ≤ r → r ≤ 29 → t.kernel.cpu.x r = 0) ∧
      taskBootstrap t.kernel = (entry, argument) := by
  have hinv := reachable_schedInv h.fst
  cases hregs : op.regs with
  | none => exact absurd (step_stay hstep hregs).1 hne
  | some regs =>
      have hl := (step_leave hinv hstep hregs).2
      have hready := hinv.leave_next hl hne
      obtain ⟨expected, hexp, hslot⟩ := reachable_startInv h _ hready
      rcases hinv.leave_cases hl with heq | ⟨next, v, hnext, -, hv, heq⟩
      · exact absurd (by rw [heq]) hne
      · have hcur : t.kernel.currentTask = next := by rw [heq, dispatch_currentTask]
        rw [hcur] at hexp hslot ⊢
        -- the registers are loaded from the record of the slot, which is as expected
        obtain ⟨-, hload, hpc, -⟩ := dispatch_switch regs s.kernel.currentTask next v hnext
        rw [hv.others next hnext, ← heq] at hload hpc
        cases expected with
        | resume old =>
            have hx30 := hslot.x 30 (by decide) (by decide)
            refine Or.inl ⟨old, hexp, ?_, ?_, ?_⟩
            · intro r hlo hhi
              rw [← hload.x r hlo hhi]
              exact hslot.x r hlo hhi
            · rw [← hload.sp]
              exact hslot.sp
            · rw [hpc]
              exact hx30
        | fresh entry argument =>
            obtain ⟨hentry, hargument, hx30, hsp, hzero⟩ := hslot
            refine Or.inr ⟨entry, argument, hexp, hpc.trans hx30, ?_, ?_, ?_⟩
            · rw [← hload.sp, hsp, heq, dispatch_stackPage, hv.others next hnext]
              rfl
            · intro r hlo hhi
              rw [← hload.x r hlo (by omega)]
              exact hzero r hlo hhi
            · rw [taskBootstrap, hcur, heq, dispatch_entry, dispatch_argument,
                hv.others next hnext, hentry, hargument]

/-- Registers that tell which they are. -/
def numbered : Cpu := ⟨fun r => BitVec.ofNat 64 r, 0x40100000#64, 0⟩

/-- The boot flow has created a task and yielded to it. -/
def numberedRun : State taskMaxCount := taskYield numbered firstCreate

/-- The first task starts at `task_bootstrap`, which calls its entry point; when it yields, the boot flow
goes on with the registers it had. -/
theorem registers_preserved_resumed :
    (numberedRun.cpu.pc = 0x40080000#64 ∧ taskBootstrap numberedRun = (0x40081000#64, 7#64)) ∧
    (taskYield zeroCpu numberedRun).cpu.sp = 0x40100000#64 ∧
    ∀ r, 19 ≤ r → r ≤ 30 → (taskYield zeroCpu numberedRun).cpu.x r = BitVec.ofNat 64 r := by
  have hboot : (kernelWithStart 0x40080000#64 0x40100000#64).Reachable
      (⟨bootKernel, ∅⟩, fun _ => none) := Lts.Reachable.init ⟨⟨fun _ => 0, zeroCpu, rfl⟩, rfl⟩
  have hcreated : (kernelWithStart 0x40080000#64 0x40100000#64).Reachable
      (⟨firstCreate, ∅⟩, recordStart 0x40080000#64 (fun _ => none) ⟨bootKernel, ∅⟩
        (Op.create 0x40081000#64 7) ⟨firstCreate, ∅⟩) := hboot.step ⟨step_firstCreate, rfl⟩
  have hyield : Step 0x40080000#64 ⟨firstCreate, ∅⟩ (Op.yield numbered) ⟨numberedRun, ∅⟩ :=
    Step.yield numbered
  have hback : Step 0x40080000#64 ⟨numberedRun, ∅⟩ (Op.yield zeroCpu)
      ⟨taskYield zeroCpu numberedRun, ∅⟩ := Step.yield zeroCpu
  have hfirst : numberedRun.currentTask = 1 := rfl
  have hsecond : (taskYield zeroCpu numberedRun).currentTask = 0 := rfl
  refine ⟨?_, ?_⟩
  · rcases registers_preserved hcreated hyield (by rw [hfirst]; decide) with
      ⟨regs, hstart, -⟩ | ⟨entry, argument, hstart, hpc, -, -, hcall⟩
    · exact absurd (Option.some_inj.1 hstart) (by simp)
    · cases Option.some_inj.1 hstart
      exact ⟨hpc, hcall⟩
  · rcases registers_preserved (hcreated.step ⟨hyield, rfl⟩) hback
      (by rw [hfirst, hsecond]; decide) with ⟨regs, hstart, hx, hsp, -⟩ | ⟨entry, argument, hstart, -⟩
    · cases Option.some_inj.1 hstart
      exact ⟨hsp, hx⟩
    · exact absurd (Option.some_inj.1 hstart) (by simp)

end Task

end MiniOs
