/-
**The scheduler over whole runs.**

The running task calls the operations of the scheduler in any order and with any arguments, while
other clients use the page allocator and anybody may write into the stack pages, canaries included.
A task that calls `task_exit`, or whose yield finds its canary gone, leaves the CPU for good; that it
did is recorded beside the state of the code.

Main definitions:

* `Task.Sys`, `Task.Op`, `Task.kernel` — the scheduler, the allocator and their clients as a
  transition system;
* `Task.Exits` — an operation by which the running task leaves for good;
* `Task.kernelWithLeft` — the same system with a record of the slots left for good.

Main results:

* `Task.step_leave`, `Task.step_stay` — what a step does to the slots;
* `Task.reachable_schedInv` — the invariant of the scheduler holds in every reachable state;
* `Task.scheduler_invariant` — **the invariant, and why `task_exit` never hangs**.
-/

import MiniOs.Lts
import MiniOs.PageOwnership
import MiniOs.TaskInvariant

set_option relaxedAutoImplicit false
set_option autoImplicit false

namespace MiniOs

namespace Task

open PageAlloc (pageAllocInit writePage)

variable {N : ℕ}

/-! ### What a reap does -/

/-- What a reap does to the slots: it may mark or clear FINISHED ones. -/
structure Reaps (s t : State N) : Prop where
  currentTask : t.currentTask = s.currentTask
  tasks : ∀ i, (s.tasks i).state ≠ .finished → t.tasks i = s.tasks i
  finished : ∀ i, (s.tasks i).state = .finished →
    (t.tasks i).state = .finished ∨ (t.tasks i).state = .unused

theorem Reaps.refl (s : State N) : Reaps s s := ⟨rfl, fun _ _ => rfl, fun _ h => Or.inl h⟩

theorem Reaps.trans {s t u : State N} (h : Reaps s t) (h' : Reaps t u) : Reaps s u where
  currentTask := h'.currentTask.trans h.currentTask
  tasks i hi := by
    have ht := h.tasks i hi
    rw [h'.tasks i (by rw [ht]; exact hi), ht]
  finished i hi := by
    rcases h.finished i hi with hfin | hun
    · exact h'.finished i hfin
    · rw [h'.tasks i (by simp [hun])]
      exact Or.inr hun

variable [NeZero N]

theorem reaps_taskReap {s t : State N} {id : BitVec 32} {reaped : Bool}
    (h : taskReap id s = some (reaped, t)) : Reaps s t := by
  rcases taskReap_cases h with ⟨-, rfl⟩ | ⟨i, -, hst, ⟨-, -, rfl⟩ | ⟨-, -, hslot⟩⟩
  · exact Reaps.refl _
  · refine ⟨recordStackError_currentTask i s, ?_, ?_⟩
    · intro j hj
      have hne : j ≠ i := fun hji => hj (by rw [hji]; exact hst)
      rw [recordStackError_tasks]
      simp [hne]
    · intro j hj
      rw [recordStackError_tasks]
      exact Or.inl hj
  · obtain ⟨alloc, -, rfl⟩ := reapSlot_cases hslot
    cases reaped with
    | false => exact ⟨rfl, fun _ _ => rfl, fun _ hj => Or.inl hj⟩
    | true =>
        refine ⟨rfl, ?_, ?_⟩
        · intro j hj
          exact Function.update_of_ne (fun hji => hj (by rw [hji]; exact hst)) _ _
        · intro j hj
          by_cases hji : j = i
          · right
            rw [hji]
            simp [emptySlot, State.setSlot, clearSlot]
          · left
            simpa [emptySlot, State.setSlot, hji] using hj

theorem reaps_taskReapFinished {s t : State N} {count : ℕ}
    (h : taskReapFinished s = some (count, t)) : Reaps s t :=
  taskReapFinished_invariant (P := Reaps s)
    (fun _ _ _ _ hs hid => hs.trans (reaps_taskReap hid)) (Reaps.refl s) h

/-! ### The scheduler and its clients -/

/-- The state of the code, and the pages held by clients other than the scheduler. -/
structure Sys (N : ℕ) where
  kernel : State N
  clients : Finset Word

/-- What can happen between two points at which nobody is inside an operation.  The registers of a
yield and of an exit are those the CPU holds when `task_context_switch` is reached. -/
inductive Op (N : ℕ)
  | create (entry argument : Word)
  | yield (regs : Cpu)
  | exit (regs : Cpu)
  | reap (id : BitVec 32)
  | reapFinished
  | client (op : PageAlloc.Op)
  | writeStack (i : Fin N) (contents : ℕ → Word)

/-- The registers with which an operation gives up the CPU, if it does. -/
def Op.regs : Op N → Option Cpu
  | .yield regs => some regs
  | .exit regs => some regs
  | _ => none

omit [NeZero N] in
/-- Only a yield or an exit gives up the CPU. -/
theorem Op.eq_of_regs {op : Op N} {regs : Cpu} (h : op.regs = some regs) :
    op = .yield regs ∨ op = .exit regs := by
  cases op with
  | yield _ => exact Or.inl (congrArg Op.yield (Option.some_inj.1 h))
  | exit _ => exact Or.inr (congrArg Op.exit (Option.some_inj.1 h))
  | create _ _ => exact absurd h (by simp [Op.regs])
  | reap _ => exact absurd h (by simp [Op.regs])
  | reapFinished => exact absurd h (by simp [Op.regs])
  | client _ => exact absurd h (by simp [Op.regs])
  | writeStack _ _ => exact absurd h (by simp [Op.regs])

/-- One step.  The other clients free only pages they hold. -/
inductive Step (bootstrap : Word) : Sys N → Op N → Sys N → Prop
  | create {s : Sys N} {entry argument : Word} {result : Option (Fin N)} {t : State N} :
      taskCreate bootstrap entry argument s.kernel = (result, t) →
      Step bootstrap s (Op.create entry argument) ⟨t, s.clients⟩
  | yield {s : Sys N} (regs : Cpu) :
      Step bootstrap s (Op.yield regs) ⟨taskYield regs s.kernel, s.clients⟩
  | exit {s : Sys N} (regs : Cpu) :
      Step bootstrap s (Op.exit regs) ⟨taskExit regs s.kernel, s.clients⟩
  | reap {s : Sys N} {id : BitVec 32} {reaped : Bool} {t : State N} :
      taskReap id s.kernel = some (reaped, t) → Step bootstrap s (Op.reap id) ⟨t, s.clients⟩
  | reapFinished {s : Sys N} {count : ℕ} {t : State N} :
      taskReapFinished s.kernel = some (count, t) → Step bootstrap s Op.reapFinished ⟨t, s.clients⟩
  | client {s : Sys N} {op : PageAlloc.Op} {alloc : PageAlloc.State} {clients : Finset Word} :
      (∀ page, op = PageAlloc.Op.free page → page ∈ s.clients) →
      PageAlloc.Step ⟨s.kernel.alloc, s.clients⟩ op ⟨alloc, clients⟩ →
      Step bootstrap s (Op.client op) ⟨{ s.kernel with alloc := alloc }, clients⟩
  | writeStack {s : Sys N} {i : Fin N} (contents : ℕ → Word) :
      (s.kernel.tasks i).stackPage ≠ null →
      Step bootstrap s (Op.writeStack i contents)
        ⟨{ s.kernel with
            alloc := { s.kernel.alloc with
              mem := writePage (s.kernel.tasks i).stackPage contents s.kernel.alloc.mem } },
          s.clients⟩

/-- **The scheduler, the allocator and their clients**, from `page_alloc_init` and `task_init` on,
over any memory and any contents of the registers; `bootstrap` is the address of `task_bootstrap`. -/
def kernel (bootstrap kernelEnd : Word) : Lts (Sys N) (Op N) where
  init s := ∃ mem cpu,
    s = ⟨taskInit (State.boot (pageAllocInit kernelEnd (PageAlloc.State.boot mem)) cpu), ∅⟩
  step := Step bootstrap

/-- The operation makes the running task leave the CPU for good: it calls `task_exit`, directly or,
for the operation ends the same way, by returning from its entry, or it yields with a damaged
canary. -/
def Exits (s : State N) : Op N → Prop
  | .yield _ => Forced s
  | .exit _ => s.currentTask ≠ 0
  | _ => False

instance (s : State N) (op : Op N) : Decidable (Exits s op) := by
  cases op <;> unfold Exits <;> infer_instance

/-! ### What a step does -/

variable {bootstrap : Word} {s t : Sys N} {op : Op N}

/-- A step that gives up the CPU changes nothing for the other clients. -/
theorem step_leave (h : SchedInv s.kernel) (hstep : Step bootstrap s op t) {regs : Cpu}
    (hregs : op.regs = some regs) :
    t.clients = s.clients ∧ Leave regs s.kernel (Exits s.kernel op) t.kernel := by
  rcases Op.eq_of_regs hregs with rfl | rfl
  · cases hstep
    exact ⟨rfl, h.leave_taskYield regs⟩
  · cases hstep
    exact ⟨rfl, h.leave_taskExit regs⟩

/-- **A step that does not give up the CPU** leaves each slot alone, or reaps a FINISHED one, or fills
in an unused one for a new task. -/
theorem step_stay (hstep : Step bootstrap s op t) (hregs : op.regs = none) :
    t.kernel.currentTask = s.kernel.currentTask ∧ ¬ Exits s.kernel op ∧
      (Reaps s.kernel t.kernel ∧ (∀ entry argument, op = .create entry argument →
          (taskCreate bootstrap entry argument s.kernel).1 = none) ∨
        ∃ entry argument i stackPage alloc, op = .create entry argument ∧
          taskCreate bootstrap entry argument s.kernel = (some i, t.kernel) ∧
          i ≠ 0 ∧ (s.kernel.tasks i).state = .unused ∧ stackPage ≠ null ∧
          t.kernel = fillSlot bootstrap entry argument i stackPage
            { s.kernel with alloc := alloc }) := by
  cases hstep with
  | @create entry argument result t hcreate =>
      rcases taskCreate_cases hcreate with
        ⟨rfl, rfl⟩ | ⟨alloc, -, rfl, rfl⟩ | ⟨i, stackPage, alloc, hi, -, hnull, rfl, rfl⟩
      · refine ⟨rfl, not_false, Or.inl ⟨Reaps.refl _, ?_⟩⟩
        rintro _ _ ⟨⟩
        rw [hcreate]
      · refine ⟨rfl, not_false, Or.inl ⟨⟨rfl, fun _ _ => rfl, fun _ hj => Or.inl hj⟩, ?_⟩⟩
        rintro _ _ ⟨⟩
        rw [hcreate]
      · obtain ⟨hi0, hst⟩ := findUnused_some hi
        exact ⟨rfl, not_false, Or.inr ⟨entry, argument, i, stackPage, alloc, rfl, hcreate, hi0, hst,
          hnull, rfl⟩⟩
  | yield _ => exact absurd hregs (by simp [Op.regs])
  | exit _ => exact absurd hregs (by simp [Op.regs])
  | reap hreap =>
      have hr := reaps_taskReap hreap
      exact ⟨hr.currentTask, not_false, Or.inl ⟨hr, by simp⟩⟩
  | reapFinished hreap =>
      have hr := reaps_taskReapFinished hreap
      exact ⟨hr.currentTask, not_false, Or.inl ⟨hr, by simp⟩⟩
  | client _ _ =>
      exact ⟨rfl, not_false, Or.inl ⟨⟨rfl, fun _ _ => rfl, fun _ hj => Or.inl hj⟩, by simp⟩⟩
  | writeStack _ _ =>
      exact ⟨rfl, not_false, Or.inl ⟨⟨rfl, fun _ _ => rfl, fun _ hj => Or.inl hj⟩, by simp⟩⟩

/-! ### The invariant over whole runs -/

theorem inv_step (h : SchedInv s.kernel) (hstep : Step bootstrap s op t) : SchedInv t.kernel := by
  cases hregs : op.regs with
  | some regs => exact h.inv_leave (step_leave h hstep hregs).2
  | none =>
      cases hstep with
      | create hcreate => exact h.inv_taskCreate hcreate
      | yield _ => exact absurd hregs (by simp [Op.regs])
      | exit _ => exact absurd hregs (by simp [Op.regs])
      | reap hreap => exact h.inv_taskReap hreap
      | reapFinished hreap => exact h.inv_taskReapFinished hreap
      | client _ _ => exact h.inv_alloc _
      | writeStack _ _ => exact h.inv_alloc _

/-- The invariant of the scheduler **holds in every reachable state**. -/
theorem reachable_schedInv {kernelEnd : Word} (h : (kernel bootstrap kernelEnd).Reachable s) :
    SchedInv s.kernel := by
  refine h.invariant (P := fun s => SchedInv s.kernel) ?_ ?_
  · rintro _ ⟨mem, cpu, rfl⟩
    exact SchedInv.inv_taskInit _ cpu
  · intro s op t _ hs hstep
    exact inv_step hs hstep

/-! ### Slots left for good -/

/-- Which slots were left for good by the task they hold, or held last. -/
def recordLeft (bootstrap : Word) (left : Fin N → Bool) (s : Sys N) (op : Op N) (_ : Sys N) :
    Fin N → Bool :=
  if Exits s.kernel op then Function.update left s.kernel.currentTask true
  else
    match op with
    | .create entry argument =>
        match (taskCreate bootstrap entry argument s.kernel).1 with
        | some i => Function.update left i false
        | none => left
    | _ => left

/-- The system, with a record of the slots left for good. -/
def kernelWithLeft (bootstrap kernelEnd : Word) : Lts (Sys N × (Fin N → Bool)) (Op N) :=
  (kernel bootstrap kernelEnd).withHistory (fun _ => false) (recordLeft bootstrap)

/-- The slots left for good are those whose task is finished, and maybe reaped. -/
def LeftInv (s : Sys N) (left : Fin N → Bool) : Prop :=
  ∀ i, left i = true →
    (s.kernel.tasks i).state = .finished ∨ (s.kernel.tasks i).state = .unused

/-- A step that gives up the CPU **for good** finds another slot, READY, to dispatch, and its own
slot is FINISHED afterwards. -/
theorem step_exits (h : SchedInv s.kernel) (hstep : Step bootstrap s op t)
    (hexits : Exits s.kernel op) :
    ∃ next, findNextReady (retire s.kernel) = some next ∧ next ≠ s.kernel.currentTask ∧
      (s.kernel.tasks next).state = .ready ∧ t.kernel.currentTask = next ∧
      (t.kernel.tasks s.kernel.currentTask).state = .finished := by
  cases hregs : op.regs with
  | none => exact absurd hexits (step_stay hstep hregs).2.1
  | some regs =>
      obtain ⟨next, -, hnext, hne, hready, heq⟩ :=
        SchedInv.leave_final (step_leave h hstep hregs).2 hexits
      refine ⟨next, hnext, hne, hready, by rw [heq, dispatch_currentTask], ?_⟩
      rw [heq, dispatch_state, if_neg hne.symm]
      simp [retire, State.setSlot]

/-- A step that gives up the CPU records its slot only if it does so for good. -/
theorem recordLeft_of_leave {left : Fin N → Bool} {regs : Cpu} (hregs : op.regs = some regs) :
    recordLeft bootstrap left s op t =
      if Exits s.kernel op then Function.update left s.kernel.currentTask true else left := by
  rcases Op.eq_of_regs hregs with rfl | rfl
  · rfl
  · rfl

/-- A step that does not give up the CPU strikes off only the slot it fills in. -/
theorem recordLeft_of_stay {left : Fin N → Bool} {i : Fin N} (hregs : op.regs = none)
    (hi : recordLeft bootstrap left s op t i = true) :
    left i = true ∧ ∀ entry argument, op = .create entry argument →
      (taskCreate bootstrap entry argument s.kernel).1 ≠ some i := by
  cases op with
  | create entry argument =>
      have hnot : ¬ Exits s.kernel (.create entry argument) := not_false
      simp only [recordLeft, if_neg hnot] at hi
      cases hres : (taskCreate bootstrap entry argument s.kernel).1 with
      | none =>
          rw [hres] at hi
          refine ⟨hi, ?_⟩
          rintro _ _ ⟨⟩
          simp [hres]
      | some j =>
          rw [hres] at hi
          by_cases hij : i = j
          · simp [hij] at hi
          · refine ⟨by simpa [hij] using hi, ?_⟩
            rintro _ _ ⟨⟩
            rw [hres]
            exact fun hsome => hij (Option.some_inj.1 hsome).symm
  | yield _ => exact absurd hregs (by simp [Op.regs])
  | exit _ => exact absurd hregs (by simp [Op.regs])
  | reap _ => exact ⟨hi, by simp⟩
  | reapFinished => exact ⟨hi, by simp⟩
  | client _ => exact ⟨hi, by simp⟩
  | writeStack _ _ => exact ⟨hi, by simp⟩

theorem leftInv_step {left : Fin N → Bool} (h : SchedInv s.kernel) (hleft : LeftInv s left)
    (hstep : Step bootstrap s op t) : LeftInv t (recordLeft bootstrap left s op t) := by
  intro i hi
  -- a slot left for good before neither runs nor waits to be dispatched
  have hidle : left i = true → i ≠ s.kernel.currentTask ∧ (s.kernel.tasks i).state ≠ .ready := by
    intro hli
    rcases hleft i hli with hst | hst
    · exact ⟨h.ne_current (by simp [hst]), by simp [hst]⟩
    · exact ⟨h.ne_current (by simp [hst]), by simp [hst]⟩
  cases hregs : op.regs with
  | some regs =>
      rw [recordLeft_of_leave hregs] at hi
      by_cases hcur : i = s.kernel.currentTask
      · by_cases hexits : Exits s.kernel op
        · obtain ⟨next, -, -, -, -, hfin⟩ := step_exits h hstep hexits
          left
          rw [hcur]
          exact hfin
        · rw [if_neg hexits] at hi
          exact absurd hcur (hidle hi).1
      · have hli : left i = true := by
          split at hi
          · rwa [Function.update_of_ne hcur] at hi
          · exact hi
        have hleave := (step_leave h hstep hregs).2
        have hnext : i ≠ t.kernel.currentTask := by
          intro hit
          refine (hidle hli).2 ?_
          rw [hit]
          exact h.leave_next hleave (by rw [← hit]; exact hcur)
        rw [h.leave_others hleave hcur hnext]
        exact hleft i hli
  | none =>
      obtain ⟨hli, hcreate⟩ := recordLeft_of_stay hregs hi
      obtain ⟨-, -, ⟨hreaps, -⟩ | ⟨entry, argument, j, stackPage, alloc, hop, hres, -, -, -, hfill⟩⟩ :=
        step_stay hstep hregs
      · by_cases hfin : (s.kernel.tasks i).state = .finished
        · exact hreaps.finished i hfin
        · rw [hreaps.tasks i hfin]
          exact hleft i hli
      · have hij : i ≠ j := by
          intro hij
          exact hcreate entry argument hop (by rw [hres, hij])
        rw [hfill]
        simp only [fillSlot, State.setSlot, Function.update_of_ne hij]
        exact hleft i hli

/-- The scheduler's invariant and that of the record hold in every reachable state. -/
theorem reachable_leftInv {kernelEnd : Word} {p : Sys N × (Fin N → Bool)}
    (h : (kernelWithLeft bootstrap kernelEnd).Reachable p) : SchedInv p.1.kernel ∧ LeftInv p.1 p.2 := by
  refine ⟨reachable_schedInv h.fst, ?_⟩
  refine Lts.Reachable.history_invariant (P := LeftInv) ?_ ?_ h
  · intro s _ i hi
    exact absurd hi (by simp)
  · intro s left op t hr hs hstep
    exact leftInv_step (reachable_schedInv hr) hs hstep

/-- A step that changes the current slot **dispatches a READY slot**. -/
theorem step_dispatches (h : SchedInv s.kernel) (hstep : Step bootstrap s op t)
    (hne : t.kernel.currentTask ≠ s.kernel.currentTask) :
    (s.kernel.tasks t.kernel.currentTask).state = .ready := by
  cases hregs : op.regs with
  | none => exact absurd (step_stay hstep hregs).1 hne
  | some regs => exact h.leave_next (step_leave h hstep hregs).2 hne

/-- **The invariant of the scheduler, and no dead end.**  In every state the tasks and the clients can
reach, exactly the current slot is RUNNING, the boot flow is RUNNING or READY and has no stack page,
every other slot is UNUSED exactly when it has no stack page, only FINISHED slots are marked as
corrupted, and the last loop of `task_exit` was not reached.  A task that leaves for good always
finds a READY slot to switch to, and whatever is dispatched was READY and not left for good, so that
no switch made by `task_exit` returns. -/
theorem scheduler_invariant {kernelEnd : Word} {s : Sys N} {left : Fin N → Bool}
    (h : (kernelWithLeft bootstrap kernelEnd).Reachable (s, left)) :
    (∀ i, (s.kernel.tasks i).state = .running ↔ i = s.kernel.currentTask) ∧
    (((s.kernel.tasks 0).state = .running ∨ (s.kernel.tasks 0).state = .ready) ∧
      (s.kernel.tasks 0).stackPage = null) ∧
    (∀ i, i ≠ 0 → ((s.kernel.tasks i).state = .unused ↔ (s.kernel.tasks i).stackPage = null)) ∧
    (∀ i, (s.kernel.tasks i).stackCorrupted = true → (s.kernel.tasks i).state = .finished) ∧
    s.kernel.halted = false ∧
    (∀ op t, Step bootstrap s op t → Exits s.kernel op →
      ∃ next, findNextReady (retire s.kernel) = some next ∧
        (s.kernel.tasks next).state = .ready ∧ t.kernel.currentTask = next ∧
        (t.kernel.tasks s.kernel.currentTask).state = .finished ∧ t.kernel.halted = false) ∧
    ∀ op t, Step bootstrap s op t → t.kernel.currentTask ≠ s.kernel.currentTask →
      (s.kernel.tasks t.kernel.currentTask).state = .ready ∧
        left t.kernel.currentTask = false := by
  obtain ⟨hinv, hleft⟩ := reachable_leftInv h
  refine ⟨hinv.running, ⟨hinv.boot, hinv.bootPage⟩, hinv.unused, hinv.corrupted, hinv.halted, ?_, ?_⟩
  · intro op t hstep hexits
    obtain ⟨next, hnext, -, hready, hcur, hfin⟩ := step_exits hinv hstep hexits
    exact ⟨next, hnext, hready, hcur, hfin, (inv_step hinv hstep).halted⟩
  · intro op t hstep hne
    have hready := step_dispatches hinv hstep hne
    refine ⟨hready, ?_⟩
    cases hl : left t.kernel.currentTask with
    | false => rfl
    | true =>
        rcases hleft _ hl with hst | hst <;> rw [hst] at hready <;> exact absurd hready (by simp)

/-! ### A first run -/

/-- Registers that are all zero. -/
def zeroCpu : Cpu := ⟨fun _ => 0, 0, 0⟩

/-- The scheduler after boot, on a machine with zeroed memory whose kernel ends at `0x40100000`. -/
def bootKernel : State taskMaxCount :=
  taskInit (State.boot (pageAllocInit 0x40100000#64 (PageAlloc.State.boot fun _ => 0)) zeroCpu)

/-- The boot flow creates a task. -/
def firstCreate : State taskMaxCount := (taskCreate 0x40080000#64 0x40081000#64 7 bootKernel).2

/-- The boot flow yields to the task. -/
def firstRun : State taskMaxCount := taskYield zeroCpu firstCreate

theorem reachable_bootKernel : (kernel 0x40080000#64 0x40100000#64).Reachable ⟨bootKernel, ∅⟩ :=
  Lts.Reachable.init ⟨fun _ => 0, zeroCpu, rfl⟩

theorem step_firstCreate : Step 0x40080000#64 ⟨bootKernel, ∅⟩ (Op.create 0x40081000#64 7)
    ⟨firstCreate, ∅⟩ := Step.create rfl

theorem step_firstRun : Step 0x40080000#64 ⟨firstCreate, ∅⟩ (Op.yield zeroCpu) ⟨firstRun, ∅⟩ :=
  Step.yield zeroCpu

theorem reachable_firstRun : (kernel 0x40080000#64 0x40100000#64).Reachable ⟨firstRun, ∅⟩ :=
  (reachable_bootKernel.step step_firstCreate).step step_firstRun

/-- The created task runs; when it exits, it finds the boot flow and does not hang. -/
theorem scheduler_invariant_first_exit :
    firstRun.currentTask = 1 ∧ (taskExit zeroCpu firstRun).halted = false := by
  obtain ⟨left, hreach⟩ : ∃ left, (kernelWithLeft 0x40080000#64 0x40100000#64).Reachable
      (⟨firstRun, ∅⟩, left) := reachable_firstRun.exists_history
  obtain ⟨-, -, -, -, -, hexit, -⟩ := scheduler_invariant hreach
  have hcur : firstRun.currentTask = 1 := rfl
  obtain ⟨-, -, -, -, -, hhalted⟩ := hexit _ _ (Step.exit zeroCpu)
    (show firstRun.currentTask ≠ 0 by rw [hcur]; decide)
  exact ⟨hcur, hhalted⟩

end Task

end MiniOs
