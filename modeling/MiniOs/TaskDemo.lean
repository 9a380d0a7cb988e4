/-
**The demonstration of the scheduler (`command_taskdemo` in `src/shell.c`).**

The command creates two tasks that run `task_demo_worker`, yields until both are finished and reaps
them.  Three flows of control take turns, and the scheduler alone decides whose turn it is: the boot
flow, which runs the command, goes on where it yielded whenever slot 0 has the CPU, and a worker
whenever its slot has it.  Both workers read the array `workers`, which lies in the frame of the
command.

Whatever the command does not say, it is told at each step: the registers that a switch finds in the
CPU, what a task leaves on its stack, and what a local array holds before it is written.

Main definitions:

* `TaskDemo.Demo` — the state of the command and its workers;
* `TaskDemo.shellStep`, `TaskDemo.workerStep`, `TaskDemo.demoStep` — **what the flow of control that
  has the CPU does next**.

Main results:

* `TaskDemo.demoStep_reachable` — the command is a client of the scheduler like any other.
-/

import MiniOs.Decimal
import MiniOs.Driven
import MiniOs.ShellCommands
import MiniOs.TaskHandover

set_option relaxedAutoImplicit false
set_option autoImplicit false

namespace MiniOs

namespace TaskDemo

open Decimal (uartPutUint64 parseUint64 decimalString wrapping)
open Shell (bytes)
open MiniOs.Task

/-! ### What the workers read -/

/-- `TASK_DEMO_DEFAULT_ROUNDS`. -/
def taskDemoDefaultRounds : Word := 3#64

/-- `TASK_DEMO_MAX_ROUNDS`. -/
def taskDemoMaxRounds : Word := 20#64

/-- `struct task_demo_argument`. -/
structure TaskDemoArgument where
  label : Byte
  rounds : Word

/-- The array `workers`, as the command fills it in. -/
def demoWorkers (rounds : Word) : Fin 2 → TaskDemoArgument
  | 0 => ⟨0x41#8, rounds⟩
  | 1 => ⟨0x42#8, rounds⟩

/-- The address of an entry of the array, which begins at `base`. -/
def workerAddress (base : Word) : Fin 2 → Word
  | 0 => base
  | 1 => base + 16#64

/-! ### States -/

/-- Where the command goes on when it has the CPU: at one of its calls, or at the head of one of its
loops. -/
inductive ShellPoint (N : ℕ)
  | start (arguments : List (List Byte))
  | createFirst
  | createSecond (first : Fin N)
  | cleanup (first : Fin N)
  | waiting (first second : Fin N)
  | returned

/-- Where a worker goes on: in `task_bootstrap`, or at the test of its loop. -/
inductive WorkerPoint
  | bootstrap
  | test (argument round : Word)

/-- The scheduler, the array on the stack of the command, where each flow of control goes on, what
was printed so far, and how often the command has yielded. -/
structure Demo (N : ℕ) where
  kernel : State N
  workers : Fin 2 → TaskDemoArgument
  shell : ShellPoint N
  worker : Fin N → WorkerPoint
  output : List Byte
  yields : ℕ

/-- What the code is told at a step. -/
structure Input where
  regs : Cpu
  stack : ℕ → Word
  digits : Vector Byte 20

variable {N : ℕ}

/-- Print a text. -/
def Demo.say (d : Demo N) (text : List Byte) : Demo N := { d with output := d.output ++ text }

/-- The entry of the array at an address. -/
def Demo.argumentAt (d : Demo N) (base address : Word) : Option TaskDemoArgument :=
  if address = workerAddress base 0 then some (d.workers 0)
  else if address = workerAddress base 1 then some (d.workers 1)
  else none

/-! ### Calls of the command -/

/-- The number of a slot, as the type `task_id_t` has it. -/
def taskId (i : Fin N) : BitVec 32 := BitVec.ofNat 32 i

/-- `struct task_info`. -/
structure TaskInfo where
  state : TaskState
  hasAllocatedStack : Bool
  stackCanaryOk : Bool
  scheduleCount : Word

/-- Model of `task_get_info`, for an address that is not null; `none` when it returns 0. -/
def taskGetInfo (id : BitVec 32) (s : State N) : Option TaskInfo :=
  if h : id.toNat < N then
    let i : Fin N := ⟨id.toNat, h⟩
    if s.initialized = false then none
    else some {
      state := (s.tasks i).state
      hasAllocatedStack := (s.tasks i).stackPage ≠ null
      stackCanaryOk := (s.tasks i).stackCorrupted = false ∧ StackCanaryOk i s
      scheduleCount := (s.tasks i).scheduleCount }
  else none

/-- Model of `task_finished_state`: what it stores in `*finished`; `none` when it returns 0. -/
def taskFinishedState (id : BitVec 32) (s : State N) : Option Bool :=
  (taskGetInfo id s).map fun info => decide (info.state = .finished)

/-- The check of the number that was parsed; the error is what the command prints before it
returns. -/
def checkRounds (digits : Vector Byte 20) (parsed : Bool) (rounds : Word) :
    Option (Except (List Byte) Word) :=
  if parsed = false ∨ rounds = 0 ∨ taskDemoMaxRounds < rounds then do
    let maximum ← uartPutUint64 digits taskDemoMaxRounds
    return .error
      (bytes "taskdemo: rounds must be an integer from 1 to " ++ maximum ++ bytes "\n")
  else some (.ok rounds)

/-- The beginning of the command: the number of rounds, or what it prints before it returns. -/
def roundsOf (digits : Vector Byte 20) (arguments : List (List Byte)) :
    Option (Except (List Byte) Word) :=
  if 2 < arguments.length then some (.error (bytes "Usage: taskdemo [rounds]\n"))
  else if arguments.length = 2 then
    match parseUint64 wrapping (arguments.getD 1 [] ++ [0]) taskDemoDefaultRounds with
    | none => none
    | some (parsed, rounds) => checkRounds digits parsed rounds
  else some (.ok taskDemoDefaultRounds)

/-- What a worker prints in a round. -/
def roundLine (digits : Vector Byte 20) (label : Byte) (round : Word) : Option (List Byte) := do
  let number ← uartPutUint64 digits round
  return bytes "Task " ++ [label] ++ bytes ": " ++ number ++ bytes "\n"

/-! ### Steps -/

section Steps

variable [NeZero N] (bootstrap entry base : Word) (input : Input)

/-- `command_taskdemo` from where it goes on up to the end of its next call of the scheduler, or up
to its end. -/
def shellStep (d : Demo N) : Option (Demo N) :=
  match d.shell with
  | .start arguments =>
      match roundsOf input.digits arguments with
      | none => none
      | some (.error text) => some { d.say text with shell := .returned }
      | some (.ok rounds) => some { d with workers := demoWorkers rounds, shell := .createFirst }
  | .createFirst =>
      match taskCreate bootstrap entry (workerAddress base 0) d.kernel with
      | (none, kernel) =>
          some { d.say (bytes "taskdemo: could not create task A\n") with
            kernel := kernel
            shell := .returned }
      | (some first, kernel) =>
          some { d with
            kernel := kernel
            worker := Function.update d.worker first .bootstrap
            shell := .createSecond first }
  | .createSecond first =>
      match taskCreate bootstrap entry (workerAddress base 1) d.kernel with
      | (none, kernel) =>
          some { d.say (bytes "taskdemo: could not create task B\n") with
            kernel := kernel
            shell := .cleanup first }
      | (some second, kernel) =>
          some { d.say (bytes "Cooperative task demo:\n") with
            kernel := kernel
            worker := Function.update d.worker second .bootstrap
            shell := .waiting first second }
  | .cleanup first =>
      match taskFinishedState (taskId first) d.kernel with
      | some false => some { d with kernel := taskYield input.regs d.kernel, yields := d.yields + 1 }
      | some true =>
          match taskReap (taskId first) d.kernel with
          | none => none
          | some (true, kernel) => some { d with kernel := kernel, shell := .returned }
          | some (false, kernel) =>
              some { d.say (bytes "taskdemo: FAIL (task A cleanup error)\n") with
                kernel := kernel
                shell := .returned }
      -- `finished` is still 0 when the loop ends like this
      | none =>
          some { d.say (bytes "taskdemo: FAIL (task A cleanup error)\n") with shell := .returned }
  | .waiting first second =>
      match taskFinishedState (taskId first) d.kernel, taskFinishedState (taskId second) d.kernel with
      | some firstFinished, some secondFinished =>
          if firstFinished && secondFinished then do
            let (firstReaped, kernel) ← taskReap (taskId first) d.kernel
            let (secondReaped, kernel) ← taskReap (taskId second) kernel
            let text := if firstReaped && secondReaped then "taskdemo: PASS\n"
              else "taskdemo: FAIL (stack or page release error)\n"
            return { d.say (bytes text) with kernel := kernel, shell := .returned }
          else some { d with kernel := taskYield input.regs d.kernel, yields := d.yields + 1 }
      | _, _ =>
          some { d.say (bytes "taskdemo: FAIL (task state unavailable)\n") with shell := .returned }
  | .returned => none

/-- `task_demo_worker` from the test of its loop up to the next test, to the end of its next yield, or
through its end and `task_exit`. -/
def workerLoop (argument round : Word) (d : Demo N) : Option (Demo N) :=
  match d.argumentAt base argument with
  | none => none
  | some worker =>
      if round ≤ worker.rounds then
        match roundLine input.digits worker.label round with
        | none => none
        | some line =>
            let d := { d.say line with
              worker := Function.update d.worker d.kernel.currentTask (.test argument (round + 1)) }
            if round ≠ worker.rounds then some { d with kernel := taskYield input.regs d.kernel }
            else some d
      else some { d with kernel := taskExit input.regs d.kernel }

/-- The running task goes on: `task_bootstrap` calls the entry of its slot, which must be
`task_demo_worker`. -/
def workerStep (d : Demo N) : Option (Demo N) :=
  match d.worker d.kernel.currentTask with
  | .bootstrap =>
      if (taskBootstrap d.kernel).1 = entry then workerLoop base input (taskBootstrap d.kernel).2 1 d
      else none
  | .test argument round => workerLoop base input argument round d

/-- The running task uses its stack and goes on. -/
def runningStep (d : Demo N) : Option (Demo N) :=
  if d.kernel.currentTask = 0 then shellStep bootstrap entry base input d
  else workerStep entry base input d

/-- **One step**; there is none after the command has returned. -/
def demoStep (d : Demo N) : Option (Demo N) :=
  runningStep bootstrap entry base input { d with kernel := useStack input.stack d.kernel }

end Steps

/-! ### What the calls give -/

/-- The line of a round. -/
def line (label : Byte) (round : ℕ) : List Byte :=
  bytes "Task " ++ [label] ++ bytes ": " ++ decimalString round ++ bytes "\n"

theorem roundLine_eq (digits : Vector Byte 20) (label : Byte) (round : Word) :
    roundLine digits label round = some (line label round.toNat) := by
  rw [roundLine, Decimal.uartPutUint64_eq]
  rfl

/-- The loop of `parse_uint64` ends at the end of the string. -/
theorem exists_parseLoop (value result : Word) (text : List Byte) :
    ∃ r, Decimal.parseLoop wrapping value result (text ++ [0]) = some r := by
  induction text generalizing result with
  | nil => exact ⟨_, rfl⟩
  | cons c text ih =>
      rw [List.cons_append]
      by_cases hzero : c = 0
      · rw [Decimal.parseLoop, if_pos hzero]
        exact ⟨_, rfl⟩
      · by_cases hdigit : Decimal.IsDigit c
        · have hsub : ∀ a b, wrapping.sub a b = some (a - b) := fun _ _ => rfl
          have hmul : ∀ a b, wrapping.mul a b = some (a * b) := fun _ _ => rfl
          have hadd : ∀ a b, wrapping.add a b = some (a + b) := fun _ _ => rfl
          rw [Decimal.parseLoop_of_isDigit wrapping value result hdigit, hsub, Option.bind_some, hsub,
            Option.bind_some]
          split
          · exact ⟨(false, value), rfl⟩
          · rw [hmul, Option.bind_some, hadd, Option.bind_some]
            exact ih _
        · rw [Decimal.parseLoop, if_neg hzero, if_pos (Decidable.not_not.1 hdigit)]
          exact ⟨_, rfl⟩

theorem exists_parseUint64 (text : List Byte) (value : Word) :
    ∃ parsed v, parseUint64 wrapping (text ++ [0]) value = some (parsed, v) := by
  cases text with
  | nil => exact ⟨_, _, rfl⟩
  | cons c text =>
      rw [List.cons_append, parseUint64]
      split
      · exact ⟨_, _, rfl⟩
      · obtain ⟨⟨parsed, v⟩, hr⟩ := exists_parseLoop value 0#64 (c :: text)
        exact ⟨parsed, v, hr⟩

/-- The check lets the numbers from 1 to 20 through. -/
theorem checkRounds_cases (parsed : Bool) (rounds : Word) :
    (∃ text, ∀ digits, checkRounds digits parsed rounds = some (.error text)) ∨
      (∀ digits, checkRounds digits parsed rounds = some (.ok rounds)) ∧
        1 ≤ rounds.toNat ∧ rounds.toNat ≤ 20 := by
  by_cases hbad : parsed = false ∨ rounds = 0 ∨ taskDemoMaxRounds < rounds
  · refine .inl ⟨bytes "taskdemo: rounds must be an integer from 1 to " ++
      decimalString taskDemoMaxRounds.toNat ++ bytes "\n", fun digits => ?_⟩
    rw [checkRounds, if_pos hbad, Decimal.uartPutUint64_eq, Option.bind_eq_bind, Option.bind_some]
    rfl
  · refine .inr ⟨fun digits => if_neg hbad, ?_⟩
    rw [not_or, not_or, BitVec.not_lt] at hbad
    obtain ⟨-, hzero, hmax⟩ := hbad
    have hpos : rounds.toNat ≠ 0 := fun h => hzero (BitVec.eq_of_toNat_eq h)
    exact ⟨Nat.pos_of_ne_zero hpos, BitVec.le_def.1 hmax⟩

/-- The beginning of the command refuses its arguments, or accepts a number of rounds from 1 to 20,
whatever the local array holds. -/
theorem roundsOf_cases (arguments : List (List Byte)) :
    (∃ text, ∀ digits, roundsOf digits arguments = some (.error text)) ∨
      ∃ rounds, (∀ digits, roundsOf digits arguments = some (.ok rounds)) ∧
        1 ≤ rounds.toNat ∧ rounds.toNat ≤ 20 := by
  by_cases hmany : 2 < arguments.length
  · exact .inl ⟨_, fun _ => if_pos hmany⟩
  · by_cases htwo : arguments.length = 2
    · obtain ⟨parsed, rounds, hparse⟩ := exists_parseUint64 (arguments.getD 1 []) taskDemoDefaultRounds
      have hcheck : ∀ digits, roundsOf digits arguments = checkRounds digits parsed rounds := by
        intro digits
        rw [roundsOf, if_neg hmany, if_pos htwo, hparse]
      rcases checkRounds_cases parsed rounds with ⟨text, htext⟩ | ⟨hok, hrange⟩
      · exact .inl ⟨text, fun digits => (hcheck digits).trans (htext digits)⟩
      · exact .inr ⟨rounds, fun digits => (hcheck digits).trans (hok digits), hrange⟩
    · refine .inr ⟨taskDemoDefaultRounds, fun digits => ?_, by decide, by decide⟩
      rw [roundsOf, if_neg hmany, if_neg htwo]

theorem taskId_toNat (hN : N ≤ 2 ^ 32) (i : Fin N) : (taskId i).toNat = i := by
  rw [taskId, BitVec.toNat_ofNat]
  exact Nat.mod_eq_of_lt (Nat.lt_of_lt_of_le i.isLt hN)

/-- `task_finished_state` finds out whether a slot is FINISHED. -/
theorem taskFinishedState_eq [NeZero N] (hN : N ≤ 2 ^ 32) {s : State N} (h : SchedInv s)
    (i : Fin N) : taskFinishedState (taskId i) s = some (decide ((s.tasks i).state = .finished)) := by
  have hid := taskId_toNat hN i
  have hlt : (taskId i).toNat < N := hid ▸ i.isLt
  have hslot : (⟨(taskId i).toNat, hlt⟩ : Fin N) = i := Fin.ext hid
  have hinit : ¬ s.initialized = false := by simp [h.initialized]
  rw [taskFinishedState, taskGetInfo, dif_pos hlt]
  dsimp only
  rw [if_neg hinit, hslot]
  rfl

/-! ### A client of the scheduler -/

section Reach

variable [NeZero N] {bootstrap kernelEnd entry base : Word} {clients : Finset Word} {input : Input}
  {d t : Demo N}

theorem shellStep_reachable (h : (kernel bootstrap kernelEnd).Reachable ⟨d.kernel, clients⟩)
    (hstep : shellStep bootstrap entry base input d = some t) :
    (kernel bootstrap kernelEnd).Reachable ⟨t.kernel, clients⟩ := by
  unfold shellStep at hstep
  split at hstep
  · split at hstep
    · cases hstep
    · cases hstep
      exact h
    · cases hstep
      exact h
  · split at hstep
    · next hk =>
        cases hstep
        exact reachable_taskCreate h hk
    · next hk =>
        cases hstep
        exact reachable_taskCreate h hk
  · split at hstep
    · next hk =>
        cases hstep
        exact reachable_taskCreate h hk
    · next hk =>
        cases hstep
        exact reachable_taskCreate h hk
  · split at hstep
    · cases hstep
      exact reachable_taskYield h _
    · split at hstep
      · cases hstep
      · next hk =>
          cases hstep
          exact reachable_taskReap h hk
      · next hk =>
          cases hstep
          exact reachable_taskReap h hk
    · cases hstep
      exact h
  · split at hstep
    · split at hstep
      · obtain ⟨⟨firstReaped, k⟩, hk, hstep⟩ := Option.bind_eq_some_iff.1 hstep
        obtain ⟨⟨secondReaped, k'⟩, hk', hstep⟩ := Option.bind_eq_some_iff.1 hstep
        cases hstep
        exact reachable_taskReap (reachable_taskReap h hk) hk'
      · cases hstep
        exact reachable_taskYield h _
    · cases hstep
      exact h
  · cases hstep

theorem workerLoop_reachable {argument round : Word}
    (h : (kernel bootstrap kernelEnd).Reachable ⟨d.kernel, clients⟩)
    (hstep : workerLoop base input argument round d = some t) :
    (kernel bootstrap kernelEnd).Reachable ⟨t.kernel, clients⟩ := by
  unfold workerLoop at hstep
  split at hstep
  · cases hstep
  · split at hstep
    · split at hstep
      · cases hstep
      · dsimp only at hstep
        split at hstep
        · cases hstep
          exact reachable_taskYield h _
        · cases hstep
          exact h
    · cases hstep
      exact reachable_taskExit h _

/-- **The command is a client of the scheduler**: whatever its steps do, the scheduler's clients may
do. -/
theorem demoStep_reachable (h : (kernel bootstrap kernelEnd).Reachable ⟨d.kernel, clients⟩)
    (hstep : demoStep bootstrap entry base input d = some t) :
    (kernel bootstrap kernelEnd).Reachable ⟨t.kernel, clients⟩ := by
  have hused := reachable_useStack input.stack h
  unfold demoStep runningStep at hstep
  split at hstep
  · exact shellStep_reachable hused hstep
  · unfold workerStep at hstep
    split at hstep
    · split at hstep
      · exact workerLoop_reachable hused hstep
      · cases hstep
    · exact workerLoop_reachable hused hstep

end Reach

end TaskDemo

end MiniOs
