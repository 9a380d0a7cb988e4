/-
**The loop of the shell (`shell_run` in `src/shell.c`).**

Each pass prompts, reads a line with `console_readline`, and parses and executes it.  The buffer of
the line and the array of arguments are the same in every pass and are never cleared.  Here the loop
runs together with the console, fed any bytes.

Main definitions:

* `Shell.RunState`, `Shell.runStep` — the variables of the loop with the console, and its steps;
* `Shell.shellRun` — **the loop, fed any bytes**; a step is labelled with what the shell calls in it;
* `Shell.RunInv` — the buffer and the array keep their lengths, and the console is in order.

Main results:

* `Shell.runInv_step` — no step leaves an array, and each keeps the invariant;
* `Shell.execute_eq` — **what a line calls does not depend on what earlier lines left behind**;
* `Shell.destructive_commands` — **a command that stops the machine runs only when its name is all
  there is on the line**.
-/

import MiniOs.ConsoleRun
import MiniOs.ShellCommands

set_option relaxedAutoImplicit false
set_option autoImplicit false

namespace MiniOs

namespace Shell

open CString

/-! ### The loop -/

/-- The variables of `shell_run`, and the console it reads from.  From the call of
`console_readline` on, until the line has been executed, the console has the buffer. -/
structure RunState where
  console : Console.State
  command : List Byte
  arguments : List (Option ℕ)

/-- What happens next: the loop begins a pass, a byte comes for `console_readline`, or the line it
has returned is executed.  With a pass comes what the stack holds where the draft of the line is. -/
inductive RunOp
  | prompt (draft : List Byte)
  | byte (c : Byte)
  | execute

/-- An operation fits where the loop is. -/
def RunOp.Fits (s : RunState) : RunOp → Prop
  | .prompt draft => s.console.status = .idle ∧ draft.length = Console.consoleLineCapacity
  | .byte _ => ∃ l, s.console.status = .reading l
  | .execute => ∃ n buffer, s.console.status = .returned n buffer

/-- Model of `shell_run`, step by step, with what the shell calls.  A line that is executed is left when
its calls have come back. -/
def runStep (op : RunOp) (s : RunState) : Option (RunState × List Call) :=
  match op, s.console.status with
  | .prompt draft, _ => do
      let console ← Console.step (.call Console.consoleLineCapacity s.command draft) s.console
      return ({ s with console := console }, [puts "mini-os> "])
  | .byte c, _ => do
      let console ← Console.step (.byte c) s.console
      return ({ s with console := console }, [])
  | .execute, .returned _ buffer => do
      let pass ← runLine buffer s.arguments
      return ({
        console := { s.console with status := .idle }
        command := pass.command
        arguments := pass.arguments }, pass.calls)
  | .execute, _ => some (s, [])

/-- **The shell**, fed any bytes; the buffer and the array start with whatever the stack holds.
`exception_trigger_test` does not come back, so that the line `fault` is the last one; `platform_shutdown`
and `platform_reboot` come back when the firmware refuses, and where they do not the run ends there. -/
def shellRun : Lts RunState (RunOp × List Call) where
  init s := s.console = Console.State.boot ∧ s.command.length = Console.consoleLineCapacity ∧
    s.arguments.length = shellMaxArguments + 1
  step s e t := e.1.Fits s ∧ runStep e.1 s = some (t, e.2) ∧ .exceptionTriggerTest ∉ e.2

/-! ### The invariant -/

variable {s : RunState} {op : RunOp}

/-- **The invariant of the loop.** -/
structure RunInv (s : RunState) : Prop where
  command : s.command.length = Console.consoleLineCapacity
  arguments : s.arguments.length = shellMaxArguments + 1
  console : ∃ log, Console.Inv log s.console ∧
    (s.console.status = .idle ∨ log.capacity = Console.consoleLineCapacity)

/-- A line that `console_readline` has returned is a string in a buffer of the capacity it was
given. -/
theorem RunInv.line (h : RunInv s) {n : ℕ} {buffer : List Byte}
    (hreturned : s.console.status = .returned n buffer) :
    buffer.length = Console.consoleLineCapacity ∧ ∃ text, StringAt buffer 0 text ∧
      n = text.length := by
  obtain ⟨log, hinv, hcapacity⟩ := h.console
  have hstatus := hinv.status
  rw [hreturned] at hstatus hcapacity
  have hlog := hcapacity.resolve_left nofun
  obtain ⟨hlen, -, hstring⟩ := hstatus
  rw [hlog] at hlen hstring
  exact ⟨hlen, hstring (by decide)⟩

/-- **What a line calls does not depend on what earlier lines left behind** in the buffer or in the
array. -/
theorem execute_eq {n : ℕ} {buffer text : List Byte}
    (hreturned : s.console.status = .returned n buffer) (htext : StringAt buffer 0 text)
    (hslots : s.arguments.length = shellMaxArguments + 1) :
    ∃ t, runStep .execute s = some (t, callsOf (tokenize text)) ∧
      t.console = { s.console with status := .idle } ∧ t.command.length = buffer.length ∧
      t.arguments.length = shellMaxArguments + 1 := by
  obtain ⟨hzero, tail, hbuffer⟩ := htext
  rw [List.append_assoc, List.singleton_append, List.drop_zero] at hbuffer
  obtain ⟨pass, hpass, hcommand, harguments, hcalls⟩ := runLine_eq tail hzero hslots
  rw [hbuffer] at hpass
  refine ⟨⟨{ s.console with status := .idle }, pass.command, pass.arguments⟩, ?_, rfl, ?_,
    harguments⟩
  · simp only [runStep, hreturned, hpass, hcalls, Option.bind_eq_bind, Option.bind_some]
    rfl
  · rw [hcommand, ← hbuffer, List.length_append, List.length_cons]
    omega

/-- A byte does not change the capacity of the call it comes to. -/
theorem record_byte_capacity (log : Console.Log) (s t : Console.State) (c : Byte) :
    (log.record s (.byte c) t).capacity = log.capacity := by
  cases hstatus : t.status <;> simp [Console.Log.record, hstatus]

/-- **What one step preserves**; and it does not fail. -/
theorem runInv_step (h : RunInv s) (hfits : op.Fits s) :
    ∃ t calls, runStep op s = some (t, calls) ∧ RunInv t := by
  obtain ⟨log, hinv, hcapacity⟩ := h.console
  cases op with
  | prompt draft =>
      obtain ⟨hidle, hdraft⟩ := hfits
      have hcall : (Console.Op.call Console.consoleLineCapacity s.command draft).Fits s.console := by
        refine ⟨?_, h.command, hdraft⟩
        rw [hidle]
        nofun
      obtain ⟨console, hstep, hinv'⟩ := Console.inv_step hinv hcall
      refine ⟨{ s with console := console }, [puts "mini-os> "], ?_, h.command, h.arguments,
        _, hinv', Or.inr rfl⟩
      simp only [runStep, hstep, Option.bind_eq_bind, Option.bind_some]
      rfl
  | byte c =>
      obtain ⟨l, hl⟩ := hfits
      rw [hl] at hcapacity
      have hbyte : (Console.Op.byte c).Fits s.console := ⟨l, hl⟩
      obtain ⟨console, hstep, hinv'⟩ := Console.inv_step hinv hbyte
      refine ⟨{ s with console := console }, [], ?_, h.command, h.arguments, _, hinv', Or.inr ?_⟩
      · simp only [runStep, hstep, Option.bind_eq_bind, Option.bind_some]
        rfl
      · rw [record_byte_capacity]
        exact hcapacity.resolve_left nofun
  | execute =>
      obtain ⟨n, buffer, hreturned⟩ := hfits
      obtain ⟨hlen, text, htext, -⟩ := h.line hreturned
      obtain ⟨t, hstep, hconsole, hcommand, harguments⟩ := execute_eq hreturned htext h.arguments
      refine ⟨t, _, hstep, hcommand.trans hlen, harguments, log, ?_, Or.inl ?_⟩
      · rw [hconsole]
        exact ⟨hinv.history, trivial⟩
      · rw [hconsole]

theorem reachable_runInv (h : shellRun.Reachable s) : RunInv s := by
  refine h.invariant (P := RunInv) ?_ ?_
  · rintro s ⟨hconsole, hcommand, harguments⟩
    refine ⟨hcommand, harguments, ⟨0, []⟩, ?_, Or.inl ?_⟩
    · rw [hconsole]
      exact Console.inv_boot
    · rw [hconsole]
      rfl
  · rintro s ⟨op, calls⟩ t - hinv ⟨hfits, hstep, -⟩
    obtain ⟨t', calls', hstep', hinv'⟩ := runInv_step hinv hfits
    obtain ⟨rfl, -⟩ := Prod.mk.inj (Option.some_inj.1 (hstep'.symm.trans hstep))
    exact hinv'

/-! ### A session -/

/-- The shell after `text` was typed, with sevens in the rest of the buffer. -/
def typed (text : List Byte) : RunState where
  console := ⟨Console.History.boot, .reading {
    buffer := text ++ 0 :: List.replicate (79 - text.length) 7
    capacity := 80
    length := text.length
    draft := List.replicate 80 0
    historyOffset := 0
    escape := .normal }⟩
  command := List.replicate 80 7
  arguments := List.replicate 9 none

/-- The shell after `fault` was typed, and then Enter. -/
def entered : RunState where
  console := {
    history := {
      history := ⟨bytes "fault" ++ List.replicate 75 0, true⟩ ::
        List.replicate 7 ⟨List.replicate 80 0, false⟩
      historyCount := 1
      historyNext := 1 }
    status := .returned 5 (bytes "fault" ++ 0 :: List.replicate 74 7) }
  command := List.replicate 80 7
  arguments := List.replicate 9 none

theorem reachable_entered : shellRun.Reachable entered := by
  have hboot : shellRun.Reachable ⟨Console.State.boot, List.replicate 80 7, List.replicate 9 none⟩ :=
    Lts.Reachable.init ⟨rfl, rfl, rfl⟩
  have hprompt : shellRun.Reachable (typed []) :=
    hboot.step (e := (.prompt (List.replicate 80 0), [puts "mini-os> "])) ⟨⟨rfl, rfl⟩, rfl, by decide⟩
  have hf : shellRun.Reachable (typed (bytes "f")) :=
    hprompt.step (e := (.byte 0x66#8, [])) ⟨⟨_, rfl⟩, rfl, List.not_mem_nil⟩
  have ha : shellRun.Reachable (typed (bytes "fa")) :=
    hf.step (e := (.byte 0x61#8, [])) ⟨⟨_, rfl⟩, rfl, List.not_mem_nil⟩
  have hu : shellRun.Reachable (typed (bytes "fau")) :=
    ha.step (e := (.byte 0x75#8, [])) ⟨⟨_, rfl⟩, rfl, List.not_mem_nil⟩
  have hl : shellRun.Reachable (typed (bytes "faul")) :=
    hu.step (e := (.byte 0x6c#8, [])) ⟨⟨_, rfl⟩, rfl, List.not_mem_nil⟩
  have ht : shellRun.Reachable (typed (bytes "fault")) :=
    hl.step (e := (.byte 0x74#8, [])) ⟨⟨_, rfl⟩, rfl, List.not_mem_nil⟩
  exact ht.step (e := (.byte Console.carriageReturn, [])) ⟨⟨_, rfl⟩, rfl, List.not_mem_nil⟩

/-! ### Commands that stop the machine -/

/-- Before the line is executed none of its commands is. -/
theorem runStep_command {t : RunState} {calls : List Call} (hop : op ≠ .execute)
    (hstep : runStep op s = some (t, calls)) : ∀ call ∈ calls, call.command = none := by
  cases op with
  | prompt draft =>
      simp only [runStep, Option.bind_eq_bind, Option.bind_eq_some_iff] at hstep
      obtain ⟨console, -, hreturn⟩ := hstep
      cases hreturn
      simp [puts, Call.command]
  | byte c =>
      simp only [runStep, Option.bind_eq_bind, Option.bind_eq_some_iff] at hstep
      obtain ⟨console, -, hreturn⟩ := hstep
      cases hreturn
      exact fun call hmem => absurd hmem List.not_mem_nil
  | execute => exact absurd rfl hop

/-- **A command that stops the machine runs only when its name is all there is on the line.**  In
every run of the shell, no such command runs while the line is read, and a line that
`console_readline` has returned is a string of the length it says.  Executing that line succeeds,
in this state and in every other one that differs in what is in the buffer after the line, in the
array of arguments or in the console, and what it calls is told from the words of the line: it calls
`platform_shutdown`, `platform_reboot` or `exception_trigger_test` if and only if the line has no
quote left open, no escape at its end and no ninth word, and is the one word `shutdown`, `reboot` or
`fault`. -/
theorem destructive_commands (h : shellRun.Reachable s) :
    (∀ op t calls, op ≠ .execute → runStep op s = some (t, calls) →
      .platformShutdown ∉ calls ∧ .platformReboot ∉ calls ∧ .exceptionTriggerTest ∉ calls) ∧
    ∀ n buffer, s.console.status = .returned n buffer →
      s.arguments.length = shellMaxArguments + 1 ∧
      ∃ text, StringAt buffer 0 text ∧ n = text.length ∧
        ∀ s' m buffer', s'.console.status = .returned m buffer' → StringAt buffer' 0 text →
          s'.arguments.length = shellMaxArguments + 1 →
          ∃ t calls, runStep .execute s' = some (t, calls) ∧ calls = callsOf (tokenize text) ∧
            (.platformShutdown ∈ calls ↔ tokenize text = .ok [bytes "shutdown"]) ∧
            (.platformReboot ∈ calls ↔ tokenize text = .ok [bytes "reboot"]) ∧
            (.exceptionTriggerTest ∈ calls ↔ tokenize text = .ok [bytes "fault"]) := by
  have hinv := reachable_runInv h
  constructor
  · intro op t calls hop hstep
    have hnone := runStep_command hop hstep
    refine ⟨?_, ?_, ?_⟩ <;> intro hmem <;> cases hnone _ hmem
  · intro n buffer hreturned
    obtain ⟨-, text, htext, hlen⟩ := hinv.line hreturned
    refine ⟨hinv.arguments, text, htext, hlen, ?_⟩
    intro s' m buffer' hreturned' htext' hslots
    obtain ⟨t, hstep, -⟩ := execute_eq hreturned' htext' hslots
    exact ⟨t, _, hstep, rfl, mem_callsOf rfl, mem_callsOf rfl, mem_callsOf rfl⟩

/-- The line `fault` triggers the exception, and does not turn the machine off. -/
theorem destructive_commands_fault : ∃ t calls, runStep .execute entered = some (t, calls) ∧
    Call.exceptionTriggerTest ∈ calls ∧ Call.platformShutdown ∉ calls := by
  obtain ⟨-, text, htext, hlen, hexecute⟩ := (destructive_commands reachable_entered).2 5 _ rfl
  have hline : text = bytes "fault" := by
    rw [← htext.take_length, ← hlen]
    rfl
  have htok : tokenize text = .ok [bytes "fault"] := by
    rw [hline]
    rfl
  obtain ⟨t, calls, hstep, -, hshutdown, -, hfault⟩ := hexecute entered 5 _ rfl htext rfl
  refine ⟨t, calls, hstep, hfault.2 htok, ?_⟩
  rw [hshutdown, htok]
  intro hsame
  exact absurd (Except.ok.inj hsame) (by decide)

end Shell

end MiniOs
