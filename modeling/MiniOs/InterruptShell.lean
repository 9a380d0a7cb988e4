/-
**The shell under interrupts.**

The whole input path at once: words arrive at the UART, the handler moves them into the ring, and
`console_readline` takes them out of it with `uart_getc`, byte by byte, while the shell prompts, edits
lines and executes them.  Interrupts are handled at any time, between any two of these steps.  What comes
out is the session of a user who types the bytes of the wire one after the other, with nothing between
them.

What a command does when it is called is not looked into.  None of them touches what the handlers and the
line editor use.

Main definitions:

* `Irq.Machine`, `Irq.machine` — the kernel under its interrupts, with the shell at its prompt;
* `Irq.waiting` — the bytes that have arrived and that the shell has not read yet.

Main results:

* `Irq.machine_projects` — a run of the machine is a run of the interrupts and a run of the shell;
* `Irq.wire_to_session` — **the shell acts on the bytes of the wire as if no interrupt ever happened**.
-/

import MiniOs.InterruptTraffic
import MiniOs.ShellSession

set_option relaxedAutoImplicit false
set_option autoImplicit false

namespace MiniOs

namespace Irq

open Uart (buffered popStep)
open Shell (RunState RunOp RunLog Call loggedShell shellRun runStep session due)

/-! ### The machine -/

/-- The kernel under its interrupts, with the shell. -/
structure Machine where
  sys : System
  shell : RunState

/-- What happens next. -/
inductive MachineEvent
  /-- The devices go on, or the handler. -/
  | interrupts (e : Event)
  /-- `uart_getc` makes its next access of the ring. -/
  | getc
  /-- The shell goes on without reading a byte. -/
  | shell (op : RunOp) (calls : List Call)

/-- What the next access of `rx_buffer_pop` returns. -/
def System.popped (s : System) : List Byte := returned (popStep s.driver.pop s.driver.rx).2.2

/-- **One step of the devices, of the handler or of the shell**, which is stopped while the handler
runs, and reads bytes only while a line is read. -/
inductive MachineStep : Machine → MachineEvent → Machine → Prop
  | interrupts {m : Machine} {e : Event} {t : System} : e ≠ Event.access → Step m.sys e t →
      MachineStep m (MachineEvent.interrupts e) ⟨t, m.shell⟩
  | access {m : Machine} {t : System} : (∃ l, m.shell.console.status = .reading l) →
      Step m.sys Event.access t → m.sys.popped = [] →
      MachineStep m MachineEvent.getc ⟨t, m.shell⟩
  | byte {m : Machine} {t : System} {c : Byte} {r : RunState} {calls : List Call} :
      (∃ l, m.shell.console.status = .reading l) → Step m.sys Event.access t →
      m.sys.popped = [c] → runStep (.byte c) m.shell = some (r, calls) →
      MachineStep m MachineEvent.getc ⟨t, r⟩
  | shell {m : Machine} {op : RunOp} {r : RunState} {calls : List Call} :
      m.sys.handler = Handler.idle → (∀ c, op ≠ .byte c) → shellRun.step m.shell (op, calls) r →
      MachineStep m (MachineEvent.shell op calls) ⟨m.sys, r⟩

/-- **The machine**, from `irq_enable` on; the shell's stack holds anything. -/
def machine (b : Boot) : Lts Machine MachineEvent where
  init m := Booted b m.sys ∧ shellRun.init m.shell
  step := MachineStep

/-- What a step adds to the logs. -/
def recordMachine (logs : Log × RunLog) (m : Machine) (e : MachineEvent) (m' : Machine) :
    Log × RunLog :=
  match e with
  | .interrupts e => (logs.1.record m.sys e m'.sys, logs.2)
  | .getc => (logs.1.record m.sys Event.access m'.sys,
      m.sys.popped.foldl (fun log c => log.record m.shell (.byte c, []) m'.shell) logs.2)
  | .shell op calls => (logs.1, logs.2.record m.shell (op, calls) m'.shell)

/-- The machine with its logs. -/
def loggedMachine (b : Boot) : Lts (Machine × Log × RunLog) MachineEvent :=
  (machine b).withHistory (⟨[], [], [], [], 0, []⟩, ⟨[], []⟩) recordMachine

variable {b : Boot} {m m' : Machine} {log : Log} {runLog : RunLog}

/-! ### Its two halves -/

/-- Reading a byte makes the shell call nothing. -/
theorem runStep_byte_calls {s t : RunState} {c : Byte} {calls : List Call}
    (h : runStep (.byte c) s = some (t, calls)) : calls = [] := by
  simp only [runStep, Option.bind_eq_bind, Option.bind_eq_some_iff] at h
  obtain ⟨console, -, hreturn⟩ := h
  cases hreturn
  rfl

/-- Only a byte is added to what has been typed. -/
theorem record_typed {s t : RunState} {op : RunOp} {calls : List Call} (h : ∀ c, op ≠ .byte c) :
    (runLog.record s (op, calls) t).typed = runLog.typed := by
  cases op with
  | byte c => exact absurd rfl (h c)
  | prompt draft => rfl
  | execute => rfl

/-- Only the shell's accesses are added to what has been popped. -/
theorem record_popped {s t : System} {e : Event} (h : e ≠ Event.access) :
    (log.record s e t).popped = log.popped := by
  cases e with
  | access => exact absurd rfl h
  | handle =>
      simp only [Log.record, Log.handled]
      split <;> rfl
  | _ => rfl

/-- **A run of the machine is a run of the interrupts and a run of the shell**, which is fed the bytes
the pops return. -/
theorem machine_projects (h : (loggedMachine b).Reachable (m, log, runLog)) :
    (loggedSystem b).Reachable (m.sys, log) ∧ loggedShell.Reachable (m.shell, runLog) ∧
      runLog.typed = log.popped := by
  refine h.invariant (P := fun p => (loggedSystem b).Reachable (p.1.sys, p.2.1) ∧
    loggedShell.Reachable (p.1.shell, p.2.2) ∧ p.2.2.typed = p.2.1.popped) ?_ ?_
  · rintro ⟨m, logs⟩ ⟨⟨hsys, hshell⟩, rfl⟩
    exact ⟨Lts.Reachable.init ⟨hsys, rfl⟩, Lts.Reachable.init ⟨hshell, rfl⟩, rfl⟩
  · rintro ⟨m, log, runLog⟩ e ⟨m', logs⟩ - ⟨hsys, hshell, htyped⟩ ⟨hstep, hlogs⟩
    dsimp only at hsys hshell htyped hstep hlogs ⊢
    subst hlogs
    cases hstep with
    | @interrupts e t hne hstep =>
        refine ⟨hsys.step (e := e) ⟨hstep, rfl⟩, hshell, ?_⟩
        rw [recordMachine, record_popped hne]
        exact htyped
    | @access t hreading hstep hnone =>
        have hpopped : (log.record m.sys Event.access t).popped = log.popped ++ m.sys.popped := rfl
        refine ⟨hsys.step (e := Event.access) ⟨hstep, rfl⟩, ?_, ?_⟩
        · rw [recordMachine, hnone]
          exact hshell
        · rw [recordMachine, hpopped, hnone, List.append_nil]
          exact htyped
    | @byte t c r calls hreading hstep hone hrun =>
        have hpopped : (log.record m.sys Event.access t).popped = log.popped ++ m.sys.popped := rfl
        obtain rfl := runStep_byte_calls hrun
        refine ⟨hsys.step (e := Event.access) ⟨hstep, rfl⟩, ?_, ?_⟩
        · rw [recordMachine, hone]
          exact hshell.step (e := (RunOp.byte c, [])) ⟨⟨hreading, hrun, List.not_mem_nil⟩, rfl⟩
        · rw [recordMachine, hpopped, hone, ← htyped]
          rfl
    | @shell op r calls hidle hop hrun =>
        refine ⟨hsys, hshell.step (e := (op, calls)) ⟨hrun, rfl⟩, ?_⟩
        rw [recordMachine, record_typed hop]
        exact htyped

/-! ### From the wire to the session -/

/-- The bytes that have come in on the wire. -/
def wire (b : Boot) (log : Log) : List Byte := (b.drained ++ log.arrived).map (·.setWidth 8)

/-- The bytes the shell has not read yet: those buffered in the ring, and those in the FIFO. -/
def waiting (s : System) : List Byte := buffered s.driver.rx ++ s.device.rxFifo.map (·.setWidth 8)

/-- **The shell acts on the bytes of the wire as if no interrupt ever happened.**  In every interleaving
of the devices, the handlers and the shell, the bytes typed and the bytes still waiting are those that
came in on the wire, in order and without some of them, and `uart_rx_overflow_count` counts those left
out.  The actions of the shell are those of the session in which these bytes are typed, but for what it
will do before it reads the next one.  When nothing is left out and nothing is waiting, the session is
that of the wire itself.  What comes in on the wire are the words that get into the FIFO, which is taken
never to be full. -/
theorem wire_to_session (h : (loggedMachine b).Reachable (m, log, runLog)) :
    runLog.actions ++ due m.shell.console.status = (session runLog.typed).actions ∧
    (runLog.typed ++ waiting m.sys).Sublist (wire b log) ∧
    ∃ dropped, Uart.uartRxOverflowCount m.sys.driver.rx = BitVec.ofNat 64 dropped ∧
      (runLog.typed ++ waiting m.sys).length + dropped = (wire b log).length ∧
      (dropped = 0 → runLog.typed ++ waiting m.sys = wire b log) ∧
      (dropped = 0 → waiting m.sys = [] →
        runLog.actions ++ due m.shell.console.status = (session (wire b log)).actions) := by
  obtain ⟨hsys, hshell, htyped⟩ := machine_projects h
  obtain ⟨harrived, hdelivers⟩ := reachable_delivers hsys
  have hactions := (Shell.reachable_sessionInv hshell).actions
  have hwire : wire b log = (b.drained ++ log.received).map (·.setWidth 8) ++
      m.sys.device.rxFifo.map (·.setWidth 8) := by
    rw [wire, harrived, ← List.append_assoc, List.map_append]
  have hassoc : runLog.typed ++ waiting m.sys = (log.popped ++ buffered m.sys.driver.rx) ++
      m.sys.device.rxFifo.map (·.setWidth 8) := by
    rw [waiting, htyped, List.append_assoc]
  have hsub : (runLog.typed ++ waiting m.sys).Sublist (wire b log) := by
    rw [hwire, hassoc]
    exact hdelivers.sublist.append (List.Sublist.refl _)
  have hle : (log.popped ++ buffered m.sys.driver.rx).length ≤ (b.drained ++ log.received).length :=
    hdelivers.length_le
  have happend : ∀ l l' : List Byte, (l ++ l').length = l.length + l'.length :=
    fun _ _ => List.length_append
  have hlength : (runLog.typed ++ waiting m.sys).length + ((b.drained ++ log.received).length -
      (log.popped ++ buffered m.sys.driver.rx).length) = (wire b log).length := by
    rw [hassoc, hwire, happend (log.popped ++ buffered m.sys.driver.rx),
      happend ((b.drained ++ log.received).map _), List.length_map, List.length_map]
    omega
  have hall : (b.drained ++ log.received).length -
      (log.popped ++ buffered m.sys.driver.rx).length = 0 →
        runLog.typed ++ waiting m.sys = wire b log := by
    intro hnone
    refine hsub.eq_of_length ?_
    omega
  refine ⟨hactions, hsub, _, hdelivers.overflows, hlength, hall, fun hnone hempty => ?_⟩
  have hsame := hall hnone
  rw [hempty, List.append_nil] at hsame
  rw [hactions, hsame]

/-- A run of the devices and the handler is one of the machine. -/
theorem run_machine {p q : System × Log} {l : List Event} (h : (loggedSystem b).Run p l q)
    (hl : Event.access ∉ l) (r : RunState) (runLog : RunLog) :
    (loggedMachine b).Run (⟨p.1, r⟩, p.2, runLog) (l.map MachineEvent.interrupts)
      (⟨q.1, r⟩, q.2, runLog) := by
  induction h with
  | nil => exact Lts.Run.nil
  | @cons p q _ e l hstep _ ih =>
      rw [List.mem_cons, not_or] at hl
      refine Lts.Run.cons (t := (⟨q.1, r⟩, q.2, runLog)) ⟨?_, ?_⟩ (ih hl.2)
      · exact MachineStep.interrupts (Ne.symm hl.1) hstep.1
      · exact congrArg (·, runLog) hstep.2

/-- The shell at its first prompt. -/
def promptShell : RunState :=
  { Shell.bootShell with
    console := ⟨Console.History.boot,
      .reading ⟨0 :: List.replicate 79 7, 80, 0, List.replicate 80 0, 0, .normal⟩⟩ }

/-- The letter `a` has come in, was handled and popped, and is typed: the session is that of the letter. -/
theorem wire_to_session_letter : ∃ m log runLog,
    (loggedMachine shortTicks).Reachable (m, log, runLog) ∧ log.arrived = [0x61] ∧
      runLog.typed = [0x61] ∧
      runLog.actions ++ due m.shell.console.status = (session [0x61]).actions := by
  have hboot : (loggedMachine shortTicks).Reachable
      (⟨bootSystem shortTicks, Shell.bootShell⟩, ⟨[], [], [], [], 0, []⟩, ⟨[], []⟩) :=
    Lts.Reachable.init ⟨⟨booted_bootSystem shortTicks, rfl, rfl, rfl⟩, rfl⟩
  have hletter := hboot.run (run_machine run_letterSystem (by simp) Shell.bootShell ⟨[], []⟩)
  have hshell : shellRun.step Shell.bootShell
      (.prompt (List.replicate 80 0), [Shell.puts "mini-os> "]) promptShell :=
    ⟨⟨rfl, rfl⟩, rfl, by decide⟩
  have hprompt := hletter.step (t := ((⟨letterSystem, promptShell⟩ : Machine), _, _))
    (e := MachineEvent.shell (.prompt (List.replicate 80 0)) [Shell.puts "mini-os> "])
    ⟨MachineStep.shell rfl (by simp) hshell, rfl⟩
  -- the four accesses of `rx_buffer_pop`, of which the last one returns the letter
  have htail := hprompt.step (t := ((⟨_, promptShell⟩ : Machine), _, _)) (e := MachineEvent.getc)
    ⟨MachineStep.access ⟨_, rfl⟩ (Step.access rfl) rfl, rfl⟩
  have hhead := htail.step (t := ((⟨_, promptShell⟩ : Machine), _, _)) (e := MachineEvent.getc)
    ⟨MachineStep.access ⟨_, rfl⟩ (Step.access rfl) rfl, rfl⟩
  have hbyte := hhead.step (t := ((⟨_, promptShell⟩ : Machine), _, _)) (e := MachineEvent.getc)
    ⟨MachineStep.access ⟨_, rfl⟩ (Step.access rfl) rfl, rfl⟩
  have htyped := hbyte.step (t := ((⟨_, _⟩ : Machine), _, _)) (e := MachineEvent.getc)
    ⟨MachineStep.byte (c := 0x61) ⟨_, rfl⟩ (Step.access rfl) rfl rfl, rfl⟩
  obtain ⟨-, -, dropped, -, hlength, -, hall⟩ := wire_to_session htyped
  have hone : 1 + dropped = 1 := hlength
  exact ⟨_, _, _, htyped, rfl, rfl, hall (by omega) rfl⟩

end Irq

end MiniOs
