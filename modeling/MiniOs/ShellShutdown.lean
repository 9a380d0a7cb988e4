/-
**Turning the machine off (`shutdown` and `reboot` in `src/shell.c`).**

`platform_shutdown` and `platform_reboot` end the kernel at once, and with it what is still in the FIFO
of the UART.  The branches of the two commands wait with `uart_flush` first.  Here it is shown that this
is enough: wherever on a line the call is made, all that the kernel has printed since it was started is
on the wire by then, and the call is made in the end.

Main definitions:

* `Shell.callOps` — what a call of the shell sends.

Main results:

* `Shell.before_of_ends` — what is called before the machine is turned off;
* `Shell.shutdown_flushes` — **nothing that was printed is lost when the machine is turned off**.
-/

import Mathlib.Data.List.Basic
import MiniOs.ShellCommands
import MiniOs.UartTransmit

set_option relaxedAutoImplicit false
set_option autoImplicit false

namespace MiniOs

namespace Shell

open Uart (Op Pace Sender putsOps sendStep sentBytes)

/-- What a call sends.  The functions that are not looked into are not called before the machine is
turned off. -/
def callOps : Call → List Op
  | .uartPuts text => putsOps text
  | .uartFlush => [.flush]
  | _ => []

/-- A call that ends the kernel. -/
def Call.Ends (call : Call) : Prop := call = .platformShutdown ∨ call = .platformReboot

variable {words : Except (WordSplit.Error Byte) (List (List Byte))} {before after : List Call}
  {call : Call} {depth n : ℕ} {env : ℕ → Pace} {s t : Sender}

/-- **What is called before the machine is turned off**: a message and a flush. -/
theorem before_of_ends (hcall : call.Ends) (hcalls : callsOf words = before ++ call :: after) :
    ∃ message, before = [.uartPuts message, .uartFlush] := by
  have hmem : call ∈ callsOf words := by
    rw [hcalls]
    exact List.mem_append_right _ List.mem_cons_self
  rcases hcall with rfl | rfl
  · have hline : callsOf words = [puts "Shutting down...\n", .uartFlush] ++
        Call.platformShutdown :: [puts "Shutdown failed.\n"] := by
      rw [(mem_callsOf rfl).1 hmem]
      rfl
    rw [hcalls, eq_comm, List.append_cons_inj_of_notMem (by simp [puts]) (by simp [puts])] at hline
    exact ⟨_, hline.1.symm⟩
  · have hline : callsOf words = [puts "Rebooting...\n", .uartFlush] ++
        Call.platformReboot :: [puts "Reboot failed.\n"] := by
      rw [(mem_callsOf rfl).1 hmem]
      rfl
    rw [hcalls, eq_comm, List.append_cons_inj_of_notMem (by simp [puts]) (by simp [puts])] at hline
    exact ⟨_, hline.1.symm⟩

/-- **Nothing that was printed is lost when the machine is turned off.**  Let the kernel print anything,
and then execute a line on which `platform_shutdown` or `platform_reboot` is called.  At whatever pace
the UART goes on, as long as it does, the call is made; and when it is made, all that was printed, from
the start up to the message of the command, is on the wire. -/
theorem shutdown_flushes (hcall : call.Ends) (hcalls : callsOf words = before ++ call :: after)
    (hdepth : 0 < depth) (hfair : Driven.Fair (fun p : Pace => 0 < p.advances) env)
    (printed : List Op) (htodo : s.todo = printed ++ before.flatMap callOps)
    (hchecked : s.checked = false) :
    (∃ n t, Driven.run (sendStep depth) env n s = some t ∧ t.todo = []) ∧
    ∀ n t, Driven.run (sendStep depth) env n s = some t → t.todo = [] →
      t.device.wire = s.device.taken ++ sentBytes printed ++ sentBytes (before.flatMap callOps) ∧
        t.device.Idle := by
  refine ⟨Uart.completes hdepth hfair s, fun n t hrun hdone => ?_⟩
  obtain ⟨message, rfl⟩ := before_of_ends hcall hcalls
  obtain ⟨done, hsent⟩ := Uart.run_sent hrun hchecked
  have hscript : s.todo = (printed ++ putsOps message) ++ [.flush] := by
    rw [htodo, List.append_assoc]
    rfl
  obtain ⟨hwire, hidle⟩ := hsent.ended hdone hscript
  refine ⟨?_, hidle⟩
  rw [hwire, htodo, Uart.sentBytes_append, List.append_assoc]

/-- The calls of the command `shutdown` up to the one that ends the kernel. -/
def farewell : List Call := [puts "Shutting down...\n", .uartFlush]

/-- The command `shutdown` gets to its call. -/
theorem shutdown_flushes_farewell : ∃ n t, Driven.run (sendStep 16) Uart.steady n
    ⟨⟨[], none, []⟩, farewell.flatMap callOps, false⟩ = some t ∧ t.todo = [] := by
  have hcalls : callsOf (.ok [bytes "shutdown"]) =
      farewell ++ .platformShutdown :: [puts "Shutdown failed.\n"] := rfl
  exact (shutdown_flushes (Or.inl rfl) hcalls (by decide) Uart.fair_steady [] rfl rfl).1

end Shell

end MiniOs
