/-
**What a typed command prints (`command_echo`, `command_sleep` in `src/shell.c`).**

Two of the commands work with their arguments.  What they do is made of characters that are sent and of
calls of `timer_sleep_ticks`, and the user sees it between the echo of his line and the next prompt.
The local variables that these functions do not initialise are parameters.

Main definitions:

* `Shell.commandEcho`, `Shell.commandSleep` — the two functions;
* `Shell.effectsOf` — what comes of a list of actions.

Main results:

* `Shell.commandEcho_eq`, `Shell.commandSleep_accepted`, `Shell.commandSleep_refused` — what the
  functions do, told from the words;
* `Shell.typed_echo_prints` — **`echo` prints the strings that were typed**;
* `Shell.typed_sleep_sleeps` — **`sleep` sleeps for just the seconds that were typed**.
-/

import MiniOs.Decimal
import MiniOs.ShellTyping
import MiniOs.SleepTicks

set_option relaxedAutoImplicit false
set_option autoImplicit false

namespace MiniOs

namespace Shell

open CString
open Console (Printable space newline carriageReturn)
open Decimal (Numeral decimalValue decimalString withoutLeadingZeros parseUint64 uartPutUint64
  wrapping)
open SleepTicks (sleepMaxSeconds)
open Timer (timerTicksPerSecond)

/-! ### Effects -/

/-- What a command function does. -/
inductive Effect
  | send (text : List Byte)
  | timerSleepTicks (durationTicks : Word)
  deriving DecidableEq

/-- The characters that are sent. -/
def shown (effects : List Effect) : List Byte :=
  effects.flatMap fun e => match e with
    | .send text => text
    | .timerSleepTicks _ => []

/-- The durations of the calls of `timer_sleep_ticks`. -/
def slept (effects : List Effect) : List Word :=
  effects.filterMap fun e => match e with
    | .send _ => none
    | .timerSleepTicks durationTicks => some durationTicks

theorem shown_append (l m : List Effect) : shown (l ++ m) = shown l ++ shown m :=
  List.flatMap_append

theorem slept_append (l m : List Effect) : slept (l ++ m) = slept l ++ slept m :=
  List.filterMap_append

/-- `uart_puts` of a text. -/
def sendPuts (text : List Byte) : Effect := .send (Console.uartPuts text)

/-! ### The two commands -/

/-- The loop of `command_echo`, for some rounds from `index` on. -/
def echoFrom (arguments : List (List Byte)) : ℕ → ℕ → Option (List Byte)
  | 0, _ => some []
  | rounds + 1, index => do
      let text ← arguments[index]?
      let rest ← echoFrom arguments rounds (index + 1)
      return (if index ≠ 1 then [space] else []) ++ Console.uartPuts text ++ rest

/-- Model of `command_echo`. -/
def commandEcho (arguments : List (List Byte)) : Option (List Byte) := do
  let text ← echoFrom arguments (arguments.length - 1) 1
  return text ++ Console.uartPuts [newline]

/-- What a call of `uart_puts` in `require_argument_count` sends. -/
def usageEffects : Call → List Effect
  | .uartPuts text => [sendPuts text]
  | _ => []

/-- Model of `command_sleep`; `digits` and `seconds` stand for what its variables hold first. -/
def commandSleep (digits : Vector Byte 20) (seconds : Word) (arguments : List (List Byte)) :
    Option (List Effect) :=
  let (proceed, usage) := requireArgumentCount arguments.length 2 "sleep <seconds>"
  if proceed then do
    let text ← arguments[1]?
    let (parsed, seconds) ← parseUint64 wrapping (text ++ [0]) seconds
    if parsed = false ∨ sleepMaxSeconds < seconds then
      let maximum ← uartPutUint64 digits sleepMaxSeconds
      return [sendPuts (bytes "sleep: seconds must be an integer from 0 to "), .send maximum,
        sendPuts (bytes "\n")]
    else
      let number ← uartPutUint64 digits seconds
      return [sendPuts (bytes "Sleeping for "), .send number,
        sendPuts (bytes (if seconds = 1#64 then " second...\n" else " seconds...\n")),
        .timerSleepTicks (seconds * timerTicksPerSecond), sendPuts (bytes "Done.\n")]
  else some (usage.flatMap usageEffects)

section Effects

variable (digits : Vector Byte 20) (seconds : Word)

/-- What a call does.  The functions that are not looked into have no effects here. -/
def callEffects : Call → Option (List Effect)
  | .uartPuts text => some [sendPuts text]
  | .commandEcho arguments => (commandEcho arguments).map fun text => [.send text]
  | .commandSleep arguments => commandSleep digits seconds arguments
  | _ => none

/-- What an action does. -/
def actionEffects : Action → Option (List Effect)
  | .call call => callEffects digits seconds call
  | .echo output => some [.send output]

/-- What comes of some actions. -/
def effectsOf : List Action → Option (List Effect)
  | [] => some []
  | action :: actions => do
      let effects ← actionEffects digits seconds action
      let rest ← effectsOf actions
      return effects ++ rest

variable {digits seconds}

theorem effectsOf_append {l m : List Action} {e e' : List Effect}
    (hl : effectsOf digits seconds l = some e) (hm : effectsOf digits seconds m = some e') :
    effectsOf digits seconds (l ++ m) = some (e ++ e') := by
  induction l generalizing e with
  | nil =>
      obtain rfl := Option.some_inj.1 hl
      exact hm
  | cons a l ih =>
      simp only [effectsOf, Option.bind_eq_bind, Option.bind_eq_some_iff, Option.pure_def] at hl
      obtain ⟨e₁, ha, e₂, hrest, he⟩ := hl
      obtain rfl := Option.some_inj.1 he
      rw [List.cons_append, effectsOf, ha, ih hrest, List.append_assoc]
      rfl

theorem effectsOf_call {call : Call} {effects : List Effect}
    (h : callEffects digits seconds call = some effects) :
    effectsOf digits seconds [.call call] = some effects := by
  rw [effectsOf, actionEffects, h]
  exact congrArg some (List.append_nil effects)

theorem effectsOf_echoes (text : List Byte) :
    effectsOf digits seconds (echoes text) = some (text.map fun c => Effect.send [c]) := by
  induction text with
  | nil => rfl
  | cons c text ih =>
      rw [echoes, List.map_cons, effectsOf, ← echoes, ih]
      rfl

end Effects

theorem shown_cons (text : List Byte) (l : List Effect) :
    shown (.send text :: l) = text ++ shown l := List.flatMap_cons

theorem shown_send (text : List Byte) : shown [.send text] = text := List.append_nil text

theorem shown_map_send (text : List Byte) : shown (text.map fun c => Effect.send [c]) = text := by
  rw [shown, List.flatMap_map]
  exact List.flatMap_singleton' text

theorem slept_map_send (text : List Byte) : slept (text.map fun c => Effect.send [c]) = [] := by
  rw [slept, List.filterMap_map]
  exact List.filterMap_eq_nil_iff.2 fun _ _ => rfl

/-! ### What they do, told from the words -/

/-- A text without a newline is sent as it is. -/
theorem uartPuts_of_printable {text : List Byte} (h : Printable text) :
    Console.uartPuts text = text := by
  induction text with
  | nil => rfl
  | cons c text ih =>
      have hc : c ≠ newline := by
        rintro rfl
        exact absurd (h newline List.mem_cons_self) (by decide)
      rw [Console.uartPuts, List.flatMap_cons, if_neg hc, ← Console.uartPuts,
        ih fun d hd => h d (List.mem_cons_of_mem c hd)]
      rfl

theorem intercalate_cons (a : Byte) (w : List Byte) (ws : List (List Byte)) :
    [a].intercalate (w :: ws) = w ++ ws.flatMap (a :: ·) := by
  induction ws generalizing w with
  | nil => rw [List.intercalate_singleton, List.flatMap_nil, List.append_nil]
  | cons v ws ih =>
      rw [List.intercalate_cons_cons, ih, List.flatMap_cons, List.append_assoc]
      rfl

/-- After the first argument a space goes before each. -/
theorem echoFrom_rest (before : List (List Byte)) {words : List (List Byte)} (hbefore : 2 ≤ before.length)
    (hwords : ∀ w ∈ words, Printable w) :
    echoFrom (before ++ words) words.length before.length = some (words.flatMap (space :: ·)) := by
  induction words generalizing before with
  | nil => rfl
  | cons w words ih =>
      have hne : before.length ≠ 1 := by omega
      have hnext := ih (before ++ [w]) (by rw [List.length_append]; omega)
        fun v hv => hwords v (List.mem_cons_of_mem w hv)
      rw [List.append_assoc, List.length_append, List.singleton_append,
        List.length_singleton] at hnext
      have hget : (before ++ w :: words)[before.length]? = some w := by
        rw [List.getElem?_append_right (Nat.le_refl _), Nat.sub_self, List.getElem?_cons_zero]
      have hw : Console.uartPuts w = w := uartPuts_of_printable (hwords w List.mem_cons_self)
      rw [List.length_cons, echoFrom, hget, hnext, if_pos hne, Option.bind_eq_bind,
        Option.bind_some, hw]
      rfl

/-- **`command_echo` sends its arguments with a space between each two.** -/
theorem commandEcho_eq (command : List Byte) {words : List (List Byte)}
    (hwords : ∀ w ∈ words, Printable w) : commandEcho (command :: words) =
      some ([space].intercalate words ++ Console.uartPuts [newline]) := by
  cases words with
  | nil => rfl
  | cons w words =>
      have hrest : echoFrom (command :: w :: words) words.length 2 =
          some (words.flatMap (space :: ·)) :=
        echoFrom_rest [command, w] (Nat.le_refl 2)
          fun v hv => hwords v (List.mem_cons_of_mem w hv)
      have hw : Console.uartPuts w = w := uartPuts_of_printable (hwords w List.mem_cons_self)
      have hloop : echoFrom (command :: w :: words) (words.length + 1) 1 =
          some (w ++ words.flatMap (space :: ·)) := by
        rw [echoFrom, hrest, List.getElem?_cons_succ, List.getElem?_cons_zero,
          if_neg fun h => h rfl, Option.bind_eq_bind, Option.bind_some, hw]
        rfl
      have hcount : (command :: w :: words).length - 1 = words.length + 1 := rfl
      rw [commandEcho, hcount, hloop, intercalate_cons]
      rfl

/-- The numbers of seconds that are accepted. -/
def Accepted (text : List Byte) : Prop :=
  Numeral text ∧ decimalValue text ≤ sleepMaxSeconds.toNat

/-- What `command_sleep` does for a number it accepts. -/
def sleepEffects (text : List Byte) : List Effect :=
  [sendPuts (bytes "Sleeping for "), .send (withoutLeadingZeros text),
    sendPuts (bytes (if decimalValue text = 1 then " second...\n" else " seconds...\n")),
    .timerSleepTicks (BitVec.ofNat 64 (100 * decimalValue text)), sendPuts (bytes "Done.\n")]

theorem uartPuts_second (n : ℕ) :
    Console.uartPuts (bytes (if n = 1 then " second...\n" else " seconds...\n")) =
      bytes (if n = 1 then " second..." else " seconds...") ++ [carriageReturn, newline] := by
  by_cases hone : n = 1
  · rw [if_pos hone, if_pos hone]
    rfl
  · rw [if_neg hone, if_neg hone]
    rfl

section Sleep

variable (digits : Vector Byte 20) (seconds : Word) (command : List Byte) {text : List Byte}

theorem stringAt_zero (h : (0 : Byte) ∉ text) : StringAt (text ++ [0]) 0 text :=
  ⟨h, List.prefix_refl _⟩

theorem sleep_argument (text : List Byte) :
    commandSleep digits seconds [command, text] =
      (parseUint64 wrapping (text ++ [0]) seconds).bind fun p =>
        if p.1 = false ∨ sleepMaxSeconds < p.2 then
          (uartPutUint64 digits sleepMaxSeconds).bind fun maximum =>
            some [sendPuts (bytes "sleep: seconds must be an integer from 0 to "), .send maximum,
              sendPuts (bytes "\n")]
        else
          (uartPutUint64 digits p.2).bind fun number =>
            some [sendPuts (bytes "Sleeping for "), .send number,
              sendPuts (bytes (if p.2 = 1#64 then " second...\n" else " seconds...\n")),
              .timerSleepTicks (p.2 * timerTicksPerSecond), sendPuts (bytes "Done.\n")] := rfl

/-- **For a number of seconds it sleeps a hundred ticks a second.** -/
theorem commandSleep_accepted (hzero : (0 : Byte) ∉ text) (h : Accepted text) :
    commandSleep digits seconds [command, text] = some (sleepEffects text) := by
  obtain ⟨hnumeral, hle⟩ := h
  have hmax : sleepMaxSeconds.toNat = 86400 := rfl
  have hvalue : (BitVec.ofNat 64 (decimalValue text)).toNat = decimalValue text := by
    rw [BitVec.toNat_ofNat]
    omega
  have hguard : ¬(true = false ∨ sleepMaxSeconds < BitVec.ofNat 64 (decimalValue text)) := by
    rw [BitVec.lt_def, hvalue]
    rintro (h | h)
    · exact Bool.noConfusion h
    · exact absurd h (Nat.not_lt.2 hle)
  have hone : BitVec.ofNat 64 (decimalValue text) = 1#64 ↔ decimalValue text = 1 := by
    rw [← BitVec.toNat_inj, hvalue]
    rfl
  have hticks : BitVec.ofNat 64 (decimalValue text) * timerTicksPerSecond =
      BitVec.ofNat 64 (100 * decimalValue text) := by
    rw [Nat.mul_comm, BitVec.ofNat_mul]
    rfl
  rw [sleep_argument, Decimal.parseUint64_of_numeral Decimal.wrapping_exact seconds
    (stringAt_zero hzero) hnumeral, Option.bind_some, if_neg hguard, Decimal.uartPutUint64_eq,
    Option.bind_some, hvalue, Decimal.decimalString_decimalValue hnumeral.2.1, hticks]
  simp only [hone]
  rfl

/-- For anything else it prints something and does not sleep. -/
theorem commandSleep_refused {words : List (List Byte)} (hzero : ∀ w ∈ words, (0 : Byte) ∉ w)
    (h : ∀ text, words = [text] → ¬Accepted text) :
    ∃ effects, commandSleep digits seconds (command :: words) = some effects ∧
      slept effects = [] := by
  match words, hzero, h with
  | [], _, _ => exact ⟨_, rfl, rfl⟩
  | _ :: _ :: _, _, _ => exact ⟨_, rfl, rfl⟩
  | [text], hzero, h =>
      have hstring := stringAt_zero (hzero text List.mem_cons_self)
      have hrefused := h text rfl
      rw [sleep_argument]
      by_cases hnumeral : Numeral text
      · have hover : ¬decimalValue text ≤ sleepMaxSeconds.toNat := fun hle =>
          hrefused ⟨hnumeral, hle⟩
        have hguard : true = false ∨ sleepMaxSeconds < BitVec.ofNat 64 (decimalValue text) := by
          right
          rw [BitVec.lt_def, BitVec.toNat_ofNat, Nat.mod_eq_of_lt hnumeral.2.2]
          exact Nat.not_le.1 hover
        rw [Decimal.parseUint64_of_numeral Decimal.wrapping_exact seconds hstring hnumeral,
          Option.bind_some, if_pos hguard, Decimal.uartPutUint64_eq]
        exact ⟨_, rfl, rfl⟩
      · rw [Decimal.parseUint64_of_not_numeral Decimal.wrapping_exact seconds hstring hnumeral,
          Option.bind_some, if_pos (Or.inl rfl), Decimal.uartPutUint64_eq]
        exact ⟨_, rfl, rfl⟩

end Sleep

/-! ### What the user sees -/

theorem commandCalls_echo (words : List (List Byte)) :
    commandCalls (bytes "echo" :: words) = [.commandEcho (bytes "echo" :: words)] := rfl

theorem commandCalls_sleep (words : List (List Byte)) :
    commandCalls (bytes "sleep" :: words) = [.commandSleep (bytes "sleep" :: words)] := rfl

section Typed

variable {digits : Vector Byte 20} {seconds : Word} {s : RunState} {log : RunLog}
  {input : List Byte} {trail : ℕ} {items : List (ℕ × Quoting × List Byte)}
  {words : List (List Byte)}

/-- What a typed command does stands between the echo of its line and the next prompt. -/
theorem typed_effects (h : loggedShell.Reachable (s, log))
    (hempty : EmptyLine (session input).editor) (hkeyed : Keyed items) (hmax : items.length ≤ 8)
    (hroom : (typedLine trail items).length ≤ lineRoom)
    (htyped : log.typed = input ++ enteredLine (typedLine trail items))
    {call : Call} {effects : List Effect}
    (hcalls : commandCalls (items.map (·.2.2)) = [call])
    (hcall : callEffects digits seconds call = some effects) :
    ∃ actions echoed, log.actions ++ due s.console.status = (session input).actions ++ actions ∧
      effectsOf digits seconds actions =
        some (echoed ++ effects ++ [sendPuts (bytes "mini-os> ")]) ∧
      slept echoed = [] ∧
      shown echoed = typedLine trail items ++ [carriageReturn, newline] := by
  have hsession := session_command hempty hkeyed hmax hroom
  rw [← htyped, hcalls] at hsession
  have hactions := (reachable_sessionInv h).actions
  rw [hsession, List.append_assoc] at hactions
  refine ⟨_, (typedLine trail items).map (fun c => Effect.send [c]) ++
    [sendPuts [newline]], hactions, ?_, ?_, ?_⟩
  · rw [List.append_assoc, List.append_assoc]
    refine effectsOf_append (effectsOf_echoes _) ?_
    exact effectsOf_append (l := [.echo (Console.uartPuts [newline])]) rfl
      (effectsOf_append (l := [.call call]) (effectsOf_call hcall) rfl)
  · rw [slept_append, slept_map_send]
    rfl
  · rw [shown_append, shown_map_send]
    rfl

/-- **`echo` prints the strings that were typed**, each in any of the three ways, with a space between
each two, on a line of its own before the next prompt. -/
theorem typed_echo_prints (digits : Vector Byte 20) (seconds : Word)
    (h : loggedShell.Reachable (s, log))
    (hempty : EmptyLine (session input).editor) (hkeyed : Keyed items) (hmax : items.length ≤ 8)
    (hroom : (typedLine trail items).length ≤ lineRoom)
    (htyped : log.typed = input ++ enteredLine (typedLine trail items))
    (hwords : items.map (·.2.2) = bytes "echo" :: words) :
    ∃ actions effects, log.actions ++ due s.console.status = (session input).actions ++ actions ∧
      effectsOf digits seconds actions = some effects ∧ slept effects = [] ∧
      shown effects = typedLine trail items ++ [carriageReturn, newline] ++
        ([space].intercalate words ++ [carriageReturn, newline]) ++ bytes "mini-os> " := by
  have hprintable : ∀ w ∈ words, Printable w := by
    intro w hw
    have hmem : w ∈ items.map (·.2.2) := hwords ▸ List.mem_cons_of_mem _ hw
    obtain ⟨item, hitem, rfl⟩ := List.mem_map.1 hmem
    exact hkeyed.printable item hitem
  have hcalls := commandCalls_echo words
  have hcall : callEffects digits seconds (.commandEcho (bytes "echo" :: words)) =
      some [.send ([space].intercalate words ++ Console.uartPuts [newline])] := by
    rw [callEffects, commandEcho_eq (bytes "echo") hprintable]
    rfl
  rw [← hwords] at hcalls
  obtain ⟨actions, echoed, hactions, heffects, hslept, hshown⟩ :=
    typed_effects h hempty hkeyed hmax hroom htyped hcalls (hwords ▸ hcall)
  refine ⟨actions, _, hactions, heffects, ?_, ?_⟩
  · rw [slept_append, slept_append, hslept]
    rfl
  · rw [shown_append, shown_append, hshown, shown_send, sendPuts, shown_send]
    rfl

/-- The line `echo 'a b'`, when it was typed first. -/
theorem typed_echo_prints_spaced : ∃ s log effects, loggedShell.Reachable (s, log) ∧
    effectsOf (Vector.replicate 20 0) 0 (log.actions ++ due s.console.status) =
      some (sendPuts (bytes "mini-os> ") :: effects) ∧
    shown effects = typedLine 0 echoItems ++ [carriageReturn, newline] ++
      (bytes "a b" ++ [carriageReturn, newline]) ++ bytes "mini-os> " := by
  obtain ⟨s, log, hreach, htyped⟩ := exists_typed echoItems_return
  have hroom : (typedLine 0 echoItems).length ≤ lineRoom := by decide
  have hempty : EmptyLine (session []).editor := ⟨rfl, rfl⟩
  have hwords : echoItems.map (·.2.2) = bytes "echo" :: [bytes "a b"] := rfl
  obtain ⟨actions, effects, hactions, heffects, -, hshown⟩ :=
    typed_echo_prints (Vector.replicate 20 0) 0 hreach hempty keyed_echoItems (by decide) hroom htyped
      hwords
  refine ⟨s, log, effects, hreach, ?_, hshown⟩
  rw [hactions]
  exact effectsOf_append (l := (session []).actions) rfl heffects

/-- **`sleep` sleeps for just the seconds that were typed**: on a line of at most eight strings of which
`sleep` is the first, a hundred ticks for each second when one string comes after it that is a number up
to 86400, between two messages of which the first one repeats the number, and not at all when anything
else comes after it. -/
theorem typed_sleep_sleeps (digits : Vector Byte 20) (seconds : Word)
    (h : loggedShell.Reachable (s, log))
    (hempty : EmptyLine (session input).editor) (hkeyed : Keyed items) (hmax : items.length ≤ 8)
    (hroom : (typedLine trail items).length ≤ lineRoom)
    (htyped : log.typed = input ++ enteredLine (typedLine trail items))
    (hwords : items.map (·.2.2) = bytes "sleep" :: words) :
    ∃ actions effects, log.actions ++ due s.console.status = (session input).actions ++ actions ∧
      effectsOf digits seconds actions = some effects ∧
      (∀ text, words = [text] → Accepted text → ∃ before after,
        effects = before ++
          .timerSleepTicks (BitVec.ofNat 64 (100 * decimalValue text)) :: after ∧
        slept before = [] ∧ slept after = [] ∧
        shown before = typedLine trail items ++ [carriageReturn, newline] ++
          (bytes "Sleeping for " ++ withoutLeadingZeros text ++
            (bytes (if decimalValue text = 1 then " second..." else " seconds...") ++
              [carriageReturn, newline])) ∧
        shown after = bytes "Done." ++ [carriageReturn, newline] ++ bytes "mini-os> ") ∧
      ((∀ text, words = [text] → ¬Accepted text) → slept effects = []) := by
  have hzero : ∀ w ∈ words, (0 : Byte) ∉ w := by
    intro w hw
    have hmem : w ∈ items.map (·.2.2) := hwords ▸ List.mem_cons_of_mem _ hw
    obtain ⟨item, hitem, rfl⟩ := List.mem_map.1 hmem
    exact (hkeyed.typable item hitem).1
  have hcalls := commandCalls_sleep words
  rw [← hwords] at hcalls
  by_cases haccepted : ∃ text, words = [text] ∧ Accepted text
  · obtain ⟨text, rfl, haccepted⟩ := haccepted
    have hcall := commandSleep_accepted digits seconds (bytes "sleep")
      (hzero text List.mem_cons_self) haccepted
    rw [← hwords] at hcall
    obtain ⟨actions, echoed, hactions, heffects, hslept, hshown⟩ :=
      typed_effects h hempty hkeyed hmax hroom htyped hcalls hcall
    refine ⟨actions, _, hactions, heffects, fun text' htext' _ => ?_, fun hrefused =>
      absurd haccepted (hrefused text rfl)⟩
    obtain ⟨rfl, -⟩ := List.cons.inj htext'
    refine ⟨echoed ++ [sendPuts (bytes "Sleeping for "), .send (withoutLeadingZeros text),
      sendPuts (bytes (if decimalValue text = 1 then " second...\n" else " seconds...\n"))],
      [sendPuts (bytes "Done.\n"), sendPuts (bytes "mini-os> ")], ?_, ?_, rfl, ?_, rfl⟩
    · rw [sleepEffects, List.append_assoc, List.append_assoc]
      rfl
    · rw [slept_append, hslept]
      rfl
    · have hfirst : Console.uartPuts (bytes "Sleeping for ") = bytes "Sleeping for " := rfl
      rw [shown_append, hshown, sendPuts, hfirst, sendPuts, uartPuts_second, shown_cons, shown_cons,
        shown_send, List.append_assoc (bytes "Sleeping for ")]
  · have hrefused : ∀ text, words = [text] → ¬Accepted text := fun text htext hacc =>
      haccepted ⟨text, htext, hacc⟩
    obtain ⟨effects, hcall, hnone⟩ :=
      commandSleep_refused digits seconds (bytes "sleep") hzero hrefused
    rw [← hwords] at hcall
    obtain ⟨actions, echoed, hactions, heffects, hslept, hshown⟩ :=
      typed_effects h hempty hkeyed hmax hroom htyped hcalls hcall
    refine ⟨actions, _, hactions, heffects, fun text htext hacc =>
      absurd hacc (hrefused text htext), fun _ => ?_⟩
    rw [slept_append, slept_append, hslept, hnone]
    rfl

/-- The words `sleep` and `007`. -/
def sleepItems : List (ℕ × Quoting × List Byte) :=
  [(0, .unquoted, bytes "sleep"), (1, .unquoted, bytes "007")]

theorem keyed_sleepItems : Keyed sleepItems where
  printable := by
    intro item hitem
    rcases List.mem_cons.1 hitem with rfl | hitem
    · exact fun c hc => by revert c; decide
    · rw [List.mem_singleton.1 hitem]
      exact fun c hc => by revert c; decide
  nonempty := by
    intro item hitem
    rcases List.mem_cons.1 hitem with rfl | hitem
    · decide
    · rw [List.mem_singleton.1 hitem]
      decide
  gaps := by decide

/-- The line `sleep 007`, when it was typed first, makes the kernel sleep for 700 ticks. -/
theorem typed_sleep_sleeps_seven : ∃ s log effects, loggedShell.Reachable (s, log) ∧
    effectsOf (Vector.replicate 20 0) 0 (log.actions ++ due s.console.status) =
      some (sendPuts (bytes "mini-os> ") :: effects) ∧ slept effects = [700#64] := by
  have hreturns : ∀ a ∈ (session (enteredLine (typedLine 0 sleepItems))).actions, a.Returns := by
    decide
  obtain ⟨s, log, hreach, htyped⟩ := exists_typed hreturns
  have hroom : (typedLine 0 sleepItems).length ≤ lineRoom := by decide
  have hempty : EmptyLine (session []).editor := ⟨rfl, rfl⟩
  have haccepted : Accepted (bytes "007") :=
    ⟨⟨by decide, fun c hc => by revert c; decide, by decide⟩, by decide⟩
  have hwords : sleepItems.map (·.2.2) = bytes "sleep" :: [bytes "007"] := rfl
  obtain ⟨actions, effects, hactions, heffects, hsleeps, -⟩ :=
    typed_sleep_sleeps (Vector.replicate 20 0) 0 hreach hempty keyed_sleepItems (by decide) hroom
      htyped hwords
  obtain ⟨before, after, hsplit, hbefore, hafter, -⟩ := hsleeps _ rfl haccepted
  refine ⟨s, log, effects, hreach, ?_, ?_⟩
  · rw [hactions]
    exact effectsOf_append (l := (session []).actions) rfl heffects
  · rw [hsplit, slept_append, hbefore]
    exact congrArg (700#64 :: ·) hafter

end Typed

end Shell

end MiniOs
