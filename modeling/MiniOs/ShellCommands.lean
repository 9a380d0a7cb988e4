/-
**The commands of the shell (`execute_command` in `src/shell.c`).**

A line that was parsed into words is a command and its arguments.  The chain of comparisons that
finds the command is a table here, in the order of the source, and each of its entries says what the
branch calls.  The branches that take no arguments count the words first.

What a command function does when it is called is not looked into.  `platform_shutdown`,
`platform_reboot` and `exception_trigger_test` are called in one place each, and that is a branch of
`execute_command`.

Main definitions:

* `Shell.Call`, `Shell.Branch`, `Shell.commandTable` — the calls, the branches and the table;
* `Shell.executeCommand`, `Shell.runLine` — **a command, and a line, with the array of the code**;
* `Shell.callsOf` — what a line calls, told from its words alone;
* `Shell.Call.Returns` — the calls from which the system comes back.

Main results:

* `Shell.findCommand_eq` — the chain finds the first entry whose name is the first word;
* `Shell.runLine_eq` — **what a line calls is told from its words**;
* `Shell.mem_callsOf` — a call that must not be made by mistake is made for one list of words.
-/

import Mathlib.Data.List.Forall2
import MiniOs.ConsoleHistory
import MiniOs.ShellTokenize

set_option relaxedAutoImplicit false
set_option autoImplicit false

namespace MiniOs

namespace Shell

open CString

/-! ### The calls -/

/-- The characters of a text. -/
def bytes (text : String) : List Byte := text.toList.map fun c => BitVec.ofNat 8 c.toNat

/-- What the shell calls.  A command function that is passed the arguments has them here. -/
inductive Call
  | uartPuts (text : List Byte)
  | uartFlush
  | commandHelp
  | commandEcho (arguments : List (List Byte))
  | commandSleep (arguments : List (List Byte))
  | commandMem
  | commandMemtest
  | commandMmu
  | commandTasks
  | commandTaskdemo (arguments : List (List Byte))
  | commandInfo
  | commandTicks
  | commandUptime
  | exceptionTriggerTest
  | platformShutdown
  | platformReboot
  deriving DecidableEq

/-- `uart_puts` of a string literal. -/
def puts (text : String) : Call := .uartPuts (bytes text)

/-- Model of `report_parse_error`. -/
def reportParseError : ParseResult → List Call
  | .ok => []
  | .tooManyArguments => [puts "Too many arguments (maximum 8 including command).\n"]
  | .unterminatedSingleQuote => [puts "Parse error: unterminated single quote.\n"]
  | .unterminatedDoubleQuote => [puts "Parse error: unterminated double quote.\n"]
  | .trailingBackslash => [puts "Parse error: trailing backslash.\n"]

/-- Model of `require_argument_count`: whether it returns 1, and what it calls. -/
def requireArgumentCount (actual expected : ℕ) (usage : String) : Bool × List Call :=
  if actual = expected then (true, []) else (false, [puts "Usage: ", puts usage, puts "\n"])

/-! ### The table -/

/-- A branch of `execute_command`: one that requires the command to stand alone, with what it calls
then, or one that passes the arguments on. -/
inductive Branch
  | alone (calls : List Call)
  | passes (call : List (List Byte) → Call)

/-- What a branch calls; the name of the command is its usage text, too. -/
def Branch.calls (name : String) (argumentCount : ℕ) (arguments : List (List Byte)) :
    Branch → List Call
  | .alone calls =>
      let (proceed, usage) := requireArgumentCount argumentCount 1 name
      if proceed then calls else usage
  | .passes call => [call arguments]

/-- The branches of `execute_command`, in order. -/
def commandTable : List (String × Branch) :=
  [("help", .alone [.commandHelp]),
    ("hello", .alone [puts "Hello!\n"]),
    ("echo", .passes .commandEcho),
    ("sleep", .passes .commandSleep),
    ("mem", .alone [.commandMem]),
    ("memtest", .alone [.commandMemtest]),
    ("mmu", .alone [.commandMmu]),
    ("tasks", .alone [.commandTasks]),
    ("taskdemo", .passes .commandTaskdemo),
    ("clear", .alone [puts "\x1b[2J\x1b[H"]),
    ("info", .alone [.commandInfo]),
    ("ticks", .alone [.commandTicks]),
    ("uptime", .alone [.commandUptime]),
    ("fault", .alone [puts "Triggering a BRK exception...\n", .exceptionTriggerTest]),
    ("shutdown", .alone [puts "Shutting down...\n", .uartFlush, .platformShutdown,
      puts "Shutdown failed.\n"]),
    ("reboot", .alone [puts "Rebooting...\n", .uartFlush, .platformReboot,
      puts "Reboot failed.\n"])]

/-- The last branch, for a command that is not in the table. -/
def unknownCommand (command : List Byte) : List Call :=
  [puts "Unknown command: ", .uartPuts command, puts "\nType 'help' to see available commands.\n"]

/-! ### A line in memory -/

/-- Model of `strings_equal`, of which the shell has a copy of its own. -/
def stringsEqual (left right : List Byte) : Option Bool := Console.stringsEqual left right

/-- Read a string up to its zero. -/
def stringFrom : List Byte → Option (List Byte)
  | [] => none
  | c :: rest => if c = 0 then some [] else (stringFrom rest).map (c :: ·)

/-- The line from where an argument points to; `none` for a null pointer. -/
def argumentAt (line : List Byte) (arguments : List (Option ℕ)) (i : ℕ) : Option (List Byte) := do
  let pointer ← arguments[i]?
  let start ← pointer
  return line.drop start

/-- The arguments that a command function is passed, as the strings it finds there. -/
def argumentStrings (line : List Byte) (arguments : List (Option ℕ)) (argumentCount : ℕ) :
    Option (List (List Byte)) :=
  (List.range argumentCount).mapM fun i => argumentAt line arguments i >>= stringFrom

/-- The chain of comparisons in `execute_command`. -/
def findCommand (command : List Byte) :
    List (String × Branch) → Option (Option (String × Branch))
  | [] => some none
  | entry :: table => do
      let same ← stringsEqual command (bytes entry.1 ++ [0])
      if same then return some entry else findCommand command table

/-- Model of `execute_command`: the calls it makes. -/
def executeCommand (line : List Byte) (argumentCount : ℕ) (arguments : List (Option ℕ)) :
    Option (List Call) := do
  let command ← argumentAt line arguments 0
  match ← findCommand command commandTable with
  | some (name, branch) =>
      let strings ← argumentStrings line arguments argumentCount
      return branch.calls name argumentCount strings
  | none =>
      let text ← stringFrom command
      return unknownCommand text

/-- What a pass through the loop of `shell_run` leaves in its variables, and what it has called. -/
structure Pass where
  command : List Byte
  arguments : List (Option ℕ)
  calls : List Call

/-- The body of the loop in `shell_run` after `console_readline` has returned. -/
def runLine (command : List Byte) (arguments : List (Option ℕ)) : Option Pass := do
  let p ← parseArguments (2 * command.length) command arguments
  match p.control with
  | .done .ok =>
      if p.argumentCount ≠ 0 then
        let calls ← executeCommand p.line p.argumentCount p.arguments
        return ⟨p.line, p.arguments, calls⟩
      else return ⟨p.line, p.arguments, []⟩
  | .done result => return ⟨p.line, p.arguments, reportParseError result⟩
  | _ => none

/-! ### The words alone -/

/-- What a command with its arguments calls, told from the words. -/
def commandCalls : List (List Byte) → List Call
  | [] => []
  | word :: words =>
      match commandTable.find? fun entry => word = bytes entry.1 with
      | some (name, branch) => branch.calls name (words.length + 1) (word :: words)
      | none => unknownCommand word

/-- **What a line calls**, told from what the tokenizer makes of it. -/
def callsOf : Except (WordSplit.Error Byte) (List (List Byte)) → List Call
  | .ok words => commandCalls words
  | .error e => reportParseError (resultCode (.error e))

/-! ### Strings in memory -/

variable {buffer line w : List Byte} {ws : List (List Byte)} {arguments : List (Option ℕ)}

theorem stringFrom_eq (h : StringAt buffer 0 w) : stringFrom buffer = some w := by
  induction w generalizing buffer with
  | nil =>
      obtain ⟨rest, rfl⟩ := stringAt_nil.1 h
      rw [stringFrom, if_pos rfl]
  | cons c w ih =>
      obtain ⟨rest, rfl, hc, hrest⟩ := stringAt_cons.1 h
      rw [stringFrom, if_neg hc, ih hrest]
      rfl

theorem mapM_eq_some {α β : Type} {f : α → Option β} {l : List α} {l' : List β}
    (h : List.Forall₂ (fun a b => f a = some b) l l') : l.mapM f = some l' := by
  induction h with
  | nil => rfl
  | cons hab _ ih =>
      rw [List.mapM_cons, hab, ih]
      rfl

/-- The arguments point to the words `ws`. -/
def PointsTo (line : List Byte) (arguments : List (Option ℕ)) (ws : List (List Byte)) : Prop :=
  ∀ i (hi : i < ws.length), ∃ command, argumentAt line arguments i = some command ∧
    StringAt command 0 ws[i]

theorem PointsTo.argumentStrings_eq (h : PointsTo line arguments ws) :
    argumentStrings line arguments ws.length = some ws := by
  refine mapM_eq_some (List.forall₂_iff_get.2 ⟨List.length_range, ?_⟩)
  intro i _ hi
  obtain ⟨command, hcommand, hstring⟩ := h i hi
  rw [List.get_eq_getElem, List.getElem_range, hcommand]
  exact stringFrom_eq hstring

/-! ### The chain of comparisons -/

/-- **The chain finds the first entry whose name is the command.** -/
theorem findCommand_eq (h : StringAt buffer 0 w) {table : List (String × Branch)}
    (hnames : ∀ entry ∈ table, (0 : Byte) ∉ bytes entry.1) :
    findCommand buffer table = some (table.find? fun entry => w = bytes entry.1) := by
  induction table with
  | nil => rfl
  | cons entry table ih =>
      rw [List.forall_mem_cons] at hnames
      have hsame : stringsEqual buffer (bytes entry.1 ++ [0]) =
          some (decide (w = bytes entry.1)) :=
        Console.stringsEqual_eq h ⟨hnames.1, List.prefix_refl _⟩
      rw [findCommand, hsame, Option.bind_eq_bind, Option.bind_some, ih hnames.2]
      by_cases hname : w = bytes entry.1
      · rw [if_pos (decide_eq_true hname), List.find?_cons_of_pos (by simpa using hname)]
        rfl
      · rw [if_neg (by simpa using hname), List.find?_cons_of_neg (by simpa using hname)]

theorem commandTable_names : ∀ entry ∈ commandTable, (0 : Byte) ∉ bytes entry.1 := by
  simp [commandTable, bytes]

/-- **A command with its arguments** calls what the words tell. -/
theorem PointsTo.executeCommand_eq (h : PointsTo line arguments ws) (hpos : 0 < ws.length) :
    executeCommand line ws.length arguments = some (commandCalls ws) := by
  obtain ⟨command, hcommand, hstring⟩ := h 0 hpos
  have hstrings := h.argumentStrings_eq
  obtain ⟨word, words, rfl⟩ := List.exists_cons_of_length_pos hpos
  have hfind := findCommand_eq hstring commandTable_names
  rw [List.getElem_cons_zero] at hstring hfind
  rw [executeCommand, hcommand, Option.bind_eq_bind, Option.bind_some, hfind, Option.bind_eq_bind,
    Option.bind_some, commandCalls]
  cases commandTable.find? fun entry => word = bytes entry.1 with
  | some entry =>
      dsimp only
      rw [hstrings]
      rfl
  | none =>
      dsimp only
      rw [stringFrom_eq hstring]
      rfl

/-! ### A line -/

theorem resultCode_error (e : WordSplit.Error Byte) : resultCode (.error e) ≠ .ok := by
  cases e with
  | openQuote quote =>
      rw [resultCode]
      split_ifs <;> nofun
  | trailingEscape => nofun
  | tooManyWords => nofun

/-- **What a line calls is told from its words**, whatever comes after its terminating zero and
whatever the array held before. -/
theorem runLine_eq {text : List Byte} (tail : List Byte) (htext : (0 : Byte) ∉ text)
    (hslots : arguments.length = shellMaxArguments + 1) :
    ∃ pass, runLine (text ++ 0 :: tail) arguments = some pass ∧
      pass.command.length = text.length + 1 + tail.length ∧
      pass.arguments.length = shellMaxArguments + 1 ∧ pass.calls = callsOf (tokenize text) := by
  have hfuel : 2 * text.length + 2 ≤ 2 * (text ++ 0 :: tail).length := by
    rw [List.length_append, List.length_cons]
    omega
  obtain ⟨p, hparse, hcur, hcontrol, -, hwords⟩ := parse_returns tail htext hslots hfuel
  cases htok : tokenize text with
  | error e =>
      rw [htok] at hcontrol
      refine ⟨⟨p.line, p.arguments, reportParseError (resultCode (.error e))⟩, ?_, hcur.length,
        hcur.slots, rfl⟩
      rw [runLine, hparse, Option.bind_eq_bind, Option.bind_some, hcontrol]
      cases hresult : resultCode (.error e) with
      | ok => exact absurd hresult (resultCode_error e)
      | tooManyArguments => rfl
      | unterminatedSingleQuote => rfl
      | unterminatedDoubleQuote => rfl
      | trailingBackslash => rfl
  | ok ws =>
      rw [htok] at hcontrol
      obtain ⟨hcount, hstrings⟩ := hwords ws htok
      refine ⟨⟨p.line, p.arguments, commandCalls ws⟩, ?_, hcur.length, hcur.slots, rfl⟩
      rw [runLine, hparse, Option.bind_eq_bind, Option.bind_some, hcontrol, resultCode, hcount]
      dsimp only
      rcases Nat.eq_zero_or_pos ws.length with hempty | hpos
      · obtain rfl := List.length_eq_zero_iff.1 hempty
        rfl
      · have hpoints : PointsTo p.line p.arguments ws := by
          intro i hi
          obtain ⟨start, -, hpointer, hstring, -⟩ := hstrings i hi
          refine ⟨p.line.drop start, ?_, hstring.1, ?_⟩
          · rw [argumentAt, hpointer]
            rfl
          · rw [List.drop_zero]
            exact hstring.2
        rw [if_pos (Nat.pos_iff_ne_zero.1 hpos), hpoints.executeCommand_eq hpos]
        rfl

/-! ### The calls that must not be made by mistake -/

/-- The command that alone makes a call from which the system does not come back. -/
def Call.command : Call → Option String
  | .exceptionTriggerTest => some "fault"
  | .platformShutdown => some "shutdown"
  | .platformReboot => some "reboot"
  | _ => none

/-- The call comes back, whatever the firmware does. -/
def Call.Returns (call : Call) : Prop := call.command = none

instance (call : Call) : Decidable call.Returns := inferInstanceAs (Decidable (_ = _))

variable {call : Call} {name : String}

theorem reportParseError_command (result : ParseResult) :
    ∀ call ∈ reportParseError result, call.command = none := by
  cases result <;> simp [reportParseError, puts, Call.command]

theorem unknownCommand_command (word : List Byte) :
    ∀ call ∈ unknownCommand word, call.command = none := by
  simp [unknownCommand, puts, Call.command]

theorem requireArgumentCount_command (actual expected : ℕ) (usage : String) :
    ∀ call ∈ (requireArgumentCount actual expected usage).2, call.command = none := by
  rw [requireArgumentCount]
  split_ifs <;> simp [puts, Call.command]

/-- A branch makes no call of these but that of its own command, and none at all when it passes
the arguments on. -/
def Branch.Guards (name : String) : Branch → Prop
  | .alone calls => ∀ call ∈ calls, call.command = none ∨ call.command = some name
  | .passes call => ∀ arguments, (call arguments).command = none

theorem commandTable_guards : ∀ entry ∈ commandTable, entry.2.Guards entry.1 := by
  simp [commandTable, Branch.Guards, Call.command, puts]

/-- Only the branch of its command makes such a call, and only when there are no arguments. -/
theorem Branch.Guards.of_mem {branch : Branch} {usage : String} (hguards : branch.Guards usage)
    (h : call.command = some name) {argumentCount : ℕ}
    (hmem : call ∈ branch.calls usage argumentCount ws) : usage = name ∧ argumentCount = 1 := by
  cases branch with
  | alone calls =>
      rcases eq_or_ne argumentCount 1 with rfl | hcount
      · have hcall := hguards call hmem
        rw [h] at hcall
        exact ⟨(Option.some_inj.1 (hcall.resolve_left nofun)).symm, rfl⟩
      · have husage : call ∈ (requireArgumentCount argumentCount 1 usage).2 := by
          rw [Branch.calls, requireArgumentCount, if_neg hcount] at hmem
          rw [requireArgumentCount, if_neg hcount]
          exact hmem
        rw [requireArgumentCount_command _ _ _ call husage] at h
        cases h
  | passes f =>
      rw [List.mem_singleton.1 hmem, hguards ws] at h
      cases h

/-- The branch of its command makes it. -/
theorem mem_commandCalls_command (h : call.command = some name) :
    call ∈ commandCalls [bytes name] := by
  cases call <;> cases h <;> decide

/-- **A call that must not be made by mistake** is made when the line is the one word that is its
command, and never else. -/
theorem mem_callsOf (h : call.command = some name)
    {result : Except (WordSplit.Error Byte) (List (List Byte))} :
    call ∈ callsOf result ↔ result = .ok [bytes name] := by
  constructor
  · intro hmem
    cases result with
    | error e =>
        rw [reportParseError_command _ call hmem] at h
        cases h
    | ok ws =>
        cases ws with
        | nil => exact absurd hmem List.not_mem_nil
        | cons word words =>
            rw [callsOf, commandCalls] at hmem
            cases hfind : commandTable.find? fun entry => word = bytes entry.1 with
            | none =>
                rw [hfind] at hmem
                rw [unknownCommand_command word call hmem] at h
                cases h
            | some entry =>
                rw [hfind] at hmem
                have hword : word = bytes entry.1 := by simpa using List.find?_some hfind
                have hguards := commandTable_guards entry (List.mem_of_find?_eq_some hfind)
                obtain ⟨hname, hlen⟩ := hguards.of_mem h hmem
                obtain rfl := List.length_eq_zero_iff.1 (Nat.succ_inj.1 hlen)
                rw [hword, hname]
  · rintro rfl
    exact mem_commandCalls_command h

end Shell

end MiniOs
