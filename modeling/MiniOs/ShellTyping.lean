/-
**From the keyboard to the command.**

A user who wants to run a command with some arguments types them on a line, each in one of the three
ways, and presses Enter.  Whatever happened before, as long as the line is empty when he begins, the
shell echoes what he types and then calls the command with just these arguments, before the next prompt.

Main definitions:

* `Shell.enteredLine` — the bytes of a line with Enter at its end.

Main results:

* `Shell.typeText_eq`, `Shell.typeLine_eq` — the session, when printable characters are typed;
* `Shell.printable_typedLine` — a line of printable strings is printable;
* `Shell.typed_command_runs` — **the command that was typed is the command that runs**.
-/

import MiniOs.ConsoleEscape
import MiniOs.ShellQuoting
import MiniOs.ShellSession

set_option relaxedAutoImplicit false
set_option autoImplicit false

namespace MiniOs

namespace Shell

open CString
open Console (Editor IsBlank IsPrintable Printable carriageReturn historyDepth newline remembered)
open RecentRing (recent)

/-! ### Typing -/

variable {w : Session} {text : List Byte} {c : Byte}

/-- A printable character that finds room is typed. -/
theorem typeByte_printable (hc : IsPrintable c) (hnormal : w.editor.escape = .normal)
    (hroom : w.editor.text.length < lineRoom) : w.typeByte c =
      { w with
        editor := { w.editor with text := w.editor.text ++ [c] }
        actions := w.actions ++ [.echo [c]] } := by
  obtain ⟨henter, hescape, herase⟩ := Console.isPrintable_ordinary hc
  refine Session.typeByte_more ?_
  rw [Editor.step, hnormal]
  dsimp only
  rw [Editor.char, if_neg henter, if_neg hescape, if_neg herase, if_pos ⟨hc, hroom⟩]

/-- Enter completes the line. -/
theorem typeByte_enter (hnormal : w.editor.escape = .normal) : w.typeByte carriageReturn =
    ⟨w.lines ++ [w.editor.text], blankLine,
      w.actions ++ .echo (Console.uartPuts [newline]) :: Session.answer w.editor.text⟩ := by
  refine Session.typeByte_enter ?_
  rw [Editor.step, hnormal]
  dsimp only
  rw [Editor.char, if_pos (Or.inl rfl)]

/-- The echo of printable characters. -/
def echoes (text : List Byte) : List Action := text.map fun c => .echo [c]

/-- **Printable characters are typed one after the other**, as long as there is room. -/
theorem typeText_eq (hprint : Printable text) (hnormal : w.editor.escape = .normal)
    (hroom : w.editor.text.length + text.length ≤ lineRoom) : text.foldl Session.typeByte w =
      { w with
        editor := { w.editor with text := w.editor.text ++ text }
        actions := w.actions ++ echoes text } := by
  induction text generalizing w with
  | nil =>
      rw [echoes, List.map_nil, List.append_nil, List.append_nil]
      rfl
  | cons c text ih =>
      rw [List.length_cons] at hroom
      rw [List.foldl_cons,
        typeByte_printable (hprint c List.mem_cons_self) hnormal (by omega), ih]
      · simp only [echoes, List.map_cons, List.append_assoc, List.singleton_append]
      · exact fun d hd => hprint d (List.mem_cons_of_mem c hd)
      · exact hnormal
      · change (w.editor.text ++ [c]).length + text.length ≤ lineRoom
        rw [List.length_append, List.length_singleton]
        omega

/-- The bytes of a line, with Enter at its end. -/
def enteredLine (text : List Byte) : List Byte := text ++ [carriageReturn]

/-- Nothing is on the line, and no escape sequence has begun; earlier lines may have been recalled. -/
structure EmptyLine (e : Editor) : Prop where
  text : e.text = []
  escape : e.escape = .normal

/-- **A line is typed and completed.** -/
theorem typeLine_eq (hempty : EmptyLine w.editor) (hprint : Printable text)
    (hroom : text.length ≤ lineRoom) : (enteredLine text).foldl Session.typeByte w =
      ⟨w.lines ++ [text], blankLine, w.actions ++ echoes text ++
        .echo (Console.uartPuts [newline]) :: Session.answer text⟩ := by
  have hroom' : w.editor.text.length + text.length ≤ lineRoom := by
    rw [hempty.text, List.length_nil, Nat.zero_add]
    exact hroom
  rw [enteredLine, List.foldl_append, typeText_eq hprint hempty.escape hroom',
    List.foldl_cons, List.foldl_nil, typeByte_enter]
  · dsimp only
    rw [hempty.text, List.nil_append]
  · exact hempty.escape

/-! ### Lines of printable strings -/

theorem printable_append {v : List Byte} (hv : Printable v) (htext : Printable text) :
    Printable (v ++ text) := by
  intro c hc
  rcases List.mem_append.1 hc with hc | hc
  · exact hv c hc
  · exact htext c hc

/-- Escaping writes printable characters. -/
theorem printable_escaped {s : List Byte} (h : Printable s) (special : Byte → Prop)
    [DecidablePred special] :
    Printable (s.flatMap fun c => if special c then [backslash, c] else [c]) := by
  intro d hd
  obtain ⟨c, hc, hd⟩ := List.mem_flatMap.1 hd
  have hback : IsPrintable backslash := by decide
  split at hd
  · rcases List.mem_cons.1 hd with rfl | hd
    · exact hback
    · exact List.mem_singleton.1 hd ▸ h c hc
  · exact List.mem_singleton.1 hd ▸ h c hc

theorem printable_inQuotes {quote : Byte} (hquote : IsPrintable quote) {s : List Byte}
    (h : Printable s) : Printable (inQuotes quote s) := by
  have hsingle : Printable [quote] := fun c hc => List.mem_singleton.1 hc ▸ hquote
  rw [inQuotes, ← List.singleton_append, List.append_assoc]
  exact printable_append hsingle (printable_append (printable_escaped h _) hsingle)

theorem printable_typedWord (quoting : Quoting) {s : List Byte} (h : Printable s) :
    Printable (typedWord quoting s) := by
  cases quoting with
  | unquoted => exact printable_escaped h _
  | inDoubleQuotes => exact printable_inQuotes (by decide) h
  | inSingleQuotes => exact printable_inQuotes (by decide) h

theorem printable_spaces (k : ℕ) : Printable (List.replicate k space) := by
  intro c hc
  rw [List.eq_of_mem_replicate hc]
  decide

/-- **A line of printable strings is printable.** -/
theorem printable_typedLine {trail : ℕ} {items : List (ℕ × Quoting × List Byte)}
    (h : ∀ item ∈ items, Printable item.2.2) : Printable (typedLine trail items) := by
  induction items with
  | nil => exact printable_spaces trail
  | cons item items ih =>
      obtain ⟨gap, quoting, s⟩ := item
      rw [typedLine, List.append_assoc]
      refine printable_append (printable_spaces gap) (printable_append ?_ ?_)
      · exact printable_typedWord quoting (h _ List.mem_cons_self)
      · exact ih fun i hi => h i (List.mem_cons_of_mem _ hi)

/-! ### Typing a command -/

/-- Strings that can be typed at the keyboard. -/
structure Keyed (items : List (ℕ × Quoting × List Byte)) : Prop where
  printable : ∀ item ∈ items, Printable item.2.2
  nonempty : ∀ item ∈ items, item.2.1 = .unquoted → item.2.2 ≠ []
  gaps : ∀ item ∈ items.tail, 0 < item.1

theorem Keyed.typable {items : List (ℕ × Quoting × List Byte)} (h : Keyed items) :
    ∀ item ∈ items, Typable item := by
  intro item hitem
  refine ⟨fun hzero => ?_, h.nonempty item hitem⟩
  exact Console.isPrintable_ne_zero (h.printable item hitem 0 hzero) rfl

/-- What comes of a command that is typed on an empty line. -/
theorem session_command {input : List Byte} {trail : ℕ} {items : List (ℕ × Quoting × List Byte)}
    (hempty : EmptyLine (session input).editor) (hkeyed : Keyed items) (hmax : items.length ≤ 8)
    (hroom : (typedLine trail items).length ≤ lineRoom) :
    session (input ++ enteredLine (typedLine trail items)) =
      ⟨(session input).lines ++ [typedLine trail items], blankLine,
        (session input).actions ++ echoes (typedLine trail items) ++
          .echo (Console.uartPuts [newline]) ::
            ((commandCalls (items.map (·.2.2))).map .call ++ [prompt])⟩ := by
  have hmax' : items.length ≤ shellMaxArguments := hmax
  have htokens : tokenize (typedLine trail items) = .ok (items.map (·.2.2)) :=
    (tokenize_typedLine hkeyed.typable hkeyed.gaps).trans (if_pos hmax')
  rw [session, List.foldl_append]
  change (enteredLine (typedLine trail items)).foldl Session.typeByte (session input) = _
  rw [typeLine_eq hempty (printable_typedLine hkeyed.printable) hroom, Session.answer, htokens]
  rfl

/-- The newest line that is remembered is the one completed last, unless that is blank. -/
theorem earlier_head (lines : List (List Byte)) {line : List Byte} (hblank : ¬ IsBlank line) :
    (recent historyDepth (remembered (lines ++ [line]))).head? = some line := by
  have hlast : (remembered (lines ++ [line])).getLast? = some line := by
    rw [Console.remembered_concat, if_neg hblank]
    split
    · next hsame => exact hsame
    · exact List.getLast?_concat
  rw [recent, List.head?_take, List.head?_reverse, hlast]
  rfl

/-- **The command that was typed is the command that runs.**  In every run of the shell, when up to
eight printable strings have been typed on an empty line that has room for them, each in any of the
three ways, and Enter after them, then the actions since are the echo of the line and the calls that
`execute_command` makes for just these strings, but for what is still to be done of it.  The next line is
empty again, the one that was typed is the last one completed, and the key Up recalls it unless it is
blank. -/
theorem typed_command_runs {s : RunState} {log : RunLog} {input : List Byte} {trail : ℕ}
    {items : List (ℕ × Quoting × List Byte)} (h : loggedShell.Reachable (s, log))
    (hempty : EmptyLine (session input).editor) (hkeyed : Keyed items) (hmax : items.length ≤ 8)
    (hroom : (typedLine trail items).length ≤ lineRoom)
    (htyped : log.typed = input ++ enteredLine (typedLine trail items)) :
    log.actions ++ due s.console.status = (session input).actions ++
      echoes (typedLine trail items) ++ .echo (Console.uartPuts [newline]) ::
        ((commandCalls (items.map (·.2.2))).map .call ++ [prompt]) ∧
    (session log.typed).editor = blankLine ∧
    (session log.typed).lines = (session input).lines ++ [typedLine trail items] ∧
    (¬ IsBlank (typedLine trail items) →
      (session log.typed).earlier.head? = some (typedLine trail items)) := by
  have hsession := session_command hempty hkeyed hmax hroom
  rw [← htyped] at hsession
  rw [hsession, (reachable_sessionInv h).actions, hsession]
  exact ⟨rfl, rfl, rfl, earlier_head _⟩

/-- The words `echo` and `a b`, with the second in quotes. -/
def echoItems : List (ℕ × Quoting × List Byte) :=
  [(0, .unquoted, bytes "echo"), (1, .inSingleQuotes, bytes "a b")]

theorem keyed_echoItems : Keyed echoItems where
  printable := by
    intro item hitem
    rcases List.mem_cons.1 hitem with rfl | hitem
    · exact fun c hc => by revert c; decide
    · rw [List.mem_singleton.1 hitem]
      exact fun c hc => by revert c; decide
  nonempty := by
    intro item hitem
    rcases List.mem_cons.1 hitem with rfl | hitem
    · decide
    · rw [List.mem_singleton.1 hitem]
      decide
  gaps := by decide

/-- A run of the shell in which some bytes are typed at the first prompt. -/
theorem exists_typed {input : List Byte} (hreturns : ∀ a ∈ (session input).actions, a.Returns) :
    ∃ t log, loggedShell.Reachable (t, log) ∧ log.typed = input := by
  have hinit : shellRun.init bootShell := ⟨rfl, rfl, rfl⟩
  obtain ⟨events, t, log, hrun, -, htyped, -⟩ := accepts (sessionInv_init hinit) input rfl hreturns
  have hboot : loggedShell.Reachable (bootShell, ⟨[], []⟩) := Lts.Reachable.init ⟨hinit, rfl⟩
  exact ⟨t, log, hboot.run hrun, htyped⟩

theorem echoItems_return :
    ∀ a ∈ (session (enteredLine (typedLine 0 echoItems))).actions, a.Returns := by decide

/-- The line `echo 'a b'` is recalled when it was typed first. -/
theorem typed_command_runs_echo : ∃ t log, loggedShell.Reachable (t, log) ∧
    (session log.typed).earlier.head? = some (typedLine 0 echoItems) := by
  obtain ⟨t, log, hreach, htyped⟩ := exists_typed echoItems_return
  have hroom : (typedLine 0 echoItems).length ≤ lineRoom := by decide
  have hempty : EmptyLine (session []).editor := ⟨rfl, rfl⟩
  obtain ⟨-, -, -, hrecalled⟩ :=
    typed_command_runs hreach hempty keyed_echoItems (by decide) hroom htyped
  exact ⟨t, log, hreach, hrecalled (by decide)⟩

end Shell

end MiniOs
