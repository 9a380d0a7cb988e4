/-
**What the user sees is what will run.**

The bytes that `console_readline` sends go to a terminal, where they write the line after the
prompt: echoed characters, erasures, and whole entries that replace what was there.  The buffer is
changed by other code than the screen, but every move does the same to both.

Main definitions:

* `Console.display` — **the terminal line after some bytes**;
* `Console.readlineSent` — a call with the bytes it has sent.

Main results:

* `Console.Editor.Move.display_eq` — every move shows the new text;
* `Console.displayed_line` — **the line shown is the line in the buffer**, and the one returned.
-/

import MiniOs.ConsoleNavigation
import MiniOs.Terminal

set_option relaxedAutoImplicit false
set_option autoImplicit false

namespace MiniOs

namespace Console

open CString
open RecentRing (recent)

/-! ### The terminal -/

/-- What a byte tells the terminal; `none` for a byte that may do more than write on the line. -/
def command (c : Byte) : Option (Terminal.Command Byte) :=
  if c = backspace then some .left else if IsPrintable c then some (.write c) else none

/-- **The terminal line after some bytes**; `none` when the cursor would leave it. -/
def display (sent : List Byte) (r : Terminal.Row Byte) : Option (Terminal.Row Byte) :=
  (sent.mapM command).bind fun commands => r.feed commands

theorem display_append {sent : List Byte} {r r' : Terminal.Row Byte} (h : display sent r = some r')
    (output : List Byte) : display (sent ++ output) r = display output r' := by
  obtain ⟨commands, hcommands, hr'⟩ := Option.bind_eq_some_iff.1 h
  rw [display, display, List.mapM_append, hcommands]
  cases houtput : output.mapM command with
  | none => rfl
  | some more =>
      rw [Option.bind_some, ← Option.bind_some (f := Terminal.Row.feed more), ← hr']
      exact Terminal.Row.feed_append commands more r

theorem mapM_command_printable {w : List Byte} (hw : Printable w) :
    w.mapM command = some (w.map .write) := by
  induction w with
  | nil => rfl
  | cons c w ih =>
      have hc : command c = some (.write c) := by
        have hprint := hw c (List.mem_cons_self ..)
        have hne : c ≠ backspace := by
          rintro rfl
          exact absurd hprint (by decide)
        rw [command, if_neg hne, if_pos hprint]
      rw [List.mapM_cons, hc, ih fun d hd => hw d (List.mem_cons_of_mem c hd)]
      rfl

theorem mapM_command_erase (n : ℕ) :
    (uartPuts (List.replicate n erase).flatten).mapM command =
      some (List.replicate n (Terminal.Row.eraseLast space)).flatten := by
  induction n with
  | zero => rfl
  | succ n ih =>
      rw [List.replicate_succ, List.flatten_cons, List.replicate_succ, List.flatten_cons]
      have happend : uartPuts (erase ++ (List.replicate n erase).flatten) =
          uartPuts erase ++ uartPuts (List.replicate n erase).flatten := List.flatMap_append
      rw [happend, List.mapM_append, ih]
      rfl

/-- Printable characters are shown after the text. -/
theorem display_printable {w text : List Byte} {r : Terminal.Row Byte} (hw : Printable w)
    (hr : r.Shows space text) : ∃ r', display w r = some r' ∧ r'.Shows space (text ++ w) := by
  obtain ⟨r', hr', hshows⟩ := hr.write w
  refine ⟨r', ?_, hshows⟩
  rw [display, mapM_command_printable hw, Option.bind_some, hr']

/-- Erasing the whole text and sending another shows the other. -/
theorem display_replace {w text : List Byte} {r : Terminal.Row Byte} (hw : Printable w)
    (hr : r.Shows space text) :
    ∃ r', display (uartPuts (List.replicate text.length erase).flatten ++ w) r = some r' ∧
      r'.Shows space w := by
  obtain ⟨r₁, hr₁, h₁⟩ := hr.erase_all
  obtain ⟨r₂, hr₂, h₂⟩ := display_printable hw h₁
  have herase : display (uartPuts (List.replicate text.length erase).flatten) r = some r₁ := by
    rw [display, mapM_command_erase, Option.bind_some, hr₁]
  refine ⟨r₂, ?_, h₂⟩
  rw [display_append herase, hr₂]

/-- **Every move shows the new text.** -/
theorem Editor.Move.display_eq {earlier : List (List Byte)} {room : ℕ} {e e' : Editor}
    {output : List Byte} (h : Move earlier room e e' output) (he : e.Ok earlier room)
    (hp : ∀ w ∈ earlier, Printable w) {r : Terminal.Row Byte} (hr : r.Shows space e.text) :
    ∃ r', display output r = some r' ∧ r'.Shows space e'.text := by
  cases h with
  | stay s => exact ⟨r, rfl, hr⟩
  | @type s c hc =>
      have hprint : Printable [c] := by
        intro d hd
        rwa [List.mem_singleton.1 hd]
      exact display_printable hprint hr
  | erase s hne =>
      rw [← List.dropLast_append_getLast hne] at hr
      obtain ⟨r', hr', hshows⟩ := hr.erase
      exact ⟨r', hr', hshows⟩
  | up s hw => exact display_replace ((hp _ (List.mem_of_getElem? hw)).take room) hr
  | down s hoffset hw => exact display_replace ((hp _ (List.mem_of_getElem? hw)).take room) hr
  | back s hoffset => exact display_replace (he.draft.take room) hr

/-! ### A call -/

/-- A call of `console_readline` with the bytes it has sent. -/
def readlineSent (h : History) (buffer draft : List Byte) (capacity : ℕ) :
    Lts (Line × List Byte) (Byte × List Byte) :=
  (readline h buffer draft capacity).withHistory [] fun sent _ e _ => sent ++ e.2

/-- **The line shown is the line in the buffer.**  In a call with any capacity but 0, after any
bytes before Enter, what was sent never moved the cursor out of the line after the prompt; it shows
there the characters in the buffer, with the cursor right after them; and at Enter the line that is
returned is the one shown. -/
theorem displayed_line {s : State} {log : Log} (h : loggedConsole.Reachable (s, log))
    {capacity : ℕ} {buffer draft : List Byte} (hpos : 1 ≤ capacity)
    (hbuffer : buffer.length = effective capacity) (hdraft : draft.length = consoleLineCapacity)
    {l : Line} {sent : List Byte}
    (hl : (readlineSent s.history buffer draft capacity).Reachable (l, sent)) :
    ∃ r, display sent Terminal.Row.empty = some r ∧ r.cursor = l.length ∧
      (∃ n, r.cells = l.buffer.take l.length ++ List.replicate n space) ∧
      ∀ c l' output, lineStep s.history c l = some (.enter l', output) →
        ∃ line h', finishLine l' s.history = some (line, h') ∧ l'.length = l.length ∧
          StringAt line 0 (l.buffer.take l.length) := by
  obtain ⟨hh, -⟩ := reachable_inv h
  dsimp only at hh
  obtain ⟨room, hroom, hlt⟩ := exists_room hpos
  have hsim : ∃ e, Shows room l e ∧ e.Ok (recent historyDepth (remembered log.lines)) room ∧
      ∃ r, display sent Terminal.Row.empty = some r ∧ r.Shows space e.text := by
    refine readline_simulates (R := fun e sent => ∃ r, display sent Terminal.Row.empty = some r ∧
      r.Shows space e.text) hh hroom hbuffer hdraft ?_ ?_ hl
    · exact ⟨_, rfl, Terminal.Row.shows_empty space⟩
    · rintro l e sent c l' e' output - he ⟨r, hr, hshows⟩ hmove - -
      rw [display_append hr]
      exact hmove.display_eq he hh.printable_recent hshows
  obtain ⟨e, hs, he, r, hr, hcursor, n, hcells⟩ := hsim
  have htext : l.buffer.take l.length = e.text := hs.text_eq
  rw [htext]
  refine ⟨r, hr, hcursor.trans hs.length.symm, ⟨n, hcells⟩, ?_⟩
  intro c l' output hstep
  obtain ⟨e', htext', hs', he'⟩ := lineStep_enter hs hh he hlt hstep
  obtain ⟨line, h', hfinish, -, hstr, -⟩ := finishLine_eq hh hs' he'.text he'.text_le hlt
  rw [htext'] at hstr
  refine ⟨line, h', hfinish, ?_, hstr⟩
  rw [hs'.length, htext', hs.length]

/-- The letter `b` was typed, and then the key Up showed the entry `a` in its place. -/
theorem reachable_shown : (readlineSent afterLine.history [7, 7, 7] (List.replicate 80 0)
    3).Reachable (recalled .normal, [0x62#8, backspace, space, backspace, 0x61#8]) := by
  let call := readlineSent afterLine.history [7, 7, 7] (List.replicate 80 0) 3
  have hstart : call.Reachable (⟨[0, 7, 7], 3, 0, List.replicate 80 0, 0, .normal⟩, []) :=
    Lts.Reachable.init ⟨rfl, rfl⟩
  have hb : call.Reachable (typing .normal, [0x62#8]) :=
    hstart.step (e := (0x62#8, [0x62#8])) ⟨rfl, rfl⟩
  have hescape : call.Reachable (typing .seen, [0x62#8]) :=
    hb.step (e := (escapeChar, [])) ⟨rfl, rfl⟩
  have hcsi : call.Reachable (typing .csi, [0x62#8]) :=
    hescape.step (e := (0x5b#8, [])) ⟨rfl, rfl⟩
  exact hcsi.step (e := (0x41#8, [backspace, space, backspace, 0x61#8])) ⟨rfl, rfl⟩

/-- Only the entry can be seen. -/
theorem displayed_line_shown :
    ∃ r, display [0x62#8, backspace, space, backspace, 0x61#8] Terminal.Row.empty = some r ∧
      r.cursor = 1 ∧ ∃ n, r.cells = [0x61#8] ++ List.replicate n space := by
  obtain ⟨r, hr, hcursor, hcells, -⟩ :=
    displayed_line reachable_afterLine (by decide) rfl rfl reachable_shown
  exact ⟨r, hr, hcursor, hcells⟩

end Console

end MiniOs
