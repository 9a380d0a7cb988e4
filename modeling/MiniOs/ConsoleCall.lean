/-
**One call of `console_readline`, byte by byte.**

A call is fed any bytes while the ring of earlier lines stays as it is.  What a byte before Enter
does to the editor is one of a few moves, and each says what is sent for it.  What holds of the
editor and a record of the call, initially and after every move, holds of the arrays of the code.

Main definitions:

* `Console.Editor.Move` — **what a byte before Enter can do**;
* `Console.readline` — the bytes fed to a call, with what is sent for them.

Main results:

* `Console.Editor.step_move` — every byte before Enter is a move;
* `Console.readline_simulates` — **a property of the moves is one of the call**.
-/

import MiniOs.ConsoleRun

set_option relaxedAutoImplicit false
set_option autoImplicit false

namespace MiniOs

namespace Console

open CString
open RecentRing (recent)

/-! ### Moves -/

namespace Editor

/-- The line being typed: the text, or the draft while an earlier line is looked at. -/
def typed (e : Editor) : List Byte := if e.offset = 0 then e.text else e.draft

/-- **What a byte before Enter can do** to the editor, and what is sent for it; `s` is the state of
the escape sequence after it. -/
inductive Move (earlier : List (List Byte)) (room : ℕ) (e : Editor) : Editor → List Byte → Prop
  | stay (s : EscapeState) : Move earlier room e { e with escape := s } []
  | type (s : EscapeState) {c : Byte} : IsPrintable c →
      Move earlier room e { e with text := e.text ++ [c], escape := s } [c]
  | erase (s : EscapeState) : e.text ≠ [] →
      Move earlier room e { e with text := e.text.dropLast, escape := s } (uartPuts erase)
  | up (s : EscapeState) {w : List Byte} : earlier[e.offset]? = some w →
      Move earlier room e
        { text := w.take room, draft := e.typed, offset := e.offset + 1, escape := s }
        (uartPuts (List.replicate e.text.length Console.erase).flatten ++ w.take room)
  | down (s : EscapeState) {k : ℕ} {w : List Byte} : e.offset = k + 2 → earlier[k]? = some w →
      Move earlier room e { e with text := w.take room, offset := k + 1, escape := s }
        (uartPuts (List.replicate e.text.length Console.erase).flatten ++ w.take room)
  | back (s : EscapeState) : e.offset = 1 →
      Move earlier room e { e with text := e.draft.take room, offset := 0, escape := s }
        (uartPuts (List.replicate e.text.length Console.erase).flatten ++ e.draft.take room)

variable {earlier : List (List Byte)} {room : ℕ} {e e' : Editor} {c : Byte} {output : List Byte}

/-- The state of the escape sequence before a move does not matter. -/
theorem Move.of_setEscape {s : EscapeState}
    (h : Move earlier room { e with escape := s } e' output) : Move earlier room e e' output := by
  cases h with
  | stay s => exact .stay s
  | type s hc => exact .type s hc
  | erase s hne => exact .erase s hne
  | up s hw => exact .up s hw
  | down s hoffset hw => exact .down s hoffset hw
  | back s hoffset => exact .back s hoffset

theorem up_move : Move earlier room e (e.up earlier room).1 (e.up earlier room).2 := by
  cases hw : earlier[e.offset]? with
  | none =>
      rw [up_of_none hw]
      exact .stay e.escape
  | some w =>
      rw [up_of_some hw]
      exact .up e.escape hw

theorem down_move : Move earlier room e (e.down earlier room).1 (e.down earlier room).2 := by
  rcases hoffset : e.offset with _ | _ | k
  · rw [down_zero hoffset]
    exact .stay e.escape
  · rw [down_one hoffset]
    exact .back e.escape hoffset
  · cases hw : earlier[k]? with
    | none =>
        simp only [Editor.down, hoffset, hw]
        exact .stay e.escape
    | some w =>
        rw [down_of_some hoffset hw]
        exact .down e.escape hoffset hw

theorem key_move (c : Byte) :
    Move earlier room e (e.key earlier room c).1 (e.key earlier room c).2 := by
  rw [Editor.key]
  cases keyOf c with
  | none => exact .stay e.escape
  | up => exact up_move
  | down => exact down_move

theorem char_move (h : e.char room c = (.more e', output)) : Move earlier room e e' output := by
  rw [Editor.char] at h
  split_ifs at h with hend hescape herase hpos htype
  · cases h
  · cases h
    exact .stay .seen
  · cases h
    exact .erase e.escape (List.ne_nil_of_length_pos hpos)
  · cases h
    exact .stay e.escape
  · cases h
    exact .type e.escape htype.1
  · cases h
    exact .stay e.escape

/-- **Every byte before Enter is a move.** -/
theorem step_move (h : e.step earlier room c = (.more e', output)) :
    Move earlier room e e' output := by
  rw [Editor.step] at h
  cases hs : e.escape with
  | normal =>
      rw [hs] at h
      exact char_move h
  | seen =>
      rw [hs] at h
      dsimp only at h
      split_ifs at h
      · cases h
        exact .stay .csi
      · cases h
        exact .stay .ss3
      · exact (char_move h).of_setEscape
  | csi =>
      rw [hs] at h
      cases h
      exact (key_move c).of_setEscape
  | ss3 =>
      rw [hs] at h
      cases h
      exact (key_move c).of_setEscape

theorem char_enter (h : e.char room c = (.enter e', output)) : e' = e := by
  rw [Editor.char] at h
  split_ifs at h
  all_goals cases h
  rfl

/-- Enter leaves the line as it is. -/
theorem step_enter (h : e.step earlier room c = (.enter e', output)) : e'.text = e.text := by
  rw [Editor.step] at h
  cases hs : e.escape with
  | normal =>
      rw [hs] at h
      rw [char_enter h]
  | seen =>
      rw [hs] at h
      dsimp only at h
      split_ifs at h
      · cases h
      · cases h
      · rw [char_enter h]
  | csi =>
      rw [hs] at h
      cases h
  | ss3 =>
      rw [hs] at h
      cases h

end Editor

/-! ### A call -/

/-- The line in the buffer, as long as it is so far. -/
def Line.text (l : Line) : List Byte := l.buffer.take l.length

/-- **One call of `console_readline`** before Enter, for a ring of earlier lines and a buffer of the
caller's: the bytes it is fed, with what it sends for each. -/
def readline (h : History) (buffer draft : List Byte) (capacity : ℕ) :
    Lts Line (Byte × List Byte) where
  init l := startLine buffer draft (effective capacity) = some l
  step l e l' := lineStep h e.1 l = some (.more l', e.2)

theorem Shows.text_eq {room : ℕ} {l : Line} {e : Editor} (hs : Shows room l e) :
    l.text = e.text := by
  rw [Line.text, hs.length, hs.text.take_length]

/-- What a capacity leaves room for. -/
theorem exists_room {capacity : ℕ} (hpos : 1 ≤ capacity) :
    ∃ room, effective capacity = room + 1 ∧ room < consoleLineCapacity := by
  have hle : effective capacity ≤ consoleLineCapacity := Nat.min_le_right ..
  have hpos' : 1 ≤ effective capacity := Nat.le_min.2 ⟨hpos, by decide⟩
  exact ⟨effective capacity - 1, by omega, by omega⟩

section Simulation

variable {h : History} {items : List (List Byte)} {buffer draft : List Byte} {capacity room : ℕ}
  {l : Line} {e : Editor} {c : Byte} {output : List Byte}

/-- A byte before Enter does to the arrays what it does to the editor. -/
theorem lineStep_more (hs : Shows room l e) (hh : HistoryHolds h items)
    (he : e.Ok (recent historyDepth items) room) (hroom : room < consoleLineCapacity) {l' : Line}
    (hstep : lineStep h c l = some (.more l', output)) :
    ∃ e', e.step (recent historyDepth items) room c = (.more e', output) ∧ Shows room l' e' ∧
      e'.Ok (recent historyDepth items) room := by
  obtain ⟨o, ho, hrel⟩ := hs.lineStep_eq hh he hroom c
  have he' := he.step hh.printable_recent c
  rw [hstep, Option.some_inj, Prod.mk.injEq] at ho
  obtain ⟨rfl, rfl⟩ := ho
  generalize e.step (recent historyDepth items) room c = r at hrel he'
  obtain ⟨o, output⟩ := r
  cases hrel with
  | more hs' => exact ⟨_, rfl, hs', he'⟩

/-- Enter leaves the line as it is. -/
theorem lineStep_enter (hs : Shows room l e) (hh : HistoryHolds h items)
    (he : e.Ok (recent historyDepth items) room) (hroom : room < consoleLineCapacity) {l' : Line}
    (hstep : lineStep h c l = some (.enter l', output)) :
    ∃ e', e'.text = e.text ∧ Shows room l' e' ∧ e'.Ok (recent historyDepth items) room := by
  obtain ⟨o, ho, hrel⟩ := hs.lineStep_eq hh he hroom c
  have he' := he.step hh.printable_recent c
  rw [hstep, Option.some_inj, Prod.mk.injEq] at ho
  obtain ⟨rfl, -⟩ := ho
  rcases hr : e.step (recent historyDepth items) room c with ⟨o, output⟩
  rw [hr] at hrel he'
  cases hrel with
  | enter hs' => exact ⟨_, Editor.step_enter hr, hs', he'⟩

/-- **A property of the moves is one of the call**: what holds of the empty editor and the first
record, and is kept by every move together with what it adds to the record, holds of an editor that
the arrays show. -/
theorem readline_simulates {γ : Type} {g₀ : γ} {upd : γ → Line → Byte × List Byte → Line → γ}
    {R : Editor → γ → Prop} (hh : HistoryHolds h items) (hroom : effective capacity = room + 1)
    (hbuffer : buffer.length = effective capacity) (hdraft : draft.length = consoleLineCapacity)
    (hinit : R ⟨[], [], 0, .normal⟩ g₀)
    (hmove : ∀ l e g c l' e' output, Shows room l e → e.Ok (recent historyDepth items) room →
      R e g → Editor.Move (recent historyDepth items) room e e' output → Shows room l' e' →
      e'.Ok (recent historyDepth items) room → R e' (upd g l (c, output) l'))
    {p : Line × γ} (hp : ((readline h buffer draft capacity).withHistory g₀ upd).Reachable p) :
    ∃ e, Shows room p.1 e ∧ e.Ok (recent historyDepth items) room ∧ R e p.2 := by
  have hlt : room < consoleLineCapacity := by
    have hle : effective capacity ≤ consoleLineCapacity := Nat.min_le_right ..
    omega
  refine Lts.Reachable.history_invariant (P := fun l g => ∃ e, Shows room l e ∧
    e.Ok (recent historyDepth items) room ∧ R e g) ?_ ?_ hp
  · intro l hl
    have hl' : startLine buffer draft (effective capacity) = some l := hl
    rw [hroom] at hbuffer hl'
    obtain ⟨l₀, hl₀, hs⟩ := startLine_eq hbuffer hdraft
    obtain rfl := Option.some_inj.1 (hl₀.symm.trans hl')
    refine ⟨_, hs, ⟨?_, Nat.zero_le _, ?_, Nat.zero_le _, Nat.zero_le _⟩, hinit⟩
    · simp [Printable]
    · simp [Printable]
  · rintro l g ⟨c, output⟩ l' - ⟨e, hs, he, hR⟩ hstep
    obtain ⟨e', hmove', hs', he'⟩ := lineStep_more hs hh he hlt hstep
    exact ⟨e', hs', he', hmove l e g c l' e' output hs he hR (Editor.step_move hmove') hs' he'⟩

end Simulation

end Console

end MiniOs
