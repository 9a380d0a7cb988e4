/-
**The console over whole sessions.**

Lines are read one after the other, each into a buffer of its caller's size, from whatever bytes
arrive.  A log records the capacity of the latest call and the lines completed so far.  What every
pass preserves is that the ring holds the lines worth remembering and that the call at work, if
there is one, shows an editor; so no pass leaves the arrays, and nothing but a completed line
changes the ring.

Main definitions:

* `Console.console` — the calls and the bytes that may arrive, from boot on;
* `Console.Log`, `Console.loggedConsole` — the same with the log;
* `Console.Inv` — **the invariant of the console**.

Main results:

* `Console.inv_step` — every operation succeeds and keeps the invariant;
* `Console.readline_bounds` — **the bounds of the line editor**, in every state reached;
* `Console.history_refines` — **the ring is the list of remembered lines**, as far back as it goes.
-/

import MiniOs.ConsoleEditor
import MiniOs.Lts

set_option relaxedAutoImplicit false
set_option autoImplicit false

namespace MiniOs

namespace Console

open CString
open RecentRing (recent)

/-! ### Sessions -/

/-- The console at boot. -/
def State.boot : State := ⟨History.boot, .idle⟩

/-- **The console**, called with any capacity and given any bytes. -/
def console : Lts State Op where
  init s := s = State.boot
  step s op t := op.Fits s ∧ step op s = some t

/-- The capacity that the latest call was given, and the lines that were completed, oldest
first. -/
structure Log where
  capacity : ℕ
  lines : List (List Byte)

/-- What the log adds for an operation: a line that is returned after a byte was completed. -/
def Log.record (log : Log) (_ : State) (op : Op) (t : State) : Log :=
  match op, t.status with
  | .call capacity _ _, _ => { log with capacity := capacity }
  | .byte _, .returned length buffer => { log with lines := log.lines ++ [buffer.take length] }
  | .byte _, _ => log

/-- The console with its log. -/
def loggedConsole : Lts (State × Log) Op := console.withHistory ⟨0, []⟩ Log.record

/-! ### The invariant -/

/-- A call at work shows an editor with room for one character less than its buffer has bytes; a
call that returned has returned the length of the string in its buffer. -/
def StatusOk (log : Log) : Status → Prop
  | .idle => True
  | .reading l => ∃ room e, effective log.capacity = room + 1 ∧ Shows room l e ∧
      e.Ok (recent historyDepth (remembered log.lines)) room
  | .returned n buffer => buffer.length = effective log.capacity ∧ (log.capacity = 0 → n = 0) ∧
      (log.capacity ≠ 0 → ∃ w, StringAt buffer 0 w ∧ n = w.length)

/-- **The invariant of the console.** -/
structure Inv (log : Log) (s : State) : Prop where
  history : HistoryHolds s.history (remembered log.lines)
  status : StatusOk log s.status

/-- The lines of the ring are printable. -/
theorem HistoryHolds.printable_recent {h : History} {items : List (List Byte)}
    (hh : HistoryHolds h items) : ∀ w ∈ recent historyDepth items, Printable w := by
  intro w hw
  obtain ⟨k, hk⟩ := List.getElem?_of_mem hw
  obtain ⟨row, -, hholds⟩ := hh.historyEntry_recent hk
  exact hholds.printable

theorem inv_boot : Inv ⟨0, []⟩ State.boot := ⟨historyHolds_boot, trivial⟩

/-- A call of `console_readline` clears the buffer and the draft. -/
theorem startLine_eq {buffer draft : List Byte} {room : ℕ} (hbuffer : buffer.length = room + 1)
    (hdraft : draft.length = consoleLineCapacity) :
    ∃ l, startLine buffer draft (room + 1) = some l ∧ Shows room l ⟨[], [], 0, .normal⟩ := by
  have hpos : 0 < buffer.length := by omega
  have hpos' : 0 < draft.length := by
    rw [hdraft]
    decide
  refine ⟨⟨buffer.set 0 0, room + 1, 0, draft.set 0 0, 0, .normal⟩, ?_, ?_⟩
  · rw [startLine, store_of_lt hpos, Option.bind_eq_bind, Option.bind_some, store_of_lt hpos']
    rfl
  · exact {
      capacity := rfl
      buffer_length := (List.length_set ..).trans hbuffer
      length := rfl
      text := stringAt_set hpos rfl List.not_mem_nil
      draft_length := (List.length_set ..).trans hdraft
      draft := stringAt_set hpos' rfl List.not_mem_nil
      offset := rfl
      escape := rfl }

/-- The end of a call of `console_readline` remembers the line. -/
theorem finishLine_eq {h : History} {lines : List (List Byte)} {room : ℕ} {l : Line} {e : Editor}
    (hh : HistoryHolds h (remembered lines)) (hs : Shows room l e) (htext : Printable e.text)
    (htext_le : e.text.length ≤ room) (hroom : room < consoleLineCapacity) :
    ∃ buffer h', finishLine l h = some (buffer, h') ∧ buffer.length = room + 1 ∧
      StringAt buffer 0 e.text ∧ HistoryHolds h' (remembered (lines ++ [e.text])) := by
  have hlen := hs.length
  have hbuf := hs.buffer_length
  have hlt : l.length < l.buffer.length := by omega
  have hstr : StringAt (l.buffer.set l.length 0) 0 e.text :=
    stringAt_set hlt (by rw [hlen, hs.text.take_length]) hs.text.1
  obtain ⟨h', hadd, hh'⟩ := hh.historyAdd_eq hstr htext (by omega)
  refine ⟨_, h', ?_, (List.length_set ..).trans hbuf, hstr, hh'⟩
  rw [finishLine, store_of_lt hlt, Option.bind_eq_bind, Option.bind_some, hadd]
  rfl

/-- **What one operation preserves**, be it a call or a byte; and it does not fail. -/
theorem inv_step {log : Log} {s : State} {op : Op} (hinv : Inv log s) (hfits : op.Fits s) :
    ∃ t, step op s = some t ∧ Inv (log.record s op t) t := by
  cases op with
  | call capacity buffer draft =>
      obtain ⟨-, hbuffer, hdraft⟩ := hfits
      rw [step]
      rcases Nat.eq_zero_or_pos capacity with rfl | hpos
      · rw [if_pos rfl]
        exact ⟨_, rfl, hinv.history, hbuffer, fun _ => rfl, fun hne => absurd rfl hne⟩
      · obtain ⟨room, hroom⟩ : ∃ room, effective capacity = room + 1 :=
          Nat.exists_eq_succ_of_ne_zero (by rw [effective, consoleLineCapacity]; omega)
        rw [hroom] at hbuffer
        obtain ⟨l, hl, hs⟩ := startLine_eq hbuffer hdraft
        rw [if_neg (by omega), hroom, hl]
        refine ⟨_, rfl, hinv.history, room, _, hroom, hs, ?_⟩
        exact ⟨by simp [Printable], Nat.zero_le _, by simp [Printable], Nat.zero_le _, Nat.zero_le _⟩
  | byte c =>
      obtain ⟨l, hl⟩ := hfits
      obtain ⟨hh, hstatus⟩ := hinv
      rw [hl] at hstatus
      obtain ⟨room, e, hroom, hs, he⟩ := hstatus
      have hlt : room < consoleLineCapacity := by
        have hle : effective log.capacity ≤ consoleLineCapacity := Nat.min_le_right ..
        omega
      -- the pass does what the editor does, and the editor stays in order
      obtain ⟨o, ho, hrel⟩ := hs.lineStep_eq hh he hlt c
      have he' := he.step hh.printable_recent c
      generalize (e.step (recent historyDepth (remembered log.lines)) room c).1 = r at hrel he'
      simp only [step, hl, ho, Option.bind_eq_bind, Option.bind_some]
      cases hrel with
      | more hs' => exact ⟨_, rfl, hh, room, _, hroom, hs', he'⟩
      | @enter l e hs' =>
          obtain ⟨buffer, h', hfinish, hlen, hstr, hh'⟩ :=
            finishLine_eq hh hs' he'.text he'.text_le hlt
          have hline : buffer.take l.length = e.text := by
            rw [hs'.length, hstr.take_length]
          rw [← hline] at hh'
          simp only [hfinish, Option.bind_some]
          refine ⟨_, rfl, hh', hlen.trans hroom.symm, ?_, fun _ => ⟨e.text, hstr, hs'.length⟩⟩
          intro hzero
          have hzero' : log.capacity = 0 := hzero
          rw [hzero'] at hroom
          exact absurd hroom (Nat.succ_ne_zero room).symm

theorem reachable_inv {p : State × Log} (h : loggedConsole.Reachable p) : Inv p.2 p.1 := by
  refine Lts.Reachable.history_invariant (P := fun s log => Inv log s) ?_ ?_ h
  · rintro s rfl
    exact inv_boot
  · rintro s log op t _ hinv ⟨hfits, hstep⟩
    obtain ⟨t', hstep', hinv'⟩ := inv_step hinv hfits
    obtain rfl := Option.some_inj.1 (hstep.symm.trans hstep')
    exact hinv'

/-! ### A session -/

/-- The console after a call with room for one character, the letters `a` and `b`, and Enter. -/
def afterLine : State where
  history := {
    history := ⟨[0x61#8] ++ List.replicate 79 0, true⟩ ::
      List.replicate 7 ⟨List.replicate 80 0, false⟩
    historyCount := 1
    historyNext := 1 }
  status := .returned 1 [0x61#8, 0]

theorem reachable_afterLine : loggedConsole.Reachable (afterLine, ⟨2, [[0x61#8]]⟩) := by
  have hboot : loggedConsole.Reachable (State.boot, ⟨0, []⟩) := Lts.Reachable.init ⟨rfl, rfl⟩
  have hcall : loggedConsole.Reachable (⟨History.boot, .reading
      ⟨[0, 7], 2, 0, List.replicate 80 0, 0, .normal⟩⟩, ⟨2, []⟩) :=
    hboot.step (e := .call 2 [7, 7] (List.replicate 80 0))
      ⟨⟨⟨nofun, rfl, rfl⟩, rfl⟩, rfl⟩
  have ha : loggedConsole.Reachable (⟨History.boot, .reading
      ⟨[0x61#8, 0], 2, 1, List.replicate 80 0, 0, .normal⟩⟩, ⟨2, []⟩) :=
    hcall.step (e := .byte 0x61#8) ⟨⟨⟨_, rfl⟩, rfl⟩, rfl⟩
  have hb : loggedConsole.Reachable (⟨History.boot, .reading
      ⟨[0x61#8, 0], 2, 1, List.replicate 80 0, 0, .normal⟩⟩, ⟨2, []⟩) :=
    ha.step (e := .byte 0x62#8) ⟨⟨⟨_, rfl⟩, rfl⟩, rfl⟩
  exact hb.step (e := .byte carriageReturn) ⟨⟨⟨_, rfl⟩, rfl⟩, rfl⟩

/-! ### Bounds -/

/-- **The bounds of the line editor.**  In every session the indices of the ring are in range and
each entry in use is a line that is not blank; the call at work has a string of printable
characters in its buffer and another in its draft, and looks back no further than the ring goes; a
call that has returned has returned the length of the string in its buffer.  No call and no byte
makes the code leave an array or read a row that was never filled, and a call with capacity 0
returns at once and writes nothing. -/
theorem readline_bounds {s : State} {log : Log} (h : loggedConsole.Reachable (s, log)) :
    s.history.historyCount ≤ historyDepth ∧ s.history.historyNext < historyDepth ∧
    (∀ row ∈ s.history.history, row.bytes.length = consoleLineCapacity) ∧
    (∀ k, 1 ≤ k → k ≤ s.history.historyCount → ∃ row w, historyEntry s.history k = some row ∧
      StringAt row 0 w ∧ w.length ≤ 79 ∧ Printable w ∧ ¬ IsBlank w) ∧
    (∀ l, s.status = .reading l →
      l.capacity = effective log.capacity ∧ l.buffer.length = effective log.capacity ∧
      l.length < effective log.capacity ∧ l.buffer[l.length]? = some 0 ∧
      Printable (l.buffer.take l.length) ∧
      l.draft.length = consoleLineCapacity ∧ (∃ w, StringAt l.draft 0 w ∧ Printable w) ∧
      l.historyOffset ≤ s.history.historyCount) ∧
    (∀ n buffer, s.status = .returned n buffer →
      buffer.length = effective log.capacity ∧ (log.capacity = 0 → n = 0) ∧
      (log.capacity ≠ 0 → ∃ w, StringAt buffer 0 w ∧ n = w.length)) ∧
    (∀ op, op.Fits s → ∃ t, step op s = some t) ∧
    ∀ buffer draft, step (.call 0 buffer draft) s = some { s with status := .returned 0 buffer } := by
  obtain ⟨hh, hstatus⟩ := reachable_inv h
  dsimp only at hh hstatus
  refine ⟨?_, hh.ring.next_lt, hh.row_length, ?_, ?_, ?_, ?_, fun _ _ => rfl⟩
  · rw [hh.ring.count_eq]
    exact Nat.min_le_left ..
  · intro k hk hk'
    obtain ⟨row, w, hrow, -, hholds, hlen⟩ := hh.historyEntry_eq hk hk'
    have hlt : w.length < consoleLineCapacity := hholds.text.length_lt.trans_eq hlen
    exact ⟨row.bytes, w, hrow, hholds.text, Nat.le_of_lt_succ hlt, hholds.printable,
      hholds.notBlank⟩
  · intro l hl
    rw [hl] at hstatus
    obtain ⟨room, e, hroom, hs, he⟩ := hstatus
    have hle := he.text_le
    have hoffset_le := he.offset_le
    rw [hroom, hs.length, hs.text.take_length, hs.offset, hh.ring.count_eq_length]
    exact ⟨hs.capacity, hs.buffer_length, Nat.lt_succ_of_le hle, hs.text.getElem?_length, he.text,
      hs.draft_length, ⟨e.draft, hs.draft, he.draft⟩, hoffset_le⟩
  · intro n buffer hreturned
    rw [hreturned] at hstatus
    exact hstatus
  · intro op hfits
    obtain ⟨t, hstep, -⟩ := inv_step ⟨hh, hstatus⟩ hfits
    exact ⟨t, hstep⟩

/-- A call that has room for one character returns 1 for a longer line. -/
theorem readline_bounds_afterLine : ∃ w, StringAt [0x61#8, 0] 0 w ∧ 1 = w.length :=
  ((readline_bounds reachable_afterLine).2.2.2.2.2.1 1 _ rfl).2.2 (by decide)

/-! ### The ring is a list -/

/-- An operation that completes no line leaves the ring as it is. -/
theorem step_history {log : Log} {s t : State} {op : Op} (hstep : step op s = some t)
    (hlines : (log.record s op t).lines = log.lines) : t.history = s.history := by
  cases op with
  | call capacity buffer draft =>
      rw [step] at hstep
      split at hstep
      · cases hstep
        rfl
      · obtain ⟨l, -, hl⟩ := Option.bind_eq_some_iff.1 hstep
        cases hl
        rfl
  | byte c =>
      cases hs : s.status with
      | idle =>
          simp only [step, hs] at hstep
          cases hstep
          rfl
      | returned n buffer =>
          simp only [step, hs] at hstep
          cases hstep
          rfl
      | reading l =>
          simp only [step, hs] at hstep
          obtain ⟨⟨o, output⟩, -, ho⟩ := Option.bind_eq_some_iff.1 hstep
          cases o with
          | more l =>
              cases ho
              rfl
          | enter l =>
              obtain ⟨⟨buffer, h⟩, -, hreturn⟩ := Option.bind_eq_some_iff.1 ho
              cases hreturn
              exact absurd hlines (by simp [Log.record])

/-- **The ring is the list of remembered lines.**  In every session the ring counts the lines
worth remembering up to eight of them, an entry of the ring is the line that was completed so long
ago, and whatever completes no line, be it recalling an entry or editing it, changes no entry. -/
theorem history_refines {s : State} {log : Log} (h : loggedConsole.Reachable (s, log)) :
    s.history.historyCount = min 8 (remembered log.lines).length ∧
    (∀ k, 1 ≤ k → k ≤ s.history.historyCount → ∃ row w, historyEntry s.history k = some row ∧
      (remembered log.lines)[(remembered log.lines).length - k]? = some w ∧ StringAt row 0 w) ∧
    ∀ op t, step op s = some t → (log.record s op t).lines = log.lines →
      t.history = s.history := by
  obtain ⟨hh, -⟩ := reachable_inv h
  refine ⟨hh.ring.count_eq, ?_, fun op t => step_history⟩
  intro k hk hk'
  obtain ⟨row, w, hrow, hw, hholds, -⟩ := hh.historyEntry_eq hk hk'
  exact ⟨row.bytes, w, hrow, hw, hholds.text⟩

/-- The console after the lines `a`, a space, `a` again and `b`. -/
def afterLines : State where
  history := {
    history := ⟨[0x61#8] ++ List.replicate 79 0, true⟩ ::
      ⟨[0x62#8] ++ List.replicate 79 0, true⟩ :: List.replicate 6 ⟨List.replicate 80 0, false⟩
    historyCount := 2
    historyNext := 2 }
  status := .returned 1 [0x62#8, 0]

/-- A call, a character and Enter. -/
def lineOps (c : Byte) : List Op :=
  [.call 2 [7, 7] (List.replicate 80 0), .byte c, .byte carriageReturn]

theorem reachable_afterLines : loggedConsole.Reachable
    (afterLines, ⟨2, [[0x61#8], [0x20#8], [0x61#8], [0x62#8]]⟩) := by
  have hblank : loggedConsole.Run (afterLine, ⟨2, [[0x61#8]]⟩) (lineOps 0x20)
      (⟨afterLine.history, .returned 1 [0x20#8, 0]⟩, ⟨2, [[0x61#8], [0x20#8]]⟩) := by
    refine .cons (t := (_, _)) ⟨⟨⟨nofun, rfl, rfl⟩, rfl⟩, rfl⟩ ?_
    refine .cons (t := (_, _)) ⟨⟨⟨_, rfl⟩, rfl⟩, rfl⟩ ?_
    exact .cons (t := (_, _)) ⟨⟨⟨_, rfl⟩, rfl⟩, rfl⟩ .nil
  have hagain : loggedConsole.Run
      (⟨afterLine.history, .returned 1 [0x20#8, 0]⟩, ⟨2, [[0x61#8], [0x20#8]]⟩) (lineOps 0x61)
      (afterLine, ⟨2, [[0x61#8], [0x20#8], [0x61#8]]⟩) := by
    refine .cons (t := (_, _)) ⟨⟨⟨nofun, rfl, rfl⟩, rfl⟩, rfl⟩ ?_
    refine .cons (t := (_, _)) ⟨⟨⟨_, rfl⟩, rfl⟩, rfl⟩ ?_
    exact .cons (t := (_, _)) ⟨⟨⟨_, rfl⟩, rfl⟩, rfl⟩ .nil
  have hnew : loggedConsole.Run (afterLine, ⟨2, [[0x61#8], [0x20#8], [0x61#8]]⟩) (lineOps 0x62)
      (afterLines, ⟨2, [[0x61#8], [0x20#8], [0x61#8], [0x62#8]]⟩) := by
    refine .cons (t := (_, _)) ⟨⟨⟨nofun, rfl, rfl⟩, rfl⟩, rfl⟩ ?_
    refine .cons (t := (_, _)) ⟨⟨⟨_, rfl⟩, rfl⟩, rfl⟩ ?_
    exact .cons (t := (_, _)) ⟨⟨⟨_, rfl⟩, rfl⟩, rfl⟩ .nil
  exact reachable_afterLine.run (hblank.append (hagain.append hnew))

/-- The blank line and the repeated one are not entries: the second to last entry is the `a`. -/
theorem history_refines_afterLines : ∃ row w, historyEntry afterLines.history 2 = some row ∧
    [[0x61#8], [0x62#8]][0]? = some w ∧ StringAt row 0 w :=
  (history_refines reachable_afterLines).2.1 2 (by decide) (by decide)

end Console

end MiniOs
