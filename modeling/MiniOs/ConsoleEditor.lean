/-
**What the line editor does, without its arrays.**

Seen from the keyboard there is a text, a draft kept while earlier lines are looked at, and how far
back the shown line is; an earlier line is shown as far as there is room for it.  The code keeps the
text and the draft as strings in arrays and finds the earlier lines in its ring.  Each pass of its
loop does to these what the editor does here, without leaving an array.

Main definitions:

* `Console.Editor`, `Console.Editor.step` — the editor, and what a byte does to it;
* `Console.Editor.Ok` — what is true of it after any bytes;
* `Console.Shows` — **the arrays hold what the editor has**.

Main results:

* `Console.Editor.Ok.step` — every byte keeps the invariant;
* `Console.Shows.lineStep_eq` — **the loop simulates the editor**.
-/

import MiniOs.ConsoleHistory

set_option relaxedAutoImplicit false
set_option autoImplicit false

namespace MiniOs

namespace Console

open CString
open RecentRing (recent)

/-! ### The editor -/

/-- A line editor at work. -/
structure Editor where
  text : List Byte
  draft : List Byte
  /-- How far back the earlier line is that was shown last; 0 when none is. -/
  offset : ℕ
  escape : EscapeState

/-- The line that a pass of the loop leaves, whether it is finished or not. -/
def Outcome.line {α : Type} : Outcome α → α
  | .more l => l
  | .enter l => l

/-- Two passes agree on whether the line is finished, and their lines are related. -/
inductive Outcome.Rel {α β : Type} (R : α → β → Prop) : Outcome α → Outcome β → Prop
  | more {l : α} {e : β} : R l e → Rel R (.more l) (.more e)
  | enter {l : α} {e : β} : R l e → Rel R (.enter l) (.enter e)

namespace Editor

/-- Show another text in place of the one shown, cut to the room there is. -/
def replace (room : ℕ) (w : List Byte) (e : Editor) : Editor × List Byte :=
  ({ e with text := w.take room },
    uartPuts (List.replicate e.text.length erase).flatten ++ w.take room)

/-- The Up key: go one line back, and keep the text as the draft when it is left. -/
def up (earlier : List (List Byte)) (room : ℕ) (e : Editor) : Editor × List Byte :=
  match earlier[e.offset]? with
  | some w => replace room w
      { e with draft := if e.offset = 0 then e.text else e.draft, offset := e.offset + 1 }
  | none => (e, [])

/-- The Down key: go one line forward, and back to the draft from the newest one. -/
def down (earlier : List (List Byte)) (room : ℕ) (e : Editor) : Editor × List Byte :=
  match e.offset with
  | 0 => (e, [])
  | 1 => replace room e.draft { e with offset := 0 }
  | k + 2 =>
      match earlier[k]? with
      | some w => replace room w { e with offset := k + 1 }
      | none => (e, [])

/-- The last byte of an escape sequence. -/
def key (earlier : List (List Byte)) (room : ℕ) (c : Byte) (e : Editor) : Editor × List Byte :=
  match keyOf c with
  | .up => up earlier room e
  | .down => down earlier room e
  | .none => (e, [])

/-- A byte that is not part of an escape sequence. -/
def char (room : ℕ) (c : Byte) (e : Editor) : Outcome Editor × List Byte :=
  if c = carriageReturn ∨ c = newline then (.enter e, uartPuts [newline])
  else if c = escapeChar then (.more { e with escape := .seen }, [])
  else if c = backspace ∨ c = delete then
    if 0 < e.text.length then (.more { e with text := e.text.dropLast }, uartPuts erase)
    else (.more e, [])
  else if IsPrintable c ∧ e.text.length < room then (.more { e with text := e.text ++ [c] }, [c])
  else (.more e, [])

/-- What a byte does to the editor, and what is sent for it. -/
def step (earlier : List (List Byte)) (room : ℕ) (c : Byte) (e : Editor) :
    Outcome Editor × List Byte :=
  match e.escape with
  | .seen =>
      if c = 0x5b#8 then (.more { e with escape := .csi }, [])
      else if c = 0x4f#8 then (.more { e with escape := .ss3 }, [])
      else char room c { e with escape := .normal }
  | .csi => (key earlier room c { e with escape := .normal }).map .more id
  | .ss3 => (key earlier room c { e with escape := .normal }).map .more id
  | .normal => char room c e

variable {earlier : List (List Byte)} {room : ℕ} {e : Editor}

theorem up_of_some {w : List Byte} (h : earlier[e.offset]? = some w) :
    e.up earlier room = replace room w
      { e with draft := if e.offset = 0 then e.text else e.draft, offset := e.offset + 1 } := by
  rw [up, h]

theorem up_of_none (h : earlier[e.offset]? = none) : e.up earlier room = (e, []) := by
  rw [up, h]

theorem down_zero (h : e.offset = 0) : e.down earlier room = (e, []) := by
  rw [down, h]

theorem down_one (h : e.offset = 1) :
    e.down earlier room = replace room e.draft { e with offset := 0 } := by
  rw [down, h]

theorem down_of_some {k : ℕ} {w : List Byte} (h : e.offset = k + 2) (hw : earlier[k]? = some w) :
    e.down earlier room = replace room w { e with offset := k + 1 } := by
  simp only [down, h, hw]

theorem up_offset (h : e.offset < earlier.length) :
    (e.up earlier room).1.offset = e.offset + 1 := by
  rw [up_of_some (List.getElem?_eq_getElem h)]
  rfl

theorem down_offset (h : 0 < e.offset) (hle : e.offset ≤ earlier.length) :
    (e.down earlier room).1.offset + 1 = e.offset := by
  obtain ⟨n, hn⟩ := Nat.exists_eq_add_of_lt h
  rw [Nat.zero_add] at hn
  cases n with
  | zero =>
      rw [down_one hn, hn]
      rfl
  | succ k =>
      rw [down_of_some hn (List.getElem?_eq_getElem (by omega)), hn]
      rfl

/-! ### The invariant of the editor -/

/-- What is true of the editor after any bytes. -/
structure Ok (earlier : List (List Byte)) (room : ℕ) (e : Editor) : Prop where
  text : Printable e.text
  text_le : e.text.length ≤ room
  draft : Printable e.draft
  draft_le : e.draft.length ≤ room
  offset_le : e.offset ≤ earlier.length

namespace Ok

/-- The state of the escape sequence does not matter. -/
theorem setEscape (h : e.Ok earlier room) (s : EscapeState) :
    Ok earlier room { e with escape := s } :=
  ⟨h.text, h.text_le, h.draft, h.draft_le, h.offset_le⟩

theorem replace (h : e.Ok earlier room) {w : List Byte} (hw : Printable w) :
    Ok earlier room (e.replace room w).1 :=
  ⟨hw.take room, List.length_take_le .., h.draft, h.draft_le, h.offset_le⟩

theorem up (h : e.Ok earlier room) (hp : ∀ w ∈ earlier, Printable w) :
    Ok earlier room (e.up earlier room).1 := by
  cases hw : earlier[e.offset]? with
  | none =>
      rw [up_of_none hw]
      exact h
  | some w =>
      obtain ⟨hlt, -⟩ := List.getElem?_eq_some_iff.1 hw
      have hdraft : Printable (if e.offset = 0 then e.text else e.draft) := by
        split
        exacts [h.text, h.draft]
      have hdraft_le : (if e.offset = 0 then e.text else e.draft).length ≤ room := by
        split
        exacts [h.text_le, h.draft_le]
      have h' : Ok earlier room
          { e with draft := if e.offset = 0 then e.text else e.draft, offset := e.offset + 1 } :=
        ⟨h.text, h.text_le, hdraft, hdraft_le, hlt⟩
      rw [up_of_some hw]
      exact h'.replace (hp w (List.mem_of_getElem? hw))

theorem down (h : e.Ok earlier room) (hp : ∀ w ∈ earlier, Printable w) :
    Ok earlier room (e.down earlier room).1 := by
  have hle := h.offset_le
  -- only the offset changes before the text is replaced
  have hback : ∀ n, n ≤ earlier.length → Ok earlier room { e with offset := n } :=
    fun n hn => ⟨h.text, h.text_le, h.draft, h.draft_le, hn⟩
  rcases hoffset : e.offset with _ | _ | k
  · rw [down_zero hoffset]
    exact h
  · rw [down_one hoffset]
    exact (hback 0 (Nat.zero_le _)).replace h.draft
  · have hlt : k < earlier.length := by omega
    rw [down_of_some hoffset (List.getElem?_eq_getElem hlt)]
    exact (hback (k + 1) hlt).replace (hp _ (List.getElem_mem hlt))

theorem key (h : e.Ok earlier room) (hp : ∀ w ∈ earlier, Printable w) (c : Byte) :
    Ok earlier room (e.key earlier room c).1 := by
  rw [Editor.key]
  cases keyOf c with
  | none => exact h
  | up => exact h.up hp
  | down => exact h.down hp

theorem char (h : e.Ok earlier room) (c : Byte) : Ok earlier room (e.char room c).1.line := by
  rw [Editor.char]
  split_ifs with hend hescape herase hpos htype
  · exact h
  · exact h.setEscape _
  · have hle : e.text.dropLast.length ≤ room := by
      rw [List.length_dropLast]
      exact (Nat.sub_le ..).trans h.text_le
    exact ⟨fun d hd => h.text d (List.dropLast_subset _ hd), hle, h.draft, h.draft_le, h.offset_le⟩
  · exact h
  · have hprint : Printable (e.text ++ [c]) := by
      intro d hd
      rcases List.mem_append.1 hd with hd | hd
      · exact h.text d hd
      · rw [List.mem_singleton.1 hd]
        exact htype.1
    have hle : (e.text ++ [c]).length ≤ room := by
      rw [List.length_append, List.length_singleton]
      exact htype.2
    exact ⟨hprint, hle, h.draft, h.draft_le, h.offset_le⟩
  · exact h

/-- **Every byte keeps the invariant**, when the earlier lines are printable. -/
theorem step (h : e.Ok earlier room) (hp : ∀ w ∈ earlier, Printable w) (c : Byte) :
    Ok earlier room (e.step earlier room c).1.line := by
  rw [Editor.step]
  cases e.escape with
  | normal => exact h.char c
  | seen =>
      dsimp only
      split_ifs
      · exact h.setEscape _
      · exact h.setEscape _
      · exact (h.setEscape _).char c
  | csi => exact (h.setEscape _).key hp c
  | ss3 => exact (h.setEscape _).key hp c

end Ok

end Editor

/-! ### The arrays hold what the editor has -/

/-- **The arrays hold what the editor has**: the text and the draft stand in them as strings. -/
structure Shows (room : ℕ) (l : Line) (e : Editor) : Prop where
  capacity : l.capacity = room + 1
  buffer_length : l.buffer.length = room + 1
  length : l.length = e.text.length
  text : StringAt l.buffer 0 e.text
  draft_length : l.draft.length = consoleLineCapacity
  draft : StringAt l.draft 0 e.draft
  offset : l.historyOffset = e.offset
  escape : l.escape = e.escape

namespace Shows

variable {room : ℕ} {l : Line} {e : Editor} {h : History} {items : List (List Byte)}

theorem setEscape (hs : Shows room l e) (s : EscapeState) :
    Shows room { l with escape := s } { e with escape := s } :=
  { hs with escape := rfl }

theorem setOffset (hs : Shows room l e) (n : ℕ) :
    Shows room { l with historyOffset := n } { e with offset := n } :=
  { hs with offset := rfl }

theorem replaceLine_eq (hs : Shows room l e) {replacement w : List Byte}
    (hw : StringAt replacement 0 w) :
    ∃ l', replaceLine replacement l = some (l', (e.replace room w).2) ∧
      Shows room l' (e.replace room w).1 := by
  have hroom : l.capacity - 1 = room := by
    rw [hs.capacity, Nat.add_sub_cancel]
  have hpos : 0 < l.capacity := by
    rw [hs.capacity]
    exact Nat.succ_pos room
  have hle : l.capacity ≤ l.buffer.length := by
    rw [hs.capacity, hs.buffer_length]
  obtain ⟨copy, hcopy, hlen, htext⟩ := copyString_eq hw hpos hle
  rw [hroom] at hcopy htext
  refine ⟨{ l with buffer := copy, length := (w.take room).length }, ?_, ?_⟩
  · rw [replaceLine, hcopy, Option.bind_eq_bind, Option.bind_some, hs.length]
    dsimp only
    rw [htext.take_length]
    rfl
  · exact { hs with
      buffer_length := hlen.trans hs.buffer_length
      length := rfl
      text := htext }

theorem saveDraft_eq (hs : Shows room l e) (he : e.Ok (recent historyDepth items) room)
    (hroom : room < consoleLineCapacity) :
    ∃ draft, saveDraft l = some draft ∧
      Shows room { l with draft := draft }
        { e with draft := if e.offset = 0 then e.text else e.draft } := by
  have htext_le := he.text_le
  have hoffset := hs.offset
  have hlen := hs.length
  have hbuf := hs.buffer_length
  rw [saveDraft]
  rcases Nat.eq_zero_or_pos e.offset with hzero | hpos
  · have htake : l.buffer.take l.length = e.text := by
      rw [hlen, hs.text.take_length]
    have h0 : (0 : Byte) ∉ l.buffer.take l.length := by
      rw [htake]
      exact hs.text.1
    have hlt : l.length < consoleLineCapacity := by omega
    have hle : l.length ≤ l.buffer.length := by omega
    obtain ⟨saved, hsaved, hsaved_len, hstr⟩ := saveLine_eq hlt hs.draft_length.ge hle h0
    rw [htake] at hstr
    rw [if_pos (hoffset.trans hzero), if_pos hzero]
    exact ⟨saved, hsaved, { hs with
      draft_length := hsaved_len.trans hs.draft_length
      draft := hstr }⟩
  · rw [if_neg (by omega), if_neg (by omega)]
    exact ⟨l.draft, rfl, hs⟩

theorem keyUp_eq (hs : Shows room l e) (hh : HistoryHolds h items)
    (he : e.Ok (recent historyDepth items) room) (hroom : room < consoleLineCapacity) :
    ∃ l', keyUp h l = some (l', (e.up (recent historyDepth items) room).2) ∧
      Shows room l' (e.up (recent historyDepth items) room).1 := by
  have hcount := hh.ring.count_eq_length
  have hoffset_le := he.offset_le
  have hoffset := hs.offset
  rw [keyUp]
  rcases Nat.eq_zero_or_pos h.historyCount with hzero | hpos
  · rw [if_neg (not_not.2 hzero), Editor.up_of_none (List.getElem?_eq_none_iff.2 (by omega))]
    exact ⟨l, rfl, hs⟩
  · obtain ⟨draft, hdraft, hs'⟩ := hs.saveDraft_eq he hroom
    rw [if_pos (by omega), hdraft, Option.bind_eq_bind, Option.bind_some]
    dsimp only
    rcases Nat.lt_or_ge e.offset h.historyCount with hlt | hge
    · -- there is an earlier line to show
      have hw := List.getElem?_eq_getElem (lt_of_lt_of_eq hlt hcount)
      obtain ⟨row, hrow, hholds⟩ := hh.historyEntry_recent hw
      obtain ⟨l', hl', hshows⟩ := (hs'.setOffset (e.offset + 1)).replaceLine_eq hholds.text
      rw [Editor.up_of_some hw, if_pos (by omega), hoffset, hrow, Option.bind_some]
      exact ⟨l', hl', hshows⟩
    · -- the oldest line is shown already, so the draft was saved before
      rw [if_neg (by omega)] at hs'
      rw [Editor.up_of_none (List.getElem?_eq_none_iff.2 (by omega)), if_neg (by omega)]
      exact ⟨_, rfl, hs'⟩

theorem keyDown_eq (hs : Shows room l e) (hh : HistoryHolds h items)
    (he : e.Ok (recent historyDepth items) room) :
    ∃ l', keyDown h l = some (l', (e.down (recent historyDepth items) room).2) ∧
      Shows room l' (e.down (recent historyDepth items) room).1 := by
  have hoffset_le := he.offset_le
  rw [keyDown, hs.offset]
  rcases hoffset : e.offset with _ | _ | k
  · rw [if_neg (not_not.2 rfl), Editor.down_zero hoffset]
    exact ⟨l, rfl, hs⟩
  · obtain ⟨l', hl', hshows⟩ := (hs.setOffset 0).replaceLine_eq hs.draft
    rw [if_pos (by omega), Editor.down_one hoffset]
    exact ⟨l', hl', hshows⟩
  · have hw := List.getElem?_eq_getElem (l := recent historyDepth items) (i := k) (by omega)
    obtain ⟨row, hrow, hholds⟩ := hh.historyEntry_recent hw
    obtain ⟨l', hl', hshows⟩ := (hs.setOffset (k + 1)).replaceLine_eq hholds.text
    rw [if_pos (by omega), Editor.down_of_some hoffset hw]
    dsimp only
    rw [if_neg (by omega), Nat.add_sub_cancel, hrow, Option.bind_eq_bind, Option.bind_some]
    exact ⟨l', hl', hshows⟩

theorem readKey_eq (hs : Shows room l e) (hh : HistoryHolds h items)
    (he : e.Ok (recent historyDepth items) room) (hroom : room < consoleLineCapacity) (c : Byte) :
    ∃ l', readKey h c l = some (l', (e.key (recent historyDepth items) room c).2) ∧
      Shows room l' (e.key (recent historyDepth items) room c).1 := by
  rw [readKey, Editor.key]
  cases keyOf c with
  | none => exact ⟨l, rfl, hs⟩
  | up => exact hs.keyUp_eq hh he hroom
  | down => exact hs.keyDown_eq hh he

theorem erase_eq (hs : Shows room l e) (he : e.text.length ≤ room) (hpos : 0 < e.text.length) :
    ∃ buffer, store l.buffer (l.length - 1) 0 = some buffer ∧
      Shows room { l with buffer := buffer, length := l.length - 1 }
        { e with text := e.text.dropLast } := by
  have hlen := hs.length
  have hbuf := hs.buffer_length
  have hlt : l.length - 1 < l.buffer.length := by omega
  have htake : l.buffer.take (l.length - 1) = e.text.dropLast :=
    calc l.buffer.take (l.length - 1)
        = (l.buffer.take e.text.length).take (l.length - 1) := by
          rw [List.take_take, Nat.min_eq_left (by omega)]
      _ = e.text.dropLast := by
          rw [hs.text.take_length, List.dropLast_eq_take, hlen]
  refine ⟨_, store_of_lt hlt 0, { hs with
    buffer_length := (List.length_set ..).trans hbuf
    length := ?_
    text := stringAt_set hlt htake fun hmem => hs.text.1 (List.dropLast_subset _ hmem) }⟩
  rw [List.length_dropLast, hlen]

theorem type_eq (hs : Shows room l e) {c : Byte} (hc : c ≠ 0) (hlt : e.text.length < room) :
    ∃ typed buffer, store l.buffer l.length c = some typed ∧
      store typed (l.length + 1) 0 = some buffer ∧
      Shows room { l with buffer := buffer, length := l.length + 1 }
        { e with text := e.text ++ [c] } := by
  have hlen := hs.length
  have hbuf := hs.buffer_length
  -- the letter goes over the old zero, and a new zero after it
  have hlt' : l.length + 1 < (l.buffer.set l.length c).length := by
    rw [List.length_set]
    omega
  have htake : (l.buffer.set l.length c).take (l.length + 1) = e.text ++ [c] := by
    rw [take_set (by omega), hlen, hs.text.take_length]
  have h0 : (0 : Byte) ∉ e.text ++ [c] := by
    intro hmem
    rcases List.mem_append.1 hmem with hmem | hmem
    · exact hs.text.1 hmem
    · exact hc (List.mem_singleton.1 hmem).symm
  refine ⟨_, _, store_of_lt (by omega) c, store_of_lt hlt' 0, { hs with
    buffer_length := by rw [List.length_set, List.length_set, hbuf]
    length := ?_
    text := stringAt_set hlt' htake h0 }⟩
  rw [List.length_append, List.length_singleton, hlen]

theorem readChar_eq (hs : Shows room l e) (he : e.text.length ≤ room) (c : Byte) :
    ∃ o, readChar c l = some (o, (e.char room c).2) ∧
      Outcome.Rel (Shows room) o (e.char room c).1 := by
  have hlen := hs.length
  have hcap := hs.capacity
  rw [readChar, Editor.char]
  -- both sides make the same tests, the code on its counters and the editor on its text
  split_ifs with hend hescape herase hpos hpos' hpos' htype htype' htype'
  · exact ⟨_, rfl, Outcome.Rel.enter hs⟩
  · exact ⟨_, rfl, Outcome.Rel.more (hs.setEscape _)⟩
  · obtain ⟨buffer, hstore, hs'⟩ := hs.erase_eq he hpos'
    rw [hstore]
    exact ⟨_, rfl, Outcome.Rel.more hs'⟩
  · omega
  · omega
  · exact ⟨_, rfl, Outcome.Rel.more hs⟩
  · obtain ⟨typed, buffer, hstore, hstore', hs'⟩ := hs.type_eq (isPrintable_ne_zero htype'.1) htype'.2
    rw [hstore, Option.bind_eq_bind, Option.bind_some, hstore']
    exact ⟨_, rfl, Outcome.Rel.more hs'⟩
  · exact absurd ⟨htype.1, by omega⟩ htype'
  · exact absurd ⟨htype'.1, by omega⟩ htype
  · exact ⟨_, rfl, Outcome.Rel.more hs⟩

/-- **The loop simulates the editor**: a pass stays inside its arrays and does to them what the
byte does to the editor. -/
theorem lineStep_eq (hs : Shows room l e) (hh : HistoryHolds h items)
    (he : e.Ok (recent historyDepth items) room) (hroom : room < consoleLineCapacity) (c : Byte) :
    ∃ o, lineStep h c l = some (o, (e.step (recent historyDepth items) room c).2) ∧
      Outcome.Rel (Shows room) o (e.step (recent historyDepth items) room c).1 := by
  rw [lineStep, Editor.step, hs.escape]
  cases e.escape with
  | normal => exact hs.readChar_eq he.text_le c
  | seen =>
      dsimp only
      split_ifs
      · exact ⟨_, rfl, Outcome.Rel.more (hs.setEscape _)⟩
      · exact ⟨_, rfl, Outcome.Rel.more (hs.setEscape _)⟩
      · exact (hs.setEscape .normal).readChar_eq he.text_le c
  | csi =>
      obtain ⟨l', hl', hs'⟩ := (hs.setEscape .normal).readKey_eq hh (he.setEscape _) hroom c
      dsimp only
      rw [hl']
      exact ⟨_, rfl, Outcome.Rel.more hs'⟩
  | ss3 =>
      obtain ⟨l', hl', hs'⟩ := (hs.setEscape .normal).readKey_eq hh (he.setEscape _) hroom c
      dsimp only
      rw [hl']
      exact ⟨_, rfl, Outcome.Rel.more hs'⟩

end Shows

end Console

end MiniOs
