/-
**Looking at earlier lines, and coming back.**

Up and Down go through the ring of earlier lines while a line is being typed.  The line being typed
is saved in the draft when it is left for the newest entry, and nothing that happens at the other
positions touches the draft until it is shown again.  A record keeps the text that the line had when
none of the entries was shown.

Main definitions:

* `Console.readlineTyped` — a call with the line as it was last typed;
* `Console.arrow` — the bytes of an arrow key;
* `Console.readBytes` — a call fed several bytes.

Main results:

* `Console.Editor.Move.typed_eq` — no move but editing the line being typed changes it;
* `Console.history_navigation` — **recalling entries and coming back to the line being typed**.
-/

import MiniOs.ConsoleCall

set_option relaxedAutoImplicit false
set_option autoImplicit false

namespace MiniOs

namespace Console

open CString
open RecentRing (recent recent_getElem?)

/-! ### The line being typed -/

/-- The text of the line when `history_offset` was last 0. -/
def recordTyped (typed : List Byte) (_ : Line) (_ : Byte × List Byte) (l : Line) : List Byte :=
  if l.historyOffset = 0 then l.text else typed

/-- A call of `console_readline` with the line as it was last typed. -/
def readlineTyped (h : History) (buffer draft : List Byte) (capacity : ℕ) :
    Lts (Line × List Byte) (Byte × List Byte) :=
  (readline h buffer draft capacity).withHistory [] recordTyped

namespace Editor

variable {earlier : List (List Byte)} {room : ℕ} {e e' : Editor} {output : List Byte}

theorem typed_of_zero (h : e.offset = 0) : e.typed = e.text := if_pos h

theorem typed_of_ne (h : e.offset ≠ 0) : e.typed = e.draft := if_neg h

/-- **No move changes the line being typed** unless it is shown before and after. -/
theorem Move.typed_eq (h : Move earlier room e e' output) (hdraft : e.draft.length ≤ room)
    (hne : e'.offset ≠ 0 ∨ e.offset ≠ 0) : e'.typed = e.typed := by
  cases h with
  | stay s => rfl
  | type s hc =>
      have hoffset : e.offset ≠ 0 := hne.elim id id
      rw [typed_of_ne hoffset]
      exact typed_of_ne hoffset
  | erase s htext =>
      have hoffset : e.offset ≠ 0 := hne.elim id id
      rw [typed_of_ne hoffset]
      exact typed_of_ne hoffset
  | up s hw => exact typed_of_ne (Nat.succ_ne_zero _)
  | down s hoffset hw =>
      rw [typed_of_ne (e := e) (by omega)]
      exact typed_of_ne (Nat.succ_ne_zero _)
  | back s hoffset =>
      rw [typed_of_ne (e := e) (by omega)]
      exact List.take_of_length_le hdraft

/-- A move to an entry shows the entry, as far as there is room. -/
theorem Move.recalled (h : Move earlier room e e' output) {k : ℕ} (hk : e'.offset = k + 1)
    (hne : e'.offset ≠ e.offset) : ∃ w, earlier[k]? = some w ∧ e'.text = w.take room := by
  cases h with
  | stay s => exact absurd rfl hne
  | type s hc => exact absurd rfl hne
  | erase s htext => exact absurd rfl hne
  | @up s w hw =>
      obtain rfl := Nat.succ.inj hk
      exact ⟨w, hw, rfl⟩
  | @down s k' w hoffset hw =>
      obtain rfl := Nat.succ.inj hk
      exact ⟨w, hw, rfl⟩
  | back s hoffset => exact absurd hk (Nat.succ_ne_zero k).symm

end Editor

section Call

variable {h : History} {items : List (List Byte)} {buffer draft typed : List Byte}
  {capacity room : ℕ} {l : Line}

/-- The record is the line being typed. -/
theorem readlineTyped_shows (hh : HistoryHolds h items) (hroom : effective capacity = room + 1)
    (hbuffer : buffer.length = effective capacity) (hdraft : draft.length = consoleLineCapacity)
    (hl : (readlineTyped h buffer draft capacity).Reachable (l, typed)) :
    ∃ e, Shows room l e ∧ e.Ok (recent historyDepth items) room ∧ typed = e.typed := by
  refine readline_simulates (R := fun e typed => typed = e.typed) hh hroom hbuffer hdraft rfl ?_ hl
  rintro l e typed c l' e' output hs he rfl hmove hs' -
  rw [recordTyped, hs'.offset]
  rcases eq_or_ne e'.offset 0 with hzero | hne
  · rw [if_pos hzero, hs'.text_eq, Editor.typed_of_zero hzero]
  · rw [if_neg hne, hmove.typed_eq he.draft_le (Or.inl hne)]

/-! ### Keys -/

/-- An arrow key, in either of the forms that terminals send. -/
def arrow (final : Byte) : List (List Byte) :=
  [[escapeChar, 0x5b#8, final], [escapeChar, 0x4f#8, final]]

/-- A call fed one byte that is not Enter. -/
def readByte (h : History) (l : Line) (c : Byte) : Option Line :=
  match lineStep h c l with
  | some (.more l', _) => some l'
  | _ => none

/-- A call fed several bytes. -/
def readBytes (h : History) (bytes : List Byte) (l : Line) : Option Line :=
  bytes.foldlM (readByte h) l

theorem readBytes_append (h : History) (bytes rest : List Byte) (l : Line) :
    readBytes h (bytes ++ rest) l = (readBytes h bytes l).bind (readBytes h rest) :=
  List.foldlM_append

/-- Between two keys: how far back the shown line is, and the line being typed. -/
def At (items : List (List Byte)) (room : ℕ) (l : Line) (offset : ℕ) (typed : List Byte) : Prop :=
  ∃ e, Shows room l e ∧ e.Ok (recent historyDepth items) room ∧ e.escape = .normal ∧
    e.offset = offset ∧ e.typed = typed

/-- The last byte of an escape sequence is taken as a key. -/
theorem lineStep_key {c : Byte} {l' : Line} {output : List Byte}
    (hescape : l.escape = .csi ∨ l.escape = .ss3)
    (hkey : readKey h c { l with escape := .normal } = some (l', output)) :
    lineStep h c l = some (.more l', output) := by
  rcases hescape with hescape | hescape
  · simp only [lineStep, hescape, hkey, Option.bind_eq_bind, Option.bind_some]
    rfl
  · simp only [lineStep, hescape, hkey, Option.bind_eq_bind, Option.bind_some]
    rfl

/-- The bytes of an arrow key come to what its last byte stands for. -/
theorem readBytes_arrow {final : Byte} {bytes : List Byte} (hbytes : bytes ∈ arrow final)
    (hnormal : l.escape = .normal) {l' : Line} {output : List Byte}
    (hkey : readKey h final l = some (l', output)) : readBytes h bytes l = some l' := by
  obtain ⟨buffer, capacity, length, draft, offset, escape⟩ := l
  obtain rfl : escape = .normal := hnormal
  have hlast (s : EscapeState) (hs : s = .csi ∨ s = .ss3) :
      readByte h ⟨buffer, capacity, length, draft, offset, s⟩ final = some l' := by
    rw [readByte, lineStep_key hs hkey]
  rcases List.mem_pair.1 hbytes with rfl | rfl
  · calc readBytes h [escapeChar, 0x5b#8, final] ⟨buffer, capacity, length, draft, offset, .normal⟩
        = (readByte h ⟨buffer, capacity, length, draft, offset, .csi⟩ final).bind some := rfl
      _ = some l' := by rw [hlast .csi (Or.inl rfl), Option.bind_some]
  · calc readBytes h [escapeChar, 0x4f#8, final] ⟨buffer, capacity, length, draft, offset, .normal⟩
        = (readByte h ⟨buffer, capacity, length, draft, offset, .ss3⟩ final).bind some := rfl
      _ = some l' := by rw [hlast .ss3 (Or.inr rfl), Option.bind_some]

/-- Up at the oldest entry, or with no entries, does nothing. -/
theorem keyUp_oldest (hoffset : l.historyOffset = h.historyCount) : keyUp h l = some (l, []) := by
  rw [keyUp]
  rcases eq_or_ne h.historyCount 0 with hzero | hne
  · exact if_neg (not_not.2 hzero)
  · rw [if_pos hne, saveDraft, if_neg (by omega), Option.bind_eq_bind, Option.bind_some]
    exact if_neg (not_lt.2 hoffset.ge)

/-- Down at offset 0 does nothing. -/
theorem keyDown_newest (hoffset : l.historyOffset = 0) : keyDown h l = some (l, []) :=
  if_neg (not_not.2 hoffset)

variable {n : ℕ} {bytes : List Byte} {keys : List (List Byte)}

theorem At.up (hat : At items room l n typed) (hh : HistoryHolds h items)
    (hroom : room < consoleLineCapacity) (hn : n < h.historyCount) (hbytes : bytes ∈ arrow 0x41#8) :
    ∃ l', readBytes h bytes l = some l' ∧ At items room l' (n + 1) typed := by
  obtain ⟨e, hs, he, hnormal, rfl, rfl⟩ := hat
  rw [hh.ring.count_eq_length] at hn
  obtain ⟨l', hkey, hs'⟩ := hs.readKey_eq hh he hroom 0x41#8
  have he' := he.key hh.printable_recent 0x41#8
  have hup : e.key (recent historyDepth items) room 0x41#8 = e.up (recent historyDepth items) room :=
    rfl
  rw [hup, Editor.up_of_some (List.getElem?_eq_getElem hn)] at hs' he'
  exact ⟨l', readBytes_arrow hbytes (hs.escape.trans hnormal) hkey, _, hs', he', hnormal, rfl,
    Editor.typed_of_ne (Nat.succ_ne_zero _)⟩

theorem At.down (hat : At items room l (n + 1) typed) (hh : HistoryHolds h items)
    (hroom : room < consoleLineCapacity) (hbytes : bytes ∈ arrow 0x42#8) :
    ∃ l', readBytes h bytes l = some l' ∧ At items room l' n typed := by
  obtain ⟨e, hs, he, hnormal, hoffset, rfl⟩ := hat
  obtain ⟨l', hkey, hs'⟩ := hs.readKey_eq hh he hroom 0x42#8
  have he' := he.key hh.printable_recent 0x42#8
  have hdown : e.key (recent historyDepth items) room 0x42#8 =
      e.down (recent historyDepth items) room := rfl
  have hread := readBytes_arrow hbytes (hs.escape.trans hnormal) hkey
  rw [Editor.typed_of_ne (by omega)]
  rw [hdown] at hs' he'
  cases n with
  | zero =>
      rw [Editor.down_one hoffset] at hs' he'
      exact ⟨l', hread, _, hs', he', hnormal, rfl, List.take_of_length_le he.draft_le⟩
  | succ k =>
      have hle := he.offset_le
      have hk : k < (recent historyDepth items).length := by omega
      rw [Editor.down_of_some hoffset (List.getElem?_eq_getElem hk)] at hs' he'
      exact ⟨l', hread, _, hs', he', hnormal, rfl, Editor.typed_of_ne (Nat.succ_ne_zero _)⟩

/-- Up keys go back line by line, as far as the ring goes. -/
theorem At.ups (hat : At items room l n typed) (hh : HistoryHolds h items)
    (hroom : room < consoleLineCapacity) (hkeys : ∀ bytes ∈ keys, bytes ∈ arrow 0x41#8)
    (hn : n + keys.length ≤ h.historyCount) :
    ∃ l', readBytes h keys.flatten l = some l' ∧ At items room l' (n + keys.length) typed := by
  induction keys generalizing l n with
  | nil => exact ⟨l, rfl, hat⟩
  | cons bytes keys ih =>
      rw [List.forall_mem_cons] at hkeys
      rw [List.length_cons] at hn ⊢
      obtain ⟨l₁, hl₁, hat₁⟩ := hat.up hh hroom (by omega) hkeys.1
      obtain ⟨l₂, hl₂, hat₂⟩ := ih hat₁ hkeys.2 (by omega)
      refine ⟨l₂, ?_, ?_⟩
      · rw [List.flatten_cons, readBytes_append, hl₁, Option.bind_some, hl₂]
      · rwa [Nat.add_assoc, Nat.add_comm 1] at hat₂

/-- Down keys come back line by line. -/
theorem At.downs (hat : At items room l keys.length typed) (hh : HistoryHolds h items)
    (hroom : room < consoleLineCapacity) (hkeys : ∀ bytes ∈ keys, bytes ∈ arrow 0x42#8) :
    ∃ l', readBytes h keys.flatten l = some l' ∧ At items room l' 0 typed := by
  induction keys generalizing l with
  | nil => exact ⟨l, rfl, hat⟩
  | cons bytes keys ih =>
      rw [List.forall_mem_cons] at hkeys
      obtain ⟨l₁, hl₁, hat₁⟩ := hat.down hh hroom hkeys.1
      obtain ⟨l₂, hl₂, hat₂⟩ := ih hat₁ hkeys.2
      refine ⟨l₂, ?_, hat₂⟩
      rw [List.flatten_cons, readBytes_append, hl₁, Option.bind_some, hl₂]

end Call

/-! ### Navigation -/

/-- **Recalling entries and coming back.**  In a call with any capacity but 0, after any bytes: when
a byte takes the offset back to 0, the line is the text it had when the offset was last 0; when a
byte takes it to another position, the line is the entry of that position, cut to what the buffer
has room for; the key Up goes one entry back, and Down one forward; Up at the oldest entry or with no
entries, and Down at offset 0, do nothing; and as many Down keys as Up keys restore the line. -/
theorem history_navigation {s : State} {log : Log} (h : loggedConsole.Reachable (s, log))
    {capacity : ℕ} {buffer draft : List Byte} (hpos : 1 ≤ capacity)
    (hbuffer : buffer.length = effective capacity) (hdraft : draft.length = consoleLineCapacity)
    {l : Line} {typed : List Byte}
    (hl : (readlineTyped s.history buffer draft capacity).Reachable (l, typed)) :
    (∀ c l' output, lineStep s.history c l = some (.more l', output) →
      l'.historyOffset ≠ l.historyOffset →
      (l'.historyOffset = 0 → l'.text = typed) ∧
      ∀ k, 1 ≤ k → l'.historyOffset = k → ∃ row w, historyEntry s.history k = some row ∧
        StringAt row 0 w ∧ (remembered log.lines)[(remembered log.lines).length - k]? = some w ∧
        l'.text = w.take (capacity - 1)) ∧
    (l.escape = .csi ∨ l.escape = .ss3 →
      (l.historyOffset = s.history.historyCount →
        lineStep s.history 0x41#8 l = some (.more { l with escape := .normal }, [])) ∧
      (l.historyOffset = 0 →
        lineStep s.history 0x42#8 l = some (.more { l with escape := .normal }, [])) ∧
      (l.historyOffset < s.history.historyCount → ∃ l' output,
        lineStep s.history 0x41#8 l = some (.more l', output) ∧
          l'.historyOffset = l.historyOffset + 1) ∧
      (0 < l.historyOffset → ∃ l' output,
        lineStep s.history 0x42#8 l = some (.more l', output) ∧
          l'.historyOffset + 1 = l.historyOffset)) ∧
    (l.escape = .normal → l.historyOffset = 0 → ∀ ups downs : List (List Byte),
      (∀ bytes ∈ ups, bytes ∈ arrow 0x41#8) → (∀ bytes ∈ downs, bytes ∈ arrow 0x42#8) →
      ups.length = downs.length → ups.length ≤ s.history.historyCount →
      ∃ l', readBytes s.history (ups.flatten ++ downs.flatten) l = some l' ∧
        l'.historyOffset = 0 ∧ l'.text = l.text) := by
  obtain ⟨hh, -⟩ := reachable_inv h
  dsimp only at hh
  obtain ⟨room, hroom, hlt⟩ := exists_room hpos
  obtain ⟨e, hs, he, rfl⟩ := readlineTyped_shows hh hroom hbuffer hdraft hl
  refine ⟨?_, ?_, ?_⟩
  · intro c l' output hstep hne
    obtain ⟨e', hstep', hs', he'⟩ := lineStep_more hs hh he hlt hstep
    have hmove := Editor.step_move hstep'
    rw [hs.offset, hs'.offset] at hne
    rw [hs'.offset, hs'.text_eq]
    refine ⟨?_, ?_⟩
    · intro hzero
      rw [← hmove.typed_eq he.draft_le (Or.inr (by omega)), Editor.typed_of_zero hzero]
    · intro k hk hoffset
      obtain ⟨k, rfl⟩ := Nat.exists_eq_add_of_le' hk
      obtain ⟨w, hw, htext⟩ := hmove.recalled hoffset hne
      obtain ⟨hk', -⟩ := List.getElem?_eq_some_iff.1 hw
      rw [recent_getElem? hk'] at hw
      obtain ⟨row, v, hrow, hv, hholds, hrow_length⟩ :=
        hh.historyEntry_eq hk (by rw [hh.ring.count_eq_length]; omega)
      obtain rfl := Option.some_inj.1 (hv.symm.trans hw)
      have hv_lt := hholds.text.length_lt
      refine ⟨row.bytes, v, hrow, hholds.text, hv, ?_⟩
      -- an entry is never longer than the longest line
      rw [htext, List.take_eq_take_iff]
      rw [effective] at hroom
      omega
  · intro hescape
    have hshows := hs.setEscape .normal
    have hok := he.setEscape .normal
    refine ⟨fun holdest => ?_, fun hzero => ?_, fun hless => ?_, fun hmore => ?_⟩
    · have hkey : readKey s.history 0x41#8 { l with escape := .normal } =
          some ({ l with escape := .normal }, []) := keyUp_oldest holdest
      exact lineStep_key hescape hkey
    · have hkey : readKey s.history 0x42#8 { l with escape := .normal } =
          some ({ l with escape := .normal }, []) := keyDown_newest hzero
      exact lineStep_key hescape hkey
    · obtain ⟨l', hkey, hs'⟩ := hshows.readKey_eq hh hok hlt 0x41#8
      rw [hh.ring.count_eq_length, hs.offset] at hless
      refine ⟨l', _, lineStep_key hescape hkey, ?_⟩
      rw [hs'.offset, hs.offset]
      exact Editor.up_offset hless
    · obtain ⟨l', hkey, hs'⟩ := hshows.readKey_eq hh hok hlt 0x42#8
      rw [hs.offset] at hmore
      refine ⟨l', _, lineStep_key hescape hkey, ?_⟩
      rw [hs'.offset, hs.offset]
      exact Editor.down_offset hmore he.offset_le
  · intro hnormal hzero ups downs hups hdowns hlen hle
    have hat : At (remembered log.lines) room l 0 l.text :=
      ⟨e, hs, he, hs.escape.symm.trans hnormal, hs.offset.symm.trans hzero, by
        rw [hs.text_eq, Editor.typed_of_zero (hs.offset.symm.trans hzero)]⟩
    obtain ⟨l₁, hl₁, hat₁⟩ := hat.ups hh hlt hups (by omega)
    rw [Nat.zero_add, hlen] at hat₁
    obtain ⟨l₂, hl₂, e₂, hs₂, -, -, hoffset, htyped⟩ := hat₁.downs hh hlt hdowns
    refine ⟨l₂, ?_, hs₂.offset.trans hoffset, ?_⟩
    · rw [readBytes_append, hl₁, Option.bind_some, hl₂]
    · rw [hs₂.text_eq, ← htyped, Editor.typed_of_zero hoffset]

/-- A call after the letter `b`, in any state of the escape sequence. -/
def typing (escape : EscapeState) : Line :=
  ⟨[0x62#8, 0, 7], 3, 1, List.replicate 80 0, 0, escape⟩

/-- The call when the entry `a` is shown instead. -/
def recalled (escape : EscapeState) : Line :=
  ⟨[0x61#8, 0, 7], 3, 1, 0x62#8 :: List.replicate 79 0, 1, escape⟩

theorem reachable_recalled : (readlineTyped afterLine.history [7, 7, 7] (List.replicate 80 0)
    3).Reachable (recalled .csi, [0x62#8]) := by
  let call := readlineTyped afterLine.history [7, 7, 7] (List.replicate 80 0) 3
  have hstart : call.Reachable (⟨[0, 7, 7], 3, 0, List.replicate 80 0, 0, .normal⟩, []) :=
    Lts.Reachable.init ⟨rfl, rfl⟩
  have hb : call.Reachable (typing .normal, [0x62#8]) :=
    hstart.step (e := (0x62#8, [0x62#8])) ⟨rfl, rfl⟩
  have hescape : call.Reachable (typing .seen, [0x62#8]) :=
    hb.step (e := (escapeChar, [])) ⟨rfl, rfl⟩
  have hcsi : call.Reachable (typing .csi, [0x62#8]) :=
    hescape.step (e := (0x5b#8, [])) ⟨rfl, rfl⟩
  have hup : call.Reachable (recalled .normal, [0x62#8]) :=
    hcsi.step (e := (0x41#8, [backspace, space, backspace, 0x61#8])) ⟨rfl, rfl⟩
  have hescape' : call.Reachable (recalled .seen, [0x62#8]) :=
    hup.step (e := (escapeChar, [])) ⟨rfl, rfl⟩
  exact hescape'.step (e := (0x5b#8, [])) ⟨rfl, rfl⟩

/-- The key Down brings the letter `b` back. -/
theorem history_navigation_recalled :
    Line.text ⟨[0x62#8, 0, 7], 3, 1, 0x62#8 :: List.replicate 79 0, 0, .normal⟩ = [0x62#8] :=
  ((history_navigation reachable_afterLine (by decide) rfl rfl reachable_recalled).1 0x42#8 _
    [backspace, space, backspace, 0x62#8] rfl (by decide)).1 rfl

end Console

end MiniOs
