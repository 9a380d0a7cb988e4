/-
**Escape sequences that terminals send.**

A control sequence is ESC and `[`, then any number of parameter bytes and of intermediate bytes, and
a final byte.  The decoder of `console_readline` takes the one byte after `[` for the final one,
whatever it is, and goes back to ordinary input.  So it swallows the sequences of three bytes; of a
longer one, all that comes after the third byte is typed, as far as there is room for it.

Main definitions:

* `Console.csi` — the control sequences;
* `Console.insertedBy`, `Console.feed` — **a call fed several bytes**, with what it sends and which of
  them it stores as characters;
* `Console.TypesNothing` — what a user expects of a control sequence.

Main results:

* `Console.lineStep_inserted` — which passes make the line longer;
* `Console.feed_csi` — how the decoder gets past the third byte;
* `Console.csi_types_nothing_iff` — **which control sequences type nothing**, in every state.
-/

import MiniOs.ConsoleDisplay

set_option relaxedAutoImplicit false
set_option autoImplicit false

namespace MiniOs

namespace Console

open CString
open RecentRing (recent)

/-! ### Control sequences -/

/-- The bytes of a control sequence. -/
def csi (parameters intermediates : List Byte) (final : Byte) : List Byte :=
  escapeChar :: 0x5b#8 :: (parameters ++ intermediates ++ [final])

/-- The parameter bytes, from `0` to `?`. -/
def IsParameter (c : Byte) : Prop := 0x30#8 ≤ c ∧ c ≤ 0x3f#8

/-- The intermediate bytes, from a space to `/`. -/
def IsIntermediate (c : Byte) : Prop := 0x20#8 ≤ c ∧ c ≤ 0x2f#8

/-- The final bytes, from `@` to `~`. -/
def IsFinal (c : Byte) : Prop := 0x40#8 ≤ c ∧ c ≤ 0x7e#8

instance (c : Byte) : Decidable (IsParameter c) := inferInstanceAs (Decidable (_ ∧ _))

instance (c : Byte) : Decidable (IsIntermediate c) := inferInstanceAs (Decidable (_ ∧ _))

instance (c : Byte) : Decidable (IsFinal c) := inferInstanceAs (Decidable (_ ∧ _))

/-! ### A call fed several bytes -/

/-- The line has no room for another character. -/
def Line.Full (l : Line) : Prop := l.capacity ≤ l.length + 1

/-- The byte as the last branch of the loop stores it: when it is printable and there is room. -/
def storedBy (c : Byte) (l : Line) : List Byte :=
  if IsPrintable c ∧ l.length + 1 < l.capacity then [c] else []

/-- Which of the bytes a pass stores as a character of the line: the byte it was given, if it gets to
the last branch of the loop. -/
def insertedBy (c : Byte) (l : Line) : List Byte :=
  match l.escape with
  | .seen => if c = 0x5b#8 ∨ c = 0x4f#8 then [] else storedBy c l
  | .csi => []
  | .ss3 => []
  | .normal => storedBy c l

/-- **A call fed several bytes** that are not Enter: the line after them, the bytes it sends, and the
bytes it stores as characters. -/
def feed (h : History) : List Byte → Line → Option (Line × List Byte × List Byte)
  | [], l => some (l, [], [])
  | c :: rest, l =>
      match lineStep h c l with
      | some (.more l', output) =>
          (feed h rest l').map fun r => (r.1, output ++ r.2.1, insertedBy c l ++ r.2.2)
      | _ => none

/-- **What a user expects of a control sequence**, after `sent` was sent: none of its bytes is typed
and the decoder is back to ordinary input; and unless it is an arrow key, the buffer, the length,
the place in the ring and the line displayed are what they were. -/
def TypesNothing (h : History) (l : Line) (sent bytes : List Byte) : Prop :=
  ∃ l' output, feed h bytes l = some (l', output, []) ∧ l'.escape = .normal ∧
    (bytes ≠ csi [] [] 0x41#8 → bytes ≠ csi [] [] 0x42#8 →
      l'.buffer = l.buffer ∧ l'.length = l.length ∧ l'.historyOffset = l.historyOffset ∧
        display (sent ++ output) Terminal.Row.empty = display sent Terminal.Row.empty)

section Feed

variable {h : History} {l l' : Line} {c : Byte} {rest output : List Byte}

theorem feed_cons (hstep : lineStep h c l = some (.more l', output)) :
    feed h (c :: rest) l =
      (feed h rest l').map fun r => (r.1, output ++ r.2.1, insertedBy c l ++ r.2.2) := by
  rw [feed, hstep]

/-! ### Ordinary input -/

theorem isPrintable_ordinary (hc : IsPrintable c) :
    ¬(c = carriageReturn ∨ c = newline) ∧ c ≠ escapeChar ∧ ¬(c = backspace ∨ c = delete) := by
  refine ⟨?_, ?_, ?_⟩
  · rintro (rfl | rfl)
    · exact absurd hc (by decide)
    · exact absurd hc (by decide)
  · rintro rfl
    exact absurd hc (by decide)
  · rintro (rfl | rfl)
    · exact absurd hc (by decide)
    · exact absurd hc (by decide)

theorem readChar_printable (hc : IsPrintable c) :
    readChar c l = if IsPrintable c ∧ l.length + 1 < l.capacity then do
        let buffer ← store l.buffer l.length c
        let buffer ← store buffer (l.length + 1) 0
        return (.more { l with buffer := buffer, length := l.length + 1 }, [c])
      else some (.more l, []) := by
  obtain ⟨henter, hescape, herase⟩ := isPrintable_ordinary hc
  rw [readChar, if_neg henter, if_neg hescape, if_neg herase]

/-- A printable byte that finds no room is dropped. -/
theorem readChar_full (hc : IsPrintable c) (hfull : l.Full) :
    readChar c l = some (.more l, []) := by
  rw [readChar_printable hc, if_neg fun hroom => Nat.not_lt.2 hfull hroom.2]

theorem storedBy_full (hfull : l.Full) : storedBy c l = [] :=
  if_neg fun hroom => Nat.not_lt.2 hfull hroom.2

/-- **Which passes make the line longer**: those that store their byte, by that byte; the others do
only if they bring another line. -/
theorem readChar_stored (hstep : readChar c l = some (.more l', output)) :
    (storedBy c l = [c] ∧ output = [c] ∧ l'.length = l.length + 1) ∨
      (storedBy c l = [] ∧ l'.length ≤ l.length) := by
  by_cases hc : IsPrintable c
  · rw [readChar_printable hc] at hstep
    by_cases hroom : IsPrintable c ∧ l.length + 1 < l.capacity
    · rw [if_pos hroom] at hstep
      obtain ⟨buffer, -, hstep⟩ := Option.bind_eq_some_iff.1 hstep
      obtain ⟨buffer', -, hstep⟩ := Option.bind_eq_some_iff.1 hstep
      cases hstep
      exact .inl ⟨if_pos hroom, rfl, rfl⟩
    · rw [if_neg hroom] at hstep
      cases hstep
      exact .inr ⟨if_neg hroom, Nat.le_refl _⟩
  · refine .inr ⟨if_neg fun hroom => hc hroom.1, ?_⟩
    rw [readChar] at hstep
    split_ifs at hstep with henter hescape herase hpos hroom
    · cases hstep
    · cases hstep
      exact Nat.le_refl _
    · obtain ⟨buffer, -, hstep⟩ := Option.bind_eq_some_iff.1 hstep
      cases hstep
      exact Nat.sub_le _ _
    · cases hstep
      exact Nat.le_refl _
    · exact absurd hroom.1 hc
    · cases hstep
      exact Nat.le_refl _

theorem lineStep_inserted (hstep : lineStep h c l = some (.more l', output)) :
    (insertedBy c l = [c] ∧ output = [c] ∧ l'.length = l.length + 1) ∨
      (insertedBy c l = [] ∧ (l'.length ≤ l.length ∨ l.escape = .csi ∨ l.escape = .ss3)) := by
  cases hs : l.escape with
  | normal =>
      rw [lineStep, hs] at hstep
      rw [insertedBy, hs]
      exact (readChar_stored hstep).imp_right fun hr => ⟨hr.1, .inl hr.2⟩
  | seen =>
      rw [lineStep, hs] at hstep
      rw [insertedBy, hs]
      dsimp only at hstep ⊢
      split_ifs at hstep with hbracket hletter
      · cases hstep
        exact .inr ⟨if_pos (.inl hbracket), .inl (Nat.le_refl _)⟩
      · cases hstep
        exact .inr ⟨if_pos (.inr hletter), .inl (Nat.le_refl _)⟩
      · rw [if_neg (not_or.2 ⟨hbracket, hletter⟩)]
        exact (readChar_stored hstep).imp_right fun hr => ⟨hr.1, .inl hr.2⟩
  | csi =>
      rw [insertedBy, hs]
      exact .inr ⟨rfl, .inr (.inl rfl)⟩
  | ss3 =>
      rw [insertedBy, hs]
      exact .inr ⟨rfl, .inr (.inr rfl)⟩

/-- Printable bytes that find no room change nothing. -/
theorem feed_full (hnormal : l.escape = .normal) (hfull : l.Full) {bytes : List Byte}
    (hbytes : Printable bytes) : feed h bytes l = some (l, [], []) := by
  induction bytes with
  | nil => rfl
  | cons c bytes ih =>
      have hstep : lineStep h c l = some (.more l, []) := by
        rw [lineStep, hnormal]
        exact readChar_full (hbytes c List.mem_cons_self) hfull
      have hinserted : insertedBy c l = [] := by
        rw [insertedBy, hnormal]
        exact storedBy_full hfull
      rw [feed_cons hstep, ih fun d hd => hbytes d (List.mem_cons_of_mem c hd), hinserted]
      rfl

/-- A printable byte that finds room is among those that are stored. -/
theorem feed_room (hnormal : l.escape = .normal) (hroom : ¬l.Full) (hc : IsPrintable c)
    {inserted : List Byte} (hfeed : feed h (c :: rest) l = some (l', output, inserted)) :
    inserted ≠ [] := by
  have hinserted : insertedBy c l = [c] := by
    rw [insertedBy, hnormal]
    exact if_pos ⟨hc, Nat.not_le.1 hroom⟩
  rw [feed] at hfeed
  split at hfeed
  · rw [Option.map_eq_some_iff] at hfeed
    obtain ⟨r, -, hr⟩ := hfeed
    obtain rfl : insertedBy c l ++ r.2.2 = inserted := congrArg (·.2.2) hr
    rw [hinserted]
    exact List.cons_ne_nil c _
  · cases hfeed

/-! ### A control sequence -/

/-- **How the decoder gets past the third byte** of a control sequence: it takes the byte for a
key, and goes back to ordinary input. -/
theorem feed_csi (hnormal : l.escape = .normal) (hkey : readKey h c l = some (l', output)) :
    feed h (escapeChar :: 0x5b#8 :: c :: rest) l =
      (feed h rest l').map fun r => (r.1, output ++ r.2.1, r.2.2) := by
  obtain ⟨buffer, capacity, length, draft, offset, escape⟩ := l
  obtain rfl : escape = .normal := hnormal
  have hescape : lineStep h escapeChar ⟨buffer, capacity, length, draft, offset, .normal⟩ =
      some (.more ⟨buffer, capacity, length, draft, offset, .seen⟩, []) := rfl
  have hbracket : lineStep h 0x5b#8 ⟨buffer, capacity, length, draft, offset, .seen⟩ =
      some (.more ⟨buffer, capacity, length, draft, offset, .csi⟩, []) := rfl
  have hlast : lineStep h c ⟨buffer, capacity, length, draft, offset, .csi⟩ =
      some (.more l', output) := lineStep_key (.inl rfl) hkey
  rw [feed_cons hescape, feed_cons hbracket, feed_cons hlast, Option.map_map, Option.map_map]
  rfl

theorem keyOf_of_lt (hc : c < 0x40#8) : keyOf c = .none := by
  have hup : c ≠ 0x41#8 := by
    rintro rfl
    exact absurd hc (by decide)
  have hdown : c ≠ 0x42#8 := by
    rintro rfl
    exact absurd hc (by decide)
  rw [keyOf, if_neg hup, if_neg hdown]

theorem isPrintable_csi {parameters intermediates : List Byte} {final : Byte}
    (hparameters : ∀ c ∈ parameters, IsParameter c)
    (hintermediates : ∀ c ∈ intermediates, IsIntermediate c) (hfinal : IsFinal final) :
    Printable (parameters ++ intermediates ++ [final]) := by
  intro c hc
  rcases List.mem_append.1 hc with hc | hc
  · rcases List.mem_append.1 hc with hc | hc
    · obtain ⟨hle, hge⟩ := hparameters c hc
      exact ⟨BitVec.le_trans (by decide) hle, BitVec.le_trans hge (by decide)⟩
    · obtain ⟨hle, hge⟩ := hintermediates c hc
      exact ⟨hle, BitVec.le_trans hge (by decide)⟩
  · rw [List.mem_singleton.1 hc]
    exact ⟨BitVec.le_trans (by decide) hfinal.1, hfinal.2⟩

theorem lt_of_le_question {c : Byte} (hc : c ≤ 0x3f#8) : c < 0x40#8 := Nat.lt_succ_of_le hc

/-- The third byte of a longer control sequence is not a key. -/
theorem exists_cons_of_long {parameters intermediates : List Byte} (final : Byte)
    (hparameters : ∀ c ∈ parameters, IsParameter c)
    (hintermediates : ∀ c ∈ intermediates, IsIntermediate c)
    (hlong : ¬(parameters = [] ∧ intermediates = [])) :
    ∃ c more, parameters ++ intermediates ++ [final] = c :: more ∧ more ≠ [] ∧ c < 0x40#8 := by
  cases parameters with
  | cons c parameters =>
      have hc := (hparameters c List.mem_cons_self).2
      exact ⟨c, parameters ++ intermediates ++ [final], rfl, by simp, lt_of_le_question hc⟩
  | nil =>
      cases intermediates with
      | nil => exact absurd ⟨rfl, rfl⟩ hlong
      | cons c intermediates =>
          have hc := (hintermediates c List.mem_cons_self).2
          exact ⟨c, intermediates ++ [final], rfl, by simp,
            lt_of_le_question (BitVec.le_trans hc (by decide))⟩

/-- A control sequence of three bytes that is no arrow key does nothing. -/
theorem readKey_other {final : Byte} (hup : final ≠ 0x41#8) (hdown : final ≠ 0x42#8) :
    readKey h final l = some (l, []) := by
  rw [readKey, keyOf, if_neg hup, if_neg hdown]

end Feed

theorem Editor.key_escape (earlier : List (List Byte)) (room : ℕ) (c : Byte) (e : Editor) :
    (e.key earlier room c).1.escape = e.escape := by
  rw [Editor.key]
  cases keyOf c with
  | none => rfl
  | up =>
      cases hw : earlier[e.offset]? with
      | none => rw [up_of_none hw]
      | some w =>
          rw [up_of_some hw]
          rfl
  | down =>
      rcases hoffset : e.offset with _ | _ | k
      · rw [down_zero hoffset]
      · rw [down_one hoffset]
        rfl
      · simp only [Editor.down, hoffset]
        split
        · rfl
        · rfl

/-- **Which control sequences type nothing.**  In a call with any capacity but 0, after any bytes
that left no escape sequence open: a control sequence does what a user expects of it if and only if
it has neither parameter bytes nor intermediate bytes, or the line is full. -/
theorem csi_types_nothing_iff {s : State} {log : Log} (h : loggedConsole.Reachable (s, log))
    {capacity : ℕ} {buffer draft : List Byte} (hpos : 1 ≤ capacity)
    (hbuffer : buffer.length = effective capacity) (hdraft : draft.length = consoleLineCapacity)
    {l : Line} {sent : List Byte}
    (hl : (readlineSent s.history buffer draft capacity).Reachable (l, sent))
    (hnormal : l.escape = .normal) {parameters intermediates : List Byte} {final : Byte}
    (hparameters : ∀ c ∈ parameters, IsParameter c)
    (hintermediates : ∀ c ∈ intermediates, IsIntermediate c) (hfinal : IsFinal final) :
    TypesNothing s.history l sent (csi parameters intermediates final) ↔
      (parameters = [] ∧ intermediates = []) ∨ l.Full := by
  have hprintable := isPrintable_csi hparameters hintermediates hfinal
  constructor
  · rintro ⟨l', output, hfeed, -⟩
    by_contra hno
    rw [not_or] at hno
    obtain ⟨hlong, hroom⟩ := hno
    obtain ⟨c, more, hbytes, hmore, hlt⟩ :=
      exists_cons_of_long final hparameters hintermediates hlong
    obtain ⟨d, rest, rfl⟩ := List.exists_cons_of_ne_nil hmore
    have hd : IsPrintable d := hprintable d (by rw [hbytes]; simp)
    have hkey : readKey s.history c l = some (l, []) := by rw [readKey, keyOf_of_lt hlt]
    rw [csi, hbytes, feed_csi hnormal hkey, Option.map_eq_some_iff] at hfeed
    obtain ⟨r, hr, heq⟩ := hfeed
    exact feed_room hnormal hroom hd hr (congrArg (·.2.2) heq)
  · intro hshort
    by_cases hlong : parameters = [] ∧ intermediates = []
    · obtain ⟨rfl, rfl⟩ := hlong
      obtain ⟨hh, -⟩ := reachable_inv h
      dsimp only at hh
      obtain ⟨room, hroom, hlt⟩ := exists_room hpos
      have hsim : ∃ e, Shows room l e ∧ e.Ok (recent historyDepth (remembered log.lines)) room ∧
          True :=
        readline_simulates (R := fun _ _ => True) hh hroom hbuffer hdraft trivial
          (fun _ _ _ _ _ _ _ _ _ _ _ _ _ => trivial) hl
      obtain ⟨e, hs, he, -⟩ := hsim
      obtain ⟨l', hkey, hs'⟩ := hs.readKey_eq hh he hlt final
      have hfeed : feed s.history (csi [] [] final) l = some (l', _, []) := feed_csi hnormal hkey
      refine ⟨l', _, hfeed, ?_, fun hup hdown => ?_⟩
      · rw [hs'.escape, Editor.key_escape, ← hs.escape, hnormal]
      · have hother : readKey s.history final l = some (l, []) :=
          readKey_other (fun heq => hup (by rw [heq])) fun heq => hdown (by rw [heq])
        obtain ⟨rfl, houtput⟩ := Prod.mk.inj (Option.some.inj (hkey.symm.trans hother))
        rw [houtput]
        exact ⟨rfl, rfl, rfl, by simp⟩
    · have hfull : l.Full := hshort.resolve_left hlong
      obtain ⟨c, more, hbytes, hmore, hlt⟩ :=
        exists_cons_of_long final hparameters hintermediates hlong
      have hkey : readKey s.history c l = some (l, []) := by rw [readKey, keyOf_of_lt hlt]
      have hrest : feed s.history more l = some (l, [], []) :=
        feed_full hnormal hfull fun d hd =>
          hprintable d (by rw [hbytes]; exact List.mem_cons_of_mem c hd)
      refine ⟨l, [], ?_, hnormal, fun _ _ => ⟨rfl, rfl, rfl, by rw [List.append_nil]⟩⟩
      rw [csi, hbytes, feed_csi hnormal hkey, hrest]
      rfl

/-- A call with the capacity that the shell passes, before the first byte. -/
def started : Line :=
  ⟨List.replicate 80 0, 80, 0, List.replicate 80 0, 0, .normal⟩

theorem reachable_started :
    (readlineSent History.boot (List.replicate 80 0) (List.replicate 80 0) 80).Reachable
      (started, []) := Lts.Reachable.init ⟨rfl, rfl⟩

theorem reachable_boot : loggedConsole.Reachable (State.boot, ⟨0, []⟩) :=
  Lts.Reachable.init ⟨rfl, rfl⟩

/-- The key Right, which is not an arrow key that the console knows, types nothing. -/
theorem csi_types_nothing_right : TypesNothing History.boot started [] (csi [] [] 0x43#8) :=
  (csi_types_nothing_iff reachable_boot (by decide) rfl rfl reachable_started rfl (by decide)
    (by decide) (by decide)).2 (.inl ⟨rfl, rfl⟩)

/-- **The key Delete types a tilde**: terminals send ESC, `[`, `3` and `~` for it. -/
theorem csi_delete_types :
    (readlineSent History.boot (List.replicate 80 0) (List.replicate 80 0) 80).Reachable
        (started, []) ∧ started.escape = .normal ∧
      (∃ l' output, feed History.boot (csi [0x33#8] [] 0x7e#8) started =
        some (l', output, [0x7e#8]) ∧ l'.text = [0x7e#8]) ∧
      ¬ TypesNothing History.boot started [] (csi [0x33#8] [] 0x7e#8) := by
  have hfeed : feed History.boot (csi [0x33#8] [] 0x7e#8) started =
      some ({ started with buffer := 0x7e#8 :: List.replicate 79 0, length := 1 },
        [0x7e#8], [0x7e#8]) := rfl
  refine ⟨reachable_started, rfl, ⟨_, _, hfeed, rfl⟩, ?_⟩
  rintro ⟨l', output, hnothing, -⟩
  rw [hfeed] at hnothing
  cases hnothing

end Console

end MiniOs
