/-
**The line editor (`src/console.c`).**

`console_readline` reads a line into the caller's buffer, byte by byte, with backspace, and with Up
and Down to recall earlier lines from a ring of eight.  Here each pass through its loop is one step,
which takes the byte that `uart_getc` returned.  The caller's buffer, the draft and the rows of the
ring are arrays with checked accesses: a step that leaves the part of an array it may use, or reads
a row of the ring that was never filled, fails.

Main definitions:

* `Console.History`, `Console.historyEntry`, `Console.historyAdd` — the ring of earlier lines;
* `Console.Line`, `Console.lineStep` — **a call of `console_readline` at work, and one pass of its
  loop**;
* `Console.State`, `Console.step` — the console, called again and again.
-/

import MiniOs.CString
import MiniOs.Machine

set_option relaxedAutoImplicit false
set_option autoImplicit false

namespace MiniOs

namespace Console

open CString (store)

/-! ### Constants -/

/-- `CONSOLE_LINE_CAPACITY`. -/
def consoleLineCapacity : ℕ := 80

/-- `HISTORY_DEPTH`. -/
def historyDepth : ℕ := 8

/-- `enum escape_state`. -/
inductive EscapeState
  | normal
  | seen
  | csi
  | ss3
  deriving DecidableEq, Repr

/-- `KEY_NONE`, `KEY_UP` and `KEY_DOWN`. -/
inductive Key
  | none
  | up
  | down
  deriving DecidableEq, Repr

/-- `'\b'`. -/
def backspace : Byte := 0x08#8

/-- The character most terminals send for the backspace key. -/
def delete : Byte := 0x7f#8

/-- `'\x1b'`. -/
def escapeChar : Byte := 0x1b#8

/-- `' '`. -/
def space : Byte := 0x20#8

/-- `'\n'`. -/
def newline : Byte := 0x0a#8

/-- `'\r'`. -/
def carriageReturn : Byte := 0x0d#8

/-- What `uart_puts` sends for a text: a carriage return goes before each newline. -/
def uartPuts (text : List Byte) : List Byte :=
  text.flatMap fun c => if c = newline then [carriageReturn, c] else [c]

/-- The text that erases the character before the cursor. -/
def erase : List Byte := [backspace, space, backspace]

/-! ### Strings -/

/-- Model of `is_printable`. -/
def IsPrintable (c : Byte) : Prop := space ≤ c ∧ c ≤ 0x7e#8

instance (c : Byte) : Decidable (IsPrintable c) := inferInstanceAs (Decidable (_ ∧ _))

/-- Model of `strings_equal`. -/
def stringsEqual : List Byte → List Byte → Option Bool
  | l :: left, r :: right =>
      if l ≠ 0 ∧ r ≠ 0 then
        if l ≠ r then some false else stringsEqual left right
      else some (l = r)
  | _, _ => none

/-- Model of `is_blank_line`. -/
def isBlankLine : List Byte → Option Bool
  | [] => none
  | c :: line =>
      if c ≠ 0 then
        if c ≠ space then some false else isBlankLine line
      else some true

/-- The loop of `copy_string`, with `length` characters copied so far and the rest of the source
given. -/
def copyFrom (capacity : ℕ) : ℕ → List Byte → List Byte → Option (List Byte × ℕ)
  | _, _, [] => none
  | length, destination, c :: source =>
      if c ≠ 0 ∧ length + 1 < capacity then do
        let destination ← store destination length c
        copyFrom capacity (length + 1) destination source
      else do
        let destination ← store destination length 0
        return (destination, length)

/-- Model of `copy_string`, which returns the length of the copy. -/
def copyString (destination : List Byte) (capacity : ℕ) (source : List Byte) :
    Option (List Byte × ℕ) :=
  if capacity = 0 then some (destination, 0) else copyFrom capacity 0 destination source

/-- The loop of `save_line`, with `copied` characters copied so far and the rest of the source
given. -/
def saveFrom (capacity length : ℕ) : ℕ → List Byte → List Byte → Option (List Byte)
  | copied, destination, [] =>
      if copied < length ∧ copied + 1 < capacity then none else store destination copied 0
  | copied, destination, c :: source =>
      if copied < length ∧ copied + 1 < capacity then do
        let destination ← store destination copied c
        saveFrom capacity length (copied + 1) destination source
      else store destination copied 0

/-- Model of `save_line`. -/
def saveLine (destination : List Byte) (capacity : ℕ) (source : List Byte) (length : ℕ) :
    Option (List Byte) :=
  if capacity = 0 then some destination else saveFrom capacity length 0 destination source

/-! ### The ring of earlier lines -/

/-- A row of `history`, and whether `history_add` has filled it yet. -/
structure Row where
  bytes : List Byte
  filled : Bool

/-- The static variables of the file. -/
structure History where
  history : List Row
  historyCount : ℕ
  historyNext : ℕ

/-- The static variables at boot. -/
def History.boot : History where
  history := List.replicate historyDepth ⟨List.replicate consoleLineCapacity 0, false⟩
  historyCount := 0
  historyNext := 0

/-- Model of `history_entry`; the offset is at most `HISTORY_DEPTH`. -/
def historyEntry (h : History) (offsetFromNewest : ℕ) : Option (List Byte) := do
  let row ← h.history[(h.historyNext + historyDepth - offsetFromNewest) % historyDepth]?
  if row.filled then return row.bytes else none

/-- The second test of `history_add`: the line equals the newest one. -/
def equalsNewest (line : List Byte) (h : History) : Option Bool :=
  if h.historyCount ≠ 0 then do
    let newest ← historyEntry h 1
    stringsEqual line newest
  else some false

/-- The end of `history_add`: fill the next row. -/
def historyFill (line : List Byte) (h : History) : Option History := do
  let row ← h.history[h.historyNext]?
  let copy ← copyString row.bytes consoleLineCapacity line
  return {
    history := h.history.set h.historyNext ⟨copy.1, true⟩
    historyNext := (h.historyNext + 1) % historyDepth
    historyCount := if h.historyCount < historyDepth then h.historyCount + 1
      else h.historyCount }

/-- Model of `history_add`. -/
def historyAdd (line : List Byte) (h : History) : Option History := do
  let blank ← isBlankLine line
  if blank then return h
  else
    let same ← equalsNewest line h
    if same then return h else historyFill line h

/-! ### Reading a line -/

/-- A call of `console_readline` at work.  Of the caller's buffer, `buffer` is the part the call may
use: its first `capacity` bytes, where `capacity` is cut to that of a row. -/
structure Line where
  buffer : List Byte
  capacity : ℕ
  length : ℕ
  draft : List Byte
  historyOffset : ℕ
  escape : EscapeState

/-- Model of `replace_line`, with the bytes it sends. -/
def replaceLine (replacement : List Byte) (l : Line) : Option (Line × List Byte) := do
  let (buffer, length) ← copyString l.buffer l.capacity replacement
  return ({ l with buffer := buffer, length := length },
    uartPuts (List.replicate l.length erase).flatten ++ buffer.take length)

/-- The draft after the Up key: the line is saved when it is left for an earlier one. -/
def saveDraft (l : Line) : Option (List Byte) :=
  if l.historyOffset = 0 then saveLine l.draft consoleLineCapacity l.buffer l.length
  else some l.draft

/-- The Up key. -/
def keyUp (h : History) (l : Line) : Option (Line × List Byte) :=
  if h.historyCount ≠ 0 then do
    let draft ← saveDraft l
    let l := { l with draft := draft }
    -- at the oldest line the key does nothing more
    if l.historyOffset < h.historyCount then
      let l := { l with historyOffset := l.historyOffset + 1 }
      let entry ← historyEntry h l.historyOffset
      replaceLine entry l
    else return (l, [])
  else some (l, [])

/-- The Down key. -/
def keyDown (h : History) (l : Line) : Option (Line × List Byte) :=
  if l.historyOffset ≠ 0 then
    let l := { l with historyOffset := l.historyOffset - 1 }
    -- past the newest line the draft comes back
    if l.historyOffset = 0 then replaceLine l.draft l
    else do
      let entry ← historyEntry h l.historyOffset
      replaceLine entry l
  else some (l, [])

/-- The key that the last byte of an escape sequence stands for. -/
def keyOf (c : Byte) : Key :=
  if c = 0x41#8 then .up else if c = 0x42#8 then .down else .none

/-- The last byte of an escape sequence. -/
def readKey (h : History) (c : Byte) (l : Line) : Option (Line × List Byte) :=
  match keyOf c with
  | .up => keyUp h l
  | .down => keyDown h l
  | .none => some (l, [])

/-- What a pass of the loop leads to: the next pass, or the end of the line. -/
inductive Outcome (α : Type)
  | more (l : α)
  | enter (l : α)

/-- The second half of the loop, for a byte that is not part of an escape sequence. -/
def readChar (c : Byte) (l : Line) : Option (Outcome Line × List Byte) :=
  if c = carriageReturn ∨ c = newline then some (.enter l, uartPuts [newline])
  else if c = escapeChar then some (.more { l with escape := .seen }, [])
  else if c = backspace ∨ c = delete then
    if 0 < l.length then do
      let buffer ← store l.buffer (l.length - 1) 0
      return (.more { l with buffer := buffer, length := l.length - 1 }, uartPuts erase)
    else some (.more l, [])
  else if IsPrintable c ∧ l.length + 1 < l.capacity then do
    let buffer ← store l.buffer l.length c
    let buffer ← store buffer (l.length + 1) 0
    return (.more { l with buffer := buffer, length := l.length + 1 }, [c])
  -- a control character, or no room: the byte is dropped
  else some (.more l, [])

/-- One pass of the loop of `console_readline`, for the byte `c`, with the bytes it sends. -/
def lineStep (h : History) (c : Byte) (l : Line) : Option (Outcome Line × List Byte) :=
  match l.escape with
  | .seen =>
      if c = 0x5b#8 then some (.more { l with escape := .csi }, [])
      else if c = 0x4f#8 then some (.more { l with escape := .ss3 }, [])
      -- an unknown byte after ESC is taken as an ordinary one
      else readChar c { l with escape := .normal }
  | .csi => do
      let (l, output) ← readKey h c { l with escape := .normal }
      return (.more l, output)
  | .ss3 => do
      let (l, output) ← readKey h c { l with escape := .normal }
      return (.more l, output)
  | .normal => readChar c l

/-- The beginning of `console_readline`, for a capacity that is not 0; `buffer` is the part of the
caller's buffer it may use, and `draft` what the stack holds where the draft is. -/
def startLine (buffer draft : List Byte) (capacity : ℕ) : Option Line := do
  let buffer ← store buffer 0 0
  let draft ← store draft 0 0
  return {
    buffer := buffer
    capacity := capacity
    length := 0
    draft := draft
    historyOffset := 0
    escape := .normal }

/-- The end of `console_readline`: the line is terminated and added to the ring. -/
def finishLine (l : Line) (h : History) : Option (List Byte × History) := do
  let buffer ← store l.buffer l.length 0
  let h ← historyAdd buffer h
  return (buffer, h)

/-! ### The console -/

/-- Whether `console_readline` is at work, and what the last call returned. -/
inductive Status
  | idle
  | reading (l : Line)
  | returned (length : ℕ) (buffer : List Byte)

/-- The console between two passes. -/
structure State where
  history : History
  status : Status

/-- What happens next: a call of `console_readline`, or a byte for the call at work. -/
inductive Op
  | call (capacity : ℕ) (buffer draft : List Byte)
  | byte (c : Byte)

/-- The part of a buffer that a call with this capacity may use. -/
def effective (capacity : ℕ) : ℕ := min capacity consoleLineCapacity

/-- An operation fits the status: a call starts when none is at work, with a buffer of which it may
use the part that its capacity says, and a byte comes to the call at work. -/
def Op.Fits : Op → State → Prop
  | .call capacity buffer draft, s => (∀ l, s.status ≠ .reading l) ∧
      buffer.length = effective capacity ∧ draft.length = consoleLineCapacity
  | .byte _, s => ∃ l, s.status = .reading l

/-- Model of `console_readline`, call after call and byte after byte. -/
def step (op : Op) (s : State) : Option State :=
  match op, s.status with
  | .call capacity buffer draft, _ =>
      if capacity = 0 then some { s with status := .returned 0 buffer }
      else do
        let l ← startLine buffer draft (effective capacity)
        return { s with status := .reading l }
  | .byte c, .reading l => do
      let (outcome, _) ← lineStep s.history c l
      match outcome with
      | .more l => return { s with status := .reading l }
      | .enter l =>
          let (buffer, h) ← finishLine l s.history
          return ⟨h, .returned l.length buffer⟩
  | .byte _, _ => some s

end Console

end MiniOs
