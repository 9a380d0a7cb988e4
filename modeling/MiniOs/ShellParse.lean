/-
**The argument parser of the shell (`parse_arguments` in `src/shell.c`).**

The parser rewrites the line in place: it reads with one cursor, writes the letters of the words
with another, and puts pointers to the words in an array.  Here each pass through one of its loops
is one step, and every access to the line and to the array is checked.

Main definitions:

* `Shell.Parser` — the line, the cursors and the array of arguments;
* `Shell.parseStep`, `Shell.parseRun`, `Shell.parseArguments` — **one pass, several, and the whole
  function**;
* `Shell.parsePasses` — the passes as a transition system.
-/

import MiniOs.CString
import MiniOs.Lts
import MiniOs.Machine

set_option relaxedAutoImplicit false
set_option autoImplicit false

namespace MiniOs

namespace Shell

open CString (store)

/-- `SHELL_MAX_ARGUMENTS`. -/
def shellMaxArguments : ℕ := 8

/-- The characters with a meaning for the parser. -/
def space : Byte := 0x20#8

/-- `'\''`. -/
def singleQuote : Byte := 0x27#8

/-- `'"'`. -/
def doubleQuote : Byte := 0x22#8

/-- `'\\'`. -/
def backslash : Byte := 0x5c#8

/-- `enum parse_result`. -/
inductive ParseResult
  | ok
  | tooManyArguments
  | unterminatedSingleQuote
  | unterminatedDoubleQuote
  | trailingBackslash
  deriving DecidableEq, Repr

/-- Where the parser is: in the outer loop, between words; in the inner loop, inside a word; or it
has returned. -/
inductive Control
  | between
  | word
  | done (result : ParseResult)
  deriving DecidableEq, Repr

/-- The parser at work.  Cursors and pointers to words are positions in the line; an argument is
`none` where the array has a null pointer. -/
structure Parser where
  line : List Byte
  readCursor : ℕ
  writeCursor : ℕ
  quote : Byte
  arguments : List (Option ℕ)
  argumentCount : ℕ
  control : Control

/-- Return from `parse_arguments`, with a null pointer after the last argument. -/
def Parser.finish (p : Parser) (result : ParseResult) : Option Parser := do
  let arguments ← store p.arguments p.argumentCount none
  return { p with arguments := arguments, control := .done result }

/-- Write a character of a word. -/
def Parser.emit (p : Parser) (c : Byte) : Option Parser := do
  let line ← store p.line p.writeCursor c
  return { p with line := line, writeCursor := p.writeCursor + 1 }

/-- End the line at the write cursor and return. -/
def Parser.terminate (p : Parser) (result : ParseResult) : Option Parser := do
  let line ← store p.line p.writeCursor 0
  { p with line := line }.finish result

/-- Move the read cursor. -/
def Parser.advance (p : Parser) (n : ℕ) : Parser := { p with readCursor := p.readCursor + n }

/-- A pass through the outer loop, or through the loop in it that skips spaces. -/
def parseBetween (p : Parser) : Option Parser := do
  let current ← p.line[p.readCursor]?
  if current = space then return p.advance 1
  else if current = 0 then p.finish .ok
  else if p.argumentCount = shellMaxArguments then p.finish .tooManyArguments
  else
    let arguments ← store p.arguments p.argumentCount (some p.writeCursor)
    return { p with
      arguments := arguments
      argumentCount := p.argumentCount + 1
      quote := 0
      control := .word }

/-- A pass through the inner loop. -/
def parseWord (p : Parser) : Option Parser := do
  let current ← p.line[p.readCursor]?
  if current = 0 then
    p.terminate (if p.quote = singleQuote then .unterminatedSingleQuote
      else if p.quote = doubleQuote then .unterminatedDoubleQuote
      else .ok)
  -- an escape is taken before the quotes are looked at, so it works inside them too
  else if current = backslash then
    let p := p.advance 1
    let next ← p.line[p.readCursor]?
    if next = 0 then p.terminate .trailingBackslash
    else (p.advance 1).emit next
  else if p.quote ≠ 0 then
    let p := p.advance 1
    if current = p.quote then return { p with quote := 0 }
    else p.emit current
  else if current = singleQuote ∨ current = doubleQuote then
    return { p.advance 1 with quote := current }
  -- the zero after the word goes over a character that was read already
  else if current = space then do
    let p ← (p.advance 1).emit 0
    return { p with control := .between }
  else (p.advance 1).emit current

/-- One pass of `parse_arguments`; `none` when it leaves the line or the array. -/
def parseStep (p : Parser) : Option Parser :=
  match p.control with
  | .between => parseBetween p
  | .word => parseWord p
  | .done _ => some p

/-- Several passes. -/
def parseRun : ℕ → Parser → Option Parser
  | 0, p => some p
  | n + 1, p => parseStep p >>= parseRun n

/-- `parse_arguments` as it is entered, with the line and the array it is called with. -/
def Parser.start (line : List Byte) (arguments : List (Option ℕ)) : Parser where
  line := line
  readCursor := 0
  writeCursor := 0
  quote := 0
  arguments := arguments
  argumentCount := 0
  control := .between

/-- Model of `parse_arguments`, cut off after `fuel` passes. -/
def parseArguments (fuel : ℕ) (line : List Byte) (arguments : List (Option ℕ)) : Option Parser :=
  parseRun fuel (Parser.start line arguments)

/-- The passes of `parse_arguments` as a transition system. -/
def parsePasses (line : List Byte) (arguments : List (Option ℕ)) : Lts Parser Unit where
  init p := p = Parser.start line arguments
  step p _ q := parseStep p = some q

end Shell

end MiniOs
