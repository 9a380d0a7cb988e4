/-
**The argument parser agrees with a tokenizer that does not rewrite the line.**

The tokenizer of `MiniOs/WordSplit.lean` reads an immutable copy of the line.  What the parser has
written so far is what the tokenizer has read so far: the finished words, each with its terminating
zero, then the letters of the word at hand.  The write cursor stays behind the read cursor, so what
is still to be read is as it was.

Main definitions:

* `Shell.tokenize` — the tokenizer, with the characters and the bound of the shell;
* `Shell.Cursors`, `Shell.Progress`, `Shell.Inv` — **what holds after each pass of the parser**;
* `Shell.Proceeds` — a pass that stays in bounds, keeps the invariant and makes progress.

Main results:

* `Shell.inv_step` — each pass stays in bounds, keeps the invariant and makes progress;
* `Shell.parse_returns` — what a call returns;
* `Shell.parse_agrees` — **the parser returns what the tokenizer returns**, for every line.
-/

import MiniOs.ShellParse
import MiniOs.WordSplit

set_option relaxedAutoImplicit false
set_option autoImplicit false

namespace MiniOs

namespace Shell

open CString

/-! ### The tokenizer -/

/-- The characters with a meaning, as the tokenizer takes them. -/
def shellSyntax : WordSplit.Syntax Byte := ⟨space, backslash, [singleQuote, doubleQuote]⟩

/-- The words of a line, read from an immutable copy of it. -/
def tokenize (text : List Byte) : Except (WordSplit.Error Byte) (List (List Byte)) :=
  WordSplit.words shellSyntax shellMaxArguments text

/-- The result code for what the tokenizer found. -/
def resultCode : Except (WordSplit.Error Byte) (List (List Byte)) → ParseResult
  | .ok _ => .ok
  | .error .tooManyWords => .tooManyArguments
  | .error (.openQuote quote) =>
      if quote = singleQuote then .unterminatedSingleQuote else .unterminatedDoubleQuote
  | .error .trailingEscape => .trailingBackslash

/-- The quote that is open, as the tokenizer takes it. -/
def openQuote (quote : Byte) : Option Byte := if quote = 0 then none else some quote

/-! ### The invariant -/

variable {text tail : List Byte} {p : Parser} {ws : List (List Byte)} {w : List Byte} {c : Byte}

/-- **The cursors** stay in the line, the write cursor behind the read cursor, and what is still to
be read is as it was; the line and the array keep their lengths. -/
structure Cursors (text tail : List Byte) (p : Parser) : Prop where
  length : p.line.length = text.length + 1 + tail.length
  unread : p.line.drop p.readCursor = (text ++ 0 :: tail).drop p.readCursor
  read_le : p.readCursor ≤ text.length
  write_le : p.writeCursor ≤ p.readCursor
  slots : p.arguments.length = shellMaxArguments + 1
  count_le : p.argumentCount ≤ shellMaxArguments

/-- **The words `ws` and the letters `w` of the next one have been written**, and the arguments point
to where they start. -/
structure Progress (p : Parser) (ws : List (List Byte)) (w : List Byte) : Prop where
  written : p.line.take p.writeCursor = layout ws ++ w
  nonzero : ∀ v ∈ ws, (0 : Byte) ∉ v
  letters : (0 : Byte) ∉ w
  pointers : ∀ i < p.argumentCount, p.arguments[i]? = some (some (layout (ws.take i)).length)

/-- What holds where the parser is.  The tokenizer's result for the line is what it makes of the words
so far and the rest of the line. -/
def AtControl (text : List Byte) (p : Parser) : Control → Prop
  | .between => ∃ ws, ws.length = p.argumentCount ∧ Progress p ws [] ∧
      tokenize text = (WordSplit.words shellSyntax (shellMaxArguments - p.argumentCount)
        (text.drop p.readCursor)).map (ws ++ ·)
  | .word => ∃ ws w, ws.length + 1 = p.argumentCount ∧ Progress p ws w ∧
      (p.quote = 0 ∨ p.quote = singleQuote ∨ p.quote = doubleQuote) ∧
      tokenize text = (WordSplit.resume shellSyntax (shellMaxArguments - p.argumentCount) w
        (openQuote p.quote) (text.drop p.readCursor)).map (ws ++ ·)
  | .done result => result = resultCode (tokenize text) ∧
      p.arguments[p.argumentCount]? = some none ∧
      ∀ ws, tokenize text = .ok ws → ws.length = p.argumentCount ∧
        layout ws <+: p.line ∧ (layout ws).length ≤ text.length + 1 ∧
        (∀ v ∈ ws, (0 : Byte) ∉ v) ∧
        ∀ i < p.argumentCount, p.arguments[i]? = some (some (layout (ws.take i)).length)

/-- What holds between two passes. -/
def Inv (text tail : List Byte) (p : Parser) : Prop :=
  Cursors text tail p ∧ AtControl text p p.control

/-! ### Reading and writing the line -/

/-- What the parser sees at a position it has not passed yet: the terminating zero, or the next
character of the line. -/
theorem Cursors.peek (h : Cursors text tail p) (htext : (0 : Byte) ∉ text) {k : ℕ}
    (hk : p.readCursor ≤ k) (hk' : k ≤ text.length) :
    (k = text.length ∧ p.line[k]? = some 0 ∧ text.drop k = []) ∨
      ∃ c, k < text.length ∧ p.line[k]? = some c ∧ c ≠ 0 ∧ text.drop k = c :: text.drop (k + 1) := by
  have horig : p.line[k]? = (text ++ 0 :: tail)[k]? := by
    have hdrop := congrArg (fun l => l[k - p.readCursor]?) h.unread
    simp only [List.getElem?_drop, Nat.add_sub_cancel' hk] at hdrop
    exact hdrop
  rcases Nat.eq_or_lt_of_le hk' with rfl | hlt
  · left
    refine ⟨rfl, ?_, by simp⟩
    rw [horig, List.getElem?_append_right (Nat.le_refl _)]
    simp
  · right
    refine ⟨text[k], hlt, ?_, ?_, List.drop_eq_getElem_cons hlt⟩
    · rw [horig, List.getElem?_append_left hlt, List.getElem?_eq_getElem hlt]
    · exact fun hzero => htext (hzero ▸ List.getElem_mem hlt)

theorem Cursors.advance (h : Cursors text tail p) {n : ℕ} (hn : p.readCursor + n ≤ text.length) :
    Cursors text tail (p.advance n) where
  length := h.length
  unread := by
    have hdrop := congrArg (List.drop n) h.unread
    simpa [Parser.advance, List.drop_drop] using hdrop
  read_le := hn
  write_le := Nat.le_trans h.write_le (Nat.le_add_right _ _)
  slots := h.slots
  count_le := h.count_le

theorem Cursors.emit (h : Cursors text tail p) (hlt : p.writeCursor < p.readCursor) (c : Byte) :
    p.emit c = some { p with
      line := p.line.set p.writeCursor c
      writeCursor := p.writeCursor + 1 } ∧
    Cursors text tail { p with
      line := p.line.set p.writeCursor c
      writeCursor := p.writeCursor + 1 } := by
  have hread := h.read_le
  have hlen := h.length
  refine ⟨?_, ?_, ?_, h.read_le, hlt, h.slots, h.count_le⟩
  · rw [Parser.emit, store_of_lt (by omega)]
    rfl
  · rw [List.length_set]
    exact h.length
  · rw [drop_set hlt]
    exact h.unread

theorem Progress.emit (h : Progress p ws w) (hlt : p.writeCursor < p.line.length) (hc : c ≠ 0) :
    Progress { p with
      line := p.line.set p.writeCursor c
      writeCursor := p.writeCursor + 1 } ws (w ++ [c]) where
  written := by
    rw [take_set hlt, h.written, List.append_assoc]
  nonzero := h.nonzero
  letters := by
    rw [List.mem_append, List.mem_singleton, not_or]
    exact ⟨h.letters, hc.symm⟩
  pointers := h.pointers

/-- With the word at hand, too, no word has a zero in it. -/
theorem Progress.nonzero_concat (h : Progress p ws w) : ∀ v ∈ ws ++ [w], (0 : Byte) ∉ v := by
  intro v hv
  rcases List.mem_append.1 hv with hv | hv
  · exact h.nonzero v hv
  · rw [List.mem_singleton.1 hv]
    exact h.letters

theorem Progress.advance (h : Progress p ws w) (n : ℕ) : Progress (p.advance n) ws w :=
  ⟨h.written, h.nonzero, h.letters, h.pointers⟩

/-- The cursors are in order whatever the parser is doing with them. -/
theorem Cursors.mode (h : Cursors text tail p) (quote : Byte) (control : Control) :
    Cursors text tail { p with quote := quote, control := control } :=
  ⟨h.length, h.unread, h.read_le, h.write_le, h.slots, h.count_le⟩

theorem Progress.mode (h : Progress p ws w) (quote : Byte) (control : Control) :
    Progress { p with quote := quote, control := control } ws w :=
  ⟨h.written, h.nonzero, h.letters, h.pointers⟩

/-! ### Returning -/

/-- Returning puts a null pointer after the arguments. -/
theorem Cursors.finish (h : Cursors text tail p) (result : ParseResult) :
    ∃ q, p.finish result = some q ∧ Cursors text tail q ∧ q.control = .done result ∧
      q.line = p.line ∧ q.argumentCount = p.argumentCount ∧
      q.arguments[p.argumentCount]? = some none ∧
      ∀ i < p.argumentCount, q.arguments[i]? = p.arguments[i]? := by
  have hslots := h.slots
  have hcount := h.count_le
  have hlt : p.argumentCount < p.arguments.length := by omega
  refine ⟨{ p with
    arguments := p.arguments.set p.argumentCount none
    control := .done result }, ?_, ⟨h.length, h.unread, h.read_le, h.write_le, ?_, h.count_le⟩,
    rfl, rfl, rfl, ?_, ?_⟩
  · rw [Parser.finish, store_of_lt hlt]
    rfl
  · rw [List.length_set]
    exact h.slots
  · exact List.getElem?_set_self hlt
  · intro i hi
    exact List.getElem?_set_ne (by omega)

/-- At the end of the line the word at hand can be terminated. -/
theorem Cursors.terminate (h : Cursors text tail p) (hend : p.readCursor = text.length)
    (result : ParseResult) :
    ∃ q, p.terminate result = some q ∧ Cursors text tail q ∧ q.control = .done result ∧
      q.line = p.line.set p.writeCursor 0 ∧ q.argumentCount = p.argumentCount ∧
      q.arguments[p.argumentCount]? = some none ∧
      ∀ i < p.argumentCount, q.arguments[i]? = p.arguments[i]? := by
  have hlen := h.length
  have hwrite := h.write_le
  have hunread : (p.line.set p.writeCursor 0).drop p.readCursor =
      (text ++ 0 :: tail).drop p.readCursor := by
    rcases Nat.eq_or_lt_of_le hwrite with heq | hlt
    · -- the terminating zero of the line is written over itself
      have hzero : p.line[p.writeCursor]? = some 0 := by
        have hdrop := congrArg (fun l => l[0]?) h.unread
        simpa [heq, hend] using hdrop
      rw [set_same hzero]
      exact h.unread
    · rw [drop_set hlt]
      exact h.unread
  have hset : Cursors text tail { p with line := p.line.set p.writeCursor 0 } :=
    ⟨by rw [List.length_set]; exact h.length, hunread, h.read_le, h.write_le, h.slots, h.count_le⟩
  obtain ⟨q, hq, hrest⟩ := hset.finish result
  refine ⟨q, ?_, hrest⟩
  rw [Parser.terminate, store_of_lt (by omega)]
  exact hq

/-! ### One pass -/

/-- What is left to do, in passes. -/
def remaining (text : List Byte) (p : Parser) : ℕ :=
  match p.control with
  | .between => 2 * (text.length - p.readCursor) + 2
  | .word => 2 * (text.length - p.readCursor) + 1
  | .done _ => 0

theorem remaining_between (text : List Byte) (h : p.control = .between) :
    remaining text p = 2 * (text.length - p.readCursor) + 2 := by
  rw [remaining, h]

theorem remaining_word (text : List Byte) (h : p.control = .word) :
    remaining text p = 2 * (text.length - p.readCursor) + 1 := by
  rw [remaining, h]

theorem remaining_done (text : List Byte) {result : ParseResult} (h : p.control = .done result) :
    remaining text p = 0 := by
  rw [remaining, h]

/-- A pass that returns an error. -/
theorem inv_error {q : Parser} {result : ParseResult} {e : WordSplit.Error Byte}
    (hq : Cursors text tail q) (hdone : q.control = .done result)
    (hnull : q.arguments[q.argumentCount]? = some none) (htok : tokenize text = .error e)
    (hresult : result = resultCode (.error e)) : Inv text tail q := by
  refine ⟨hq, ?_⟩
  rw [hdone]
  refine ⟨by rw [htok, hresult], hnull, ?_⟩
  intro ws hws
  rw [htok] at hws
  cases hws

/-- A pass that returns the words, when they take up the first `k` bytes of the line. -/
theorem inv_ok {q : Parser} {k : ℕ} (hq : Cursors text tail q) (hdone : q.control = .done .ok)
    (hnull : q.arguments[q.argumentCount]? = some none) (htok : tokenize text = .ok ws)
    (hlen : ws.length = q.argumentCount) (hline : q.line.take k = layout ws)
    (hk : k ≤ text.length + 1) (hnonzero : ∀ v ∈ ws, (0 : Byte) ∉ v)
    (hpointers : ∀ i < q.argumentCount, q.arguments[i]? = some (some (layout (ws.take i)).length)) :
    Inv text tail q := by
  refine ⟨hq, ?_⟩
  rw [hdone]
  refine ⟨by rw [htok]; rfl, hnull, ?_⟩
  intro vs hvs
  rw [htok] at hvs
  cases hvs
  rw [← hline]
  exact ⟨hlen, List.take_prefix _ _, (List.length_take_le ..).trans hk, hnonzero, hpointers⟩

/-- A pass from `p` stays in bounds, keeps the invariant and comes closer to returning. -/
def Proceeds (text tail : List Byte) (p : Parser) (pass : Option Parser) : Prop :=
  ∃ q, pass = some q ∧ Inv text tail q ∧ remaining text q < remaining text p

/-! ### Between words -/

/-- The parser comes to the end of the line. -/
theorem inv_finish (hcur : Cursors text tail p) (hcontrol : p.control = .between)
    (hlen : ws.length = p.argumentCount) (hprog : Progress p ws [])
    (htok : tokenize text = .ok ws) : Proceeds text tail p (p.finish .ok) := by
  have hread := hcur.read_le
  have hwrite := hcur.write_le
  obtain ⟨q, hq, hqcur, hdone, hline, hcount, hnull, hargs⟩ := hcur.finish .ok
  rw [← hcount] at hnull
  refine ⟨q, hq, inv_ok (k := p.writeCursor) hqcur hdone hnull htok (hlen.trans hcount.symm) ?_
    (by omega) hprog.nonzero ?_, ?_⟩
  · rw [hline, hprog.written, List.append_nil]
  · intro i hi
    rw [hcount] at hi
    rw [hargs i hi]
    exact hprog.pointers i hi
  · rw [remaining_done text hdone, remaining_between text hcontrol]
    omega

/-- The parser skips a space. -/
theorem inv_skip (hcur : Cursors text tail p) (hcontrol : p.control = .between)
    (hlen : ws.length = p.argumentCount) (hprog : Progress p ws [])
    (hread : p.readCursor + 1 ≤ text.length)
    (htok : tokenize text = (WordSplit.words shellSyntax (shellMaxArguments - p.argumentCount)
      (text.drop (p.readCursor + 1))).map (ws ++ ·)) :
    Proceeds text tail p (some (p.advance 1)) := by
  have hcontrol' : (p.advance 1).control = .between := hcontrol
  refine ⟨p.advance 1, rfl, ⟨hcur.advance hread, ?_⟩, ?_⟩
  · rw [hcontrol']
    exact ⟨ws, hlen, hprog.advance 1, htok⟩
  · rw [remaining_between text hcontrol, remaining_between text hcontrol']
    simp only [Parser.advance]
    omega

/-- The parser comes to a ninth word. -/
theorem inv_tooMany (hcur : Cursors text tail p) (hcontrol : p.control = .between)
    (htok : tokenize text = .error .tooManyWords) :
    Proceeds text tail p (p.finish .tooManyArguments) := by
  obtain ⟨q, hq, hqcur, hdone, -, hcount, hnull, -⟩ := hcur.finish .tooManyArguments
  rw [← hcount] at hnull
  refine ⟨q, hq, inv_error hqcur hdone hnull htok rfl, ?_⟩
  rw [remaining_done text hdone, remaining_between text hcontrol]
  omega

/-- The parser comes to a word, and points the next argument to where it will be written. -/
theorem inv_open (hcur : Cursors text tail p) (hcontrol : p.control = .between)
    (hlen : ws.length = p.argumentCount) (hprog : Progress p ws [])
    (hroom : p.argumentCount < shellMaxArguments)
    (htok : tokenize text = (WordSplit.resume shellSyntax
      (shellMaxArguments - (p.argumentCount + 1)) [] none (text.drop p.readCursor)).map (ws ++ ·)) :
    Proceeds text tail p ((store p.arguments p.argumentCount (some p.writeCursor)).bind
      fun arguments => some { p with
        arguments := arguments
        argumentCount := p.argumentCount + 1
        quote := 0
        control := .word }) := by
  have hslots := hcur.slots
  have hlt : p.argumentCount < p.arguments.length := by omega
  rw [store_of_lt hlt, Option.bind_some]
  refine ⟨_, rfl, ⟨?_, ws, [], ?_, ?_, Or.inl rfl, htok⟩, ?_⟩
  · exact ⟨hcur.length, hcur.unread, hcur.read_le, hcur.write_le, (List.length_set ..).trans hslots,
      hroom⟩
  · rw [hlen]
  · refine ⟨hprog.written, hprog.nonzero, hprog.letters, ?_⟩
    intro i hi
    change (p.arguments.set p.argumentCount (some p.writeCursor))[i]? = _
    rcases Nat.lt_or_ge i p.argumentCount with hi' | hi'
    · rw [List.getElem?_set_ne (by omega)]
      exact hprog.pointers i hi'
    · -- the pointer to the new word is where the words so far end
      obtain rfl : i = p.argumentCount := Nat.le_antisymm (Nat.le_of_lt_succ hi) hi'
      have hwlen := congrArg List.length hprog.written
      have hwrite := hcur.write_le
      have hread := hcur.read_le
      have hline := hcur.length
      rw [List.length_take, List.append_nil] at hwlen
      rw [List.getElem?_set_self hlt, ← hlen, List.take_length, ← hwlen]
      congr 2
      omega
  · rw [remaining_between text hcontrol]
    change 2 * (text.length - p.readCursor) + 1 < _
    omega

theorem inv_between (h : Inv text tail p) (htext : (0 : Byte) ∉ text)
    (hcontrol : p.control = .between) : Proceeds text tail p (parseBetween p) := by
  obtain ⟨hcur, hinv⟩ := h
  rw [hcontrol] at hinv
  obtain ⟨ws, hlen, hprog, htok⟩ := hinv
  rcases hcur.peek htext (Nat.le_refl _) hcur.read_le with
    ⟨hend, hchar, hrest⟩ | ⟨c, hlt, hchar, hc, hrest⟩
  · -- the end of the line
    have hstep : parseBetween p = p.finish .ok := by
      simp only [parseBetween, hchar, Option.bind_eq_bind, Option.bind_some]
      rfl
    have hall : tokenize text = .ok ws := by
      rw [htok, hrest, WordSplit.words_nil]
      simp [Except.map]
    rw [hstep]
    exact inv_finish hcur hcontrol hlen hprog hall
  · rw [hrest] at htok
    rcases eq_or_ne c space with rfl | hspace
    · have hstep : parseBetween p = some (p.advance 1) := by
        simp only [parseBetween, hchar, Option.bind_eq_bind, Option.bind_some]
        rfl
      rw [hstep]
      refine inv_skip hcur hcontrol hlen hprog hlt (htok.trans ?_)
      exact congrArg (Except.map (ws ++ ·)) WordSplit.words_cons_blank
    · have hstep : parseBetween p = if p.argumentCount = shellMaxArguments then
          p.finish .tooManyArguments
        else (store p.arguments p.argumentCount (some p.writeCursor)).bind fun arguments =>
          some { p with
            arguments := arguments
            argumentCount := p.argumentCount + 1
            quote := 0
            control := .word } := by
        simp only [parseBetween, hchar, Option.bind_eq_bind, Option.bind_some, if_neg hspace,
          if_neg hc]
        rfl
      rw [hstep]
      rcases Nat.eq_or_lt_of_le hcur.count_le with hfull | hroom
      · -- the start of a ninth word
        rw [hfull, Nat.sub_self, WordSplit.words_zero_cons hspace] at htok
        rw [if_pos hfull]
        exact inv_tooMany hcur hcontrol htok
      · -- the start of a word
        have hsub : shellMaxArguments - p.argumentCount =
            shellMaxArguments - (p.argumentCount + 1) + 1 := by omega
        rw [if_neg (Nat.ne_of_lt hroom)]
        refine inv_open hcur hcontrol hlen hprog hroom (htok.trans ?_)
        rw [hsub, hrest]
        exact congrArg (Except.map (ws ++ ·)) (WordSplit.words_cons hspace)

/-! ### Inside a word -/

/-- The parser is inside a word, with the words `ws` behind it and the letters `w` of this one
written. -/
structure InWord (text tail : List Byte) (p : Parser) (ws : List (List Byte)) (w : List Byte) :
    Prop where
  cursors : Cursors text tail p
  control : p.control = .word
  count : ws.length + 1 = p.argumentCount
  progress : Progress p ws w
  quote : p.quote = 0 ∨ p.quote = singleQuote ∨ p.quote = doubleQuote

/-- A pass that adds a letter to the word at hand. -/
theorem inv_letter (h : InWord text tail p ws w) {n : ℕ} (hn : 0 < n)
    (hread : p.readCursor + n ≤ text.length) (hc : c ≠ 0)
    (htok : tokenize text = (WordSplit.resume shellSyntax (shellMaxArguments - p.argumentCount)
      (w ++ [c]) (openQuote p.quote) (text.drop (p.readCursor + n))).map (ws ++ ·)) :
    Proceeds text tail p ((p.advance n).emit c) := by
  have hwrite := h.cursors.write_le
  have hline := h.cursors.length
  have hlt : (p.advance n).writeCursor < (p.advance n).readCursor := by
    simp only [Parser.advance]
    omega
  obtain ⟨hq, hqcur⟩ := (h.cursors.advance hread).emit hlt c
  refine ⟨_, hq, ⟨hqcur, ?_⟩, ?_⟩
  · change AtControl text _ p.control
    rw [h.control]
    refine ⟨ws, w ++ [c], h.count, (h.progress.advance n).emit ?_ hc, h.quote, htok⟩
    simp only [Parser.advance]
    omega
  · refine lt_of_eq_of_lt (remaining_word text h.control) ?_
    rw [remaining_word text h.control]
    simp only [Parser.advance]
    omega

/-- A pass that opens or closes a quote. -/
theorem inv_quote (h : InWord text tail p ws w) (hread : p.readCursor + 1 ≤ text.length)
    {quote : Byte} (hquote : quote = 0 ∨ quote = singleQuote ∨ quote = doubleQuote)
    (htok : tokenize text = (WordSplit.resume shellSyntax (shellMaxArguments - p.argumentCount) w
      (openQuote quote) (text.drop (p.readCursor + 1))).map (ws ++ ·)) :
    Proceeds text tail p (some { p.advance 1 with quote := quote }) := by
  have hmode := (h.cursors.advance hread).mode quote p.control
  refine ⟨_, rfl, ⟨hmode, ?_⟩, ?_⟩
  · change AtControl text _ p.control
    rw [h.control]
    exact ⟨ws, w, h.count, (h.progress.advance 1).mode quote p.control, hquote, htok⟩
  · refine lt_of_eq_of_lt (remaining_word text h.control) ?_
    rw [remaining_word text h.control]
    simp only [Parser.advance]
    omega

/-- A pass that ends a word at a space. -/
theorem inv_space (h : InWord text tail p ws w) (hread : p.readCursor + 1 ≤ text.length)
    (htok : tokenize text = (WordSplit.words shellSyntax (shellMaxArguments - p.argumentCount)
      (text.drop (p.readCursor + 1))).map (ws ++ [w] ++ ·)) :
    Proceeds text tail p (((p.advance 1).emit 0).bind fun q =>
      some { q with control := .between }) := by
  have hwrite := h.cursors.write_le
  have hline := h.cursors.length
  have hcount := h.count
  have hlt : (p.advance 1).writeCursor < (p.advance 1).readCursor := by
    simp only [Parser.advance]
    omega
  obtain ⟨hq, hqcur⟩ := (h.cursors.advance hread).emit hlt 0
  rw [hq, Option.bind_some]
  refine ⟨_, rfl, ⟨hqcur.mode p.quote .between, ws ++ [w], ?_, ⟨?_, ?_, by simp, ?_⟩, htok⟩, ?_⟩
  · rw [List.length_append]
    exact hcount
  · change (p.line.set p.writeCursor 0).take (p.writeCursor + 1) = _
    rw [take_set (by omega), h.progress.written, layout_append, layout_singleton]
    simp
  · exact h.progress.nonzero_concat
  · intro i hi
    have hi' : i < p.argumentCount := hi
    rw [List.take_append_of_le_length (by omega)]
    exact h.progress.pointers i hi'
  · rw [remaining_word text h.control]
    change 2 * (text.length - (p.readCursor + 1)) + 2 < _
    omega

/-- A pass that ends the last word at the end of the line. -/
theorem inv_end (h : InWord text tail p ws w) (hend : p.readCursor = text.length)
    (htok : tokenize text = .ok (ws ++ [w])) : Proceeds text tail p (p.terminate .ok) := by
  have hwrite := h.cursors.write_le
  have hline := h.cursors.length
  have hcount' := h.count
  obtain ⟨q, hq, hqcur, hdone, hqline, hcount, hnull, hargs⟩ := h.cursors.terminate hend .ok
  rw [← hcount] at hnull
  refine ⟨q, hq, inv_ok (k := p.writeCursor + 1) hqcur hdone hnull htok ?_ ?_ (by omega)
    h.progress.nonzero_concat ?_, ?_⟩
  · rw [List.length_append, hcount]
    exact hcount'
  · rw [hqline, take_set (by omega), h.progress.written, layout_append, layout_singleton]
    simp
  · intro i hi
    rw [hcount] at hi
    rw [hargs i hi, List.take_append_of_le_length (by omega)]
    exact h.progress.pointers i hi
  · rw [remaining_done text hdone, remaining_word text h.control]
    omega

/-- A pass that ends the line with an error. -/
theorem inv_terminate (h : InWord text tail p ws w) {n : ℕ} (hend : p.readCursor + n = text.length)
    {result : ParseResult} {e : WordSplit.Error Byte} (htok : tokenize text = .error e)
    (hresult : result = resultCode (.error e)) :
    Proceeds text tail p ((p.advance n).terminate result) := by
  obtain ⟨q, hq, hqcur, hdone, -, hcount, hnull, -⟩ :=
    (h.cursors.advance hend.le).terminate hend result
  rw [← hcount] at hnull
  refine ⟨q, hq, inv_error hqcur hdone hnull htok hresult, ?_⟩
  rw [remaining_done text hdone, remaining_word text h.control]
  omega

/-- A pass that finds the end of the line, in a quote or not. -/
theorem inv_lineEnd (h : InWord text tail p ws w) (hend : p.readCursor = text.length)
    (hchar : p.line[p.readCursor]? = some 0)
    (htok : tokenize text = (WordSplit.resume shellSyntax (shellMaxArguments - p.argumentCount) w
      (openQuote p.quote) []).map (ws ++ ·)) : Proceeds text tail p (parseWord p) := by
  have hstep : parseWord p = p.terminate (if p.quote = singleQuote then .unterminatedSingleQuote
      else if p.quote = doubleQuote then .unterminatedDoubleQuote else .ok) := by
    simp only [parseWord, hchar, Option.bind_eq_bind, Option.bind_some, if_true]
  rw [hstep]
  rcases eq_or_ne p.quote 0 with hzero | hopen
  · have hok : tokenize text = .ok (ws ++ [w]) := by
      rw [htok, hzero]
      exact congrArg (Except.map (ws ++ ·)) WordSplit.resume_nil
    rw [hzero]
    exact inv_end h hend hok
  · have herr : tokenize text = .error (.openQuote p.quote) := by
      rw [htok, openQuote, if_neg hopen]
      exact congrArg (Except.map (ws ++ ·)) WordSplit.resume_nil_quoted
    refine inv_terminate h (n := 0) hend herr ?_
    rcases h.quote.resolve_left hopen with hsingle | hdouble
    · rw [hsingle]
      rfl
    · rw [hdouble]
      rfl

/-- A pass that finds an escape, in a quote or not. -/
theorem inv_escape (h : InWord text tail p ws w) (htext : (0 : Byte) ∉ text)
    (hlt : p.readCursor < text.length) (hchar : p.line[p.readCursor]? = some backslash)
    (htok : tokenize text = (WordSplit.resume shellSyntax (shellMaxArguments - p.argumentCount) w
      (openQuote p.quote) (backslash :: text.drop (p.readCursor + 1))).map (ws ++ ·)) :
    Proceeds text tail p (parseWord p) := by
  have hback : backslash ≠ 0 := by decide
  rcases h.cursors.peek htext (Nat.le_succ _) hlt with
    ⟨hend, hnext, hrest⟩ | ⟨c, hlt', hnext, hc, hrest⟩
  · have hnext' : (p.advance 1).line[(p.advance 1).readCursor]? = some 0 := hnext
    have hstep : parseWord p = (p.advance 1).terminate .trailingBackslash := by
      simp only [parseWord, hchar, Option.bind_eq_bind, Option.bind_some, if_neg hback, if_true,
        hnext']
    have herr : tokenize text = .error .trailingEscape := by
      rw [htok, hrest]
      exact congrArg (Except.map (ws ++ ·)) WordSplit.resume_escape_nil
    rw [hstep]
    exact inv_terminate h hend herr rfl
  · have hnext' : (p.advance 1).line[(p.advance 1).readCursor]? = some c := hnext
    have hstep : parseWord p = (p.advance 2).emit c := by
      simp only [parseWord, hchar, Option.bind_eq_bind, Option.bind_some, if_neg hback, if_true,
        hnext', if_neg hc]
      rfl
    rw [hstep]
    refine inv_letter h (by decide) hlt' hc (htok.trans ?_)
    rw [hrest]
    exact congrArg (Except.map (ws ++ ·)) WordSplit.resume_escape

theorem space_ne : space ≠ backslash := by decide

theorem not_quote_space : space ∉ shellSyntax.quotes := by decide

/-- A pass that finds a character outside quotes. -/
theorem inv_unquoted (h : InWord text tail p ws w) (hread : p.readCursor + 1 ≤ text.length)
    (hc : c ≠ 0) (hback : c ≠ backslash) (hzero : p.quote = 0)
    (htok : tokenize text = (WordSplit.resume shellSyntax (shellMaxArguments - p.argumentCount) w
      none (c :: text.drop (p.readCursor + 1))).map (ws ++ ·)) :
    Proceeds text tail p (if c = singleQuote ∨ c = doubleQuote then
        some { p.advance 1 with quote := c }
      else if c = space then ((p.advance 1).emit 0).bind fun q => some { q with control := .between }
      else (p.advance 1).emit c) := by
  by_cases hq : c = singleQuote ∨ c = doubleQuote
  · -- a quote opens
    have hmem : c ∈ shellSyntax.quotes := by simpa [shellSyntax] using hq
    rw [if_pos hq]
    refine inv_quote h hread (Or.inr hq) (htok.trans ?_)
    rw [openQuote, if_neg hc]
    exact congrArg (Except.map (ws ++ ·)) (WordSplit.resume_open hback hmem)
  · have hmem : c ∉ shellSyntax.quotes := by simpa [shellSyntax] using hq
    rw [if_neg hq]
    rcases eq_or_ne c space with rfl | hspace
    · -- the word ends
      rw [if_pos rfl]
      refine inv_space h hread (htok.trans ?_)
      rw [← WordSplit.map_map_append]
      exact congrArg (Except.map (ws ++ ·)) (WordSplit.resume_blank space_ne not_quote_space)
    · rw [if_neg hspace]
      refine inv_letter h (by decide) hread hc (htok.trans ?_)
      rw [openQuote, if_pos hzero]
      exact congrArg (Except.map (ws ++ ·)) (WordSplit.resume_plain hback hmem hspace)

/-- A pass that finds a character inside a quote. -/
theorem inv_quoted (h : InWord text tail p ws w) (hread : p.readCursor + 1 ≤ text.length)
    (hc : c ≠ 0) (hback : c ≠ backslash) (hopen : p.quote ≠ 0)
    (htok : tokenize text = (WordSplit.resume shellSyntax (shellMaxArguments - p.argumentCount) w
      (some p.quote) (c :: text.drop (p.readCursor + 1))).map (ws ++ ·)) :
    Proceeds text tail p (if c = p.quote then some { p.advance 1 with quote := 0 }
      else (p.advance 1).emit c) := by
  rcases eq_or_ne c p.quote with rfl | hclose
  · -- the quote closes
    rw [if_pos rfl]
    refine inv_quote h hread (Or.inl rfl) (htok.trans ?_)
    exact congrArg (Except.map (ws ++ ·)) (WordSplit.resume_close hback)
  · rw [if_neg hclose]
    refine inv_letter h (by decide) hread hc (htok.trans ?_)
    rw [openQuote, if_neg hopen]
    exact congrArg (Except.map (ws ++ ·)) (WordSplit.resume_quoted hback hclose)

theorem inv_word (h : Inv text tail p) (htext : (0 : Byte) ∉ text) (hcontrol : p.control = .word) :
    Proceeds text tail p (parseWord p) := by
  obtain ⟨hcur, hinv⟩ := h
  rw [hcontrol] at hinv
  obtain ⟨ws, w, hlen, hprog, hquote, htok⟩ := hinv
  have hin : InWord text tail p ws w := ⟨hcur, hcontrol, hlen, hprog, hquote⟩
  rcases hcur.peek htext (Nat.le_refl _) hcur.read_le with
    ⟨hend, hchar, hrest⟩ | ⟨c, hlt, hchar, hc, hrest⟩
  · rw [hrest] at htok
    exact inv_lineEnd hin hend hchar htok
  · rw [hrest] at htok
    rcases eq_or_ne c backslash with rfl | hback
    · exact inv_escape hin htext hlt hchar htok
    · have hstep : parseWord p = if p.quote ≠ 0 then
          if c = p.quote then some { p.advance 1 with quote := 0 } else (p.advance 1).emit c
        else if c = singleQuote ∨ c = doubleQuote then some { p.advance 1 with quote := c }
        else if c = space then ((p.advance 1).emit 0).bind fun q => some { q with control := .between }
        else (p.advance 1).emit c := by
        simp only [parseWord, hchar, Option.bind_eq_bind, Option.bind_some, if_neg hc,
          if_neg hback]
        rfl
      rw [hstep]
      rcases eq_or_ne p.quote 0 with hzero | hopen
      · rw [openQuote, if_pos hzero] at htok
        rw [if_neg (not_not.2 hzero)]
        exact inv_unquoted hin hlt hc hback hzero htok
      · rw [openQuote, if_neg hopen] at htok
        rw [if_pos hopen]
        exact inv_quoted hin hlt hc hback hopen htok

/-! ### Whole runs -/

/-- **One pass** stays in bounds, keeps the invariant and comes closer to returning. -/
theorem inv_step (h : Inv text tail p) (htext : (0 : Byte) ∉ text) :
    ∃ q, parseStep p = some q ∧ Inv text tail q ∧
      (remaining text p = 0 ∨ remaining text q < remaining text p) := by
  cases hcontrol : p.control with
  | between =>
      obtain ⟨q, hq, hinv, hlt⟩ := inv_between h htext hcontrol
      exact ⟨q, by rw [parseStep, hcontrol]; exact hq, hinv, Or.inr hlt⟩
  | word =>
      obtain ⟨q, hq, hinv, hlt⟩ := inv_word h htext hcontrol
      exact ⟨q, by rw [parseStep, hcontrol]; exact hq, hinv, Or.inr hlt⟩
  | done result =>
      exact ⟨p, by rw [parseStep, hcontrol], h, Or.inl (remaining_done text hcontrol)⟩

theorem inv_start (text tail : List Byte) {arguments : List (Option ℕ)}
    (hslots : arguments.length = shellMaxArguments + 1) :
    Inv text tail (Parser.start (text ++ 0 :: tail) arguments) := by
  refine ⟨⟨?_, rfl, Nat.zero_le _, Nat.le_refl _, hslots, Nat.zero_le _⟩, [], rfl,
    ⟨rfl, by simp, by simp, ?_⟩, ?_⟩
  · simp [Parser.start]
    omega
  · intro i hi
    exact absurd hi (Nat.not_lt_zero i)
  · change tokenize text = (tokenize text).map ([] ++ ·)
    cases tokenize text <;> simp [Except.map]

/-- After as many passes as are left, the parser **has returned**. -/
theorem inv_run (htext : (0 : Byte) ∉ text) {n : ℕ} (h : Inv text tail p)
    (hn : remaining text p ≤ n) :
    ∃ q result, parseRun n p = some q ∧ Inv text tail q ∧ q.control = .done result := by
  induction n generalizing p with
  | zero =>
      cases hcontrol : p.control with
      | between =>
          rw [remaining_between text hcontrol] at hn
          omega
      | word =>
          rw [remaining_word text hcontrol] at hn
          omega
      | done result => exact ⟨p, result, rfl, h, hcontrol⟩
  | succ n ih =>
      obtain ⟨q, hstep, hinv, hlt⟩ := inv_step h htext
      have hq : remaining text q ≤ n := by
        rcases hlt with hzero | hlt
        · cases hcontrol : p.control with
          | between =>
              rw [remaining_between text hcontrol] at hzero
              omega
          | word =>
              rw [remaining_word text hcontrol] at hzero
              omega
          | done result =>
              rw [parseStep, hcontrol] at hstep
              obtain rfl := Option.some_inj.1 hstep
              omega
        · omega
      obtain ⟨r, result, hrun, hrest⟩ := ih hinv hq
      refine ⟨r, result, ?_, hrest⟩
      rw [parseRun, hstep]
      exact hrun

/-- What comes after the terminating zero is as it was. -/
theorem Cursors.beyond (h : Cursors text tail p) : p.line.drop (text.length + 1) = tail := by
  have hread := h.read_le
  have hdrop := congrArg (List.drop (text.length + 1 - p.readCursor)) h.unread
  rw [List.drop_drop, List.drop_drop, Nat.add_sub_cancel' (by omega)] at hdrop
  rw [hdrop]
  simp

/-- **What a call returns**: the code for what the tokenizer finds, with a null pointer after the
arguments; and if that is a list of words, the arguments point to them. -/
theorem parse_returns (tail : List Byte) {arguments : List (Option ℕ)} (htext : (0 : Byte) ∉ text)
    (hslots : arguments.length = shellMaxArguments + 1) {fuel : ℕ}
    (hfuel : 2 * text.length + 2 ≤ fuel) :
    ∃ p, parseArguments fuel (text ++ 0 :: tail) arguments = some p ∧ Cursors text tail p ∧
      p.control = .done (resultCode (tokenize text)) ∧ p.arguments[p.argumentCount]? = some none ∧
      ∀ ws, tokenize text = .ok ws → p.argumentCount = ws.length ∧
        ∀ i (hi : i < ws.length), ∃ start,
          start = (layout (ws.take i)).length ∧ p.arguments[i]? = some (some start) ∧
          StringAt p.line start ws[i] ∧ start + ws[i].length ≤ text.length := by
  obtain ⟨p, result, hrun, ⟨hcur, hdone⟩, hcontrol⟩ :=
    inv_run htext (inv_start text tail hslots) (n := fuel) (by
      rw [remaining_between text rfl]
      exact hfuel)
  rw [hcontrol] at hdone
  obtain ⟨hresult, hnull, hwords⟩ := hdone
  refine ⟨p, hrun, hcur, by rw [hcontrol, hresult], hnull, ?_⟩
  intro ws hws
  obtain ⟨hlen, hline, hsize, hnonzero, hpointers⟩ := hwords ws hws
  refine ⟨hlen.symm, ?_⟩
  intro i hi
  obtain ⟨hstring, hlt⟩ := stringAt_layout hline hi (hnonzero _ (List.getElem_mem hi))
  exact ⟨_, rfl, hpointers i (hlen ▸ hi), hstring, by omega⟩

/-- **The parser agrees with the tokenizer.**  For every line `text`, with its terminating zero and
whatever comes after it in memory: between any two passes the write cursor is not past the read
cursor, what is still to be read and what comes after the terminating zero is as it was, there are at
most eight arguments, and the next pass stays in the line and the array.  After at most two passes
for each character and two more it returns the code for what the tokenizer finds, with a null
pointer after the arguments; and if that is a list of words, these are the strings the arguments
point to, one after the other inside the line. -/
theorem parse_agrees {text : List Byte} (tail : List Byte) {arguments : List (Option ℕ)}
    (htext : (0 : Byte) ∉ text) (hslots : arguments.length = shellMaxArguments + 1) :
    (∀ p, (parsePasses (text ++ 0 :: tail) arguments).Reachable p →
      p.writeCursor ≤ p.readCursor ∧ p.readCursor ≤ text.length ∧
        p.line.drop p.readCursor = (text ++ 0 :: tail).drop p.readCursor ∧
        p.line.length = (text ++ 0 :: tail).length ∧ p.line.drop (text.length + 1) = tail ∧
        p.argumentCount ≤ 8 ∧ parseStep p ≠ none) ∧
    ∀ fuel, 2 * text.length + 2 ≤ fuel →
      ∃ p, parseArguments fuel (text ++ 0 :: tail) arguments = some p ∧
        p.control = .done (resultCode (tokenize text)) ∧
        p.line.drop (text.length + 1) = tail ∧
        p.argumentCount ≤ 8 ∧ p.arguments[p.argumentCount]? = some none ∧
        ∀ ws, tokenize text = .ok ws → p.argumentCount = ws.length ∧
          ∀ i (hi : i < ws.length), ∃ start,
            start = (layout (ws.take i)).length ∧ p.arguments[i]? = some (some start) ∧
            StringAt p.line start ws[i] ∧ start + ws[i].length ≤ text.length := by
  have hinit := inv_start text tail hslots
  constructor
  · intro p hp
    have hinv : Inv text tail p := by
      refine hp.invariant (P := Inv text tail) ?_ ?_
      · rintro _ rfl
        exact hinit
      · intro s _ t _ hs hstep
        obtain ⟨q, hq, hinv, -⟩ := inv_step hs htext
        obtain rfl := Option.some_inj.1 (hq.symm.trans hstep)
        exact hinv
    obtain ⟨q, hq, -⟩ := inv_step hinv htext
    have hcur := hinv.1
    refine ⟨hcur.write_le, hcur.read_le, hcur.unread, ?_, hcur.beyond, hcur.count_le, ?_⟩
    · rw [hcur.length]
      simp
      omega
    · rw [hq]
      simp
  · intro fuel hfuel
    obtain ⟨p, hrun, hcur, hcontrol, hnull, hwords⟩ := parse_returns tail htext hslots hfuel
    exact ⟨p, hrun, hcontrol, hcur.beyond, hcur.count_le, hnull, hwords⟩

/-- The line `a "b c"` has two words. -/
theorem parse_agrees_quoted :
    ∃ p, parseArguments 18 [0x61, 0x20, 0x22, 0x62, 0x20, 0x63, 0x22, 0] (List.replicate 9 none) =
        some p ∧ p.control = .done .ok ∧ p.argumentCount = 2 := by
  obtain ⟨p, hrun, hcontrol, -, -, -, hwords⟩ :=
    (@parse_agrees [0x61, 0x20, 0x22, 0x62, 0x20, 0x63, 0x22] [] (List.replicate 9 none)
      (by decide) rfl).2 18 (by decide)
  have htok : tokenize [0x61, 0x20, 0x22, 0x62, 0x20, 0x63, 0x22] =
      .ok [[0x61], [0x62, 0x20, 0x63]] := rfl
  obtain ⟨hcount, -⟩ := hwords _ htok
  rw [htok] at hcontrol
  exact ⟨p, hrun, hcontrol, hcount⟩

end Shell

end MiniOs
