/-
**Every list of arguments can be typed.**

A user who wants the shell to see some strings writes each of them in one of three ways: without
quotes, with a backslash before each character that has a meaning, or in quotes of either kind, with
a backslash before that quote and before a backslash.  With spaces between them, as many as he
likes, the parser finds just these strings.

Main definitions:

* `Shell.Quoting`, `Shell.typedWord` — the three ways to write a string;
* `Shell.typedLine` — **a line of strings**, with the spaces before and after them.

Main results:

* `Shell.tokenize_typedLine` — the tokenizer finds the strings of a line;
* `Shell.typed_arguments_parsed` — **the parser returns them**, or one of them is too many.
-/

import MiniOs.ShellTokenize

set_option relaxedAutoImplicit false
set_option autoImplicit false

namespace MiniOs

namespace Shell

open CString

/-! ### Typing a string -/

/-- The ways to write a string. -/
inductive Quoting
  | unquoted
  | inDoubleQuotes
  | inSingleQuotes
  deriving DecidableEq, Repr

/-- A string in quotes, with a backslash before each such quote and each backslash. -/
def inQuotes (quote : Byte) (s : List Byte) : List Byte :=
  quote :: (s.flatMap fun c => if c = quote ∨ c = backslash then [backslash, c] else [c]) ++ [quote]

/-- A string as it is typed. -/
def typedWord : Quoting → List Byte → List Byte
  | .unquoted, s => s.flatMap fun c =>
      if c = space ∨ c = singleQuote ∨ c = doubleQuote ∨ c = backslash then [backslash, c] else [c]
  | .inDoubleQuotes, s => inQuotes doubleQuote s
  | .inSingleQuotes, s => inQuotes singleQuote s

/-- A line of strings: for each of them the number of spaces before it and the way it is typed; and
the number of spaces at the end. -/
def typedLine (trail : ℕ) : List (ℕ × Quoting × List Byte) → List Byte
  | [] => List.replicate trail space
  | (gap, quoting, s) :: items =>
      List.replicate gap space ++ typedWord quoting s ++ typedLine trail items

/-- What can be typed: strings without a zero, an empty one in quotes only. -/
structure Typable (item : ℕ × Quoting × List Byte) : Prop where
  letters : (0 : Byte) ∉ item.2.2
  nonempty : item.2.1 = .unquoted → item.2.2 ≠ []

/-! ### The tokenizer on a typed line -/

/-- The ways to write a string, as the splitter knows them. -/
def Quoting.style : Quoting → WordSplit.Style Byte
  | .unquoted => .plain
  | .inDoubleQuotes => .quoted doubleQuote
  | .inSingleQuotes => .quoted singleQuote

/-- An item of a line, as the splitter knows it. -/
def splitItem (item : ℕ × Quoting × List Byte) : ℕ × WordSplit.Style Byte × List Byte :=
  (item.1, item.2.1.style, item.2.2)

theorem shellSyntax_distinct : shellSyntax.Distinct where
  blank_ne_escape := by decide
  blank_not_quote := by decide
  escape_not_quote := by decide

theorem inQuotes_eq (quote : Byte) (s : List Byte) :
    inQuotes quote s = WordSplit.encode shellSyntax (.quoted quote) s := by
  have hletter : ∀ c, (if c = quote ∨ c = backslash then [backslash, c] else [c]) =
      WordSplit.escaped shellSyntax (c = shellSyntax.escape ∨ c = quote) c := fun c =>
    if_congr or_comm rfl rfl
  rw [inQuotes, WordSplit.encode, funext hletter]

theorem typedWord_eq (quoting : Quoting) (s : List Byte) :
    typedWord quoting s = WordSplit.encode shellSyntax quoting.style s := by
  cases quoting with
  | unquoted =>
      have hspecial : ∀ c : Byte,
          (c = space ∨ c = singleQuote ∨ c = doubleQuote ∨ c = backslash) ↔
            (c = shellSyntax.escape ∨ c ∈ shellSyntax.quotes ∨ c = shellSyntax.blank) := by
        intro c
        have hquotes : c ∈ shellSyntax.quotes ↔ c = singleQuote ∨ c = doubleQuote := by
          simp [shellSyntax]
        rw [hquotes]
        change _ ↔ c = backslash ∨ _ ∨ c = space
        tauto
      have hletter : ∀ c, (if c = space ∨ c = singleQuote ∨ c = doubleQuote ∨ c = backslash then
          [backslash, c] else [c]) = WordSplit.escaped shellSyntax
            (c = shellSyntax.escape ∨ c ∈ shellSyntax.quotes ∨ c = shellSyntax.blank) c := fun c =>
        if_congr (hspecial c) rfl rfl
      rw [typedWord, Quoting.style, WordSplit.encode, funext hletter]
  | inDoubleQuotes => exact inQuotes_eq doubleQuote s
  | inSingleQuotes => exact inQuotes_eq singleQuote s

theorem typedLine_eq (trail : ℕ) (items : List (ℕ × Quoting × List Byte)) :
    typedLine trail items = WordSplit.joined shellSyntax trail (items.map splitItem) := by
  induction items with
  | nil => rfl
  | cons item items ih =>
      obtain ⟨gap, quoting, s⟩ := item
      rw [typedLine, ih, typedWord_eq]
      rfl

theorem Typable.allows {item : ℕ × Quoting × List Byte} (h : Typable item) :
    item.2.1.style.Allows shellSyntax item.2.2 := by
  obtain ⟨gap, quoting, s⟩ := item
  cases quoting with
  | unquoted => exact h.nonempty rfl
  | inDoubleQuotes => exact List.mem_cons_of_mem _ List.mem_cons_self
  | inSingleQuotes => exact List.mem_cons_self

/-- **The tokenizer finds the strings of a line**, or that there are too many. -/
theorem tokenize_typedLine {trail : ℕ} {items : List (ℕ × Quoting × List Byte)}
    (htypable : ∀ item ∈ items, Typable item) (hgaps : ∀ item ∈ items.tail, 0 < item.1) :
    tokenize (typedLine trail items) =
      if items.length ≤ shellMaxArguments then .ok (items.map (·.2.2))
      else .error .tooManyWords := by
  have hallows : ∀ item ∈ items.map splitItem, item.2.1.Allows shellSyntax item.2.2 := by
    intro item hitem
    obtain ⟨i, hi, rfl⟩ := List.mem_map.1 hitem
    exact (htypable i hi).allows
  have hgaps' : ∀ item ∈ (items.map splitItem).tail, 0 < item.1 := by
    intro item hitem
    rw [← List.map_tail] at hitem
    obtain ⟨i, hi, rfl⟩ := List.mem_map.1 hitem
    exact hgaps i hi
  rw [tokenize, typedLine_eq, WordSplit.words_joined shellSyntax_distinct hallows hgaps',
    List.length_map, List.map_map]
  rfl

/-! ### The line in memory -/

/-- Escaping does not write a zero. -/
theorem zero_not_mem_escaped {s : List Byte} (h : (0 : Byte) ∉ s) (special : Byte → Prop)
    [DecidablePred special] :
    (0 : Byte) ∉ s.flatMap fun c => if special c then [backslash, c] else [c] := by
  intro hmem
  obtain ⟨c, hc, hzero⟩ := List.mem_flatMap.1 hmem
  have hne : (0 : Byte) ≠ c := fun heq => h (heq ▸ hc)
  have hback : (0 : Byte) ≠ backslash := by decide
  split at hzero
  · rcases List.mem_cons.1 hzero with hzero | hzero
    · exact hback hzero
    · exact hne (List.mem_singleton.1 hzero)
  · exact hne (List.mem_singleton.1 hzero)

theorem zero_not_mem_inQuotes {quote : Byte} (hquote : (0 : Byte) ≠ quote) {s : List Byte}
    (h : (0 : Byte) ∉ s) : (0 : Byte) ∉ inQuotes quote s := by
  rw [inQuotes, List.mem_append, List.mem_cons, List.mem_singleton]
  rintro ((hzero | hzero) | hzero)
  · exact hquote hzero
  · exact zero_not_mem_escaped h _ hzero
  · exact hquote hzero

theorem zero_not_mem_typedWord (quoting : Quoting) {s : List Byte} (h : (0 : Byte) ∉ s) :
    (0 : Byte) ∉ typedWord quoting s := by
  cases quoting with
  | unquoted => exact zero_not_mem_escaped h _
  | inDoubleQuotes => exact zero_not_mem_inQuotes (by decide) h
  | inSingleQuotes => exact zero_not_mem_inQuotes (by decide) h

theorem zero_not_mem_spaces (k : ℕ) : (0 : Byte) ∉ List.replicate k space := by
  intro hzero
  exact absurd (List.eq_of_mem_replicate hzero) (by decide)

/-- A typed line has no zero before its end. -/
theorem zero_not_mem_typedLine {trail : ℕ} {items : List (ℕ × Quoting × List Byte)}
    (htypable : ∀ item ∈ items, Typable item) : (0 : Byte) ∉ typedLine trail items := by
  induction items with
  | nil => exact zero_not_mem_spaces trail
  | cons item items ih =>
      obtain ⟨gap, quoting, s⟩ := item
      have hs : (0 : Byte) ∉ s := (htypable _ List.mem_cons_self).letters
      rw [typedLine, List.mem_append, List.mem_append]
      rintro ((hzero | hzero) | hzero)
      · exact zero_not_mem_spaces gap hzero
      · exact zero_not_mem_typedWord quoting hs hzero
      · exact ih (fun i hi => htypable i (List.mem_cons_of_mem _ hi)) hzero

/-- **Every list of arguments can be typed and is parsed back exactly.**  For up to eight strings
without a zero, each typed in any of the three ways, with any number of spaces before, between and
after them but at least one between two of them, the parser returns `PARSE_OK` and the arguments
are these strings, with a null pointer after the last one.  For more than eight it returns
`PARSE_TOO_MANY_ARGUMENTS`. -/
theorem typed_arguments_parsed {trail : ℕ} {items : List (ℕ × Quoting × List Byte)}
    (htypable : ∀ item ∈ items, Typable item) (hgaps : ∀ item ∈ items.tail, 0 < item.1)
    (tail : List Byte) {arguments : List (Option ℕ)}
    (hslots : arguments.length = shellMaxArguments + 1) {fuel : ℕ}
    (hfuel : 2 * (typedLine trail items).length + 2 ≤ fuel) :
    ∃ p, parseArguments fuel (typedLine trail items ++ 0 :: tail) arguments = some p ∧
      (items.length ≤ 8 →
        p.control = .done .ok ∧ p.argumentCount = items.length ∧
          p.arguments[items.length]? = some none ∧
          ∀ i (hi : i < items.length), ∃ start,
            p.arguments[i]? = some (some start) ∧ StringAt p.line start items[i].2.2) ∧
      (8 < items.length → p.control = .done .tooManyArguments) := by
  obtain ⟨p, hrun, -, hcontrol, hnull, hwords⟩ :=
    parse_returns tail (zero_not_mem_typedLine htypable) hslots hfuel
  rw [tokenize_typedLine htypable hgaps] at hcontrol hwords
  refine ⟨p, hrun, fun hle => ?_, fun hlt => ?_⟩
  · have hmax : items.length ≤ shellMaxArguments := hle
    rw [if_pos hmax] at hcontrol hwords
    obtain ⟨hcount, hstrings⟩ := hwords _ rfl
    rw [List.length_map] at hcount
    refine ⟨hcontrol, hcount, hcount ▸ hnull, fun i hi => ?_⟩
    obtain ⟨start, -, hpointer, hstring, -⟩ := hstrings i (by rw [List.length_map]; exact hi)
    rw [List.getElem_map] at hstring
    exact ⟨start, hpointer, hstring⟩
  · have hmax : ¬items.length ≤ shellMaxArguments := Nat.not_le.2 hlt
    rw [if_neg hmax] at hcontrol
    exact hcontrol

/-- The strings `a"` and the empty string, typed as ` "a\""  ''`. -/
theorem typed_arguments_parsed_two :
    ∃ p, parseArguments 40 (typedLine 0 [(1, .inDoubleQuotes, [0x61#8, 0x22#8]),
        (2, .inSingleQuotes, [])] ++ [0]) (List.replicate 9 none) = some p ∧
      p.control = .done .ok ∧ p.argumentCount = 2 := by
  have htypable : ∀ item ∈ [(1, Quoting.inDoubleQuotes, [0x61#8, 0x22#8]),
      (2, Quoting.inSingleQuotes, [])], Typable item := by
    intro item hitem
    rcases List.mem_cons.1 hitem with rfl | hitem
    · exact ⟨by decide, by decide⟩
    · rw [List.mem_singleton.1 hitem]
      exact ⟨by decide, by decide⟩
  obtain ⟨p, hrun, hok, -⟩ := @typed_arguments_parsed 0 _ htypable (by decide) []
    (List.replicate 9 none) rfl 40 (by decide)
  obtain ⟨hcontrol, hcount, -⟩ := hok (by decide)
  exact ⟨p, hrun, hcontrol, hcount⟩

end Shell

end MiniOs
