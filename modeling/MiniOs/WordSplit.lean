/-
**Splitting a line into words, with quotes and an escape.**

Words are separated by blanks.  An escape makes the next letter literal, a quote runs to the next
unescaped quote of the same kind and is removed, and what is quoted joins with what is next to it.
The number of words is bounded.  A line is read from left to right, and the first thing that is
wrong is reported.

Main definitions:

* `WordSplit.Syntax` — the letters with a meaning;
* `WordSplit.word`, `WordSplit.words` — **the first word of a line, and all of them**;
* `WordSplit.resume` — the words of a line, read up to a point inside a word;
* `WordSplit.Style`, `WordSplit.encode`, `WordSplit.joined` — **ways to write words into a line**.

Main results:

* `WordSplit.words_cons_blank`, `WordSplit.words_cons`, `WordSplit.words_zero_cons` — reading on
  between words;
* `WordSplit.resume_escape`, `WordSplit.resume_quoted`, `WordSplit.resume_plain`, … — **reading on
  inside a word**, one rule for each kind of letter;
* `WordSplit.words_joined` — **what was written into a line is read back**.
-/

import Mathlib.Data.List.Basic

set_option relaxedAutoImplicit false
set_option autoImplicit false

universe u

namespace WordSplit

variable {α : Type u}

/-! ### The splitter -/

/-- The letters with a meaning. -/
structure Syntax (α : Type u) where
  blank : α
  escape : α
  quotes : List α

/-- What can be wrong with a line. -/
inductive Error (α : Type u)
  | tooManyWords
  | openQuote (quote : α)
  | trailingEscape

/-- Words put in front one after the other. -/
theorem map_map_append {ε : Type u} (w : List α) (vs : List (List α))
    (result : Except ε (List (List α))) :
    (result.map (w :: ·)).map (vs ++ ·) = result.map (vs ++ [w] ++ ·) := by
  cases result with
  | error e => rfl
  | ok l => simp [Except.map]

/-- Put a letter in front of the word that was read. -/
def push (a : α) (result : Except (Error α) (List α × List α)) :
    Except (Error α) (List α × List α) :=
  result.map fun r => (a :: r.1, r.2)

variable [DecidableEq α]

/-- Read the rest of a word, with `quote` the quote that is open, if one is: the letters, and what
follows the blank that ends the word. -/
def word (S : Syntax α) : Option α → List α → Except (Error α) (List α × List α)
  | none, [] => .ok ([], [])
  | some q, [] => .error (.openQuote q)
  | quote, a :: rest =>
      if a = S.escape then
        match rest with
        | [] => .error .trailingEscape
        | b :: rest => push b (word S quote rest)
      else
        match quote with
        | some q => if a = q then word S none rest else push a (word S (some q) rest)
        | none =>
            if a ∈ S.quotes then word S (some a) rest
            else if a = S.blank then .ok ([], rest)
            else push a (word S none rest)

/-- The words of a line, at most `n` of them. -/
def words (S : Syntax α) (n : ℕ) (line : List α) : Except (Error α) (List (List α)) :=
  match line.dropWhile (· = S.blank) with
  | [] => .ok []
  | a :: rest =>
      match n with
      | 0 => .error .tooManyWords
      | n + 1 =>
          match word S none (a :: rest) with
          | .error e => .error e
          | .ok (w, rest) => (words S n rest).map (w :: ·)

/-- The words of a line that was read up to a point inside a word: `w` is what the word has so far,
`quote` the quote that is open, if one is, and at most `n` more words may follow. -/
def resume (S : Syntax α) (n : ℕ) (w : List α) (quote : Option α) (rest : List α) :
    Except (Error α) (List (List α)) :=
  match word S quote rest with
  | .error e => .error e
  | .ok (w', rest) => (words S n rest).map ((w ++ w') :: ·)

variable {S : Syntax α} {n : ℕ} {w rest : List α} {a b q : α}

/-! ### Reading on between words -/

theorem words_nil : words S n [] = .ok [] := by
  cases n <;> rfl

/-- Blanks between words are skipped. -/
theorem words_cons_blank : words S n (S.blank :: rest) = words S n rest := by
  have hdrop : (S.blank :: rest).dropWhile (· = S.blank) = rest.dropWhile (· = S.blank) := by
    simp
  cases n with
  | zero => rw [words, words, hdrop]
  | succ n => rw [words, words, hdrop]

/-- One word too many. -/
theorem words_zero_cons (h : a ≠ S.blank) : words S 0 (a :: rest) = .error .tooManyWords := by
  have hdrop : (a :: rest).dropWhile (· = S.blank) = a :: rest := by simp [h]
  rw [words, hdrop]

/-- Every other letter starts a word. -/
theorem words_cons (h : a ≠ S.blank) :
    words S (n + 1) (a :: rest) = resume S n [] none (a :: rest) := by
  have hdrop : (a :: rest).dropWhile (· = S.blank) = a :: rest := by simp [h]
  rw [words, hdrop, resume]
  rfl

/-! ### Reading on inside a word -/

theorem word_escape {quote : Option α} :
    word S quote (S.escape :: b :: rest) = push b (word S quote rest) := by
  cases quote <;> simp [word]

theorem word_quoted (h : a ≠ S.escape) :
    word S (some q) (a :: rest) = if a = q then word S none rest
      else push a (word S (some q) rest) := by
  cases rest <;> simp [word, h]

theorem word_unquoted (h : a ≠ S.escape) :
    word S none (a :: rest) = if a ∈ S.quotes then word S (some a) rest
      else if a = S.blank then .ok ([], rest) else push a (word S none rest) := by
  cases rest <;> simp [word, h]

theorem resume_push (result : Except (Error α) (List α × List α)) :
    (match push a result with
      | .error e => .error e
      | .ok (w', rest) => (words S n rest).map ((w ++ w') :: ·) :
        Except (Error α) (List (List α))) =
      match result with
      | .error e => .error e
      | .ok (w', rest) => (words S n rest).map ((w ++ [a] ++ w') :: ·) := by
  cases result with
  | error e => rfl
  | ok r => simp [push, Except.map]

/-- The end of the line ends a word. -/
theorem resume_nil : resume S n w none [] = .ok [w] := by
  simp [resume, word, words_nil, Except.map]

/-- The end of the line does not end a quote. -/
theorem resume_nil_quoted : resume S n w (some q) [] = .error (.openQuote q) := rfl

/-- The end of the line does not end an escape. -/
theorem resume_escape_nil {quote : Option α} :
    resume S n w quote [S.escape] = .error .trailingEscape := by
  cases quote <;> simp [resume, word]

/-- An escaped letter is literal. -/
theorem resume_escape {quote : Option α} :
    resume S n w quote (S.escape :: b :: rest) = resume S n (w ++ [b]) quote rest := by
  rw [resume, word_escape]
  exact resume_push _

/-- A quote ends at the next unescaped quote of the same kind. -/
theorem resume_close (h : q ≠ S.escape) :
    resume S n w (some q) (q :: rest) = resume S n w none rest := by
  rw [resume, word_quoted h, if_pos rfl, resume]

/-- In a quote every other letter is literal. -/
theorem resume_quoted (h : a ≠ S.escape) (hq : a ≠ q) :
    resume S n w (some q) (a :: rest) = resume S n (w ++ [a]) (some q) rest := by
  rw [resume, word_quoted h, if_neg hq]
  exact resume_push _

/-- A quote may open inside a word. -/
theorem resume_open (h : a ≠ S.escape) (hq : a ∈ S.quotes) :
    resume S n w none (a :: rest) = resume S n w (some a) rest := by
  rw [resume, word_unquoted h, if_pos hq, resume]

/-- A blank outside quotes ends a word. -/
theorem resume_blank (h : S.blank ≠ S.escape) (hq : S.blank ∉ S.quotes) :
    resume S n w none (S.blank :: rest) = (words S n rest).map (w :: ·) := by
  rw [resume, word_unquoted h, if_neg hq, if_pos rfl]
  simp

/-- Every other letter is part of the word. -/
theorem resume_plain (h : a ≠ S.escape) (hq : a ∉ S.quotes) (hb : a ≠ S.blank) :
    resume S n w none (a :: rest) = resume S n (w ++ [a]) none rest := by
  rw [resume, word_unquoted h, if_neg hq, if_neg hb]
  exact resume_push _

/-! ### Writing words into a line -/

/-- The ways to write a word: without quotes, or in quotes of one kind. -/
inductive Style (α : Type u)
  | plain
  | quoted (quote : α)

/-- A letter, after an escape if it needs one. -/
def escaped (S : Syntax α) (special : Prop) [Decidable special] (a : α) : List α :=
  if special then [S.escape, a] else [a]

/-- A word written in one of the ways. -/
def encode (S : Syntax α) : Style α → List α → List α
  | .plain, w => w.flatMap fun a => escaped S (a = S.escape ∨ a ∈ S.quotes ∨ a = S.blank) a
  | .quoted q, w => q :: (w.flatMap fun a => escaped S (a = S.escape ∨ a = q) a) ++ [q]

/-- Words that can be written in a way: quotes are quotes of the syntax, and an empty word needs
them. -/
def Style.Allows (S : Syntax α) : Style α → List α → Prop
  | .plain, w => w ≠ []
  | .quoted q, _ => q ∈ S.quotes

/-- A line of words, with the number of blanks before each of them, its way and its letters, and the
number of blanks at the end. -/
def joined (S : Syntax α) (trail : ℕ) : List (ℕ × Style α × List α) → List α
  | [] => List.replicate trail S.blank
  | (gap, style, w) :: items => List.replicate gap S.blank ++ encode S style w ++ joined S trail items

/-- The letters with a meaning have different meanings. -/
structure Syntax.Distinct (S : Syntax α) : Prop where
  blank_ne_escape : S.blank ≠ S.escape
  blank_not_quote : S.blank ∉ S.quotes
  escape_not_quote : S.escape ∉ S.quotes

/-- What follows a word: nothing, or a blank first. -/
def Ends (S : Syntax α) (rest : List α) : Prop := rest = [] ∨ ∃ t, rest = S.blank :: t

/-- A word ends where nothing follows, or a blank. -/
theorem resume_ends (hS : S.Distinct) (h : Ends S rest) :
    resume S n w none rest = (words S n rest).map (w :: ·) := by
  rcases h with rfl | ⟨t, rfl⟩
  · rw [resume_nil, words_nil]
    rfl
  · rw [resume_blank hS.blank_ne_escape hS.blank_not_quote, words_cons_blank]

/-- A word written without quotes is read back. -/
theorem resume_encode_plain (v : List α) :
    resume S n w none (encode S .plain v ++ rest) = resume S n (w ++ v) none rest := by
  induction v generalizing w with
  | nil => rw [List.append_nil]; rfl
  | cons a v ih =>
      have hcons : encode S .plain (a :: v) ++ rest =
          escaped S (a = S.escape ∨ a ∈ S.quotes ∨ a = S.blank) a ++
            (encode S .plain v ++ rest) := by
        rw [encode, encode, List.flatMap_cons, List.append_assoc]
      have hnext : resume S n (w ++ [a]) none (encode S .plain v ++ rest) =
          resume S n (w ++ a :: v) none rest := by
        rw [ih, List.append_assoc, List.singleton_append]
      rw [hcons, ← hnext, escaped]
      split
      · exact resume_escape
      · next h =>
          rw [not_or, not_or] at h
          exact resume_plain h.1 h.2.1 h.2.2

/-- The letters of a word in quotes are read back. -/
theorem resume_encode_letters (v : List α) :
    resume S n w (some q) ((v.flatMap fun a => escaped S (a = S.escape ∨ a = q) a) ++ rest) =
      resume S n (w ++ v) (some q) rest := by
  induction v generalizing w with
  | nil => rw [List.append_nil]; rfl
  | cons a v ih =>
      rw [List.flatMap_cons, List.append_assoc, escaped]
      have hnext : w ++ a :: v = w ++ [a] ++ v := by rw [List.append_assoc, List.singleton_append]
      rw [hnext, ← ih]
      split
      · exact resume_escape
      · next h =>
          rw [not_or] at h
          exact resume_quoted h.1 h.2

/-- **A written word is read back**, whatever way it was written in. -/
theorem resume_encode (hS : S.Distinct) {style : Style α} {v : List α} (h : style.Allows S v) :
    resume S n w none (encode S style v ++ rest) = resume S n (w ++ v) none rest := by
  cases style with
  | plain => exact resume_encode_plain v
  | quoted q =>
      have hq : q ∈ S.quotes := h
      have hne : q ≠ S.escape := fun heq => hS.escape_not_quote (heq ▸ hq)
      rw [encode, List.cons_append, List.cons_append, resume_open hne hq, List.append_assoc,
        resume_encode_letters, List.singleton_append, resume_close hne]

/-- A written word does not begin with a blank. -/
theorem encode_eq_cons (hS : S.Distinct) {style : Style α} {v : List α} (h : style.Allows S v) :
    ∃ a t, encode S style v = a :: t ∧ a ≠ S.blank := by
  cases style with
  | plain =>
      obtain ⟨a, v, rfl⟩ := List.exists_cons_of_ne_nil h
      rw [encode, List.flatMap_cons, escaped]
      split
      · exact ⟨S.escape, _, rfl, hS.blank_ne_escape.symm⟩
      · next hspecial =>
          rw [not_or, not_or] at hspecial
          exact ⟨a, _, rfl, hspecial.2.2⟩
  | quoted q =>
      have hq : q ∈ S.quotes := h
      exact ⟨q, _, rfl, fun heq => hS.blank_not_quote (heq ▸ hq)⟩

theorem words_replicate_blank (k : ℕ) :
    words S n (List.replicate k S.blank ++ rest) = words S n rest := by
  induction k with
  | zero => rfl
  | succ k ih => rw [List.replicate_succ, List.cons_append, words_cons_blank, ih]

theorem ends_joined {trail : ℕ} {items : List (ℕ × Style α × List α)}
    (hgaps : ∀ item ∈ items, 0 < item.1) : Ends S (joined S trail items) := by
  cases items with
  | nil =>
      cases trail with
      | zero => exact .inl rfl
      | succ k => exact .inr ⟨List.replicate k S.blank, rfl⟩
  | cons item items =>
      obtain ⟨k, hk⟩ := Nat.exists_eq_succ_of_ne_zero (Nat.ne_of_gt (hgaps item List.mem_cons_self))
      obtain ⟨gap, style, v⟩ := item
      obtain rfl : gap = k + 1 := hk
      exact .inr ⟨_, rfl⟩

/-- **What was written into a line is read back**, as long as there are blanks between the words and
not too many words; if there are too many, that is what is wrong with the line. -/
theorem words_joined (hS : S.Distinct) {trail : ℕ} {items : List (ℕ × Style α × List α)}
    (hallows : ∀ item ∈ items, item.2.1.Allows S item.2.2)
    (hgaps : ∀ item ∈ items.tail, 0 < item.1) :
    words S n (joined S trail items) =
      if items.length ≤ n then .ok (items.map (·.2.2)) else .error .tooManyWords := by
  induction items generalizing n with
  | nil =>
      have hblank : words S n (List.replicate trail S.blank ++ []) = words S n [] :=
        words_replicate_blank trail
      rw [List.append_nil] at hblank
      rw [joined, hblank, words_nil, List.length_nil, if_pos (Nat.zero_le n), List.map_nil]
  | cons item items ih =>
      obtain ⟨gap, style, v⟩ := item
      have hallow : style.Allows S v := hallows _ List.mem_cons_self
      have hrest : ∀ i ∈ items, 0 < i.1 := hgaps
      obtain ⟨a, t, ha, hblank⟩ := encode_eq_cons hS hallow
      rw [joined, List.append_assoc, words_replicate_blank]
      cases n with
      | zero =>
          rw [ha, List.cons_append, words_zero_cons hblank, List.length_cons,
            if_neg (Nat.not_succ_le_zero _)]
      | succ n =>
          have hstart : words S (n + 1) (encode S style v ++ joined S trail items) =
              resume S n [] none (encode S style v ++ joined S trail items) := by
            rw [ha, List.cons_append]
            exact words_cons hblank
          rw [hstart, resume_encode hS hallow, List.nil_append,
            resume_ends hS (ends_joined hrest),
            ih (fun i hi => hallows i (List.mem_cons_of_mem _ hi))
              fun i hi => hrest i (List.mem_of_mem_tail hi), List.length_cons]
          by_cases hle : items.length ≤ n
          · rw [if_pos hle, if_pos (Nat.succ_le_succ hle)]
            rfl
          · rw [if_neg hle, if_neg fun hs => hle (Nat.le_of_succ_le_succ hs)]
            rfl

end WordSplit
