/-
**A line of a terminal.**

A terminal line is a row of cells, unlimited to the right, and a cursor.  A character is written in
the cell under the cursor, which moves on to the next one; the cursor can also be moved one cell to
the left, but not out of the line.  Blanks at the end of the row cannot be seen, so a row that was
written and erased again shows what an empty one does.

Main definitions:

* `Terminal.Row` — **the cells and the cursor**;
* `Terminal.Command`, `Terminal.Row.run`, `Terminal.Row.feed` — what is sent to the terminal;
* `Terminal.Row.Shows` — **the text that can be seen**, with the cursor at its end.

Main results:

* `Terminal.Row.Shows.write` — writing text at the end adds it to what is seen;
* `Terminal.Row.Shows.erase` — moving left, writing a blank and moving left again removes the last
  character.
-/

import Mathlib.Data.List.Induction

set_option relaxedAutoImplicit false
set_option autoImplicit false

universe u

namespace Terminal

variable {α : Type u}

/-- **A terminal line**: its cells up to the last one that was ever written, and the cursor. -/
structure Row (α : Type u) where
  cells : List α
  cursor : ℕ
  cursor_le : cursor ≤ cells.length

/-- What a terminal can be told. -/
inductive Command (α : Type u)
  | write (a : α)
  | left

namespace Row

/-- An empty line. -/
def empty : Row α := ⟨[], 0, Nat.le_refl 0⟩

/-- Write a character under the cursor. -/
def write (a : α) (r : Row α) : Row α where
  cells := r.cells.take r.cursor ++ a :: r.cells.drop (r.cursor + 1)
  cursor := r.cursor + 1
  cursor_le := by
    have hle := r.cursor_le
    rw [List.length_append, List.length_take, List.length_cons]
    omega

/-- Move the cursor to the left; `none` when it would leave the line. -/
def left (r : Row α) : Option (Row α) :=
  if r.cursor = 0 then none
  else some { r with cursor := r.cursor - 1, cursor_le := Nat.le_trans (Nat.sub_le ..) r.cursor_le }

/-- What a command does. -/
def run (r : Row α) : Command α → Option (Row α)
  | .write a => some (r.write a)
  | .left => r.left

/-- What a sequence of commands does. -/
def feed (commands : List (Command α)) (r : Row α) : Option (Row α) := commands.foldlM run r

theorem feed_append (commands rest : List (Command α)) (r : Row α) :
    r.feed (commands ++ rest) = (r.feed commands).bind (feed rest) := List.foldlM_append

/-! ### What can be seen -/

variable {blank : α} {text : List α} {r : Row α}

/-- **The text that can be seen** on a line: blanks after it do not count.  The cursor is right
after the text. -/
def Shows (blank : α) (text : List α) (r : Row α) : Prop :=
  r.cursor = text.length ∧ ∃ n, r.cells = text ++ List.replicate n blank

theorem shows_empty (blank : α) : Shows blank [] (empty : Row α) := ⟨rfl, 0, rfl⟩

/-- A character that is written is added to the text. -/
theorem Shows.write_one (h : r.Shows blank text) (a : α) :
    (r.write a).Shows blank (text ++ [a]) := by
  obtain ⟨hcursor, n, hcells⟩ := h
  refine ⟨?_, n - 1, ?_⟩
  · rw [List.length_append, List.length_singleton, ← hcursor]
    rfl
  · have hwrite : (r.write a).cells =
        r.cells.take r.cursor ++ a :: r.cells.drop (r.cursor + 1) := rfl
    rw [hwrite, hcursor, hcells]
    simp [List.drop_append]

/-- **Writing text** at the end adds it to what is seen. -/
theorem Shows.write (h : r.Shows blank text) (more : List α) :
    ∃ r', r.feed (more.map .write) = some r' ∧ r'.Shows blank (text ++ more) := by
  induction more generalizing r text with
  | nil =>
      rw [List.append_nil]
      exact ⟨r, rfl, h⟩
  | cons a more ih =>
      obtain ⟨r', hr', hshows⟩ := ih (h.write_one a)
      rw [List.append_assoc] at hshows
      exact ⟨r', hr', hshows⟩

/-- The commands that erase the last character. -/
def eraseLast (blank : α) : List (Command α) := [.left, .write blank, .left]

/-- **Erasing** removes the last character. -/
theorem Shows.erase {a : α} (h : r.Shows blank (text ++ [a])) :
    ∃ r', r.feed (eraseLast blank) = some r' ∧ r'.Shows blank text := by
  obtain ⟨cells, cursor, hle⟩ := r
  obtain ⟨hcursor, n, hcells⟩ := h
  dsimp only at hcursor hcells
  rw [List.length_append, List.length_singleton] at hcursor
  subst hcursor hcells
  refine ⟨⟨text ++ List.replicate (n + 1) blank, text.length, by simp⟩, ?_, rfl, n + 1, rfl⟩
  simp [feed, eraseLast, run, left, Row.write, List.drop_append, List.replicate_succ]

/-- Erasing as many times as there are characters leaves none. -/
theorem Shows.erase_all (h : r.Shows blank text) :
    ∃ r', r.feed (List.replicate text.length (eraseLast blank)).flatten = some r' ∧
      r'.Shows blank [] := by
  induction text using List.reverseRecOn generalizing r with
  | nil => exact ⟨r, rfl, h⟩
  | append_singleton text a ih =>
      obtain ⟨r₁, hr₁, h₁⟩ := h.erase
      obtain ⟨r₂, hr₂, h₂⟩ := ih h₁
      refine ⟨r₂, ?_, h₂⟩
      rw [List.length_append, List.length_singleton, List.replicate_succ, List.flatten_cons,
        feed_append, hr₁, Option.bind_some, hr₂]

end Row

end Terminal
