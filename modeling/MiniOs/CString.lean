/-
**Arrays, and the zero-terminated strings in them.**

An array is a list that keeps its length: reading and writing it past its end fails, so that a
program that is shown not to fail stays inside its arrays.  A string is what stands in an array
from some position on, up to the first zero.

Main definitions:

* `CString.store` — a checked write into an array;
* `CString.StringAt` — **the string at a position of an array**;
* `CString.layout` — strings written one after the other.

Main results:

* `CString.take_set`, `CString.drop_set` — what a write changes;
* `CString.stringAt_set` — a zero written after some letters ends a string;
* `CString.stringAt_layout` — strings written one after the other are found at their offsets.
-/

import Mathlib.Data.List.Basic

set_option relaxedAutoImplicit false
set_option autoImplicit false

universe u

namespace CString

variable {α : Type u}

/-! ### Checked writes -/

/-- Write an entry of an array; `none` when there is no such entry. -/
def store (buffer : List α) (i : ℕ) (a : α) : Option (List α) :=
  if i < buffer.length then some (buffer.set i a) else none

theorem store_of_lt {buffer : List α} {i : ℕ} (h : i < buffer.length) (a : α) :
    store buffer i a = some (buffer.set i a) := if_pos h

/-- A write at the end of what was written so far adds to it. -/
theorem take_set {buffer : List α} {i : ℕ} (h : i < buffer.length) (a : α) :
    (buffer.set i a).take (i + 1) = buffer.take i ++ [a] := by
  rw [List.take_add_one, List.take_set_of_le (Nat.le_refl i), List.getElem?_set_self h]
  rfl

theorem prefix_set {buffer : List α} {i : ℕ} (h : i < buffer.length) (a : α) :
    buffer.take i ++ [a] <+: buffer.set i a := by
  rw [← take_set h]
  exact List.take_prefix _ _

/-- A write does not change what comes after it. -/
theorem drop_set {buffer : List α} {i j : ℕ} (h : i < j) (a : α) :
    (buffer.set i a).drop j = buffer.drop j := List.drop_set_of_lt h

/-- A write of the entry that is there changes nothing. -/
theorem set_same {buffer : List α} {i : ℕ} {a : α} (h : buffer[i]? = some a) :
    buffer.set i a = buffer := by
  obtain ⟨hi, rfl⟩ := List.getElem?_eq_some_iff.1 h
  exact List.set_getElem_self hi

/-! ### Strings -/

variable [Zero α]

/-- **The string at a position of an array**: its letters stand there, and then a zero. -/
def StringAt (buffer : List α) (p : ℕ) (w : List α) : Prop :=
  (0 : α) ∉ w ∧ w ++ [0] <+: buffer.drop p

theorem stringAt_nil {buffer : List α} : StringAt buffer 0 [] ↔ ∃ rest, buffer = 0 :: rest := by
  constructor
  · rintro ⟨-, rest, rfl⟩
    exact ⟨rest, rfl⟩
  · rintro ⟨rest, rfl⟩
    exact ⟨List.not_mem_nil, rest, rfl⟩

theorem stringAt_cons {buffer w : List α} {a : α} :
    StringAt buffer 0 (a :: w) ↔ ∃ rest, buffer = a :: rest ∧ a ≠ 0 ∧ StringAt rest 0 w := by
  constructor
  · rintro ⟨hmem, rest, rfl⟩
    rw [List.mem_cons, not_or] at hmem
    exact ⟨w ++ [0] ++ rest, rfl, Ne.symm hmem.1, hmem.2, rest, rfl⟩
  · rintro ⟨_, rfl, ha, hmem, rest, rfl⟩
    refine ⟨?_, rest, rfl⟩
    rw [List.mem_cons, not_or]
    exact ⟨ha.symm, hmem⟩

/-- A string and its zero fit into their array. -/
theorem StringAt.length_lt {buffer w : List α} (h : StringAt buffer 0 w) :
    w.length < buffer.length := by
  have hle := h.2.length_le
  rw [List.length_append, List.length_singleton, List.drop_zero] at hle
  omega

theorem StringAt.take_length {buffer w : List α} (h : StringAt buffer 0 w) :
    buffer.take w.length = w := by
  obtain ⟨-, rest, rfl⟩ := h
  simp

/-- The entry after the letters is zero. -/
theorem StringAt.getElem?_length {buffer w : List α} (h : StringAt buffer 0 w) :
    buffer[w.length]? = some 0 := by
  obtain ⟨-, rest, rfl⟩ := h
  simp

/-- A zero written after some letters ends a string. -/
theorem stringAt_set {buffer w : List α} {n : ℕ} (hn : n < buffer.length)
    (hw : buffer.take n = w) (h0 : (0 : α) ∉ w) : StringAt (buffer.set n 0) 0 w :=
  ⟨h0, hw ▸ prefix_set hn 0⟩

/-- Strings written one after the other, each with its zero. -/
def layout (ws : List (List α)) : List α := (ws.map (· ++ [0])).flatten

theorem layout_append (ws vs : List (List α)) : layout (ws ++ vs) = layout ws ++ layout vs := by
  simp [layout]

theorem layout_singleton (w : List α) : layout [w] = w ++ [0] := by
  simp [layout]

/-- **Strings written one after the other are found at their offsets**, before the end of what was
written. -/
theorem stringAt_layout {buffer : List α} {ws : List (List α)}
    (h : layout ws <+: buffer) {i : ℕ} (hi : i < ws.length) (hw : (0 : α) ∉ ws[i]) :
    StringAt buffer (layout (ws.take i)).length ws[i] ∧
      (layout (ws.take i)).length + ws[i].length < (layout ws).length := by
  have hsplit : layout ws = layout (ws.take i) ++ (ws[i] ++ [0]) ++ layout (ws.drop (i + 1)) := by
    rw [← layout_singleton, ← layout_append, ← layout_append, List.append_assoc]
    simp
  obtain ⟨t, ht⟩ := h
  refine ⟨⟨hw, ?_⟩, ?_⟩
  · rw [← ht, hsplit]
    simp [List.append_assoc]
  · rw [hsplit]
    simp only [List.length_append, List.length_cons, List.length_nil]
    omega

end CString
