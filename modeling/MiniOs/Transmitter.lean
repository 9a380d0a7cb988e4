/-
**The transmitting half of a serial device.**

A program writes items into a FIFO of some depth; the device takes them out one by one, shifts each of
them out, and then it is on the wire.  An item written while the FIFO is full is lost.  The device works
at its own pace, so a program that looks at it again finds that it has gone on by any number of steps.

Main definitions:

* `Transmitter` — the FIFO, the item being shifted out, and the wire;
* `Transmitter.advance`, `Transmitter.pass` — one step of the device, and any number of them;
* `Transmitter.put` — the program writes an item;
* `Transmitter.taken`, `Transmitter.Idle`, `Transmitter.work` — what the device was given, and what it
  still has to do.

Main results:

* `Transmitter.pass_taken`, `Transmitter.put_taken` — **nothing is lost, but by writing to a full FIFO**;
* `Transmitter.pass_work_lt`, `Transmitter.wire_of_idle` — the device gets on, and when it is idle
  everything is on the wire.
-/

import Mathlib.Data.Nat.Notation

set_option relaxedAutoImplicit false
set_option autoImplicit false

universe u

/-- The FIFO, the item being shifted out, and what is on the wire so far. -/
structure Transmitter (α : Type u) where
  fifo : List α
  shifting : Option α
  wire : List α

namespace Transmitter

variable {α : Type u} {t : Transmitter α}

/-- One step of the device: the item that is shifted out is on the wire, or the next one is taken from
the FIFO. -/
def advance (t : Transmitter α) : Transmitter α :=
  match t.shifting, t.fifo with
  | some a, _ => { t with shifting := none, wire := t.wire ++ [a] }
  | none, a :: fifo => { t with fifo := fifo, shifting := some a }
  | none, [] => t

/-- Any number of steps of the device. -/
def pass : ℕ → Transmitter α → Transmitter α
  | 0, t => t
  | n + 1, t => pass n t.advance

/-- The program writes an item. -/
def put (depth : ℕ) (a : α) (t : Transmitter α) : Transmitter α :=
  if t.fifo.length < depth then { t with fifo := t.fifo ++ [a] } else t

/-- All that the device was given, in order. -/
def taken (t : Transmitter α) : List α := t.wire ++ t.shifting.toList ++ t.fifo

/-- The device has nothing to do. -/
def Idle (t : Transmitter α) : Prop := t.fifo = [] ∧ t.shifting = none

/-- How many steps the device still has to make. -/
def work (t : Transmitter α) : ℕ := 2 * t.fifo.length + t.shifting.toList.length

/-! ### The device -/

/-- The device only moves items. -/
@[simp] theorem advance_taken (t : Transmitter α) : t.advance.taken = t.taken := by
  obtain ⟨fifo, shifting, wire⟩ := t
  cases shifting with
  | some a => simp [advance, taken]
  | none =>
      cases fifo with
      | nil => rfl
      | cons a fifo => simp [advance, taken]

@[simp] theorem pass_taken (n : ℕ) (t : Transmitter α) : (pass n t).taken = t.taken := by
  induction n generalizing t with
  | zero => rfl
  | succ n ih => rw [pass, ih, advance_taken]

/-- What is on the wire stays there. -/
theorem wire_prefix_advance (t : Transmitter α) : t.wire <+: t.advance.wire := by
  obtain ⟨fifo, shifting, wire⟩ := t
  cases shifting with
  | some a => exact List.prefix_append wire [a]
  | none => cases fifo <;> exact List.prefix_refl wire

theorem wire_prefix_pass (n : ℕ) (t : Transmitter α) : t.wire <+: (pass n t).wire := by
  induction n generalizing t with
  | zero => exact List.prefix_refl _
  | succ n ih => exact (wire_prefix_advance t).trans (ih t.advance)

/-- The device does not fill its FIFO. -/
theorem length_fifo_advance (t : Transmitter α) : t.advance.fifo.length ≤ t.fifo.length := by
  obtain ⟨fifo, shifting, wire⟩ := t
  cases shifting with
  | some a => exact Nat.le_refl _
  | none =>
      cases fifo with
      | nil => exact Nat.le_refl _
      | cons a fifo => exact Nat.le_succ _

theorem length_fifo_pass (n : ℕ) (t : Transmitter α) :
    (pass n t).fifo.length ≤ t.fifo.length := by
  induction n generalizing t with
  | zero => exact Nat.le_refl _
  | succ n ih => exact Nat.le_trans (ih t.advance) (length_fifo_advance t)

theorem fifo_pass_eq_nil (h : t.fifo = []) (n : ℕ) : (pass n t).fifo = [] := by
  have hle := length_fifo_pass n t
  rw [h] at hle
  exact List.eq_nil_of_length_eq_zero (Nat.le_zero.1 hle)

/-! ### An idle device -/

theorem Idle.advance (h : t.Idle) : t.advance = t := by
  obtain ⟨fifo, shifting, wire⟩ := t
  obtain ⟨rfl, rfl⟩ := h
  rfl

/-- An idle device stays as it is. -/
theorem Idle.pass (h : t.Idle) (n : ℕ) : Transmitter.pass n t = t := by
  induction n with
  | zero => rfl
  | succ n ih => rw [Transmitter.pass, h.advance, ih]

/-- **When the device is idle everything is on the wire.** -/
theorem wire_of_idle (h : t.Idle) : t.wire = t.taken := by
  rw [taken, h.1, h.2]
  simp

/-- When everything is on the wire the device is idle. -/
theorem idle_of_wire (h : t.taken <+: t.wire) : t.Idle := by
  have hle := h.length_le
  rw [taken, List.length_append, List.length_append] at hle
  refine ⟨List.eq_nil_of_length_eq_zero (by omega), ?_⟩
  cases hshifting : t.shifting with
  | none => rfl
  | some a =>
      rw [hshifting, Option.toList_some, List.length_singleton] at hle
      omega

/-- **The device gets on.** -/
theorem advance_work (t : Transmitter α) : t.advance.work + 1 = t.work ∨ t.Idle := by
  obtain ⟨fifo, shifting, wire⟩ := t
  cases shifting with
  | some a => exact Or.inl rfl
  | none =>
      cases fifo with
      | nil => exact Or.inr ⟨rfl, rfl⟩
      | cons a fifo => exact Or.inl rfl

theorem pass_work_le (n : ℕ) (t : Transmitter α) : (pass n t).work ≤ t.work := by
  induction n generalizing t with
  | zero => exact Nat.le_refl _
  | succ n ih =>
      rcases advance_work t with hwork | hidle
      · have hle := ih t.advance
        rw [pass]
        omega
      · exact Nat.le_of_eq (congrArg work (hidle.pass (n + 1)))

/-- A device that is not idle does some of its work. -/
theorem pass_work_lt {n : ℕ} (hn : 0 < n) (h : ¬ t.Idle) : (pass n t).work < t.work := by
  obtain ⟨m, rfl⟩ := Nat.exists_eq_succ_of_ne_zero (Nat.ne_of_gt hn)
  have hwork := (advance_work t).resolve_right h
  have hle := pass_work_le m t.advance
  rw [pass]
  omega

/-- Either the device has not gone on at all, or it has done some of its work. -/
theorem pass_eq_or_work_lt (n : ℕ) (t : Transmitter α) : pass n t = t ∨ (pass n t).work < t.work := by
  rcases Nat.eq_zero_or_pos n with rfl | hn
  · exact Or.inl rfl
  · by_cases hidle : t.Idle
    · exact Or.inl (hidle.pass n)
    · exact Or.inr (pass_work_lt hn hidle)

/-! ### Writing -/

variable {depth : ℕ}

/-- **An item is taken when the FIFO is not full.** -/
theorem put_taken (h : t.fifo.length < depth) (a : α) :
    (put depth a t).taken = t.taken ++ [a] := by
  rw [put, if_pos h, taken, taken, List.append_assoc (t.wire ++ t.shifting.toList)]

theorem put_wire (depth : ℕ) (a : α) (t : Transmitter α) : (put depth a t).wire = t.wire := by
  unfold put
  split <;> rfl

/-- An item that is written is work for two steps. -/
theorem put_work_le (depth : ℕ) (a : α) (t : Transmitter α) :
    (put depth a t).work ≤ t.work + 2 := by
  unfold put
  split
  · change 2 * (t.fifo ++ [a]).length + t.shifting.toList.length ≤ _
    rw [List.length_append, List.length_singleton, work]
    omega
  · exact Nat.le_add_right _ 2

end Transmitter
