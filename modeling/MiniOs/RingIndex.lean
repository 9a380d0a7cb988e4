/-
**Ring buffers with free-running indices.**

A ring buffer may let its two indices run freely over a machine word, and reduce them only when a
slot is chosen.  As long as the capacity divides the number of words, the wrap of an index at the
top of the word goes unnoticed: consecutive indices still choose consecutive slots.  This module
develops that arithmetic and the queue such a buffer holds, over any word width, capacity and type
of entries.

Main definitions:

* `RingIndex.slot` — the slot an index chooses;
* `RingIndex.used` — the number of entries between two indices;
* `RingIndex.contents` — the entries from an index on, oldest first.

Main results:

* `RingIndex.slot_injOn` — fewer consecutive indices than slots choose different slots;
* `RingIndex.contents_push`, `RingIndex.contents_pop` — **storing at the head appends an entry,
  advancing the tail removes the oldest one**, wrapped or not.
-/

import Mathlib.Data.List.Range
import Mathlib.Data.Nat.ModEq
import Mathlib.Logic.Function.Basic

set_option relaxedAutoImplicit false
set_option autoImplicit false

universe u

namespace RingIndex

variable {α : Type u} {w K : ℕ}

/-! ### Slots -/

/-- The slot of a ring of `K` entries that the free-running index `i` chooses. -/
def slot (K : ℕ) (i : BitVec w) : ℕ := i.toNat % K

/-- The number of entries between the index of the oldest entry and that of the next free slot. -/
def used (head tail : BitVec w) : ℕ := (head - tail).toNat

/-- The slot chosen `n` indices further on, when the capacity divides the number of words. -/
theorem slot_add (hK : K ∣ 2 ^ w) (i : BitVec w) (n : ℕ) :
    slot K (i + BitVec.ofNat w n) = (i.toNat + n) % K := by
  rw [slot, BitVec.toNat_add, BitVec.toNat_ofNat, Nat.add_mod_mod, Nat.mod_mod_of_dvd _ hK]

/-- Fewer consecutive indices than slots **choose different slots**. -/
theorem slot_injOn (hK : K ∣ 2 ^ w) (i : BitVec w) {m n : ℕ} (hm : m < K) (hn : n < K)
    (h : slot K (i + BitVec.ofNat w m) = slot K (i + BitVec.ofNat w n)) : m = n := by
  rw [slot_add hK, slot_add hK] at h
  have hmod : m ≡ n [MOD K] := Nat.ModEq.add_left_cancel' i.toNat h
  rwa [Nat.ModEq, Nat.mod_eq_of_lt hm, Nat.mod_eq_of_lt hn] at hmod

/-- The head index is as many steps past the tail index as there are entries. -/
theorem add_used (head tail : BitVec w) : tail + BitVec.ofNat w (used head tail) = head := by
  rw [used, BitVec.ofNat_toNat, BitVec.setWidth_eq, BitVec.add_comm, BitVec.sub_add_cancel]

/-- Advancing the head of a ring that is not full **counts one more** entry. -/
theorem used_succ_head {head tail : BitVec w} (h : used head tail + 1 < 2 ^ w) :
    used (head + 1#w) tail = used head tail + 1 := by
  unfold used at h ⊢
  have hw : w ≠ 0 := by
    rintro rfl
    simp at h
  have hone : (1#w).toNat = 1 := BitVec.toNat_one (Nat.pos_of_ne_zero hw)
  have hcomm : head + 1#w - tail = head - tail + 1#w := by grind
  rw [hcomm, BitVec.toNat_add_of_lt (by rw [hone]; exact h), hone]

/-- Advancing the tail of a ring that is not empty **counts one entry less**. -/
theorem used_succ_tail {head tail : BitVec w} (h : head ≠ tail) :
    used head tail = used head (tail + 1#w) + 1 := by
  have hcomm : head - tail = head - (tail + 1#w) + 1#w := by grind
  have hne : head - tail ≠ 0#w := by grind
  have hw : w ≠ 0 := by
    rintro rfl
    exact h (BitVec.eq_of_zero_length rfl)
  have hone : (1#w).toNat = 1 := BitVec.toNat_one (Nat.pos_of_ne_zero hw)
  have hlt := (head - (tail + 1#w)).isLt
  unfold used
  -- one entry less cannot be the largest word, for one more would then be none
  rcases Nat.lt_or_ge ((head - (tail + 1#w)).toNat + 1) (2 ^ w) with hsmall | hbig
  · rw [hcomm, BitVec.toNat_add_of_lt (by rw [hone]; exact hsmall), hone]
  · refine absurd ?_ hne
    rw [hcomm, ← BitVec.toNat_inj, BitVec.toNat_add, hone, BitVec.toNat_zero]
    have hexact : (head - (tail + 1#w)).toNat + 1 = 2 ^ w := by omega
    rw [hexact, Nat.mod_self]

theorem used_eq_zero_iff {head tail : BitVec w} : used head tail = 0 ↔ head = tail := by
  have hzero : used head tail = 0 ↔ head - tail = 0#w := by
    rw [used, ← BitVec.toNat_inj, BitVec.toNat_zero]
  rw [hzero]
  constructor
  · intro h
    grind
  · intro h
    grind

/-! ### The queue in a ring -/

/-- The `n` entries from the index `tail` on, oldest first. -/
def contents (K : ℕ) (buf : ℕ → α) (tail : BitVec w) (n : ℕ) : List α :=
  (List.range n).map fun i => buf (slot K (tail + BitVec.ofNat w i))

@[simp] theorem contents_length (buf : ℕ → α) (tail : BitVec w) (n : ℕ) :
    (contents K buf tail n).length = n := by simp [contents]

/-- Storing at the next free slot **appends an entry** to the queue. -/
theorem contents_push (hK : K ∣ 2 ^ w) (buf : ℕ → α) (tail : BitVec w) {n : ℕ} (hn : n < K)
    (a : α) : contents K (Function.update buf (slot K (tail + BitVec.ofNat w n)) a) tail (n + 1) =
      contents K buf tail n ++ [a] := by
  rw [contents, List.range_succ, List.map_append, List.map_singleton, Function.update_self]
  congr 1
  -- the stored slot is none of those the older entries occupy
  refine List.map_congr_left fun i hi => Function.update_of_ne ?_ _ _
  intro hslot
  have hi' : i < n := List.mem_range.1 hi
  have heq := slot_injOn hK tail (by omega) hn hslot
  omega

/-- Advancing the tail **removes the oldest entry** of the queue. -/
theorem contents_pop (buf : ℕ → α) (tail : BitVec w) (n : ℕ) :
    contents K buf tail (n + 1) = buf (slot K tail) :: contents K buf (tail + 1#w) n := by
  rw [contents, List.range_succ_eq_map, List.map_cons, List.map_map, BitVec.add_zero]
  congr 1
  refine List.map_congr_left fun i _ => ?_
  have hidx : tail + BitVec.ofNat w (i + 1) = tail + 1#w + BitVec.ofNat w i := by
    rw [BitVec.add_assoc, Nat.add_comm i 1, BitVec.ofNat_add]
  simp only [Function.comp_apply, Nat.succ_eq_add_one, hidx]

end RingIndex
