/-
**Fields packed into words.**

Devices and tables keep one small field for each of many items, packed into an array of words: item
`i` has the field at position `i % n` of the word at index `i / n`, where `n` is the number of
fields in a word.  A program that changes one field rewrites a word with masks, and what has to be
shown is always the same: the field of this item is the one intended, and no other item has lost
its own.

Main definitions:

* `PackedFields.field`, `PackedFields.mask` — the field at a position of a word, and the mask that
  covers it;
* `PackedFields.entry` — the field of an item in an array of words.

Main results:

* `PackedFields.field_or_mask`, `PackedFields.field_and_not_mask` — a mask that is set or cleared
  **changes its own field only**;
* `PackedFields.entry_update` — rewriting one word so that one field changes is **updating one
  entry**;
* `PackedFields.eq_of_entry_eq` — the entries determine the array;
* `PackedFields.foldl_update_perm` — **updates of different entries can be made in any order.**
-/

import Mathlib.Data.BitVec
import Mathlib.Data.List.Perm.Basic
import Mathlib.Logic.Function.Basic

set_option relaxedAutoImplicit false
set_option autoImplicit false

universe u v x

namespace PackedFields

/-! ### The fields of a word -/

section Word

variable {w : ℕ}

/-- The field of `b` bits at position `k` of a word. -/
def field (b k : ℕ) (word : BitVec w) : BitVec b := word.extractLsb' (b * k) b

/-- The mask of ones that covers the field of `b` bits at position `k`. -/
def mask (w b k : ℕ) : BitVec w := (BitVec.allOnes b).setWidth w <<< (b * k)

@[simp] theorem getLsbD_field (b k i : ℕ) (word : BitVec w) :
    (field b k word).getLsbD i = (decide (i < b) && word.getLsbD (b * k + i)) := by
  rw [field, BitVec.getLsbD_extractLsb']

theorem getLsbD_mask (b k i : ℕ) :
    (mask w b k).getLsbD i = (decide (i < w) && decide (b * k ≤ i) && decide (i < b * k + b)) := by
  rw [mask, BitVec.getLsbD_shiftLeft, BitVec.getLsbD_setWidth, BitVec.getLsbD_allOnes]
  by_cases hlo : b * k ≤ i
  · have hlt : i - b * k < b ↔ i < b * k + b := by omega
    by_cases hw : i < w
    · have hw' : i - b * k < w := by omega
      simp [hlo, hw, hw', hlt, Nat.not_lt.2 hlo]
    · simp [hw]
  · simp [hlo, Nat.not_le.1 hlo]

/-- A bit of one field lies under the mask of another only if the fields are the same. -/
theorem getLsbD_mask_field {b i : ℕ} (j k : ℕ) (hi : i < b) :
    (mask w b k).getLsbD (b * j + i) = (decide (b * j + i < w) && decide (j = k)) := by
  rw [getLsbD_mask, Bool.and_assoc]
  congr 1
  rw [← Bool.decide_and]
  refine decide_eq_decide.2 ⟨fun ⟨hlo, hhi⟩ => ?_, fun h => ?_⟩
  · have hle : k ≤ j := by
      by_contra hlt
      have hstep := Nat.mul_le_mul_left b (Nat.succ_le_of_lt (not_le.1 hlt))
      rw [Nat.mul_succ] at hstep
      omega
    have hge : j ≤ k := by
      by_contra hlt
      have hstep := Nat.mul_le_mul_left b (Nat.succ_le_of_lt (not_le.1 hlt))
      rw [Nat.mul_succ] at hstep
      omega
    exact le_antisymm hge hle
  · rw [h]
    omega

/-- Setting a mask fills its own field, and changes no other. -/
theorem field_or_mask {b j k : ℕ} (hk : b * k + b ≤ w) (word : BitVec w) :
    field b j (word ||| mask w b k) = if j = k then BitVec.allOnes b else field b j word := by
  refine BitVec.eq_of_getLsbD_eq fun i hi => ?_
  rw [getLsbD_field, BitVec.getLsbD_or, getLsbD_mask_field j k hi]
  by_cases hjk : j = k
  · have hw : b * k + i < w := by omega
    simp [hjk, hi, hw]
  · simp [hjk]

/-- Clearing a mask clears its own field, and changes no other. -/
theorem field_and_not_mask {b j k : ℕ} (word : BitVec w) :
    field b j (word &&& ~~~mask w b k) = if j = k then 0 else field b j word := by
  refine BitVec.eq_of_getLsbD_eq fun i hi => ?_
  rw [getLsbD_field, BitVec.getLsbD_and, BitVec.getLsbD_not, getLsbD_mask_field j k hi]
  by_cases hw : b * j + i < w
  · by_cases hjk : j = k
    · simp [hjk]
    · simp [hjk, hw]
  · have hzero : word.getLsbD (b * j + i) = false := BitVec.getLsbD_of_ge _ _ (not_lt.1 hw)
    by_cases hjk : j = k
    · simp [hjk]
    · simp [hjk, hzero]

end Word

/-! ### Arrays of words -/

section Array

variable {w : ℕ} {n b : ℕ}

/-- The field of an item in an array of words with `n` fields of `b` bits each. -/
def entry (n b : ℕ) (words : ℕ → BitVec w) (i : ℕ) : BitVec b := field b (i % n) (words (i / n))

/-- **Rewriting one word so that one of its fields changes is updating one entry.** -/
theorem entry_update {words : ℕ → BitVec w} {word : BitVec w} {k : ℕ} {x : BitVec b}
    (h : ∀ j, field b j word = if j = k % n then x else field b j (words (k / n))) :
    entry n b (Function.update words (k / n) word) = Function.update (entry n b words) k x := by
  funext i
  by_cases hik : i = k
  · rw [hik, Function.update_self, entry, Function.update_self, h, if_pos rfl]
  · rw [Function.update_of_ne hik, entry, entry]
    by_cases hword : i / n = k / n
    · have hpos : i % n ≠ k % n := by
        intro hpos
        have hi := Nat.div_add_mod i n
        rw [hword, hpos, Nat.div_add_mod] at hi
        exact hik hi.symm
      rw [hword, Function.update_self, h, if_neg hpos]
    · rw [Function.update_of_ne hword]

/-- The entries determine the array, when the fields fill the words. -/
theorem eq_of_entry_eq (hw : n * b = w) {words words' : ℕ → BitVec w}
    (h : entry n b words = entry n b words') : words = words' := by
  funext m
  refine BitVec.eq_of_getLsbD_eq fun y hy => ?_
  rw [← hw] at hy
  have hb : 0 < b := Nat.pos_of_mul_pos_left (Nat.zero_lt_of_lt hy)
  have hpos : y / b < n := Nat.div_lt_of_lt_mul (by rwa [Nat.mul_comm])
  have hentry := congrArg (fun field => field.getLsbD (y % b)) (congrFun h (n * m + y / b))
  have hdiv : (n * m + y / b) / n = m := by
    rw [Nat.mul_add_div (Nat.zero_lt_of_lt hpos), Nat.div_eq_of_lt hpos, Nat.add_zero]
  have hmod : (n * m + y / b) % n = y / b := by
    rw [Nat.mul_add_mod, Nat.mod_eq_of_lt hpos]
  simpa only [entry, hdiv, hmod, getLsbD_field, Nat.mod_lt y hb, decide_true, Bool.true_and,
    Nat.div_add_mod] using hentry

end Array

/-! ### Updates of different entries -/

section Order

variable {κ : Type u} {ι : Type v} {α : Type x} [DecidableEq ι]

/-- **Updates of different entries can be made in any order**, also when the new value of an entry
depends on the old one. -/
theorem foldl_update_perm (key : κ → ι) (f : κ → α → α) {l l' : List κ} (hperm : l.Perm l')
    (hnd : (l.map key).Nodup) (view : ι → α) :
    l.foldl (fun view a => Function.update view (key a) (f a (view (key a)))) view =
      l'.foldl (fun view a => Function.update view (key a) (f a (view (key a)))) view := by
  refine hperm.foldl_eq' ?_ view
  intro a ha c hc view
  by_cases hac : a = c
  · rw [hac]
  · have hkey : key a ≠ key c := fun heq => hac (List.inj_on_of_nodup_map hnd ha hc heq)
    rw [Function.update_of_ne hkey, Function.update_of_ne hkey.symm, Function.update_comm hkey]

end Order

end PackedFields
