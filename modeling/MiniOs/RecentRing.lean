/-
**A ring that keeps the most recent items of a list.**

Items are written to the slots of a ring one after the other, the newest over the oldest.  An item
is found again by how many items ago it was written, as long as the ring has not come round to its
slot.  A log that repeats itself may leave out an item that equals the one before it; what it keeps
then is the list with its runs of equal adjacent items collapsed.

Main definitions:

* `RecentRing.back` — the slot of the `k`-th most recent item;
* `RecentRing.Represents` — **the ring holds the most recent items of a list**;
* `RecentRing.recent` — these items.

Main results:

* `RecentRing.Represents.push` — writing an item appends it to the list;
* `RecentRing.destutter_concat` — collapsing runs while the list grows.
-/

import Mathlib.Data.List.Destutter

set_option relaxedAutoImplicit false
set_option autoImplicit false

universe u v

namespace RecentRing

/-! ### Slots -/

/-- The slot of the `k`-th most recent item in a ring of `n` slots, the next of which to be written
is `next`. -/
def back (n next k : ℕ) : ℕ := (next + n - k) % n

/-- The most recent item is the one written last. -/
theorem back_succ_one {n next : ℕ} (h : next < n) : back n ((next + 1) % n) 1 = next := by
  unfold back
  rcases Nat.lt_or_ge (next + 1) n with hlt | hge
  · rw [Nat.mod_eq_of_lt hlt, Nat.mod_eq_sub_mod (by omega), Nat.mod_eq_of_lt (by omega)]
    omega
  · have heq : next + 1 = n := by omega
    rw [heq, Nat.mod_self, Nat.mod_eq_of_lt (by omega)]
    omega

/-- Writing an item makes every other item one item older. -/
theorem back_succ_succ {n next k : ℕ} (h : next < n) (hk : k < n) :
    back n ((next + 1) % n) (k + 1) = back n next k := by
  unfold back
  rcases Nat.lt_or_ge (next + 1) n with hlt | hge
  · rw [Nat.mod_eq_of_lt hlt]
    congr 1
    omega
  · have heq : next + 1 = n := by omega
    rw [heq, Nat.mod_self, Nat.mod_eq_of_lt (a := 0 + n - (k + 1)) (by omega)]
    rcases Nat.eq_zero_or_pos k with rfl | hpos
    · rw [Nat.sub_zero, Nat.add_mod_right, Nat.mod_eq_of_lt h]
      omega
    · rw [Nat.mod_eq_sub_mod (by omega), Nat.mod_eq_of_lt (by omega)]
      omega

/-- The next slot to be written holds none of the more recent items. -/
theorem back_ne {n next k : ℕ} (h : next < n) (hk : 0 < k) (hkn : k < n) : back n next k ≠ next := by
  unfold back
  rcases Nat.lt_or_ge next k with hlt | hge
  · rw [Nat.mod_eq_of_lt (by omega)]
    omega
  · rw [Nat.mod_eq_sub_mod (by omega), Nat.mod_eq_of_lt (by omega)]
    omega

/-! ### The represented list -/

variable {α : Type u} {β : Type v}

/-- **The ring holds the most recent items of a list**; `holds` says when a slot holds an item. -/
structure Represents (n : ℕ) (holds : β → α → Prop) (slots : List β) (next count : ℕ)
    (items : List α) : Prop where
  length : slots.length = n
  next_lt : next < n
  count_eq : count = min n items.length
  entry : ∀ k, 1 ≤ k → k ≤ count → ∃ slot a, slots[back n next k]? = some slot ∧
    items[items.length - k]? = some a ∧ holds slot a

/-- An empty ring. -/
theorem represents_nil {n : ℕ} (holds : β → α → Prop) {slots : List β} (hn : 0 < n)
    (h : slots.length = n) : Represents n holds slots 0 0 [] :=
  ⟨h, hn, by simp, fun k hk hk' => absurd hk (by omega)⟩

/-- **Writing an item** to the next slot appends it to the list. -/
theorem Represents.push {n next count : ℕ} {holds : β → α → Prop} {slots : List β}
    {items : List α} (h : Represents n holds slots next count items) {slot : β} {a : α}
    (ha : holds slot a) :
    Represents n holds (slots.set next slot) ((next + 1) % n)
      (if count < n then count + 1 else count) (items ++ [a]) := by
  have hnext := h.next_lt
  have hcount := h.count_eq
  have hlen := h.length
  refine ⟨?_, Nat.mod_lt _ (by omega), ?_, ?_⟩
  · rw [List.length_set]
    exact hlen
  · rw [List.length_append, List.length_singleton]
    split <;> omega
  · intro k hk hk'
    cases k with
    | zero => omega
    | succ k =>
        rcases Nat.eq_zero_or_pos k with rfl | hpos
        · -- the item just written
          refine ⟨slot, a, ?_, ?_, ha⟩
          · rw [back_succ_one hnext, List.getElem?_set_self (by omega)]
          · simp
        · -- an older item, in a slot that was not written
          have hkn : k < n := by
            split at hk' <;> omega
          have hold : k ≤ count := by
            split at hk' <;> omega
          obtain ⟨s, b, hs, hb, hsb⟩ := h.entry k hpos hold
          refine ⟨s, b, ?_, ?_, hsb⟩
          · rw [back_succ_succ hnext hkn, List.getElem?_set_ne (back_ne hnext hpos hkn).symm]
            exact hs
          · have hidx : (items ++ [a]).length - (k + 1) = items.length - k := by
              rw [List.length_append, List.length_singleton]
              omega
            rw [hidx, List.getElem?_append_left (by omega)]
            exact hb

/-- The `n` most recent items of a list, the newest first. -/
def recent (n : ℕ) (items : List α) : List α := items.reverse.take n

theorem Represents.count_eq_length {n next count : ℕ} {holds : β → α → Prop} {slots : List β}
    {items : List α} (h : Represents n holds slots next count items) :
    count = (recent n items).length := by
  rw [recent, List.length_take, List.length_reverse]
  exact h.count_eq

theorem recent_getElem? {n k : ℕ} {items : List α} (h : k < (recent n items).length) :
    (recent n items)[k]? = items[items.length - (k + 1)]? := by
  rw [recent, List.length_take, List.length_reverse] at h
  rw [recent, List.getElem?_take_of_lt (by omega), List.getElem?_reverse (by omega)]
  congr 1
  omega

/-! ### Collapsing runs of equal items -/

variable [DecidableEq α]

theorem destutter'_concat (b : α) (l : List α) (a : α) :
    (l ++ [a]).destutter' (· ≠ ·) b =
      if (l.destutter' (· ≠ ·) b).getLast? = some a then l.destutter' (· ≠ ·) b
      else l.destutter' (· ≠ ·) b ++ [a] := by
  induction l generalizing b with
  | nil =>
      rcases eq_or_ne b a with rfl | hne
      · simp
      · simp [hne]
  | cons c l ih =>
      rw [List.cons_append]
      rcases eq_or_ne b c with rfl | hne
      · rw [List.destutter'_cons_neg _ (by simp), List.destutter'_cons_neg _ (by simp)]
        exact ih b
      · have hnil : l.destutter' (· ≠ ·) c ≠ [] := List.destutter'_ne_nil l _
        rw [List.destutter'_cons_pos _ hne, List.destutter'_cons_pos _ hne, ih c,
          List.getLast?_cons_of_ne_nil hnil]
        split <;> rfl

/-- **Collapsing runs while the list grows**: an item is added unless it equals the last one kept. -/
theorem destutter_concat (l : List α) (a : α) :
    (l ++ [a]).destutter (· ≠ ·) =
      if (l.destutter (· ≠ ·)).getLast? = some a then l.destutter (· ≠ ·)
      else l.destutter (· ≠ ·) ++ [a] := by
  cases l with
  | nil => rfl
  | cons b l => exact destutter'_concat b l a

end RecentRing
