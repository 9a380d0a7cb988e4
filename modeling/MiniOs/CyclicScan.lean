/-
**Scanning a ring of slots from one position on.**

A round-robin scheduler looks at the slots after the current one, in cyclic order, and takes the
first that qualifies.  The slots it looks at are all slots but the current one, each at its cyclic
distance, so the scan fails only when no other slot qualifies.

Main definitions:

* `CyclicScan.candidates` — the other positions of a ring, in cyclic order;
* `CyclicScan.first` — the first of them that qualifies;
* `CyclicScan.distance` — how far one position is after another.

Main results:

* `CyclicScan.mem_candidates` — **the candidates are exactly the other positions**;
* `CyclicScan.first_eq_none_iff`, `CyclicScan.first_some` — what the result of a scan says;
* `CyclicScan.first_distance_le` — **the scan never passes by a position that qualifies**;
* `CyclicScan.distance_add_distance` — going on from a position on the way leaves the rest of it.
-/

import Mathlib.Algebra.GroupWithZero.Nat
import Mathlib.Data.Fin.Basic
import Mathlib.Data.List.Basic

set_option relaxedAutoImplicit false
set_option autoImplicit false

namespace CyclicScan

variable {n : ℕ}

/-! ### Cyclic distances -/

/-- No position but the start itself is at a distance the scan leaves out. -/
theorem add_mod_ne {i d : ℕ} (hi : i < n) (hd : 0 < d) (hdn : d < n) : (i + d) % n ≠ i := by
  intro h
  rcases Nat.lt_or_ge (i + d) n with hlt | hge
  · rw [Nat.mod_eq_of_lt hlt] at h
    omega
  · rw [Nat.mod_eq_sub_mod hge, Nat.mod_eq_of_lt (by omega)] at h
    omega

/-- Every other position is at some distance the scan tries. -/
theorem exists_distance {i j : ℕ} (hi : i < n) (hj : j < n) (hne : j ≠ i) :
    ∃ d, 0 < d ∧ d < n ∧ (i + d) % n = j := by
  rcases Nat.lt_or_ge i j with hlt | hge
  · refine ⟨j - i, by omega, by omega, ?_⟩
    rw [Nat.add_sub_cancel' (by omega), Nat.mod_eq_of_lt hj]
  · refine ⟨j + n - i, by omega, by omega, ?_⟩
    rw [Nat.add_sub_cancel' (by omega), Nat.add_mod_right, Nat.mod_eq_of_lt hj]

/-- How far the position `j` is after `i`, going round. -/
def distance (i j : Fin n) : ℕ := ((j : ℕ) + n - i) % n

theorem distance_of_le {i j : Fin n} (h : (i : ℕ) ≤ j) : distance i j = j - i := by
  have hj := j.isLt
  rw [distance, Nat.sub_add_comm h, Nat.add_mod_right, Nat.mod_eq_of_lt (by omega)]

theorem distance_of_lt {i j : Fin n} (h : (j : ℕ) < i) : distance i j = j + n - i := by
  rw [distance, Nat.mod_eq_of_lt (by omega)]

theorem distance_lt (i j : Fin n) : distance i j < n := Nat.mod_lt _ i.pos

theorem distance_pos {i j : Fin n} (h : j ≠ i) : 0 < distance i j := by
  have hne := Fin.val_ne_of_ne h
  rcases Nat.lt_or_ge (j : ℕ) i with hlt | hge
  · rw [distance_of_lt hlt]
    omega
  · rw [distance_of_le hge]
    omega

/-- A position on the way divides the way. -/
theorem distance_add_distance {i j k : Fin n} (h : distance i k ≤ distance i j) :
    distance i k + distance k j = distance i j := by
  have hi := i.isLt
  have hj := j.isLt
  have hk := k.isLt
  rcases Nat.lt_or_ge (j : ℕ) i with hji | hij
  · rw [distance_of_lt hji] at h ⊢
    rcases Nat.lt_or_ge (k : ℕ) i with hki | hik
    · rw [distance_of_lt hki] at h ⊢
      rw [distance_of_le (by omega)]
      omega
    · rw [distance_of_le hik] at h ⊢
      rw [distance_of_lt (by omega)]
      omega
  · rw [distance_of_le hij] at h ⊢
    rcases Nat.lt_or_ge (k : ℕ) i with hki | hik
    · rw [distance_of_lt hki] at h
      omega
    · rw [distance_of_le hik] at h ⊢
      rw [distance_of_le (by omega)]
      omega

/-- The way there and back goes round once. -/
theorem distance_add_swap {i j : Fin n} (h : j ≠ i) : distance i j + distance j i = n := by
  have hne := Fin.val_ne_of_ne h
  rcases Nat.lt_or_ge (j : ℕ) i with hlt | hge
  · rw [distance_of_lt hlt, distance_of_le (by omega)]
    omega
  · rw [distance_of_le hge, distance_of_lt (by omega)]
    omega

/-! ### The scan -/

variable [NeZero n]

/-- The position at a distance. -/
theorem distance_ofNat {i : Fin n} {d : ℕ} (h : d < n) :
    distance i (Fin.ofNat n ((i : ℕ) + d)) = d := by
  have hi := i.isLt
  have hval : (Fin.ofNat n ((i : ℕ) + d) : ℕ) = ((i : ℕ) + d) % n := rfl
  rcases Nat.lt_or_ge ((i : ℕ) + d) n with hlt | hge
  · rw [Nat.mod_eq_of_lt hlt] at hval
    rw [distance_of_le (by omega)]
    omega
  · rw [Nat.mod_eq_sub_mod hge, Nat.mod_eq_of_lt (by omega)] at hval
    rw [distance_of_lt (by omega)]
    omega

theorem ofNat_distance (i j : Fin n) : Fin.ofNat n ((i : ℕ) + distance i j) = j := by
  have hj := j.isLt
  refine Fin.ext ?_
  have hval : (Fin.ofNat n ((i : ℕ) + distance i j) : ℕ) = ((i : ℕ) + distance i j) % n := rfl
  rw [hval]
  rcases Nat.lt_or_ge (j : ℕ) i with hlt | hge
  · rw [distance_of_lt hlt, Nat.add_sub_cancel' (by omega), Nat.add_mod_right, Nat.mod_eq_of_lt hj]
  · rw [distance_of_le hge, Nat.add_sub_cancel' hge, Nat.mod_eq_of_lt hj]

/-- The positions of a ring of `n` at the distances `1`, …, `n - 1` after the position `i`. -/
def candidates (i : Fin n) : List (Fin n) :=
  (List.range' 1 (n - 1)).map fun distance => Fin.ofNat n ((i : ℕ) + distance)

/-- The first position after `i` that qualifies. -/
def first (p : Fin n → Bool) (i : Fin n) : Option (Fin n) := (candidates i).find? p

/-- **The candidates are exactly the other positions.** -/
theorem mem_candidates {i j : Fin n} : j ∈ candidates i ↔ j ≠ i := by
  rw [candidates, List.mem_map]
  constructor
  · rintro ⟨d, hd, rfl⟩ h
    rw [List.mem_range'_1] at hd
    exact add_mod_ne i.isLt (by omega) (by omega) (congrArg Fin.val h)
  · intro h
    obtain ⟨d, hpos, hlt, hd⟩ := exists_distance i.isLt j.isLt (Fin.val_ne_of_ne h)
    exact ⟨d, List.mem_range'_1.2 ⟨by omega, by omega⟩, Fin.ext hd⟩

/-- A scan that finds nothing has seen every other position. -/
theorem first_eq_none_iff {p : Fin n → Bool} {i : Fin n} :
    first p i = none ↔ ∀ j, j ≠ i → p j = false := by
  simp [first, List.find?_eq_none, mem_candidates]

/-- A scan finds another position that qualifies. -/
theorem first_some {p : Fin n → Bool} {i j : Fin n} (h : first p i = some j) :
    j ≠ i ∧ p j = true :=
  ⟨mem_candidates.1 (List.mem_of_find?_eq_some h), List.find?_some h⟩

/-- A scan finds something as soon as another position qualifies. -/
theorem exists_first {p : Fin n → Bool} {i j : Fin n} (hne : j ≠ i) (hj : p j = true) :
    ∃ k, first p i = some k := by
  refine Option.ne_none_iff_exists'.1 fun hnone => ?_
  rw [first_eq_none_iff.1 hnone j hne] at hj
  exact absurd hj (by simp)

/-- **The scan never passes by a position that qualifies.** -/
theorem first_distance_le {p : Fin n → Bool} {i j k : Fin n} (h : first p i = some k)
    (hne : j ≠ i) (hj : p j = true) : distance i k ≤ distance i j := by
  rw [first, candidates, List.find?_map] at h
  obtain ⟨d, hd, rfl⟩ := Option.map_eq_some_iff.1 h
  obtain ⟨-, hmem, hbefore⟩ := List.find?_range'_eq_some.1 hd
  rw [List.mem_range'_1] at hmem
  rw [distance_ofNat (by omega)]
  refine Nat.le_of_not_lt fun hlt => ?_
  have hskipped := hbefore (distance i j) (distance_pos hne) hlt
  rw [Function.comp_apply, ofNat_distance, hj] at hskipped
  exact absurd hskipped (by simp)

/-- Positions at the same distance are the same. -/
theorem distance_injective {i j k : Fin n} (h : distance i j = distance i k) : j = k := by
  rw [← ofNat_distance i j, h, ofNat_distance]

/-- The scan finds the nearest position that qualifies. -/
theorem first_eq {p : Fin n → Bool} {i j : Fin n} (hne : j ≠ i) (hj : p j = true)
    (hnearest : ∀ k, k ≠ i → p k = true → distance i j ≤ distance i k) : first p i = some j := by
  obtain ⟨k, hk⟩ := exists_first hne hj
  obtain ⟨hki, hpk⟩ := first_some hk
  have hle := first_distance_le hk hne hj
  rw [hk, distance_injective (Nat.le_antisymm hle (hnearest k hki hpk))]

end CyclicScan
