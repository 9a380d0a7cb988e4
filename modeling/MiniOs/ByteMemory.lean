/-
**Memories of bytes, and records of double words in them.**

A memory maps addresses to bytes, and addresses wrap around.  A double word is stored as eight bytes,
the least significant one first.  A record is a number of double words, each at an offset from one
base address; words at offsets that are eight or more apart do not touch each other, wherever the
base is.

Main definitions:

* `ByteMemory.load`, `ByteMemory.store` — a double word read and written;
* `ByteMemory.InRange` — the bytes from an address on;
* `ByteMemory.Apart`, `ByteMemory.storeAll` — offsets that do not overlap, and a record written.

Main results:

* `ByteMemory.load_store_self`, `ByteMemory.load_store_of_apart` — reading after writing;
* `ByteMemory.inRange_offset_iff` — the bytes of a word, counted from the base;
* `ByteMemory.load_storeAll` — **a record is read as it was written**.
-/

import Mathlib.Data.BitVec
import Mathlib.Data.List.Basic

set_option relaxedAutoImplicit false
set_option autoImplicit false

namespace MiniOs

namespace ByteMemory

/-- A memory whose addresses have `w` bits. -/
abbrev Mem (w : ℕ) := BitVec w → BitVec 8

variable {w : ℕ} {mem mem' : Mem w} {a base x : BitVec w} {n i j : ℕ} {value : BitVec 64}

/-! ### Double words -/

/-- The address is that of one of the `n` bytes from `a` on. -/
def InRange (a : BitVec w) (n : ℕ) (x : BitVec w) : Prop := (x - a).toNat < n

/-- Read `n` bytes. -/
def loadBytes (mem : Mem w) (a : BitVec w) : (n : ℕ) → BitVec (8 * n)
  | 0 => 0#0
  | n + 1 => (mem (a + BitVec.ofNat w n) ++ loadBytes mem a n).cast (by omega)

/-- Read a double word. -/
def load (mem : Mem w) (a : BitVec w) : BitVec 64 := loadBytes mem a 8

/-- Write a double word. -/
def store (mem : Mem w) (a : BitVec w) (value : BitVec 64) : Mem w := fun x =>
  if (x - a).toNat < 8 then value.extractLsb' (8 * (x - a).toNat) 8 else mem x

theorem getLsbD_loadBytes (h : i < 8 * n) :
    (loadBytes mem a n).getLsbD i = (mem (a + BitVec.ofNat w (i / 8))).getLsbD (i % 8) := by
  induction n with
  | zero => omega
  | succ n ih =>
      rw [loadBytes, BitVec.getLsbD_cast, BitVec.getLsbD_append]
      split
      · next hlow => exact ih hlow
      · next hhigh =>
          have hbyte : i / 8 = n := by omega
          have hbit : i - 8 * n = i % 8 := by omega
          rw [hbyte, hbit]

theorem getLsbD_load (h : i < 64) :
    (load mem a).getLsbD i = (mem (a + BitVec.ofNat w (i / 8))).getLsbD (i % 8) :=
  getLsbD_loadBytes h

theorem store_outside (h : ¬ InRange a 8 x) : store mem a value x = mem x := if_neg h

/-- The bytes of a range, by their distances from its beginning. -/
theorem add_ofNat_sub_toNat (h : i < 2 ^ w) : (a + BitVec.ofNat w i - a).toNat = i := by
  rw [BitVec.add_comm, BitVec.add_sub_cancel, BitVec.toNat_ofNat, Nat.mod_eq_of_lt h]

theorem load_congr (h : ∀ i < 8, mem (a + BitVec.ofNat w i) = mem' (a + BitVec.ofNat w i)) :
    load mem a = load mem' a := by
  apply BitVec.eq_of_getLsbD_eq
  intro i hi
  rw [getLsbD_load hi, getLsbD_load hi, h (i / 8) (by omega)]

/-- Memories with the same bytes in the range of a word hold the same word. -/
theorem load_congr_inRange (hw : 8 ≤ 2 ^ w) (h : ∀ x, InRange a 8 x → mem x = mem' x) :
    load mem a = load mem' a := by
  refine load_congr fun i hi => h _ ?_
  rw [InRange, add_ofNat_sub_toNat (Nat.lt_of_lt_of_le hi hw)]
  exact hi

/-- A word just written is read back. -/
theorem load_store_self (hw : 8 ≤ 2 ^ w) : load (store mem a value) a = value := by
  apply BitVec.eq_of_getLsbD_eq
  intro i hi
  have hbyte : i / 8 < 8 := by omega
  have hdistance : (a + BitVec.ofNat w (i / 8) - a).toNat = i / 8 :=
    add_ofNat_sub_toNat (Nat.lt_of_lt_of_le hbyte hw)
  rw [getLsbD_load hi, store, hdistance, if_pos hbyte, BitVec.getLsbD_extractLsb', decide_eq_true (Nat.mod_lt i (by decide)), Bool.true_and,
    Nat.div_add_mod]

/-! ### Records -/

/-- The double words at these offsets do not overlap. -/
def Apart (i j : ℕ) : Prop := i + 8 ≤ j ∨ j + 8 ≤ i

instance : DecidableRel Apart := fun i j => inferInstanceAs (Decidable (i + 8 ≤ j ∨ j + 8 ≤ i))

theorem Apart.symm (h : Apart i j) : Apart j i := Or.symm h

/-- The bytes of the word at an offset, counted from the base. -/
theorem inRange_offset_iff (hi : i + 8 ≤ 2 ^ w) :
    InRange (base + BitVec.ofNat w i) 8 x ↔ i ≤ (x - base).toNat ∧ (x - base).toNat < i + 8 := by
  have hsub : x - (base + BitVec.ofNat w i) = x - base - BitVec.ofNat w i := sub_add_eq_sub_sub _ _ _
  have hlt := (x - base).isLt
  have hvalue : (BitVec.ofNat w i).toNat = i := by
    rw [BitVec.toNat_ofNat]
    exact Nat.mod_eq_of_lt (by omega)
  rw [InRange, hsub, BitVec.toNat_sub, hvalue]
  rcases Nat.lt_or_ge (x - base).toNat i with hlow | hhigh
  · rw [Nat.mod_eq_of_lt (by omega)]
    omega
  · have hwrap : 2 ^ w - i + (x - base).toNat = (x - base).toNat - i + 2 ^ w := by omega
    rw [hwrap, Nat.add_mod_right, Nat.mod_eq_of_lt (by omega)]
    omega

/-- Words at offsets that are apart share no byte. -/
theorem not_inRange_of_apart (h : Apart i j) (hi : i + 8 ≤ 2 ^ w) (hj : j + 8 ≤ 2 ^ w)
    (hx : InRange (base + BitVec.ofNat w i) 8 x) : ¬ InRange (base + BitVec.ofNat w j) 8 x := by
  rw [inRange_offset_iff hi] at hx
  rw [inRange_offset_iff hj]
  unfold Apart at h
  omega

/-- A word inside a record lies inside its range. -/
theorem inRange_of_inRange_offset (hi : i + 8 ≤ n) (hn : n ≤ 2 ^ w)
    (hx : InRange (base + BitVec.ofNat w i) 8 x) : InRange base n x :=
  Nat.lt_of_lt_of_le ((inRange_offset_iff (hi.trans hn)).1 hx).2 hi

/-- Writing a word leaves the words apart from it alone. -/
theorem load_store_of_apart (h : Apart i j) (hi : i + 8 ≤ 2 ^ w) (hj : j + 8 ≤ 2 ^ w) :
    load (store mem (base + BitVec.ofNat w i) value) (base + BitVec.ofNat w j) =
      load mem (base + BitVec.ofNat w j) :=
  load_congr_inRange (by omega) fun _ hx => store_outside (not_inRange_of_apart h.symm hj hi hx)

/-- Write several words of a record, given with their offsets, one after the other. -/
def storeAll (base : BitVec w) (items : List (ℕ × BitVec 64)) (mem : Mem w) : Mem w :=
  items.foldl (fun mem p => store mem (base + BitVec.ofNat w p.1) p.2) mem

theorem storeAll_append (items items' : List (ℕ × BitVec 64)) :
    storeAll base (items ++ items') mem = storeAll base items' (storeAll base items mem) :=
  List.foldl_append

theorem load_storeAll_of_apart {items : List (ℕ × BitVec 64)} (h : ∀ p ∈ items, Apart p.1 j)
    (hfit : ∀ p ∈ items, p.1 + 8 ≤ 2 ^ w) (hj : j + 8 ≤ 2 ^ w) :
    load (storeAll base items mem) (base + BitVec.ofNat w j) =
      load mem (base + BitVec.ofNat w j) := by
  induction items generalizing mem with
  | nil => rfl
  | cons p items ih =>
      rw [List.forall_mem_cons] at h hfit
      exact (ih h.2 hfit.2).trans (load_store_of_apart h.1 hfit.1 hj)

/-- **A record is read as it was written**, when its words do not overlap. -/
theorem load_storeAll {items : List (ℕ × BitVec 64)}
    (hapart : items.Pairwise fun p q => Apart p.1 q.1) (hfit : ∀ p ∈ items, p.1 + 8 ≤ 2 ^ w)
    (hmem : (i, value) ∈ items) :
    load (storeAll base items mem) (base + BitVec.ofNat w i) = value := by
  induction items generalizing mem with
  | nil => exact absurd hmem List.not_mem_nil
  | cons p items ih =>
      rw [List.pairwise_cons] at hapart
      rw [List.forall_mem_cons] at hfit
      rcases List.mem_cons.1 hmem with rfl | hmem
      · have hlater : ∀ q ∈ items, Apart q.1 i := fun q hq => (hapart.1 q hq).symm
        have hself : load (store mem (base + BitVec.ofNat w i) value) (base + BitVec.ofNat w i) =
            value := load_store_self (by omega)
        exact (load_storeAll_of_apart hlater hfit.2 hfit.1).trans hself
      · exact ih hapart.2 hfit.2 hmem

/-- Writing a record touches no byte outside its range. -/
theorem storeAll_outside {items : List (ℕ × BitVec 64)} (hfit : ∀ p ∈ items, p.1 + 8 ≤ n)
    (hn : n ≤ 2 ^ w) (hx : ¬ InRange base n x) : storeAll base items mem x = mem x := by
  induction items generalizing mem with
  | nil => rfl
  | cons p items ih =>
      rw [List.forall_mem_cons] at hfit
      exact (ih hfit.2).trans
        (store_outside fun hp => hx (inRange_of_inRange_offset hfit.1 hn hp))

end ByteMemory

end MiniOs
