/-
**Translation of addresses by a page walk.**

The stage 1 translation of the 64-bit ARM architecture, version 8, for a granule of 4 KiB and a
region of 32-bit addresses (T0SZ = 32).  Tables of 64-bit descriptors lie in memory.  The walk starts
at level 1 and goes on to levels 2 and 3 as long as it finds descriptors of tables; a block, at
levels 1 and 2, or a page, at level 3, ends it.  The output address is that of the block or page with
the low bits of the virtual address.  Of the attributes the walk gives the index of the memory type,
the access flag and the two bits that forbid execution, which a table on the way may impose.

Main definitions:

* `PageWalk.entryAddress`, `PageWalk.Kind` — the place and the kind of a descriptor;
* `PageWalk.nextTable`, `PageWalk.outputAddress`, `PageWalk.attributes` — its fields;
* `PageWalk.walk` — **the walk**, which ends in a translation or in a fault;
* `PageWalk.IsTable` — what a table in memory holds.

Main results:

* `PageWalk.entryAddress_inj` — entries of aligned tables do not overlap;
* `PageWalk.IsTable.store_self`, `PageWalk.IsTable.store_other` — storing an entry;
* `PageWalk.and_fieldMask`, `PageWalk.encode_and_fieldMask` — a field holds an aligned address, and
  other fields do not disturb it.
-/

import Mathlib.Data.BitVec
import Mathlib.Logic.Function.Basic

set_option relaxedAutoImplicit false
set_option autoImplicit false

namespace PageWalk

/-! ### Tables in memory -/

/-- The address of an entry of the table at an address. -/
def entryAddress (table : BitVec 64) (index : ℕ) : BitVec 64 := table + BitVec.ofNat 64 (8 * index)

/-- A table may lie at this address. -/
def IsTableAddress (table : BitVec 64) : Prop := 4096 ∣ table.toNat ∧ table.toNat < 2 ^ 48

instance (table : BitVec 64) : Decidable (IsTableAddress table) :=
  inferInstanceAs (Decidable (_ ∧ _))

theorem entryAddress_toNat {table : BitVec 64} (h : IsTableAddress table) {index : ℕ}
    (hi : index < 512) : (entryAddress table index).toNat = table.toNat + 8 * index := by
  have hlt := h.2
  rw [entryAddress, BitVec.toNat_add, BitVec.toNat_ofNat]
  omega

/-- Entries of tables do not overlap. -/
theorem entryAddress_inj {table table' : BitVec 64} (h : IsTableAddress table)
    (h' : IsTableAddress table') {index index' : ℕ} (hi : index < 512) (hi' : index' < 512)
    (heq : entryAddress table index = entryAddress table' index') :
    table = table' ∧ index = index' := by
  have hnat := congrArg BitVec.toNat heq
  rw [entryAddress_toNat h hi, entryAddress_toNat h' hi'] at hnat
  obtain ⟨⟨a, ha⟩, -⟩ := h
  obtain ⟨⟨b, hb⟩, -⟩ := h'
  exact ⟨BitVec.eq_of_toNat_eq (by omega), by omega⟩

/-- The table at an address holds these entries. -/
def IsTable (mem : BitVec 64 → BitVec 64) (table : BitVec 64) (entries : ℕ → BitVec 64) : Prop :=
  ∀ index < 512, mem (entryAddress table index) = entries index

section Store

variable {mem : BitVec 64 → BitVec 64} {table table' : BitVec 64} {entries : ℕ → BitVec 64}
  {index : ℕ}

/-- An entry of the table is stored. -/
theorem IsTable.store_self (h : IsTable mem table entries) (ht : IsTableAddress table)
    (hi : index < 512) (descriptor : BitVec 64) :
    IsTable (Function.update mem (entryAddress table index) descriptor) table
      (Function.update entries index descriptor) := by
  intro j hj
  rcases eq_or_ne j index with rfl | hne
  · rw [Function.update_self, Function.update_self]
  · rw [Function.update_of_ne fun heq => hne (entryAddress_inj ht ht hj hi heq).2,
      Function.update_of_ne hne]
    exact h j hj

/-- An entry of another table is stored. -/
theorem IsTable.store_other (h : IsTable mem table entries) (ht : IsTableAddress table)
    (ht' : IsTableAddress table') (hne : table ≠ table') (hi : index < 512)
    (descriptor : BitVec 64) :
    IsTable (Function.update mem (entryAddress table' index) descriptor) table entries := by
  intro j hj
  rw [Function.update_of_ne fun heq => hne (entryAddress_inj ht ht' hj hi heq).1]
  exact h j hj

end Store

/-! ### Descriptors -/

/-- What a descriptor says at levels 1 and 2. -/
inductive Kind
  | invalid
  | block
  | table
  deriving DecidableEq

/-- The kind of a descriptor, by its two lowest bits. -/
def kind (descriptor : BitVec 64) : Kind :=
  if descriptor.getLsbD 0 = false then .invalid
  else if descriptor.getLsbD 1 = false then .block
  else .table

/-- The bits from `n` up to the end of an output address. -/
def fieldMask (n : ℕ) : BitVec 64 := BitVec.ofNat 64 (2 ^ 48 - 2 ^ n)

/-- The address of the table of the next level. -/
def nextTable (descriptor : BitVec 64) : BitVec 64 := descriptor &&& fieldMask 12

/-- The output address of a block or page of `2 ^ n` bytes: its address in the descriptor, and the low
bits of the virtual address, which do not overlap. -/
def outputAddress (n : ℕ) (descriptor : BitVec 64) (va : BitVec 32) : BitVec 64 :=
  (descriptor &&& fieldMask n) + BitVec.ofNat 64 (va.toNat % 2 ^ n)

/-- The attributes of a translation. -/
structure Attributes where
  attrIndex : BitVec 3
  accessFlag : Bool
  pxn : Bool
  uxn : Bool
  deriving DecidableEq

/-- The attributes in the descriptor of a block or page. -/
def attributes (descriptor : BitVec 64) : Attributes where
  attrIndex := descriptor.extractLsb' 2 3
  accessFlag := descriptor.getLsbD 10
  pxn := descriptor.getLsbD 53
  uxn := descriptor.getLsbD 54

/-- What the descriptor of a table imposes on the translations through it. -/
def impose (descriptor : BitVec 64) (a : Attributes) : Attributes :=
  { a with pxn := a.pxn || descriptor.getLsbD 59, uxn := a.uxn || descriptor.getLsbD 60 }

/-- An output address with its attributes. -/
structure Translation where
  address : BitVec 64
  attributes : Attributes
  deriving DecidableEq

/-! ### The walk -/

/-- The translation by a block or page of `2 ^ n` bytes. -/
def leaf (n : ℕ) (descriptor : BitVec 64) (va : BitVec 32) : Translation :=
  ⟨outputAddress n descriptor va, attributes descriptor⟩

/-- The index of an entry, by the bits of the virtual address from `n` up. -/
def tableIndex (n : ℕ) (va : BitVec 32) : ℕ := va.toNat / 2 ^ n % 512

/-- The walk from level 3 on: the descriptor is that of a page, or the walk faults. -/
def walkLevel3 (mem : BitVec 64 → BitVec 64) (table : BitVec 64) (va : BitVec 32) :
    Option Translation :=
  let descriptor := mem (entryAddress table (tableIndex 12 va))
  match kind descriptor with
  | .table => some (leaf 12 descriptor va)
  | _ => none

/-- The walk from level 2 on. -/
def walkLevel2 (mem : BitVec 64 → BitVec 64) (table : BitVec 64) (va : BitVec 32) :
    Option Translation :=
  let descriptor := mem (entryAddress table (tableIndex 21 va))
  match kind descriptor with
  | .invalid => none
  | .block => some (leaf 21 descriptor va)
  | .table => (walkLevel3 mem (nextTable descriptor) va).map fun t =>
      { t with attributes := impose descriptor t.attributes }

/-- **The walk**, from the table at level 1 on; `none` is a fault. -/
def walk (mem : BitVec 64 → BitVec 64) (table : BitVec 64) (va : BitVec 32) : Option Translation :=
  let descriptor := mem (entryAddress table (tableIndex 30 va))
  match kind descriptor with
  | .invalid => none
  | .block => some (leaf 30 descriptor va)
  | .table => (walkLevel2 mem (nextTable descriptor) va).map fun t =>
      { t with attributes := impose descriptor t.attributes }

/-! ### Fields of a descriptor -/

theorem getLsbD_fieldMask {n : ℕ} (hn : n ≤ 48) (i : ℕ) :
    (fieldMask n).getLsbD i = decide (n ≤ i ∧ i < 48) := by
  have hsplit : 2 ^ 48 - 2 ^ n = 2 ^ n * (2 ^ (48 - n) - 1) := by
    rw [Nat.mul_sub, ← pow_add, Nat.add_sub_cancel' hn, Nat.mul_one]
  rw [fieldMask, BitVec.getLsbD_ofNat, hsplit, Nat.testBit_two_pow_mul,
    Nat.testBit_two_pow_sub_one]
  by_cases hi : n ≤ i ∧ i < 48
  · simp [hi]
    omega
  · simp [hi]
    omega

/-- A field holds an address that is aligned and not too large. -/
theorem and_fieldMask {n : ℕ} (hn : n ≤ 48) {a : BitVec 64} (hdvd : 2 ^ n ∣ a.toNat)
    (hlt : a.toNat < 2 ^ 48) : a &&& fieldMask n = a := by
  apply BitVec.eq_of_getLsbD_eq
  intro i _
  rw [BitVec.getLsbD_and, getLsbD_fieldMask hn]
  by_cases hi : n ≤ i ∧ i < 48
  · rw [decide_eq_true hi, Bool.and_true]
  · rw [decide_eq_false hi, Bool.and_false]
    rcases not_and_or.1 hi with hlow | hhigh
    · obtain ⟨k, hk⟩ := hdvd
      rw [BitVec.getLsbD, hk, Nat.testBit_two_pow_mul]
      simp
      omega
    · have hpow : 2 ^ 48 ≤ 2 ^ i := Nat.pow_le_pow_right (by omega) (by omega)
      exact (Nat.testBit_lt_two_pow (by omega)).symm

section Encode

variable {n : ℕ} {a rest : BitVec 64}

/-- What is set beside a field does not disturb it. -/
theorem encode_and_fieldMask (hrest : rest &&& fieldMask n = 0#64) :
    ((a &&& fieldMask n) ||| rest) &&& fieldMask n = a &&& fieldMask n := by
  rw [BitVec.and_or_distrib_right, hrest, BitVec.and_assoc, BitVec.and_self, BitVec.or_zero]

/-- A field does not disturb what is set beside it. -/
theorem getLsbD_encode (hn : n ≤ 48) {i : ℕ} (hi : ¬ (n ≤ i ∧ i < 48)) :
    ((a &&& fieldMask n) ||| rest).getLsbD i = rest.getLsbD i := by
  rw [BitVec.getLsbD_or, BitVec.getLsbD_and, getLsbD_fieldMask hn, decide_eq_false hi,
    Bool.and_false, Bool.false_or]

theorem kind_encode (hn : n ≤ 48) (hlow : 2 ≤ n) :
    kind ((a &&& fieldMask n) ||| rest) = kind rest := by
  rw [kind, kind, getLsbD_encode hn (by omega), getLsbD_encode hn (by omega)]

theorem impose_encode (hn : n ≤ 48) (b : Attributes) :
    impose ((a &&& fieldMask n) ||| rest) b = impose rest b := by
  rw [impose, impose, getLsbD_encode hn (by omega), getLsbD_encode hn (by omega)]

theorem attributes_encode (hn : n ≤ 48) (hlow : 11 ≤ n) :
    attributes ((a &&& fieldMask n) ||| rest) = attributes rest := by
  have hindex : ((a &&& fieldMask n) ||| rest).extractLsb' 2 3 = rest.extractLsb' 2 3 := by
    apply BitVec.eq_of_getLsbD_eq
    intro i hi
    rw [BitVec.getLsbD_extractLsb', BitVec.getLsbD_extractLsb',
      getLsbD_encode hn (by omega)]
  rw [attributes, attributes, hindex, getLsbD_encode hn (by omega), getLsbD_encode hn (by omega),
    getLsbD_encode hn (by omega)]

end Encode

end PageWalk
