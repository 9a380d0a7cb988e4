/-
**The translation tables (`src/mmu.c`).**

Before the MMU is switched on, `build_translation_tables` fills in three tables: the one of level 1,
and one of level 2 for each of the first two gibibytes.  The first of these gets the blocks of the
devices, the second one those of RAM.  The tables lie somewhere in memory; what the stores of the
function leave in them is read off once, so that a walk need not look at the stores.

Main definitions:

* `Mmu.Tables` — the addresses of the three tables;
* `Mmu.tableDescriptor`, `Mmu.blockDescriptor` — the descriptors;
* `Mmu.buildTranslationTables` — **the stores of the function**;
* `Mmu.Contents` — what the three tables hold.

Main results:

* `Mmu.contents_mapRamBlocks` — the loop over RAM fills in one entry for each block;
* `Mmu.contents_build` — **the tables as they are built**.
-/

import MiniOs.Machine
import MiniOs.PageWalk

set_option relaxedAutoImplicit false
set_option autoImplicit false

namespace MiniOs

namespace Mmu

open PageWalk (entryAddress IsTable IsTableAddress)

/-! ### Constants and tables -/

/-- `TABLE_ENTRY_COUNT`. -/
def tableEntryCount : ℕ := 512

/-- `L2_BLOCK_SIZE`. -/
def l2BlockSize : Word := 0x200000#64

/-- `QEMU_GIC_BASE`. -/
def qemuGicBase : Word := 0x08000000#64

/-- `QEMU_UART_BASE`. -/
def qemuUartBase : Word := 0x09000000#64

/-- `QEMU_RAM_BASE`. -/
def qemuRamBase : Word := 0x40000000#64

/-- `QEMU_RAM_END`. -/
def qemuRamEnd : Word := 0x48000000#64

/-- `DESC_VALID`. -/
def descValid : Word := 1#64 <<< 0

/-- `DESC_TABLE`. -/
def descTable : Word := 1#64 <<< 1

/-- `DESC_BLOCK`. -/
def descBlock : Word := descValid

/-- `DESC_AF`. -/
def descAf : Word := 1#64 <<< 10

/-- `DESC_SH_OUTER`. -/
def descShOuter : Word := 2#64 <<< 8

/-- `DESC_SH_INNER`. -/
def descShInner : Word := 3#64 <<< 8

/-- `DESC_ATTR_INDEX`. -/
def descAttrIndex (index : Word) : Word := index <<< 2

/-- `DESC_PXN`. -/
def descPxn : Word := 1#64 <<< 53

/-- `DESC_UXN`. -/
def descUxn : Word := 1#64 <<< 54

/-- `DESC_TABLE_OUTPUT_MASK`. -/
def descTableOutputMask : Word := 0x0000fffffffff000#64

/-- `DESC_OUTPUT_MASK`. -/
def descOutputMask : Word := 0x0000ffffffe00000#64

/-- The addresses of `level1_table`, `device_level2_table` and `ram_level2_table`. -/
structure Tables where
  level1Table : Word
  deviceLevel2Table : Word
  ramLevel2Table : Word

/-! ### Building the tables -/

/-- The store `table[index] = value`. -/
def storeEntry (table : Word) (index : ℕ) (value : Word) (mem : Memory) : Memory :=
  Function.update mem (entryAddress table index) value

/-- The loop of `clear_table` after its first `n` iterations. -/
def clearEntries (table : Word) : ℕ → Memory → Memory
  | 0, mem => mem
  | n + 1, mem => storeEntry table n 0 (clearEntries table n mem)

/-- Model of `clear_table`. -/
@[irreducible] def clearTable (table : Word) (mem : Memory) : Memory :=
  clearEntries table tableEntryCount mem

/-- Model of `table_descriptor`. -/
def tableDescriptor (table : Word) : Word :=
  table &&& descTableOutputMask ||| descValid ||| descTable

/-- Model of `block_descriptor`. -/
def blockDescriptor (address attributes : Word) : Word :=
  address &&& descOutputMask ||| descBlock ||| descAf ||| attributes

/-- The index that `map_device_block` and the loop over RAM compute from an address. -/
def blockIndex (address : Word) : ℕ := ((address >>> 21) &&& 0x1ff).toNat

/-- The attributes of a block of device registers. -/
def deviceAttributes : Word := descAttrIndex 0 ||| descShOuter ||| descPxn ||| descUxn

/-- The attributes of a block of RAM. -/
def ramAttributes : Word := descAttrIndex 1 ||| descShInner ||| descUxn

/-- Model of `map_device_block`. -/
def mapDeviceBlock (t : Tables) (address : Word) (mem : Memory) : Memory :=
  storeEntry t.deviceLevel2Table (blockIndex address) (blockDescriptor address deviceAttributes) mem

theorem address_lt_add_l2BlockSize {address : Word} (h : address < qemuRamEnd) :
    address.toNat < (address + l2BlockSize).toNat := by
  have hlt : address.toNat < 0x48000000 := BitVec.lt_def.1 h
  have hsize : l2BlockSize.toNat = 0x200000 := rfl
  rw [BitVec.toNat_add, hsize]
  omega

/-- The loop over RAM of `build_translation_tables`, from an address on. -/
def mapRamBlocks (t : Tables) (address : Word) (mem : Memory) : Memory :=
  if address < qemuRamEnd then
    mapRamBlocks t (address + l2BlockSize)
      (storeEntry t.ramLevel2Table (blockIndex address) (blockDescriptor address ramAttributes) mem)
  else mem
termination_by qemuRamEnd.toNat - address.toNat
decreasing_by
  have hlt := BitVec.lt_def.1 ‹address < qemuRamEnd›
  have hnext := address_lt_add_l2BlockSize ‹address < qemuRamEnd›
  omega

/-- Model of `build_translation_tables`. -/
def buildTranslationTables (t : Tables) (mem : Memory) : Memory :=
  let mem := clearTable t.level1Table mem
  let mem := clearTable t.deviceLevel2Table mem
  let mem := clearTable t.ramLevel2Table mem
  -- of the first gibibyte only the blocks of the devices are mapped
  let mem := storeEntry t.level1Table 0 (tableDescriptor t.deviceLevel2Table) mem
  let mem := mapDeviceBlock t qemuGicBase mem
  let mem := mapDeviceBlock t qemuUartBase mem
  let mem := storeEntry t.level1Table 1 (tableDescriptor t.ramLevel2Table) mem
  mapRamBlocks t qemuRamBase mem

/-! ### What the tables hold -/

/-- The tables lie at different places where a table may lie. -/
structure Tables.Separate (t : Tables) : Prop where
  level1 : IsTableAddress t.level1Table
  device : IsTableAddress t.deviceLevel2Table
  ram : IsTableAddress t.ramLevel2Table
  level1_device : t.level1Table ≠ t.deviceLevel2Table
  level1_ram : t.level1Table ≠ t.ramLevel2Table
  device_ram : t.deviceLevel2Table ≠ t.ramLevel2Table

/-- What the three tables hold. -/
structure Contents (t : Tables) (mem : Memory) (level1 device ram : ℕ → Word) : Prop where
  level1 : IsTable mem t.level1Table level1
  device : IsTable mem t.deviceLevel2Table device
  ram : IsTable mem t.ramLevel2Table ram

section Stores

variable {t : Tables} {mem : Memory} {level1 device ram : ℕ → Word} {index : ℕ}

theorem Contents.store_level1 (h : Contents t mem level1 device ram) (hsep : t.Separate)
    (hi : index < 512) (value : Word) :
    Contents t (storeEntry t.level1Table index value mem) (Function.update level1 index value) device
      ram :=
  ⟨h.level1.store_self hsep.level1 hi value,
    h.device.store_other hsep.device hsep.level1 hsep.level1_device.symm hi value,
    h.ram.store_other hsep.ram hsep.level1 hsep.level1_ram.symm hi value⟩

theorem Contents.store_device (h : Contents t mem level1 device ram) (hsep : t.Separate)
    (hi : index < 512) (value : Word) :
    Contents t (storeEntry t.deviceLevel2Table index value mem) level1
      (Function.update device index value) ram :=
  ⟨h.level1.store_other hsep.level1 hsep.device hsep.level1_device hi value,
    h.device.store_self hsep.device hi value,
    h.ram.store_other hsep.ram hsep.device hsep.device_ram.symm hi value⟩

theorem Contents.store_ram (h : Contents t mem level1 device ram) (hsep : t.Separate)
    (hi : index < 512) (value : Word) :
    Contents t (storeEntry t.ramLevel2Table index value mem) level1 device
      (Function.update ram index value) :=
  ⟨h.level1.store_other hsep.level1 hsep.ram hsep.level1_ram hi value,
    h.device.store_other hsep.device hsep.ram hsep.device_ram hi value,
    h.ram.store_self hsep.ram hi value⟩

end Stores

/-! ### The cleared tables -/

section Clear

variable {table table' : Word} {entries : ℕ → Word}

/-- The first `n` entries are clear. -/
theorem clearEntries_self (ht : IsTableAddress table) (mem : Memory) {n : ℕ} (hn : n ≤ 512) :
    ∀ index < n, clearEntries table n mem (entryAddress table index) = 0 := by
  induction n with
  | zero => exact fun index hi => absurd hi (Nat.not_lt_zero _)
  | succ n ih =>
      intro index hi
      rw [clearEntries, storeEntry]
      rcases eq_or_ne index n with rfl | hne
      · rw [Function.update_self]
      · rw [Function.update_of_ne fun heq =>
          hne (PageWalk.entryAddress_inj ht ht (by omega) (by omega) heq).2]
        exact ih (by omega) index (by omega)

theorem clearEntries_other {mem : Memory} (h : IsTable mem table entries)
    (ht : IsTableAddress table) (ht' : IsTableAddress table') (hne : table ≠ table') {n : ℕ}
    (hn : n ≤ 512) : IsTable (clearEntries table' n mem) table entries := by
  induction n with
  | zero => exact h
  | succ n ih => exact (ih (by omega)).store_other ht ht' hne (by omega) 0

theorem clearTable_self (ht : IsTableAddress table) (mem : Memory) :
    IsTable (clearTable table mem) table fun _ => 0 := by
  unfold clearTable
  exact clearEntries_self ht mem le_rfl

theorem clearTable_other {mem : Memory} (h : IsTable mem table entries) (ht : IsTableAddress table)
    (ht' : IsTableAddress table') (hne : table ≠ table') :
    IsTable (clearTable table' mem) table entries := by
  unfold clearTable
  exact clearEntries_other h ht ht' hne le_rfl

end Clear

/-- After the three calls of `clear_table` the tables hold zeros. -/
theorem contents_clear {t : Tables} (hsep : t.Separate) (mem : Memory) :
    Contents t (clearTable t.ramLevel2Table (clearTable t.deviceLevel2Table
      (clearTable t.level1Table mem))) (fun _ => 0) (fun _ => 0) fun _ => 0 where
  level1 := clearTable_other (clearTable_other (clearTable_self hsep.level1 _) hsep.level1
    hsep.device hsep.level1_device) hsep.level1 hsep.ram hsep.level1_ram
  device := clearTable_other (clearTable_self hsep.device _) hsep.device hsep.ram hsep.device_ram
  ram := clearTable_self hsep.ram _

/-! ### The blocks of RAM -/

/-- The address of a block of RAM. -/
def ramBlock (k : ℕ) : Word := qemuRamBase + BitVec.ofNat 64 (k * 0x200000)

theorem ramBlock_toNat {k : ℕ} (hk : k ≤ 64) : (ramBlock k).toNat = 0x40000000 + k * 0x200000 := by
  have hbase : qemuRamBase.toNat = 0x40000000 := rfl
  rw [ramBlock, BitVec.toNat_add, hbase, BitVec.toNat_ofNat]
  omega

theorem ramBlock_succ (k : ℕ) : ramBlock k + l2BlockSize = ramBlock (k + 1) := by
  have hsize : l2BlockSize = BitVec.ofNat 64 0x200000 := rfl
  rw [ramBlock, ramBlock, hsize, BitVec.add_assoc, ← BitVec.ofNat_add, Nat.succ_mul]

/-- The index of a block is given by nine bits of its address. -/
theorem blockIndex_eq (address : Word) : blockIndex address = address.toNat / 2 ^ 21 % 512 := by
  have hmask : (0x1ff : Word).toNat = 2 ^ 9 - 1 := rfl
  rw [blockIndex, BitVec.toNat_and, hmask, Nat.and_two_pow_sub_one_eq_mod,
    BitVec.toNat_ushiftRight, Nat.shiftRight_eq_div_pow]

/-- What the loop over RAM leaves in its table. -/
def ramEntries (index : ℕ) : Word :=
  if index < 64 then blockDescriptor (ramBlock index) ramAttributes else 0

/-- **The loop over RAM**, from a block on, fills in the entries of the blocks that are left. -/
theorem contents_mapRamBlocks {t : Tables} (hsep : t.Separate) {mem : Memory}
    {level1 device ram : ℕ → Word} {k : ℕ} (hk : k ≤ 64)
    (h : Contents t mem level1 device ram)
    (hram : ∀ index, ram index = if index < k then ramEntries index else 0) :
    Contents t (mapRamBlocks t (ramBlock k) mem) level1 device ramEntries := by
  obtain ⟨rest, hrest⟩ : ∃ rest, rest = 64 - k := ⟨_, rfl⟩
  induction rest generalizing k mem ram with
  | zero =>
      -- the end of RAM is reached
      obtain rfl : k = 64 := by omega
      rw [mapRamBlocks, if_neg (by decide)]
      have heq : ram = ramEntries := by
        funext index
        rw [hram, ramEntries]
        split
        · rfl
        · rfl
      exact heq ▸ h
  | succ rest ih =>
      have hlt : ramBlock k < qemuRamEnd := by
        have hend : qemuRamEnd.toNat = 0x48000000 := rfl
        rw [BitVec.lt_def, ramBlock_toNat hk, hend]
        omega
      have hindex : blockIndex (ramBlock k) = k := by
        rw [blockIndex_eq, ramBlock_toNat hk]
        omega
      rw [mapRamBlocks, if_pos hlt, ramBlock_succ, hindex]
      refine ih (by omega) (h.store_ram hsep (by omega) _) ?_ (by omega)
      intro index
      rcases eq_or_ne index k with rfl | hne
      · rw [Function.update_self, if_pos (by omega), ramEntries, if_pos (by omega)]
      · rw [Function.update_of_ne hne, hram]
        have hiff : index < k ↔ index < k + 1 := by omega
        simp only [hiff]

/-! ### The tables as they are built -/

/-- The table of level 1. -/
def level1Entries (t : Tables) : ℕ → Word :=
  Function.update (Function.update (fun _ => 0) 0 (tableDescriptor t.deviceLevel2Table)) 1
    (tableDescriptor t.ramLevel2Table)

/-- The table of the devices. -/
def deviceEntries : ℕ → Word :=
  Function.update (Function.update (fun _ => 0) 64 (blockDescriptor qemuGicBase deviceAttributes)) 72
    (blockDescriptor qemuUartBase deviceAttributes)

theorem deviceEntries_gic : deviceEntries 64 = blockDescriptor qemuGicBase deviceAttributes := by
  rw [deviceEntries, Function.update_of_ne (by decide), Function.update_self]

theorem deviceEntries_uart : deviceEntries 72 = blockDescriptor qemuUartBase deviceAttributes := by
  rw [deviceEntries, Function.update_self]

/-- **The tables as they are built.** -/
theorem contents_build {t : Tables} (hsep : t.Separate) (mem : Memory) :
    Contents t (buildTranslationTables t mem) (level1Entries t) deviceEntries ramEntries := by
  have hfirst : 0 < 512 := by decide
  have hgic : blockIndex qemuGicBase < 512 := by decide
  have huart : blockIndex qemuUartBase < 512 := by decide
  have hsecond : 1 < 512 := by decide
  have hclear := contents_clear hsep mem
  have htable := hclear.store_level1 hsep hfirst (tableDescriptor t.deviceLevel2Table)
  have hblock := htable.store_device hsep hgic (blockDescriptor qemuGicBase deviceAttributes)
  have hdevices := hblock.store_device hsep huart (blockDescriptor qemuUartBase deviceAttributes)
  have hlevel1 := hdevices.store_level1 hsep hsecond (tableDescriptor t.ramLevel2Table)
  have hstart : qemuRamBase = ramBlock 0 := by decide
  rw [buildTranslationTables, hstart]
  exact contents_mapRamBlocks hsep (by decide) hlevel1 (by simp)

end Mmu

end MiniOs
