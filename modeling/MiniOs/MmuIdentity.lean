/-
**The translation tables are an exact identity map.**

Whatever 32-bit address the walk starts from, it ends in the same address or in a fault.  Only the
blocks of the two devices and RAM are mapped, as device memory that cannot be executed, and as normal
memory.  What the page allocator hands out lies in RAM, and the registers of the drivers lie in the
blocks of the devices, although the addresses come from other files.

Main definitions:

* `Mmu.InBlock` — the two mebibytes from an address on;
* `Mmu.deviceMemory`, `Mmu.normalMemory` — the attributes of the mapped blocks;
* `Mmu.identityMap` — **what the tables are for**.

Main results:

* `Mmu.leaf_blockDescriptor` — a block translates its own addresses to themselves;
* `Mmu.walk_build` — **the walk through the tables as they are built is the identity map**;
* `Mmu.translation_identity` — the same by cases, with the pages and the registers.
-/

import MiniOs.Mmu
import MiniOs.PageOwnership
import MiniOs.Registers

set_option relaxedAutoImplicit false
set_option autoImplicit false

namespace MiniOs

namespace Mmu

open PageWalk (Attributes Translation IsTable entryAddress tableIndex fieldMask walk)

/-! ### The identity map -/

/-- The address lies in the block of two mebibytes at `base`. -/
def InBlock (base : ℕ) (va : BitVec 32) : Prop := base ≤ va.toNat ∧ va.toNat < base + 0x200000

instance (base : ℕ) (va : BitVec 32) : Decidable (InBlock base va) :=
  inferInstanceAs (Decidable (_ ∧ _))

/-- The address lies in RAM. -/
def InRam (va : BitVec 32) : Prop := 0x40000000 ≤ va.toNat ∧ va.toNat < 0x48000000

instance (va : BitVec 32) : Decidable (InRam va) := inferInstanceAs (Decidable (_ ∧ _))

/-- Memory of type 0 that cannot be executed. -/
def deviceMemory : Attributes := ⟨0, true, true, true⟩

/-- Memory of type 1 that can be executed by the kernel only. -/
def normalMemory : Attributes := ⟨1, true, false, true⟩

/-- **What the tables are for.** -/
def identityMap (va : BitVec 32) : Option Translation :=
  if InBlock 0x08000000 va ∨ InBlock 0x09000000 va then some ⟨va.setWidth 64, deviceMemory⟩
  else if InRam va then some ⟨va.setWidth 64, normalMemory⟩
  else none

/-! ### The descriptors -/

theorem tableDescriptor_eq (table : Word) :
    tableDescriptor table = table &&& fieldMask 12 ||| (descValid ||| descTable) :=
  BitVec.or_assoc _ _ _

theorem blockDescriptor_eq (address attributes : Word) :
    blockDescriptor address attributes =
      address &&& fieldMask 21 ||| (descBlock ||| descAf ||| attributes) := by
  rw [BitVec.or_assoc, ← BitVec.or_assoc, ← BitVec.or_assoc]
  rfl

/-- The descriptor of a table **leads to the table**. -/
theorem tableDescriptor_spec {table : Word} (h : PageWalk.IsTableAddress table) :
    PageWalk.kind (tableDescriptor table) = .table ∧
      PageWalk.nextTable (tableDescriptor table) = table ∧
      ∀ a, PageWalk.impose (tableDescriptor table) a = a := by
  rw [tableDescriptor_eq]
  refine ⟨?_, ?_, ?_⟩
  · rw [PageWalk.kind_encode (by decide) (by decide)]
    decide
  · rw [PageWalk.nextTable, PageWalk.encode_and_fieldMask (by decide)]
    exact PageWalk.and_fieldMask (by decide) h.1 h.2
  · intro a
    rw [PageWalk.impose_encode (by decide)]
    simp [PageWalk.impose, descValid, descTable]

/-- The descriptor of a block **translates the addresses of the block to themselves**. -/
theorem leaf_blockDescriptor {address attributes : Word} {va : BitVec 32}
    (haddress : address.toNat = va.toNat / 2 ^ 21 * 2 ^ 21)
    (hattributes : (descBlock ||| descAf ||| attributes) &&& fieldMask 21 = 0#64) :
    PageWalk.leaf 21 (blockDescriptor address attributes) va =
      ⟨va.setWidth 64, PageWalk.attributes (descBlock ||| descAf ||| attributes)⟩ := by
  have hva := va.isLt
  have hfield : address &&& fieldMask 21 = address :=
    PageWalk.and_fieldMask (by decide) (by rw [haddress]; exact Nat.dvd_mul_left _ _) (by omega)
  have houtput : PageWalk.outputAddress 21 (blockDescriptor address attributes) va =
      va.setWidth 64 := by
    rw [PageWalk.outputAddress, blockDescriptor_eq, PageWalk.encode_and_fieldMask hattributes, hfield]
    apply BitVec.eq_of_toNat_eq
    rw [BitVec.toNat_add, haddress, BitVec.toNat_ofNat, BitVec.toNat_setWidth]
    omega
  rw [PageWalk.leaf, houtput, blockDescriptor_eq,
    PageWalk.attributes_encode (by decide) (by decide)]

/-- The attributes of a device leave the address alone, and are those of device memory. -/
theorem deviceAttributes_spec :
    (descBlock ||| descAf ||| deviceAttributes) &&& fieldMask 21 = 0#64 ∧
      PageWalk.kind (descBlock ||| descAf ||| deviceAttributes) = .block ∧
      PageWalk.attributes (descBlock ||| descAf ||| deviceAttributes) = deviceMemory :=
  ⟨by decide, by decide, by decide⟩

/-- The attributes of RAM leave the address alone, and are those of normal memory. -/
theorem ramAttributes_spec :
    (descBlock ||| descAf ||| ramAttributes) &&& fieldMask 21 = 0#64 ∧
      PageWalk.kind (descBlock ||| descAf ||| ramAttributes) = .block ∧
      PageWalk.attributes (descBlock ||| descAf ||| ramAttributes) = normalMemory :=
  ⟨by decide, by decide, by decide⟩

/-! ### The walk -/

section Walk

variable {t : Tables} {mem : Memory}

/-- The walk goes from level 1 on at level 2. -/
theorem walk_table {table : Word} {va : BitVec 32} (h : PageWalk.IsTableAddress table)
    (hentry : mem (entryAddress t.level1Table (tableIndex 30 va)) = tableDescriptor table) :
    walk mem t.level1Table va = PageWalk.walkLevel2 mem table va := by
  obtain ⟨hkind, hnext, himpose⟩ := tableDescriptor_spec h
  simp only [walk, hentry, hkind, hnext, himpose]
  exact congrFun Option.map_id _

/-- The walk ends at level 2 in a block or in a fault. -/
theorem walkLevel2_block {table address attributes : Word} {va : BitVec 32}
    (hentry : mem (entryAddress table (tableIndex 21 va)) = blockDescriptor address attributes)
    (haddress : address.toNat = va.toNat / 2 ^ 21 * 2 ^ 21)
    (hattributes : (descBlock ||| descAf ||| attributes) &&& fieldMask 21 = 0#64)
    (hkind : PageWalk.kind (descBlock ||| descAf ||| attributes) = .block) :
    PageWalk.walkLevel2 mem table va =
      some ⟨va.setWidth 64, PageWalk.attributes (descBlock ||| descAf ||| attributes)⟩ := by
  have hkind' : PageWalk.kind (blockDescriptor address attributes) = .block := by
    rw [blockDescriptor_eq, PageWalk.kind_encode (by decide) (by decide)]
    exact hkind
  simp only [PageWalk.walkLevel2, hentry, hkind']
  rw [leaf_blockDescriptor haddress hattributes]

theorem walkLevel2_zero {table : Word} {va : BitVec 32}
    (hentry : mem (entryAddress table (tableIndex 21 va)) = 0) :
    PageWalk.walkLevel2 mem table va = none := by
  have hkind : PageWalk.kind (0 : Word) = .invalid := by decide
  simp only [PageWalk.walkLevel2, hentry, hkind]

theorem walk_zero {va : BitVec 32} (hentry : mem (entryAddress t.level1Table (tableIndex 30 va)) = 0) :
    walk mem t.level1Table va = none := by
  have hkind : PageWalk.kind (0 : Word) = .invalid := by decide
  simp only [walk, hentry, hkind]

theorem tableIndex_lt (n : ℕ) (va : BitVec 32) : tableIndex n va < 512 := Nat.mod_lt _ (by decide)

/-- The first gibibyte: **the blocks of the devices**. -/
theorem walkLevel2_device (h : IsTable mem t.deviceLevel2Table deviceEntries) {va : BitVec 32}
    (hva : va.toNat < 2 ^ 30) :
    PageWalk.walkLevel2 mem t.deviceLevel2Table va = identityMap va := by
  have hentry := h _ (tableIndex_lt 21 va)
  have hindex : tableIndex 21 va = va.toNat / 2 ^ 21 := Nat.mod_eq_of_lt (by omega)
  have hram : ¬ InRam va := by
    unfold InRam
    omega
  by_cases hgic : tableIndex 21 va = 64
  · have hblock : InBlock 0x08000000 va := by
      unfold InBlock
      omega
    have hgicEntry : deviceEntries (tableIndex 21 va) =
        blockDescriptor qemuGicBase deviceAttributes := by rw [hgic, deviceEntries_gic]
    have haddress : qemuGicBase.toNat = va.toNat / 2 ^ 21 * 2 ^ 21 := by
      rw [← hindex, hgic]
      rfl
    rw [identityMap, if_pos (Or.inl hblock), walkLevel2_block (hentry.trans hgicEntry) haddress
      deviceAttributes_spec.1 deviceAttributes_spec.2.1, deviceAttributes_spec.2.2]
  · by_cases huart : tableIndex 21 va = 72
    · have hblock : InBlock 0x09000000 va := by
        unfold InBlock
        omega
      have huartEntry : deviceEntries (tableIndex 21 va) =
          blockDescriptor qemuUartBase deviceAttributes := by rw [huart, deviceEntries_uart]
      have haddress : qemuUartBase.toNat = va.toNat / 2 ^ 21 * 2 ^ 21 := by
        rw [← hindex, huart]
        rfl
      rw [identityMap, if_pos (Or.inr hblock), walkLevel2_block (hentry.trans huartEntry) haddress
        deviceAttributes_spec.1 deviceAttributes_spec.2.1, deviceAttributes_spec.2.2]
    · have hdevice : ¬ (InBlock 0x08000000 va ∨ InBlock 0x09000000 va) := by
        unfold InBlock
        omega
      have hnoEntry : deviceEntries (tableIndex 21 va) = 0 := by
        rw [deviceEntries, Function.update_of_ne huart, Function.update_of_ne hgic]
      rw [hnoEntry] at hentry
      rw [identityMap, if_neg hdevice, if_neg hram, walkLevel2_zero hentry]

/-- The second gibibyte: **the blocks of RAM**. -/
theorem walkLevel2_ram (h : IsTable mem t.ramLevel2Table ramEntries) {va : BitVec 32}
    (hva : va.toNat / 2 ^ 30 = 1) :
    PageWalk.walkLevel2 mem t.ramLevel2Table va = identityMap va := by
  have hentry := h _ (tableIndex_lt 21 va)
  have hindex : tableIndex 21 va = va.toNat / 2 ^ 21 - 512 := by
    rw [tableIndex]
    omega
  have hdevice : ¬ (InBlock 0x08000000 va ∨ InBlock 0x09000000 va) := by
    unfold InBlock
    omega
  by_cases hlt : tableIndex 21 va < 64
  · have hram : InRam va := by
      unfold InRam
      omega
    have hblock := ramBlock_toNat (k := tableIndex 21 va) (by omega)
    rw [ramEntries, if_pos hlt] at hentry
    rw [identityMap, if_neg hdevice, if_pos hram, walkLevel2_block hentry (by omega)
      ramAttributes_spec.1 ramAttributes_spec.2.1, ramAttributes_spec.2.2]
  · have hram : ¬ InRam va := by
      unfold InRam
      omega
    rw [ramEntries, if_neg hlt] at hentry
    rw [identityMap, if_neg hdevice, if_neg hram, walkLevel2_zero hentry]

/-- The walk through tables with these contents is the identity map. -/
theorem walk_of_contents (hsep : t.Separate)
    (h : Contents t mem (level1Entries t) deviceEntries ramEntries) (va : BitVec 32) :
    walk mem t.level1Table va = identityMap va := by
  obtain ⟨hlevel1, hdevice, hram⟩ := h
  have hva := va.isLt
  have hentry := hlevel1 _ (tableIndex_lt 30 va)
  have hindex : tableIndex 30 va = va.toNat / 2 ^ 30 := Nat.mod_eq_of_lt (by omega)
  rcases Nat.lt_or_ge (va.toNat / 2 ^ 30) 2 with hlt | hge
  · rcases Nat.lt_or_ge (va.toNat / 2 ^ 30) 1 with hzero | hone
    · have hfirst : tableIndex 30 va = 0 := by omega
      have htable : level1Entries t (tableIndex 30 va) = tableDescriptor t.deviceLevel2Table := by
        rw [hfirst]
        rfl
      rw [walk_table hsep.device (hentry.trans htable)]
      exact walkLevel2_device hdevice (by omega)
    · have hsecond : tableIndex 30 va = 1 := by omega
      have htable : level1Entries t (tableIndex 30 va) = tableDescriptor t.ramLevel2Table := by
        rw [hsecond]
        rfl
      rw [walk_table hsep.ram (hentry.trans htable)]
      exact walkLevel2_ram hram (by omega)
  · -- the other half of the addresses has no table
    have hnoTable : level1Entries t (tableIndex 30 va) = 0 := by
      rw [level1Entries, Function.update_of_ne (by omega), Function.update_of_ne (by omega)]
    rw [walk_zero (hentry.trans hnoTable), identityMap, if_neg, if_neg]
    · unfold InRam
      omega
    · unfold InBlock
      omega

/-- **The walk through the tables as they are built is the identity map.** -/
theorem walk_build (hsep : t.Separate) (mem : Memory) (va : BitVec 32) :
    walk (buildTranslationTables t mem) t.level1Table va = identityMap va :=
  walk_of_contents hsep (contents_build hsep mem) va

end Walk

/-! ### Devices, RAM and the rest -/

theorem identityMap_device {va : BitVec 32} (h : InBlock 0x08000000 va ∨ InBlock 0x09000000 va) :
    identityMap va = some ⟨va.setWidth 64, deviceMemory⟩ := if_pos h

theorem identityMap_ram {va : BitVec 32} (h : InRam va) :
    identityMap va = some ⟨va.setWidth 64, normalMemory⟩ := by
  rw [identityMap, if_neg, if_pos h]
  unfold InBlock
  unfold InRam at h
  omega

/-- A word that is the address of something mapped is a 32-bit address. -/
theorem setWidth_setWidth_of_lt {a : Word} (h : a.toNat < 2 ^ 32) :
    (a.setWidth 32).toNat = a.toNat ∧ (a.setWidth 32).setWidth 64 = a := by
  have hlow : (a.setWidth 32).toNat = a.toNat := by
    rw [BitVec.toNat_setWidth]
    exact Nat.mod_eq_of_lt h
  refine ⟨hlow, BitVec.eq_of_toNat_eq ?_⟩
  rw [BitVec.toNat_setWidth, hlow]
  omega

/-- A page the allocator hands out lies in RAM. -/
theorem page_in_ram {kernelEnd page : Word} {s s' : PageAlloc.State} {out : Finset Word}
    (h : (PageAlloc.clients kernelEnd).Reachable ⟨s, out⟩)
    (hres : PageAlloc.pageAlloc s = (page, s')) (hne : page ≠ null) :
    0x40000000 ≤ page.toNat ∧ page.toNat + 4096 ≤ 0x48000000 := by
  obtain ⟨-, -, hreach⟩ := PageAlloc.reachable_alloc h hres hne
  obtain ⟨idle, P, hP, hheld⟩ := PageAlloc.reachable_pool hreach
  obtain ⟨-, hlow, hhigh⟩ := hP.isPage (Or.inr (hheld ▸ Finset.mem_insert_self page out))
  have hstart := hP.start.1
  rw [PageAlloc.qemuRamStart_toNat] at hstart
  rw [PageAlloc.qemuRamEnd_toNat] at hhigh
  omega

/-- **The tables are an exact identity map.**  Wherever the tables lie, and whatever was in memory
before they were built: the addresses in the blocks of the two devices translate to themselves as
device memory that cannot be executed, the addresses in RAM translate to themselves as normal memory
that only the kernel can execute, and the walk faults for every other address.  So every byte of every
page that `page_alloc` can return, and every register the drivers access, translates to itself with
the right type. -/
theorem translation_identity {t : Tables} (hsep : t.Separate) (mem : Memory) :
    (∀ va, InBlock 0x08000000 va ∨ InBlock 0x09000000 va →
      walk (buildTranslationTables t mem) t.level1Table va =
        some ⟨va.setWidth 64, ⟨0, true, true, true⟩⟩) ∧
    (∀ va, InRam va → walk (buildTranslationTables t mem) t.level1Table va =
      some ⟨va.setWidth 64, ⟨1, true, false, true⟩⟩) ∧
    (∀ va, ¬ InBlock 0x08000000 va → ¬ InBlock 0x09000000 va → ¬ InRam va →
      walk (buildTranslationTables t mem) t.level1Table va = none) ∧
    (∀ kernelEnd s out page s', (PageAlloc.clients kernelEnd).Reachable ⟨s, out⟩ →
      PageAlloc.pageAlloc s = (page, s') → page ≠ null → ∀ offset < 4096,
        walk (buildTranslationTables t mem) t.level1Table
          ((page + BitVec.ofNat 64 offset).setWidth 32) =
            some ⟨page + BitVec.ofNat 64 offset, normalMemory⟩) ∧
    (∀ interruptId : BitVec 32, interruptId.toNat < 1020 → ∀ a ∈ Gic.registers interruptId,
      walk (buildTranslationTables t mem) t.level1Table (a.setWidth 32) = some ⟨a, deviceMemory⟩) ∧
    ∀ a ∈ Uart.registers,
      walk (buildTranslationTables t mem) t.level1Table (a.setWidth 32) = some ⟨a, deviceMemory⟩ := by
  simp only [walk_build hsep]
  refine ⟨fun va h => identityMap_device h, fun va h => identityMap_ram h, ?_, ?_, ?_, ?_⟩
  · intro va hgic huart hram
    rw [identityMap, if_neg (not_or.2 ⟨hgic, huart⟩), if_neg hram]
  · intro kernelEnd s out page s' hreach hres hne offset hoffset
    obtain ⟨hlow, hhigh⟩ := page_in_ram hreach hres hne
    have hadd : (page + BitVec.ofNat 64 offset).toNat = page.toNat + offset := by
      rw [BitVec.toNat_add, BitVec.toNat_ofNat]
      omega
    obtain ⟨hnat, heq⟩ := setWidth_setWidth_of_lt (a := page + BitVec.ofNat 64 offset) (by omega)
    rw [identityMap_ram (by unfold InRam; omega), heq]
  · intro interruptId hid a ha
    obtain ⟨hlow, hhigh⟩ := Gic.mem_registers_toNat hid ha
    obtain ⟨hnat, heq⟩ := setWidth_setWidth_of_lt (a := a) (by omega)
    rw [identityMap_device (Or.inl (by unfold InBlock; omega)), heq]
  · intro a ha
    obtain ⟨hlow, hhigh⟩ := Uart.mem_registers_toNat ha
    obtain ⟨hnat, heq⟩ := setWidth_setWidth_of_lt (a := a) (by omega)
    rw [identityMap_device (Or.inr (by unfold InBlock; omega)), heq]

/-- Tables next to each other in the kernel's image: its entry point translates to itself. -/
theorem translation_identity_entry :
    walk (buildTranslationTables ⟨0x40090000#64, 0x40091000#64, 0x40092000#64⟩ fun _ => 0)
      0x40090000#64 0x40080000#32 = some ⟨0x40080000#64, ⟨1, true, false, true⟩⟩ := by
  have hsep : (⟨0x40090000#64, 0x40091000#64, 0x40092000#64⟩ : Tables).Separate :=
    ⟨by decide, by decide, by decide, by decide, by decide, by decide⟩
  exact (translation_identity hsep _).2.1 0x40080000#32 (by decide)

end Mmu

end MiniOs
