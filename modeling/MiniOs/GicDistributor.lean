/-
**Enabling an interrupt (`gic_enable_interrupt` of `src/gic.c`).**

The distributor of the interrupt controller keeps five fields for each interrupt: whether it is
enabled, whether it is pending, its configuration, its priority and its target.  They are packed
into arrays of registers with 32, 16 or one interrupt to a register.  `gic_enable_interrupt` finds
its way from the number of an interrupt to the registers and the bits in them by divisions,
remainders and shifts.

The registers are modelled as GICv2 describes them: writing to a set-enable, clear-enable or
clear-pending register acts on the bits written as one, and the configuration, priority and target
registers can be read and written.  An access goes to an address, and an address that is none of
these registers' is not modelled.  The barrier at the end of the function orders the accesses and
changes no register.

Main definitions:

* `Gic.Distributor` — the registers;
* `Gic.write32`, `Gic.read32`, `Gic.write8` — accesses of a word and of a byte;
* `Gic.gicEnableInterrupt` — the function, with the states between its writes;
* `Gic.Interrupt`, `Gic.Distributor.interrupt` — **what the distributor keeps for one interrupt**.

Main results:

* `Gic.gicEnableInterrupt_spec` — the function **updates the fields of one interrupt**;
* `Gic.enable_frames_others` — so it disturbs no other, and enabling different interrupts gives the
  same state in any order.
-/

import MiniOs.PackedFields
import MiniOs.Registers

set_option relaxedAutoImplicit false
set_option autoImplicit false

namespace MiniOs

namespace Gic

open PackedFields

/-! ### The registers of the distributor -/

/-- The registers of the distributor, array by array. -/
@[ext] structure Distributor where
  /-- The enable bits, 32 to a word. -/
  enabled : ℕ → BitVec 32
  /-- The pending bits, 32 to a word. -/
  pending : ℕ → BitVec 32
  /-- `GICD_ICFGR`: two bits for each interrupt, 16 to a word. -/
  config : ℕ → BitVec 32
  /-- `GICD_IPRIORITYR`: a byte for each interrupt. -/
  priority : ℕ → Byte
  /-- `GICD_ITARGETSR`: a byte for each interrupt, with one bit for each CPU. -/
  target : ℕ → Byte

/-- The registers that are accessed as words, with their index. -/
inductive WordRegister
  | isenabler (index : ℕ)
  | icenabler (index : ℕ)
  | icpendr (index : ℕ)
  | icfgr (index : ℕ)

/-- The registers that are accessed as bytes, with their index. -/
inductive ByteRegister
  | ipriorityr (index : ℕ)
  | itargetsr (index : ℕ)

/-- The register a word at the address is in. -/
def wordRegister (a : Word) : Option WordRegister :=
  let offset := (a - gicdBase).toNat
  if offset % 4 ≠ 0 then none
  else if 0x100 ≤ offset ∧ offset < 0x180 then some (WordRegister.isenabler ((offset - 0x100) / 4))
  else if 0x180 ≤ offset ∧ offset < 0x200 then some (WordRegister.icenabler ((offset - 0x180) / 4))
  else if 0x280 ≤ offset ∧ offset < 0x300 then some (WordRegister.icpendr ((offset - 0x280) / 4))
  else if 0xc00 ≤ offset ∧ offset < 0xd00 then some (WordRegister.icfgr ((offset - 0xc00) / 4))
  else none

/-- The register a byte at the address is in; there is one for each of the 1020 interrupts. -/
def byteRegister (a : Word) : Option ByteRegister :=
  let offset := (a - gicdBase).toNat
  if 0x400 ≤ offset ∧ offset < 0x400 + 1020 then some (ByteRegister.ipriorityr (offset - 0x400))
  else if 0x800 ≤ offset ∧ offset < 0x800 + 1020 then some (ByteRegister.itargetsr (offset - 0x800))
  else none

/-- Writing a word to a register: the set and clear registers act on the bits written as one. -/
def Distributor.writeWord (d : Distributor) (value : BitVec 32) : WordRegister → Distributor
  | WordRegister.isenabler i =>
      { d with enabled := Function.update d.enabled i (d.enabled i ||| value) }
  | WordRegister.icenabler i =>
      { d with enabled := Function.update d.enabled i (d.enabled i &&& ~~~value) }
  | WordRegister.icpendr i =>
      { d with pending := Function.update d.pending i (d.pending i &&& ~~~value) }
  | WordRegister.icfgr i => { d with config := Function.update d.config i value }

/-- Reading a word from a register. -/
def Distributor.readWord (d : Distributor) : WordRegister → BitVec 32
  | WordRegister.isenabler i => d.enabled i
  | WordRegister.icenabler i => d.enabled i
  | WordRegister.icpendr i => d.pending i
  | WordRegister.icfgr i => d.config i

/-- Writing a byte to a register. -/
def Distributor.writeByte (d : Distributor) (value : Byte) : ByteRegister → Distributor
  | ByteRegister.ipriorityr i => { d with priority := Function.update d.priority i value }
  | ByteRegister.itargetsr i => { d with target := Function.update d.target i value }

/-- Writing a word to an address. -/
def write32 (a : Word) (value : BitVec 32) (d : Distributor) : Option Distributor :=
  (wordRegister a).map fun register => d.writeWord value register

/-- Reading a word from an address. -/
def read32 (a : Word) (d : Distributor) : Option (BitVec 32) :=
  (wordRegister a).map fun register => d.readWord register

/-- Writing a byte to an address. -/
def write8 (a : Word) (value : Byte) (d : Distributor) : Option Distributor :=
  (byteRegister a).map fun register => d.writeByte value register

/-- Model of `gic_enable_interrupt`.  It returns the states after each of its writes but the last,
in order, and the state at the end; where a write is left out the state is listed again.  It is
`none` when an access goes to none of the registers. -/
def gicEnableInterrupt (interruptId : BitVec 32) (priority : Byte) (d : Distributor) :
    Option (List Distributor × Distributor) := do
  let priorityRegister := gicdBase + gicdIpriorityr + interruptId.setWidth 64
  let registerIndex := interruptId / 32
  let bit := interruptId % 32
  let d₁ ← write32 (gicdRegister (gicdIcenabler + registerIndex.setWidth 64 * 4)) (1#32 <<< bit) d
  let d₂ ← write32 (gicdRegister (gicdIcpendr + registerIndex.setWidth 64 * 4)) (1#32 <<< bit) d₁
  let d₃ ←
    if 16 ≤ interruptId then do
      let configIndex := interruptId / 16
      let configShift := interruptId % 16 * 2
      let configRegister := gicdRegister (gicdIcfgr + configIndex.setWidth 64 * 4)
      let config ← read32 configRegister d₂
      write32 configRegister (config &&& ~~~(3#32 <<< configShift)) d₂
    else pure d₂
  let d₄ ←
    if 32 ≤ interruptId then
      write8 (gicdBase + gicdItargetsr + interruptId.setWidth 64) 1 d₃
    else pure d₃
  let d₅ ← write8 priorityRegister priority d₄
  let d₆ ← write32 (gicdRegister (gicdIsenabler + registerIndex.setWidth 64 * 4)) (1#32 <<< bit) d₅
  return ([d₁, d₂, d₃, d₄, d₅], d₆)

/-! ### Addresses -/

theorem gicdRegister_sub (offset : Word) : gicdRegister offset - gicdBase = offset := by
  rw [gicdRegister, BitVec.add_comm, BitVec.add_sub_cancel]

section Decode

variable {interruptId : BitVec 32}

/-- The index of a word in an array of registers, from its offset. -/
theorem wordIndex_eq (array index : ℕ) : (array + 4 * index - array) / 4 = index := by
  omega

/-- The arrays of registers that are accessed as words: the offset, the number of interrupts to a word, and
the registers. -/
def wordArrays : List (Word × BitVec 32 × (ℕ → WordRegister)) :=
  [(gicdIsenabler, 32#32, WordRegister.isenabler), (gicdIcenabler, 32#32, WordRegister.icenabler),
    (gicdIcpendr, 32#32, WordRegister.icpendr), (gicdIcfgr, 16#32, WordRegister.icfgr)]

/-- **The word at the address the code computes is the one with the field of the interrupt.** -/
theorem wordRegister_eq (hid : interruptId.toNat < 1020) {array : Word} {each : BitVec 32}
    {register : ℕ → WordRegister} (h : (array, each, register) ∈ wordArrays) :
    wordRegister (gicdRegister (array + (interruptId / each).setWidth 64 * 4)) =
      some (register (interruptId.toNat / each.toNat)) := by
  simp only [wordArrays, List.mem_cons, List.not_mem_nil, or_false, Prod.mk.injEq] at h
  have hoffset : (array + (interruptId / each).setWidth 64 * 4).toNat =
      array.toNat + 4 * (interruptId.toNat / each.toNat) := by
    refine wordOffset_eq interruptId each array ?_
    rcases h with ⟨rfl, -⟩ | ⟨rfl, -⟩ | ⟨rfl, -⟩ | ⟨rfl, -⟩ <;> decide
  have hisenabler : gicdIsenabler.toNat = 0x100 := rfl
  have hicenabler : gicdIcenabler.toNat = 0x180 := rfl
  have hicpendr : gicdIcpendr.toNat = 0x280 := rfl
  have hicfgr : gicdIcfgr.toNat = 0xc00 := rfl
  have htwo : (32#32).toNat = 32 := rfl
  have hone : (16#32).toNat = 16 := rfl
  simp only [wordRegister, gicdRegister_sub, hoffset]
  -- the arrays before the one at the offset are passed over
  rcases h with ⟨rfl, rfl, rfl⟩ | ⟨rfl, rfl, rfl⟩ | ⟨rfl, rfl, rfl⟩ | ⟨rfl, rfl, rfl⟩
  · rw [hisenabler, htwo, if_neg (by omega), if_pos (by omega), wordIndex_eq]
  · rw [hicenabler, htwo, if_neg (by omega), if_neg (by omega), if_pos (by omega), wordIndex_eq]
  · rw [hicpendr, htwo, if_neg (by omega), if_neg (by omega), if_neg (by omega), if_pos (by omega),
      wordIndex_eq]
  · rw [hicfgr, hone, if_neg (by omega), if_neg (by omega), if_neg (by omega), if_neg (by omega),
      if_pos (by omega), wordIndex_eq]

theorem wordRegister_isenabler (hid : interruptId.toNat < 1020) :
    wordRegister (gicdRegister (gicdIsenabler + (interruptId / 32).setWidth 64 * 4)) =
      some (WordRegister.isenabler (interruptId.toNat / 32)) :=
  wordRegister_eq hid (by simp [wordArrays])

theorem wordRegister_icenabler (hid : interruptId.toNat < 1020) :
    wordRegister (gicdRegister (gicdIcenabler + (interruptId / 32).setWidth 64 * 4)) =
      some (WordRegister.icenabler (interruptId.toNat / 32)) :=
  wordRegister_eq hid (by simp [wordArrays])

theorem wordRegister_icpendr (hid : interruptId.toNat < 1020) :
    wordRegister (gicdRegister (gicdIcpendr + (interruptId / 32).setWidth 64 * 4)) =
      some (WordRegister.icpendr (interruptId.toNat / 32)) :=
  wordRegister_eq hid (by simp [wordArrays])

theorem wordRegister_icfgr (hid : interruptId.toNat < 1020) :
    wordRegister (gicdRegister (gicdIcfgr + (interruptId / 16).setWidth 64 * 4)) =
      some (WordRegister.icfgr (interruptId.toNat / 16)) :=
  wordRegister_eq hid (by simp [wordArrays])

/-- The offset of the byte that belongs to an interrupt, exactly. -/
theorem byteOffset_eq (hid : interruptId.toNat < 1020) (array : Word)
    (harray : array.toNat ≤ 0x800) :
    (gicdBase + array + interruptId.setWidth 64 - gicdBase).toNat =
      array.toNat + interruptId.toNat := by
  rw [BitVec.add_assoc, ← gicdRegister, gicdRegister_sub, BitVec.toNat_add, BitVec.toNat_setWidth]
  omega

theorem byteRegister_ipriorityr (hid : interruptId.toNat < 1020) :
    byteRegister (gicdBase + gicdIpriorityr + interruptId.setWidth 64) =
      some (ByteRegister.ipriorityr interruptId.toNat) := by
  have hoffset : (gicdBase + gicdIpriorityr + interruptId.setWidth 64 - gicdBase).toNat =
      0x400 + interruptId.toNat := byteOffset_eq hid gicdIpriorityr (by decide)
  simp only [byteRegister, hoffset]
  rw [if_pos (by omega), Nat.add_sub_cancel_left]

theorem byteRegister_itargetsr (hid : interruptId.toNat < 1020) :
    byteRegister (gicdBase + gicdItargetsr + interruptId.setWidth 64) =
      some (ByteRegister.itargetsr interruptId.toNat) := by
  have hoffset : (gicdBase + gicdItargetsr + interruptId.setWidth 64 - gicdBase).toNat =
      0x800 + interruptId.toNat := byteOffset_eq hid gicdItargetsr (by decide)
  simp only [byteRegister, hoffset]
  rw [if_neg (by omega), if_pos (by omega), Nat.add_sub_cancel_left]

end Decode

/-! ### Masks -/

/-- The bit of an interrupt in its word. -/
theorem bit_eq_mask (interruptId : BitVec 32) :
    1#32 <<< (interruptId % 32) = mask 32 1 (interruptId.toNat % 32) := by
  have hone : (BitVec.allOnes 1).setWidth 32 = 1#32 := by decide
  have hpos : (interruptId % 32).toNat = interruptId.toNat % 32 := rfl
  rw [mask, hone, BitVec.shiftLeft_eq', hpos, Nat.one_mul]

/-- The configuration bits of an interrupt in their word. -/
theorem config_eq_mask (interruptId : BitVec 32) :
    3#32 <<< (interruptId % 16 * 2) = mask 32 2 (interruptId.toNat % 16) := by
  have hthree : (BitVec.allOnes 2).setWidth 32 = 3#32 := by decide
  have hpos : (interruptId % 16 * 2).toNat = 2 * (interruptId.toNat % 16) := by
    have hmod : (interruptId % 16).toNat = interruptId.toNat % 16 := rfl
    have htwo : (2 : BitVec 32).toNat = 2 := rfl
    rw [BitVec.toNat_mul, hmod, htwo]
    omega
  rw [mask, hthree, BitVec.shiftLeft_eq', hpos]

/-! ### What the distributor keeps for one interrupt -/

/-- **What the distributor keeps for one interrupt.** -/
@[ext] structure Interrupt where
  /-- One when the interrupt is enabled. -/
  enabled : BitVec 1
  /-- One when the interrupt is pending. -/
  pending : BitVec 1
  /-- Zero when the interrupt is level-triggered; the upper bit makes it edge-triggered. -/
  config : BitVec 2
  priority : Byte
  /-- One bit for each CPU that gets the interrupt. -/
  target : Byte

/-- The fields of an interrupt, unpacked. -/
def Distributor.interrupt (d : Distributor) (i : ℕ) : Interrupt where
  enabled := entry 32 1 d.enabled i
  pending := entry 32 1 d.pending i
  config := entry 16 2 d.config i
  priority := d.priority i
  target := d.target i

/-- The fields of all the interrupts determine the registers. -/
theorem Distributor.eq_of_interrupt_eq {d e : Distributor} (h : d.interrupt = e.interrupt) :
    d = e := by
  have hfield : ∀ {α : Type} (f : Interrupt → α) i, f (d.interrupt i) = f (e.interrupt i) :=
    fun f i => congrArg f (congrFun h i)
  ext1
  · exact eq_of_entry_eq (n := 32) (b := 1) rfl (funext (hfield Interrupt.enabled))
  · exact eq_of_entry_eq (n := 32) (b := 1) rfl (funext (hfield Interrupt.pending))
  · exact eq_of_entry_eq (n := 16) (b := 2) rfl (funext (hfield Interrupt.config))
  · exact funext (hfield Interrupt.priority)
  · exact funext (hfield Interrupt.target)

/-! ### One write -/

section Write

variable {interruptId : BitVec 32} {d : Distributor}

/-- A state differs from another in one interrupt, when each of its arrays does. -/
theorem interrupt_eq_update {e : Distributor} {i : ℕ} {x : Interrupt}
    (henabled : entry 32 1 e.enabled = Function.update (entry 32 1 d.enabled) i x.enabled)
    (hpending : entry 32 1 e.pending = Function.update (entry 32 1 d.pending) i x.pending)
    (hconfig : entry 16 2 e.config = Function.update (entry 16 2 d.config) i x.config)
    (hpriority : e.priority = Function.update d.priority i x.priority)
    (htarget : e.target = Function.update d.target i x.target) :
    e.interrupt = Function.update d.interrupt i x := by
  funext j
  by_cases hj : j = i
  · simp [Distributor.interrupt, hj, henabled, hpending, hconfig, hpriority, htarget]
  · simp [Distributor.interrupt, hj, henabled, hpending, hconfig, hpriority, htarget]

/-- Writing the bit of an interrupt to its clear-enable register disables it. -/
theorem write_icenabler (hid : interruptId.toNat < 1020) (d : Distributor) :
    ∃ e, write32 (gicdRegister (gicdIcenabler + (interruptId / 32).setWidth 64 * 4))
        (1#32 <<< (interruptId % 32)) d = some e ∧
      e.interrupt = Function.update d.interrupt interruptId.toNat
        { d.interrupt interruptId.toNat with enabled := 0 } := by
  refine ⟨_, by rw [write32, wordRegister_icenabler hid, Option.map_some], ?_⟩
  refine interrupt_eq_update (entry_update fun j => ?_) (Function.update_eq_self _ _).symm
    (Function.update_eq_self _ _).symm (Function.update_eq_self _ _).symm
    (Function.update_eq_self _ _).symm
  rw [bit_eq_mask, field_and_not_mask]

/-- Writing it to the clear-pending register clears its pending bit. -/
theorem write_icpendr (hid : interruptId.toNat < 1020) (d : Distributor) :
    ∃ e, write32 (gicdRegister (gicdIcpendr + (interruptId / 32).setWidth 64 * 4))
        (1#32 <<< (interruptId % 32)) d = some e ∧
      e.interrupt = Function.update d.interrupt interruptId.toNat
        { d.interrupt interruptId.toNat with pending := 0 } := by
  refine ⟨_, by rw [write32, wordRegister_icpendr hid, Option.map_some], ?_⟩
  refine interrupt_eq_update (Function.update_eq_self _ _).symm (entry_update fun j => ?_)
    (Function.update_eq_self _ _).symm (Function.update_eq_self _ _).symm
    (Function.update_eq_self _ _).symm
  rw [bit_eq_mask, field_and_not_mask]

/-- Writing it to the set-enable register enables it. -/
theorem write_isenabler (hid : interruptId.toNat < 1020) (d : Distributor) :
    ∃ e, write32 (gicdRegister (gicdIsenabler + (interruptId / 32).setWidth 64 * 4))
        (1#32 <<< (interruptId % 32)) d = some e ∧
      e.interrupt = Function.update d.interrupt interruptId.toNat
        { d.interrupt interruptId.toNat with enabled := 1 } := by
  refine ⟨_, by rw [write32, wordRegister_isenabler hid, Option.map_some], ?_⟩
  refine interrupt_eq_update (entry_update fun j => ?_) (Function.update_eq_self _ _).symm
    (Function.update_eq_self _ _).symm (Function.update_eq_self _ _).symm
    (Function.update_eq_self _ _).symm
  rw [bit_eq_mask, field_or_mask (by omega)]
  rfl

/-- Reading a configuration word and writing it back without the bits of an interrupt clears its
configuration. -/
theorem write_icfgr (hid : interruptId.toNat < 1020) (d : Distributor) :
    ∃ config e,
      read32 (gicdRegister (gicdIcfgr + (interruptId / 16).setWidth 64 * 4)) d = some config ∧
      write32 (gicdRegister (gicdIcfgr + (interruptId / 16).setWidth 64 * 4))
        (config &&& ~~~(3#32 <<< (interruptId % 16 * 2))) d = some e ∧
      e.interrupt = Function.update d.interrupt interruptId.toNat
        { d.interrupt interruptId.toNat with config := 0 } := by
  refine ⟨d.config (interruptId.toNat / 16), d.writeWord (d.config (interruptId.toNat / 16) &&&
    ~~~(3#32 <<< (interruptId % 16 * 2))) (WordRegister.icfgr (interruptId.toNat / 16)), ?_, ?_, ?_⟩
  · rw [read32, wordRegister_icfgr hid, Option.map_some]
    rfl
  · rw [write32, wordRegister_icfgr hid, Option.map_some]
  · refine interrupt_eq_update (Function.update_eq_self _ _).symm
      (Function.update_eq_self _ _).symm (entry_update fun j => ?_)
      (Function.update_eq_self _ _).symm (Function.update_eq_self _ _).symm
    rw [config_eq_mask, field_and_not_mask]

/-- Writing its priority register sets its priority. -/
theorem write_ipriorityr (hid : interruptId.toNat < 1020) (priority : Byte) (d : Distributor) :
    ∃ e, write8 (gicdBase + gicdIpriorityr + interruptId.setWidth 64) priority d = some e ∧
      e.interrupt = Function.update d.interrupt interruptId.toNat
        { d.interrupt interruptId.toNat with priority := priority } := by
  refine ⟨_, by rw [write8, byteRegister_ipriorityr hid, Option.map_some], ?_⟩
  exact interrupt_eq_update (Function.update_eq_self _ _).symm (Function.update_eq_self _ _).symm
    (Function.update_eq_self _ _).symm rfl (Function.update_eq_self _ _).symm

/-- Writing its target register sets its target. -/
theorem write_itargetsr (hid : interruptId.toNat < 1020) (target : Byte) (d : Distributor) :
    ∃ e, write8 (gicdBase + gicdItargetsr + interruptId.setWidth 64) target d = some e ∧
      e.interrupt = Function.update d.interrupt interruptId.toNat
        { d.interrupt interruptId.toNat with target := target } := by
  refine ⟨_, by rw [write8, byteRegister_itargetsr hid, Option.map_some], ?_⟩
  exact interrupt_eq_update (Function.update_eq_self _ _).symm (Function.update_eq_self _ _).symm
    (Function.update_eq_self _ _).symm (Function.update_eq_self _ _).symm rfl

end Write

/-! ### The whole function -/

/-- What enabling an interrupt makes of its fields.  An interrupt below 32 belongs to one CPU, and
its target is left alone. -/
def Interrupt.enable (interruptId : ℕ) (priority : Byte) (x : Interrupt) : Interrupt where
  enabled := 1
  pending := 0
  config := 0
  priority := priority
  target := if 32 ≤ interruptId then 1 else x.target

section Enable

variable {interruptId : BitVec 32}

/-- The write that is left out for the interrupts of one CPU. -/
theorem write_itargetsr_of_le (hid : interruptId.toNat < 1020) (d : Distributor) :
    ∃ e, (if 32 ≤ interruptId then
        write8 (gicdBase + gicdItargetsr + interruptId.setWidth 64) 1 d else pure d) = some e ∧
      e.interrupt = Function.update d.interrupt interruptId.toNat
        { d.interrupt interruptId.toNat with
          target := if 32 ≤ interruptId.toNat then 1 else (d.interrupt interruptId.toNat).target } := by
  have hiff : 32 ≤ interruptId ↔ 32 ≤ interruptId.toNat := BitVec.le_def
  by_cases h : 32 ≤ interruptId.toNat
  · obtain ⟨e, hwrite, hview⟩ := write_itargetsr hid 1 d
    exact ⟨e, by rw [if_pos (hiff.2 h), hwrite], by rw [hview, if_pos h]⟩
  · refine ⟨d, by rw [if_neg (mt hiff.1 h)]; rfl, ?_⟩
    rw [if_neg h]
    exact (Function.update_eq_self _ _).symm

/-- **`gic_enable_interrupt` updates the fields of one interrupt**, and that one is disabled between
its first and its last write. -/
theorem gicEnableInterrupt_spec (hlo : 16 ≤ interruptId.toNat) (hhi : interruptId.toNat < 1020)
    (priority : Byte) (d : Distributor) :
    ∃ between e, gicEnableInterrupt interruptId priority d = some (between, e) ∧
      e.interrupt = Function.update d.interrupt interruptId.toNat
        ((d.interrupt interruptId.toNat).enable interruptId.toNat priority) ∧
      ∀ c ∈ between, ∃ x : Interrupt, x.enabled = 0 ∧
        c.interrupt = Function.update d.interrupt interruptId.toNat x := by
  have hppi : 16 ≤ interruptId := BitVec.le_def.2 hlo
  -- each write starts from the fields the one before has left
  obtain ⟨d₁, h₁, hview₁⟩ := write_icenabler hhi d
  obtain ⟨d₂, h₂, hview₂⟩ := write_icpendr hhi d₁
  rw [hview₁, Function.update_self, Function.update_idem] at hview₂
  obtain ⟨config, d₃, hread, h₃, hview₃⟩ := write_icfgr hhi d₂
  rw [hview₂, Function.update_self, Function.update_idem] at hview₃
  obtain ⟨d₄, h₄, hview₄⟩ := write_itargetsr_of_le hhi d₃
  rw [hview₃, Function.update_self, Function.update_idem] at hview₄
  obtain ⟨d₅, h₅, hview₅⟩ := write_ipriorityr hhi priority d₄
  rw [hview₄, Function.update_self, Function.update_idem] at hview₅
  obtain ⟨d₆, h₆, hview₆⟩ := write_isenabler hhi d₅
  rw [hview₅, Function.update_self, Function.update_idem] at hview₆
  refine ⟨[d₁, d₂, d₃, d₄, d₅], d₆, ?_, hview₆, ?_⟩
  · by_cases hspi : 32 ≤ interruptId
    · rw [if_pos hspi] at h₄
      simp only [gicEnableInterrupt, h₁, h₂, if_pos hppi, hread, h₃, if_pos hspi, h₄, h₅, h₆,
        Option.bind_eq_bind, Option.bind_some, Option.pure_def]
    · rw [if_neg hspi] at h₄
      obtain rfl : d₃ = d₄ := Option.some_inj.1 h₄
      simp only [gicEnableInterrupt, h₁, h₂, if_pos hppi, hread, h₃, if_neg hspi, h₅, h₆,
        Option.bind_eq_bind, Option.bind_some, Option.pure_def]
  · rw [List.forall_mem_cons, List.forall_mem_cons, List.forall_mem_cons, List.forall_mem_cons,
      List.forall_mem_singleton]
    exact ⟨⟨_, rfl, hview₁⟩, ⟨_, rfl, hview₂⟩, ⟨_, rfl, hview₃⟩, ⟨_, rfl, hview₄⟩, ⟨_, rfl, hview₅⟩⟩

end Enable

/-! ### Several interrupts -/

/-- Enabling interrupts one after the other, each with its priority. -/
def enableAll : List (BitVec 32 × Byte) → Distributor → Option Distributor
  | [], d => some d
  | (interruptId, priority) :: l, d => do
      let (_, d) ← gicEnableInterrupt interruptId priority d
      enableAll l d

/-- What the fields become when interrupts are enabled one after the other. -/
def enableFields (l : List (BitVec 32 × Byte)) (view : ℕ → Interrupt) : ℕ → Interrupt :=
  l.foldl (fun view p => Function.update view p.1.toNat
    ((view p.1.toNat).enable p.1.toNat p.2)) view

theorem enableAll_spec {l : List (BitVec 32 × Byte)}
    (hl : ∀ p ∈ l, 16 ≤ p.1.toNat ∧ p.1.toNat < 1020) (d : Distributor) :
    ∃ e, enableAll l d = some e ∧ e.interrupt = enableFields l d.interrupt := by
  induction l generalizing d with
  | nil => exact ⟨d, rfl, rfl⟩
  | cons p l ih =>
      rw [List.forall_mem_cons] at hl
      obtain ⟨between, c, hcall, hview, -⟩ := gicEnableInterrupt_spec hl.1.1 hl.1.2 p.2 d
      obtain ⟨e, hrest, hview'⟩ := ih hl.2 c
      refine ⟨e, ?_, ?_⟩
      · rw [enableAll, hcall]
        exact hrest
      · rw [hview', hview]
        rfl

/-- **Enabling an interrupt disturbs no other.**  From every state of the distributor and for every
interrupt from 16 on, `gic_enable_interrupt` leaves the interrupt enabled, not pending,
level-triggered, with the given priority and, from 32 on, targeted at CPU 0 only; the fields of all
others are as before, after each of its writes; and the interrupt is not enabled before the last of
them.  So enabling different interrupts ends in the same state in any order. -/
theorem enable_frames_others (d : Distributor) :
    (∀ (interruptId : BitVec 32) (priority : Byte),
      16 ≤ interruptId.toNat → interruptId.toNat < 1020 →
      ∃ between e, gicEnableInterrupt interruptId priority d = some (between, e) ∧
        (e.interrupt interruptId.toNat).enabled = 1 ∧
        (e.interrupt interruptId.toNat).pending = 0 ∧
        (e.interrupt interruptId.toNat).config = 0 ∧
        (e.interrupt interruptId.toNat).priority = priority ∧
        (32 ≤ interruptId.toNat → (e.interrupt interruptId.toNat).target = 1) ∧
        (∀ i, i ≠ interruptId.toNat → e.interrupt i = d.interrupt i) ∧
        ∀ c ∈ between, (c.interrupt interruptId.toNat).enabled = 0 ∧
          ∀ i, i ≠ interruptId.toNat → c.interrupt i = d.interrupt i) ∧
    ∀ l l' : List (BitVec 32 × Byte), l.Perm l' → (l.map Prod.fst).Nodup →
      (∀ p ∈ l, 16 ≤ p.1.toNat ∧ p.1.toNat < 1020) →
      ∃ e, enableAll l d = some e ∧ enableAll l' d = some e := by
  refine ⟨?_, ?_⟩
  · intro interruptId priority hlo hhi
    obtain ⟨between, e, hcall, hview, hbetween⟩ := gicEnableInterrupt_spec hlo hhi priority d
    have hself : e.interrupt interruptId.toNat =
        (d.interrupt interruptId.toNat).enable interruptId.toNat priority := by
      rw [hview, Function.update_self]
    refine ⟨between, e, hcall, ?_⟩
    rw [hself]
    refine ⟨rfl, rfl, rfl, rfl, fun hspi => if_pos hspi, ?_, ?_⟩
    · intro i hi
      rw [hview, Function.update_of_ne hi]
    · intro c hc
      obtain ⟨x, hx, hview'⟩ := hbetween c hc
      rw [hview', Function.update_self]
      exact ⟨hx, fun i hi => Function.update_of_ne hi _ _⟩
  · intro l l' hperm hnd hl
    obtain ⟨e, he, hview⟩ := enableAll_spec hl d
    obtain ⟨e', he', hview'⟩ := enableAll_spec (fun p hp => hl p (hperm.mem_iff.2 hp)) d
    have hkeys : ((l.map Prod.fst).map BitVec.toNat).Nodup :=
      hnd.map fun _ _ => BitVec.eq_of_toNat_eq
    rw [List.map_map] at hkeys
    have hfields : enableFields l d.interrupt = enableFields l' d.interrupt :=
      foldl_update_perm (fun p : BitVec 32 × Byte => p.1.toNat)
        (fun p x => Interrupt.enable p.1.toNat p.2 x) hperm hkeys _
    have heq : e = e' := Distributor.eq_of_interrupt_eq (by rw [hview, hview', hfields])
    exact ⟨e, he, by rw [heq, he']⟩

/-- The timer and the UART, the two interrupts the kernel uses, in either order. -/
theorem enable_timer_and_uart :
    ∃ e, enableAll [(30#32, 0x80#8), (33#32, 0x80#8)]
        ⟨fun _ => 0, fun _ => 0, fun _ => 0, fun _ => 0, fun _ => 0⟩ = some e ∧
      enableAll [(33#32, 0x80#8), (30#32, 0x80#8)]
        ⟨fun _ => 0, fun _ => 0, fun _ => 0, fun _ => 0, fun _ => 0⟩ = some e :=
  (enable_frames_others _).2 _ _ (List.Perm.swap _ _ _) (by decide) (by simp)

end Gic

end MiniOs
