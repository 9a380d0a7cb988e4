/-
**Where the drivers find their devices (`src/gic.c`, `src/uart.c`).**

The registers of the interrupt controller and of the UART are accessed at fixed addresses, some of
which depend on the number of an interrupt.

Main definitions:

* `Gic.gicdRegister`, `Gic.giccRegister` — the registers of the distributor and of the CPU interface;
* `Gic.registers` — the addresses the functions of `src/gic.c` form;
* `Uart.registers` — those of `src/uart.c`.

Main results:

* `Gic.mem_registers_toNat`, `Uart.mem_registers_toNat` — where they all lie.
-/

import MiniOs.Machine

set_option relaxedAutoImplicit false
set_option autoImplicit false

namespace MiniOs

namespace Gic

/-! ### The interrupt controller -/

/-- `GICD_BASE`. -/
def gicdBase : Word := 0x08000000#64

/-- `GICC_BASE`. -/
def giccBase : Word := 0x08010000#64

/-- Model of `gicd_register`. -/
def gicdRegister (offset : Word) : Word := gicdBase + offset

/-- Model of `gicc_register`. -/
def giccRegister (offset : Word) : Word := giccBase + offset

/-- `GICD_CTLR`. -/
def gicdCtlr : Word := 0x000#64

/-- `GICD_ISENABLER`. -/
def gicdIsenabler : Word := 0x100#64

/-- `GICD_ICENABLER`. -/
def gicdIcenabler : Word := 0x180#64

/-- `GICD_ICPENDR`. -/
def gicdIcpendr : Word := 0x280#64

/-- `GICD_IPRIORITYR`. -/
def gicdIpriorityr : Word := 0x400#64

/-- `GICD_ITARGETSR`. -/
def gicdItargetsr : Word := 0x800#64

/-- `GICD_ICFGR`. -/
def gicdIcfgr : Word := 0xc00#64

/-- `GICC_CTLR`. -/
def giccCtlr : Word := 0x000#64

/-- `GICC_PMR`. -/
def giccPmr : Word := 0x004#64

/-- `GICC_BPR`. -/
def giccBpr : Word := 0x008#64

/-- `GICC_IAR`. -/
def giccIar : Word := 0x00c#64

/-- `GICC_EOIR`. -/
def giccEoir : Word := 0x010#64

/-- The registers `gic_init` writes. -/
def gicInitRegisters : List Word :=
  [gicdRegister gicdCtlr, giccRegister giccCtlr, giccRegister giccPmr, giccRegister giccBpr]

/-- The registers `gic_enable_interrupt` accesses for an interrupt. -/
def gicEnableInterruptRegisters (interruptId : BitVec 32) : List Word :=
  let registerIndex := (interruptId / 32).setWidth 64
  let configIndex := (interruptId / 16).setWidth 64
  [gicdRegister (gicdIcenabler + registerIndex * 4), gicdRegister (gicdIcpendr + registerIndex * 4)] ++
  (if 16 ≤ interruptId then [gicdRegister (gicdIcfgr + configIndex * 4)] else []) ++
  (if 32 ≤ interruptId then [gicdBase + gicdItargetsr + interruptId.setWidth 64] else []) ++
  [gicdBase + gicdIpriorityr + interruptId.setWidth 64,
    gicdRegister (gicdIsenabler + registerIndex * 4)]

/-- The registers `gic_acknowledge_interrupt` and `gic_end_interrupt` access. -/
def gicServiceRegisters : List Word := [giccRegister giccIar, giccRegister giccEoir]

/-- All the addresses the functions of the file form; `interruptId` is the interrupt that is
enabled. -/
def registers (interruptId : BitVec 32) : List Word :=
  gicInitRegisters ++ gicEnableInterruptRegisters interruptId ++ gicServiceRegisters

theorem gicdRegister_toNat {offset : Word} (h : offset.toNat < 0x1000) :
    (gicdRegister offset).toNat = 0x08000000 + offset.toNat := by
  have hbase : gicdBase.toNat = 0x08000000 := rfl
  rw [gicdRegister, BitVec.toNat_add, hbase]
  omega

/-- The offset of the word that belongs to an interrupt, exactly. -/
theorem wordOffset_eq (interruptId n : BitVec 32) (array : Word) (harray : array.toNat ≤ 0xc00) :
    (array + (interruptId / n).setWidth 64 * 4).toNat =
      array.toNat + 4 * (interruptId.toNat / n.toNat) := by
  have hdiv : interruptId.toNat / n.toNat ≤ interruptId.toNat := Nat.div_le_self _ _
  have hlt := interruptId.isLt
  have hfour : (4 : Word).toNat = 4 := rfl
  rw [BitVec.toNat_add, BitVec.toNat_mul, BitVec.toNat_setWidth, BitVec.toNat_udiv, hfour]
  generalize interruptId.toNat / n.toNat = index at hdiv
  omega

/-- The offset of the word that belongs to an interrupt, in an array of registers. -/
theorem wordOffset_toNat {interruptId : BitVec 32} (hid : interruptId.toNat < 1020) {n : BitVec 32}
    (hn : 16 ≤ n.toNat) {array : Word} (harray : array.toNat ≤ 0xc00) :
    (array + (interruptId / n).setWidth 64 * 4).toNat < 0x1000 := by
  have hdiv : interruptId.toNat / n.toNat ≤ interruptId.toNat / 16 :=
    Nat.div_le_div_left hn (by decide)
  rw [wordOffset_eq interruptId n array harray]
  generalize interruptId.toNat / n.toNat = index at hdiv
  omega

/-- The offset of the byte that belongs to an interrupt, in an array of registers. -/
theorem byteOffset_toNat {interruptId : BitVec 32} (hid : interruptId.toNat < 1020) {array : Word}
    (harray : array.toNat ≤ 0x800) : (array + interruptId.setWidth 64).toNat < 0x1000 := by
  rw [BitVec.toNat_add, BitVec.toNat_setWidth]
  omega

/-- The registers of an interrupt lie in the first four kibibytes of the distributor. -/
theorem enableRegisters_eq {interruptId : BitVec 32} (hid : interruptId.toNat < 1020) {a : Word}
    (ha : a ∈ gicEnableInterruptRegisters interruptId) :
    ∃ offset : Word, offset.toNat < 0x1000 ∧ a = gicdRegister offset := by
  simp only [gicEnableInterruptRegisters, List.mem_append, List.mem_cons, List.not_mem_nil,
    or_false] at ha
  rcases ha with (((rfl | rfl) | ha) | ha) | rfl | rfl
  · exact ⟨_, wordOffset_toNat hid (by decide) (by decide), rfl⟩
  · exact ⟨_, wordOffset_toNat hid (by decide) (by decide), rfl⟩
  · split at ha
    · obtain rfl := List.mem_singleton.1 ha
      exact ⟨_, wordOffset_toNat hid (by decide) (by decide), rfl⟩
    · exact absurd ha List.not_mem_nil
  · split at ha
    · obtain rfl := List.mem_singleton.1 ha
      exact ⟨_, byteOffset_toNat hid (by decide), BitVec.add_assoc _ _ _⟩
    · exact absurd ha List.not_mem_nil
  · exact ⟨_, byteOffset_toNat hid (by decide), BitVec.add_assoc _ _ _⟩
  · exact ⟨_, wordOffset_toNat hid (by decide) (by decide), rfl⟩

/-- The registers of the controller lie in the two mebibytes from `GICD_BASE` on. -/
theorem mem_registers_toNat {interruptId : BitVec 32} (hid : interruptId.toNat < 1020) {a : Word}
    (ha : a ∈ registers interruptId) : 0x08000000 ≤ a.toNat ∧ a.toNat < 0x08200000 := by
  simp only [registers, List.mem_append] at ha
  rcases ha with (ha | ha) | ha
  · simp only [gicInitRegisters, List.mem_cons, List.not_mem_nil, or_false] at ha
    rcases ha with rfl | rfl | rfl | rfl
    · exact ⟨by decide, by decide⟩
    · exact ⟨by decide, by decide⟩
    · exact ⟨by decide, by decide⟩
    · exact ⟨by decide, by decide⟩
  · obtain ⟨offset, hlt, rfl⟩ := enableRegisters_eq hid ha
    rw [gicdRegister_toNat hlt]
    omega
  · simp only [gicServiceRegisters, List.mem_cons, List.not_mem_nil, or_false] at ha
    rcases ha with rfl | rfl
    · exact ⟨by decide, by decide⟩
    · exact ⟨by decide, by decide⟩

end Gic

namespace Uart

/-! ### The UART -/

/-- `UART0_BASE`. -/
def uart0Base : Word := 0x09000000#64

/-- The offsets of `UART_DR`, `UART_RSR_ECR`, `UART_FR`, `UART_IBRD`, `UART_FBRD`, `UART_LCR_H`,
`UART_CR`, `UART_IFLS`, `UART_IMSC`, `UART_MIS` and `UART_ICR`. -/
def registerOffsets : List Word :=
  [0x00, 0x04, 0x18, 0x24, 0x28, 0x2c, 0x30, 0x34, 0x38, 0x40, 0x44]

/-- The addresses the functions of the file form. -/
def registers : List Word := registerOffsets.map fun offset => uart0Base + offset

/-- The registers of the UART lie in the two mebibytes from `UART0_BASE` on. -/
theorem mem_registers_toNat {a : Word} (ha : a ∈ registers) :
    0x09000000 ≤ a.toNat ∧ a.toNat < 0x09200000 := by
  obtain ⟨offset, hoffset, rfl⟩ := List.mem_map.1 ha
  have hall : ∀ offset ∈ registerOffsets, offset.toNat ≤ 0x44 := by simp [registerOffsets]
  have hle := hall offset hoffset
  have hbase : uart0Base.toNat = 0x09000000 := rfl
  rw [BitVec.toNat_add, hbase]
  omega

end Uart

end MiniOs
