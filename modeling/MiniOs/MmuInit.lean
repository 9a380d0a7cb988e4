/-
**Switching on the MMU (`mmu_init` in `src/mmu.c`).**

The function refuses some states that a boot loader may leave, fills in the tables, composes two
control words and writes the system registers; a static variable remembers that it did.  Writes to
system registers take effect as written, and nobody else writes them.  Barriers and the invalidation
of the TLB, which change none of them, are left out.

Main definitions:

* `Mmu.SystemRegisters`, `Mmu.State` — the registers, the static variable and the memory;
* `Mmu.mmuInit`, `Mmu.mmuInits` — **a call, and several**;
* `Mmu.decodeTcr`, `Mmu.mairAttribute` — the control words, field by field.

Main results:

* `Mmu.decodeTcr_tcrValue` — the fields of `TCR_EL1`, for every range of addresses;
* `Mmu.mmuInit_of_accepts`, `Mmu.mmuInit_of_not_accepts` — **what a first call does**;
* `Mmu.mmu_init_all_or_nothing` — the first call, and all later ones.
-/

import MiniOs.Mmu

set_option relaxedAutoImplicit false
set_option autoImplicit false

namespace MiniOs

namespace Mmu

/-! ### Constants -/

/-- `MAIR_DEVICE_NGNRNE`. -/
def mairDeviceNgnrne : Word := 0x00#64

/-- `MAIR_NORMAL_WBWA`. -/
def mairNormalWbwa : Word := 0xff#64

/-- `SCTLR_M`. -/
def sctlrM : Word := 1#64 <<< 0

/-- `SCTLR_C`. -/
def sctlrC : Word := 1#64 <<< 2

/-- `SCTLR_I`. -/
def sctlrI : Word := 1#64 <<< 12

/-- `TCR_T0SZ_32`. -/
def tcrT0sz32 : Word := 32#64

/-- `TCR_IRGN0_WBWA`. -/
def tcrIrgn0Wbwa : Word := 1#64 <<< 8

/-- `TCR_ORGN0_WBWA`. -/
def tcrOrgn0Wbwa : Word := 1#64 <<< 10

/-- `TCR_SH0_INNER`. -/
def tcrSh0Inner : Word := 3#64 <<< 12

/-- `TCR_T1SZ_48`. -/
def tcrT1sz48 : Word := 16#64 <<< 16

/-- `TCR_EPD1`. -/
def tcrEpd1 : Word := 1#64 <<< 23

/-- `TCR_TG1_4K`. -/
def tcrTg14k : Word := 2#64 <<< 30

/-- `TCR_IPS_SHIFT`. -/
def tcrIpsShift : ℕ := 32

/-! ### State -/

/-- The system registers that the function reads or writes. -/
structure SystemRegisters where
  sctlrEl1 : Word
  ttbr0El1 : Word
  ttbr1El1 : Word
  mairEl1 : Word
  tcrEl1 : Word
  idAa64mmfr0El1 : Word

/-- The registers, the static variable `installed` and the memory with the tables. -/
structure State where
  regs : SystemRegisters
  installed : Bool
  mem : Memory

/-- Model of `mmu_enabled`. -/
def mmuEnabled (s : State) : Bool := s.regs.sctlrEl1 &&& sctlrM ≠ 0

/-- The word that `mmu_init` composes for `MAIR_EL1`. -/
def mairValue : Word := mairDeviceNgnrne <<< 0 ||| mairNormalWbwa <<< 8

/-- The terms that `mmu_init` composes the word for `TCR_EL1` from. -/
def tcrTerms (physicalAddressRange : Word) : List Word :=
  [tcrT0sz32, tcrIrgn0Wbwa, tcrOrgn0Wbwa, tcrSh0Inner, tcrT1sz48, tcrEpd1, tcrTg14k,
    physicalAddressRange <<< tcrIpsShift]

/-- The word for `TCR_EL1`. -/
def tcrValue (physicalAddressRange : Word) : Word :=
  tcrT0sz32 ||| tcrIrgn0Wbwa ||| tcrOrgn0Wbwa ||| tcrSh0Inner ||| tcrT1sz48 ||| tcrEpd1 |||
    tcrTg14k ||| physicalAddressRange <<< tcrIpsShift

/-- The end of `mmu_init`: the writes to the system registers, and the answer. -/
def install (t : Tables) (sctlr physicalAddressRange : Word) (s : State) : Bool × State :=
  let s := { s with regs := { s.regs with
    mairEl1 := mairValue
    tcrEl1 := tcrValue physicalAddressRange
    ttbr0El1 := t.level1Table
    ttbr1El1 := 0 } }
  let s := { s with regs := { s.regs with sctlrEl1 := sctlr ||| sctlrM } }
  let s := { s with installed := mmuEnabled s }
  (s.installed, s)

/-- Model of `mmu_init`: whether it returns a value other than 0, and the state afterwards. -/
def mmuInit (t : Tables) (s : State) : Bool × State :=
  let sctlr := s.regs.sctlrEl1
  if sctlr &&& sctlrM ≠ 0 then
    (s.installed && s.regs.ttbr0El1 &&& ~~~0xfff#64 = t.level1Table &&& ~~~0xfff#64, s)
  else if sctlr &&& (sctlrC ||| sctlrI) ≠ 0 then (false, s)
  else
    let s := { s with mem := buildTranslationTables t s.mem }
    let physicalAddressRange := s.regs.idAa64mmfr0El1 &&& 0xf#64
    if physicalAddressRange = 6 then install t sctlr 5 s
    -- the tables are built by now, but no register was written
    else if 6 < physicalAddressRange then (false, s)
    else install t sctlr physicalAddressRange s

/-- The state after several calls. -/
def mmuInits (t : Tables) : ℕ → State → State
  | 0, s => s
  | n + 1, s => (mmuInit t (mmuInits t n s)).2

/-! ### The control words -/

/-- The fields of `TCR_EL1`. -/
structure TcrFields where
  t0sz : ℕ
  irgn0 : ℕ
  orgn0 : ℕ
  sh0 : ℕ
  tg0 : ℕ
  t1sz : ℕ
  epd1 : ℕ
  tg1 : ℕ
  ips : ℕ
  deriving DecidableEq

/-- The field of a word from a bit on. -/
def field (value : Word) (start length : ℕ) : ℕ := (value.extractLsb' start length).toNat

/-- How the hardware reads `TCR_EL1`. -/
def decodeTcr (tcr : Word) : TcrFields where
  t0sz := field tcr 0 6
  irgn0 := field tcr 8 2
  orgn0 := field tcr 10 2
  sh0 := field tcr 12 2
  tg0 := field tcr 14 2
  t1sz := field tcr 16 6
  epd1 := field tcr 23 1
  tg1 := field tcr 30 2
  ips := field tcr 32 3

/-- The attributes of an index in `MAIR_EL1`. -/
def mairAttribute (mair : Word) (index : ℕ) : ℕ := field mair (8 * index) 8

/-- `PARange` of `ID_AA64MMFR0_EL1`. -/
def paRange (idAa64mmfr0El1 : Word) : ℕ := field idAa64mmfr0El1 0 4

/-- **The fields of `TCR_EL1`**, for every range of addresses that the descriptors allow: the terms
do not overlap. -/
theorem decodeTcr_tcrValue {ips : ℕ} (h : ips ≤ 5) :
    decodeTcr (tcrValue (BitVec.ofNat 64 ips)) = ⟨32, 1, 1, 3, 0, 16, 1, 2, ips⟩ ∧
      (tcrTerms (BitVec.ofNat 64 ips)).Pairwise fun a b => a &&& b = 0 := by
  have hall : ∀ ips ≤ 5,
      decodeTcr (tcrValue (BitVec.ofNat 64 ips)) = ⟨32, 1, 1, 3, 0, 16, 1, 2, ips⟩ ∧
        (tcrTerms (BitVec.ofNat 64 ips)).Pairwise fun a b => a &&& b = 0 := by decide
  exact hall ips h

theorem mairAttribute_mairValue :
    mairAttribute mairValue 0 = 0x00 ∧ mairAttribute mairValue 1 = 0xff := by decide

/-- `PARange` is what is left under the mask. -/
theorem and_mask_eq (value : Word) : value &&& 0xf#64 = BitVec.ofNat 64 (paRange value) := by
  apply BitVec.eq_of_toNat_eq
  have hmask : (0xf#64).toNat = 2 ^ 4 - 1 := rfl
  have hlt := (value.extractLsb' 0 4).isLt
  rw [BitVec.toNat_and, hmask, Nat.and_two_pow_sub_one_eq_mod, BitVec.toNat_ofNat, paRange, field,
    Nat.mod_eq_of_lt (Nat.lt_trans hlt (by decide))]
  rfl

theorem paRange_lt (value : Word) : paRange value < 16 := (value.extractLsb' 0 4).isLt

/-- The tests of the function on `PARange`. -/
theorem paRange_tests (value : Word) :
    (BitVec.ofNat 64 (paRange value) = 6 ↔ paRange value = 6) ∧
      (6 < BitVec.ofNat 64 (paRange value) ↔ 6 < paRange value) := by
  have hvalue : (BitVec.ofNat 64 (paRange value)).toNat = paRange value := by
    rw [BitVec.toNat_ofNat]
    exact Nat.mod_eq_of_lt (Nat.lt_trans (paRange_lt value) (by decide))
  constructor
  · rw [← BitVec.toNat_inj, hvalue]
    rfl
  · rw [BitVec.lt_def, hvalue]
    rfl

/-! ### A call -/

section Calls

variable {t : Tables} {s : State}

/-- The boot states that the function accepts: neither the MMU nor a cache is on, and the range of
addresses is known. -/
def Accepts (regs : SystemRegisters) : Prop :=
  regs.sctlrEl1.getLsbD 0 = false ∧ regs.sctlrEl1.getLsbD 2 = false ∧
    regs.sctlrEl1.getLsbD 12 = false ∧ paRange regs.idAa64mmfr0El1 ≤ 6

/-- Testing one bit. -/
theorem and_bit_eq_zero_iff (value : Word) {k : ℕ} (hk : k < 64) :
    value &&& 1#64 <<< k = 0 ↔ value.getLsbD k = false := by
  rw [← BitVec.twoPow_eq, BitVec.and_twoPow]
  have hne : BitVec.twoPow 64 k ≠ 0 := by
    intro h
    have hbit := congrArg (·.getLsbD k) h
    simp [hk] at hbit
  cases value.getLsbD k with
  | false => exact iff_of_true rfl rfl
  | true => exact iff_of_false hne (by simp)

theorem or_eq_zero_iff (a b : Word) : a ||| b = 0 ↔ a = 0 ∧ b = 0 := by
  constructor
  · intro h
    have hbits : ∀ i, a.getLsbD i = false ∧ b.getLsbD i = false := by
      intro i
      have hbit := congrArg (·.getLsbD i) h
      simpa using hbit
    exact ⟨BitVec.eq_of_getLsbD_eq fun i _ => by rw [(hbits i).1]; exact BitVec.getLsbD_zero.symm,
      BitVec.eq_of_getLsbD_eq fun i _ => by rw [(hbits i).2]; exact BitVec.getLsbD_zero.symm⟩
  · rintro ⟨rfl, rfl⟩
    exact BitVec.or_zero

/-- The tests of the function on `SCTLR_EL1`. -/
theorem sctlr_tests (sctlr : Word) :
    (sctlr &&& sctlrM = 0 ↔ sctlr.getLsbD 0 = false) ∧
      (sctlr &&& (sctlrC ||| sctlrI) = 0 ↔
        sctlr.getLsbD 2 = false ∧ sctlr.getLsbD 12 = false) := by
  refine ⟨and_bit_eq_zero_iff sctlr (by decide), ?_⟩
  rw [BitVec.and_or_distrib_left, or_eq_zero_iff]
  exact and_congr (and_bit_eq_zero_iff sctlr (by decide)) (and_bit_eq_zero_iff sctlr (by decide))

/-- The registers after a call that has installed the tables. -/
def installedRegisters (t : Tables) (regs : SystemRegisters) : SystemRegisters where
  sctlrEl1 := regs.sctlrEl1 ||| sctlrM
  ttbr0El1 := t.level1Table
  ttbr1El1 := 0
  mairEl1 := mairValue
  tcrEl1 := tcrValue (BitVec.ofNat 64 (min (paRange regs.idAa64mmfr0El1) 5))
  idAa64mmfr0El1 := regs.idAa64mmfr0El1

/-- Setting the bit M leaves the other bits alone. -/
theorem getLsbD_or_sctlrM (sctlr : Word) (i : ℕ) :
    (sctlr ||| sctlrM).getLsbD i = (sctlr.getLsbD i || decide (i = 0)) := by
  have htwoPow : sctlrM = BitVec.twoPow 64 0 := rfl
  rw [BitVec.getLsbD_or, htwoPow, BitVec.getLsbD_twoPow]
  congr 1
  by_cases hi : i = 0
  · simp [hi]
  · simp [hi, Ne.symm hi]

theorem or_sctlrM_and (sctlr : Word) : (sctlr ||| sctlrM) &&& sctlrM ≠ 0 := by
  intro h
  have hbit := (sctlr_tests _).1.1 h
  rw [getLsbD_or_sctlrM] at hbit
  simp at hbit

theorem install_eq (sctlr physicalAddressRange : Word) :
    install t sctlr physicalAddressRange s = (true, {
      regs := { s.regs with
        sctlrEl1 := sctlr ||| sctlrM
        ttbr0El1 := t.level1Table
        ttbr1El1 := 0
        mairEl1 := mairValue
        tcrEl1 := tcrValue physicalAddressRange }
      installed := true
      mem := s.mem }) := by
  have henabled : decide ((sctlr ||| sctlrM) &&& sctlrM ≠ 0) = true :=
    decide_eq_true (or_sctlrM_and sctlr)
  simp only [install, mmuEnabled, henabled]

/-- **A call in a state that it accepts** writes everything. -/
theorem mmuInit_of_accepts (h : Accepts s.regs) :
    mmuInit t s = (true, ⟨installedRegisters t s.regs, true, buildTranslationTables t s.mem⟩) := by
  obtain ⟨hm, hc, hi, hrange⟩ := h
  obtain ⟨hmTest, hcachesTest⟩ := sctlr_tests s.regs.sctlrEl1
  rw [mmuInit, if_neg (not_not.2 (hmTest.2 hm)), if_neg (not_not.2 (hcachesTest.2 ⟨hc, hi⟩))]
  simp only [and_mask_eq, install_eq]
  obtain ⟨hsix, hover⟩ := paRange_tests s.regs.idAa64mmfr0El1
  rcases Nat.eq_or_lt_of_le hrange with h6 | hlt
  · rw [if_pos (hsix.2 h6), installedRegisters, h6]
    rfl
  · rw [if_neg fun heq => hlt.ne (hsix.1 heq), if_neg fun hgt => Nat.not_lt.2 hrange (hover.1 hgt),
      installedRegisters, Nat.min_eq_left (Nat.le_of_lt_succ hlt)]

/-- **A call in any other state** writes no register, unless tables were installed before. -/
theorem mmuInit_of_not_accepts (h : ¬ Accepts s.regs) (hfresh : s.installed = false) :
    (mmuInit t s).1 = false ∧ (mmuInit t s).2.regs = s.regs ∧
      (mmuInit t s).2.installed = false := by
  obtain ⟨hmTest, hcachesTest⟩ := sctlr_tests s.regs.sctlrEl1
  by_cases hm : s.regs.sctlrEl1 &&& sctlrM = 0
  · by_cases hcaches : s.regs.sctlrEl1 &&& (sctlrC ||| sctlrI) = 0
    · obtain ⟨hc, hi⟩ := hcachesTest.1 hcaches
      have hlarge : 6 < paRange s.regs.idAa64mmfr0El1 :=
        Nat.not_le.1 fun hrange => h ⟨hmTest.1 hm, hc, hi, hrange⟩
      obtain ⟨hsix, hover⟩ := paRange_tests s.regs.idAa64mmfr0El1
      have hne : ¬ BitVec.ofNat 64 (paRange s.regs.idAa64mmfr0El1) = 6 := fun heq =>
        hlarge.ne (hsix.1 heq).symm
      rw [mmuInit, if_neg (not_not.2 hm), if_neg (not_not.2 hcaches)]
      simp only [and_mask_eq, if_neg hne, if_pos (hover.2 hlarge)]
      exact ⟨trivial, trivial, hfresh⟩
    · rw [mmuInit, if_neg (not_not.2 hm), if_pos hcaches]
      exact ⟨rfl, rfl, hfresh⟩
  · rw [mmuInit, if_pos hm, hfresh]
    exact ⟨rfl, rfl, rfl⟩

/-- A call after one that has installed the tables changes nothing. -/
theorem mmuInit_again {regs : SystemRegisters} {mem : Memory} :
    mmuInit t ⟨installedRegisters t regs, true, mem⟩ =
      (true, ⟨installedRegisters t regs, true, mem⟩) := by
  have hm : (installedRegisters t regs).sctlrEl1 &&& sctlrM ≠ 0 := or_sctlrM_and _
  rw [mmuInit, if_pos hm]
  simp [installedRegisters]

theorem mmuInits_installed {regs : SystemRegisters} {mem : Memory} (n : ℕ) :
    mmuInits t n ⟨installedRegisters t regs, true, mem⟩ =
      ⟨installedRegisters t regs, true, mem⟩ := by
  induction n with
  | zero => rfl
  | succ n ih => rw [mmuInits, ih, mmuInit_again]

/-- Calls in a state that is not accepted write no register, however many they are. -/
theorem mmuInits_of_not_accepts (h : ¬ Accepts s.regs) (hfresh : s.installed = false) (n : ℕ) :
    (mmuInits t n s).regs = s.regs ∧ (mmuInits t n s).installed = false := by
  induction n with
  | zero => exact ⟨rfl, hfresh⟩
  | succ n ih =>
      obtain ⟨hregs, hinstalled⟩ := ih
      obtain ⟨-, hregs', hinstalled'⟩ :=
        mmuInit_of_not_accepts (t := t) (hregs.symm ▸ h) hinstalled
      exact ⟨hregs'.trans hregs, hinstalled'⟩

end Calls

/-- **All or nothing, and repeatable.**  Whatever the registers hold at boot: the first call returns
a value other than 0 just when neither the MMU nor a cache was on and `PARange` is at most 6.  Then
only the bit M of `SCTLR_EL1` has changed there, the tables are in `TTBR0_EL1`, the control words
have the fields that they should have, and no later call changes anything.  Otherwise no register
has changed, and all later calls return 0 and change none. -/
theorem mmu_init_all_or_nothing (t : Tables) {s : State} (hboot : s.installed = false) :
    let r := mmuInit t s
    (r.1 = true ↔ s.regs.sctlrEl1.getLsbD 0 = false ∧ s.regs.sctlrEl1.getLsbD 2 = false ∧
      s.regs.sctlrEl1.getLsbD 12 = false ∧ paRange s.regs.idAa64mmfr0El1 ≤ 6) ∧
    (r.1 = false → r.2.regs = s.regs ∧ ∀ n,
      (mmuInit t (mmuInits t n r.2)).1 = false ∧ (mmuInits t n r.2).regs = s.regs) ∧
    (r.1 = true →
      (r.2.regs.sctlrEl1.getLsbD 0 = true ∧
        ∀ i, i ≠ 0 → r.2.regs.sctlrEl1.getLsbD i = s.regs.sctlrEl1.getLsbD i) ∧
      r.2.regs.ttbr0El1 = t.level1Table ∧ r.2.mem = buildTranslationTables t s.mem ∧
      mairAttribute r.2.regs.mairEl1 0 = 0x00 ∧ mairAttribute r.2.regs.mairEl1 1 = 0xff ∧
      decodeTcr r.2.regs.tcrEl1 =
        ⟨32, 1, 1, 3, 0, 16, 1, 2, min (paRange s.regs.idAa64mmfr0El1) 5⟩ ∧
      ((tcrTerms (BitVec.ofNat 64 (min (paRange s.regs.idAa64mmfr0El1) 5))).Pairwise
        fun a b => a &&& b = 0) ∧
      r.2.regs.idAa64mmfr0El1 = s.regs.idAa64mmfr0El1 ∧
      ∀ n, mmuInit t (mmuInits t n r.2) = (true, r.2)) := by
  dsimp only
  by_cases h : Accepts s.regs
  · have hr := mmuInit_of_accepts (t := t) h
    have hle : min (paRange s.regs.idAa64mmfr0El1) 5 ≤ 5 := Nat.min_le_right _ _
    obtain ⟨hfields, hdisjoint⟩ := decodeTcr_tcrValue hle
    obtain ⟨hdevice, hnormal⟩ := mairAttribute_mairValue
    rw [hr]
    refine ⟨iff_of_true rfl h, fun hfalse => Bool.noConfusion hfalse, fun _ => ?_⟩
    refine ⟨⟨?_, fun i hi => ?_⟩, rfl, rfl, hdevice, hnormal, hfields, hdisjoint, rfl, fun n => ?_⟩
    · exact (getLsbD_or_sctlrM _ 0).trans (Bool.or_true _)
    · refine (getLsbD_or_sctlrM _ i).trans ?_
      rw [decide_eq_false hi, Bool.or_false]
    · rw [mmuInits_installed, mmuInit_again]
  · obtain ⟨hfalse, hregs, hinstalled⟩ := mmuInit_of_not_accepts (t := t) h hboot
    rw [hfalse]
    refine ⟨iff_of_false (by decide) h, fun _ => ⟨hregs, fun n => ?_⟩,
      fun htrue => Bool.noConfusion htrue⟩
    have hagain : ¬ Accepts (mmuInit t s).2.regs := hregs.symm ▸ h
    obtain ⟨hregs', hinstalled'⟩ := mmuInits_of_not_accepts (t := t) hagain hinstalled n
    exact ⟨(mmuInit_of_not_accepts (hregs'.symm ▸ hagain) hinstalled').1, hregs'.trans hregs⟩

/-- A boot with everything off and 40-bit addresses. -/
theorem mmu_init_all_or_nothing_off :
    (⟨⟨0, 0, 0, 0, 0, 2⟩, false, fun _ => 0⟩ : State).installed = false ∧
      (mmuInit ⟨0x40200000#64, 0x40201000#64, 0x40202000#64⟩
        ⟨⟨0, 0, 0, 0, 0, 2⟩, false, fun _ => 0⟩).1 = true :=
  ⟨rfl, (mmu_init_all_or_nothing ⟨0x40200000#64, 0x40201000#64, 0x40202000#64⟩ rfl).1.2
    (by decide)⟩

end Mmu

end MiniOs
