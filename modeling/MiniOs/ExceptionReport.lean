/-
**The report of an exception (`src/exception.c`, the vector table of `src/exception_vectors.S`).**

The processor takes an exception to one of sixteen addresses, by where it came from and what it is.
The vector table has a slot at each of them; the slots of interrupts branch to `irq_entry_common`, and
the others put their number into `x0` and call `exception_handle`, which prints a report and halts.
The report is all that is left of the system then, so it had better tell what has happened.

Main definitions:

* `Exception.Slot`, `Exception.vectorTable`, `Exception.slotAt` — the table, as it is assembled;
* `Exception.uartPutHex64`, `Exception.exceptionHandle` — **what is printed**.

Main results:

* `Exception.slotAt_entry` — the slots stand where the processor looks for them;
* `Exception.irq_routed` — an interrupt leads to `irq_entry_common`;
* `Exception.uartPutHex64_eq`, `Exception.hexValue_hexDigits` — numbers are printed in sixteen digits,
  and can be read back;
* `Exception.report_lines` — what stands on the lines of a report;
* `Exception.exception_reported` — **the report tells which exception it was, and its registers**.
-/

import MiniOs.Boot
import MiniOs.ExceptionVectors
import MiniOs.Positional
import MiniOs.ShellCommands

set_option relaxedAutoImplicit false
set_option autoImplicit false

namespace MiniOs

namespace Exception

open Shell (bytes)
open Vectors (Machine Instr Entry Reg)

/-! ### The vector table -/

/-- The macros of the table, with the number that a fatal one passes on. -/
inductive Slot
  | fatalSp0Vector (index : ℕ)
  | fatalVector (index : ℕ)
  | irqSp0Vector
  | irqVector

/-- The table at `exception_vectors`. -/
def vectorTable : List Slot :=
  [.fatalSp0Vector 0, .irqSp0Vector, .fatalSp0Vector 2, .fatalSp0Vector 3,
    .fatalVector 4, .irqVector, .fatalVector 6, .fatalVector 7,
    .fatalVector 8, .irqVector, .fatalVector 10, .fatalVector 11,
    .fatalVector 12, .irqVector, .fatalVector 14, .fatalVector 15]

theorem x0_lt : 0 < 31 := by decide

/-- The register of the first argument. -/
def x0 : Reg := ⟨0, x0_lt⟩

/-- The instructions on the way to `exception_handle`, but for the call. -/
inductive FatalInstr
  | shared (i : Instr)
  | movX0 (imm : ℕ)

/-- The effect of an instruction.  There is no call of `irq_handle` among them. -/
def FatalInstr.exec : FatalInstr → Machine → Machine
  | .shared i, m => i.exec 0#64 id m
  | .movX0 imm, m => m.setX x0 (BitVec.ofNat 64 imm)

/-- `exception_fatal_entry`, up to the call. -/
def exceptionFatalEntry : List FatalInstr := [.shared (.msrDaifset 0xf)]

/-- The code at a slot: that of an interrupt, or what leads to `exception_handle`. -/
def Slot.code : Slot → Entry ⊕ List FatalInstr
  | .fatalSp0Vector index => .inr [.shared .msrSpselSet, .movX0 index, .shared .b]
  | .fatalVector index => .inr [.movX0 index, .shared .b]
  | .irqSp0Vector => .inl .sp0
  | .irqVector => .inl .spx

/-- The instructions have four bytes. -/
def Slot.size (slot : Slot) : ℕ :=
  match slot.code with
  | .inl entry => 4 * entry.vector.length
  | .inr listing => 4 * listing.length

/-- The addresses where the slots begin; `.balign 0x80` ends each of them. -/
def place (address : ℕ) : List Slot → List ℕ
  | [] => []
  | slot :: slots => address :: place (Boot.align 0x80 (address + slot.size)) slots

/-- The slot that begins at an address, when the table is at `base`. -/
def slotAt (base address : Word) : Option Slot :=
  ((place base.toNat vectorTable).zip vectorTable).lookup address.toNat

/-! ### Taking an exception -/

/-- Where an exception comes from. -/
inductive Source
  | currentSp0
  | currentSpx
  | lowerA64
  | lowerA32
  deriving DecidableEq

/-- The kind of an exception. -/
inductive Kind
  | sync
  | irq
  | fiq
  | serror
  deriving DecidableEq

/-- The number of a source. -/
def Source.number : Source → ℕ
  | .currentSp0 => 0
  | .currentSpx => 1
  | .lowerA64 => 2
  | .lowerA32 => 3

/-- The number of a kind. -/
def Kind.number : Kind → ℕ
  | .sync => 0
  | .irq => 1
  | .fiq => 2
  | .serror => 3

/-- The number of the slot. -/
def slotNumber (source : Source) (kind : Kind) : ℕ := 4 * source.number + kind.number

theorem slotNumber_lt (source : Source) (kind : Kind) : slotNumber source kind < 16 := by
  cases source <;> cases kind <;> decide

theorem slotNumber_injective {source source' : Source} {kind kind' : Kind}
    (h : slotNumber source kind = slotNumber source' kind') : source = source' ∧ kind = kind' := by
  revert h
  cases source <;> cases kind <;> cases source' <;> cases kind' <;> decide

/-- The processor, at `m`, takes an exception when `VBAR_EL1` is `base`; then it is at `m'`. -/
structure Takes (base : Word) (source : Source) (kind : Kind) (returnAddress : Word)
    (m m' : Machine) : Prop where
  pc : m'.pc = base + BitVec.ofNat 64 (0x80 * slotNumber source kind)
  elr : m'.elrEl1 = returnAddress
  spsr : m'.spsrEl1 = m.pstate
  selects : m'.SelectsEl1

/-- The machine at the call of `exception_handle`, if that is where the slot leads to. -/
def fatalCall (base : Word) (m : Machine) : Option Machine := do
  let slot ← slotAt base m.pc
  match slot.code with
  | .inl _ => none
  | .inr listing => return (listing ++ exceptionFatalEntry).foldl (fun m i => i.exec m) m

/-! ### The place of the slots -/

theorem Slot.size_le (slot : Slot) : 0 < slot.size ∧ slot.size ≤ 0x80 := by
  cases slot <;> exact ⟨Nat.le_of_ble_eq_true rfl, Nat.le_of_ble_eq_true rfl⟩

/-- A slot of at most `0x80` bytes takes `0x80` bytes. -/
theorem align_slot {address : ℕ} (h : 0x80 ∣ address) (slot : Slot) :
    Boot.align 0x80 (address + slot.size) = address + 0x80 := by
  obtain ⟨hle, hlt, k, hk⟩ := Boot.align_spec (a := 0x80) (by decide) (address + slot.size)
  obtain ⟨hpos, hsize⟩ := slot.size_le
  obtain ⟨n, rfl⟩ := h
  omega

theorem place_eq {address : ℕ} (h : 0x80 ∣ address) (slots : List Slot) :
    place address slots = (List.range slots.length).map fun i => address + 0x80 * i := by
  induction slots generalizing address with
  | nil => rfl
  | cons slot slots ih =>
      rw [place, align_slot h, ih ((Nat.dvd_add_right h).2 (Nat.dvd_refl _)), List.length_cons,
        List.range_succ_eq_map, List.map_cons, List.map_map, Nat.mul_zero, Nat.add_zero]
      congr 1
      refine List.map_congr_left fun i _ => ?_
      rw [Function.comp_apply, Nat.mul_succ]
      omega

/-- Looking up where a number stands among numbers with a fixed distance. -/
theorem lookup_zip {α : Type} (address : ℕ) {l : List α} {i : ℕ} (hi : i < l.length) :
    (((List.range l.length).map fun i => address + 0x80 * i).zip l).lookup (address + 0x80 * i) =
      some l[i] := by
  induction l generalizing address i with
  | nil => exact absurd hi (Nat.not_lt_zero i)
  | cons a l ih =>
      rw [List.length_cons, List.range_succ_eq_map, List.map_cons, List.map_map, List.zip_cons_cons,
        Nat.mul_zero, Nat.add_zero]
      cases i with
      | zero => rw [Nat.mul_zero, Nat.add_zero, List.lookup_cons_self, List.getElem_cons_zero]
      | succ i =>
          have hne : (address + 0x80 * (i + 1) == address) = false := by
            rw [beq_eq_false_iff_ne]
            omega
          have hshift : (fun i => address + 0x80 * i) ∘ Nat.succ =
              fun i => (address + 0x80) + 0x80 * i := by
            funext j
            rw [Function.comp_apply, Nat.mul_succ]
            omega
          have haddr : address + 0x80 * (i + 1) = (address + 0x80) + 0x80 * i := by omega
          rw [List.lookup_cons, hne, hshift, haddr, List.getElem_cons_succ]
          exact ih (address + 0x80) (Nat.lt_of_succ_lt_succ hi)

/-- **The slots stand where the processor looks for them.** -/
theorem slotAt_entry {base : Word} (halign : 2 ^ 11 ∣ base.toNat) (source : Source) (kind : Kind) :
    slotAt base (base + BitVec.ofNat 64 (0x80 * slotNumber source kind)) =
      vectorTable[slotNumber source kind]? := by
  have hlt := slotNumber_lt source kind
  have hbase := base.isLt
  have hsum : (base + BitVec.ofNat 64 (0x80 * slotNumber source kind)).toNat =
      base.toNat + 0x80 * slotNumber source kind := by
    rw [BitVec.toNat_add, BitVec.toNat_ofNat]
    omega
  have hlen : slotNumber source kind < vectorTable.length := hlt
  have hslot : 0x80 ∣ base.toNat := Nat.dvd_trans (by decide) halign
  rw [slotAt, hsum, place_eq hslot, lookup_zip base.toNat hlen,
    List.getElem?_eq_getElem hlen]

/-! ### Hexadecimal numbers -/

/-- The table `digits` of `uart_put_hex64`. -/
def hexChars : List Byte := bytes "0123456789abcdef"

/-- The loop of `uart_put_hex64`: before a round, `shift` is four times what is left after it. -/
def putHexDigits (value : Word) : ℕ → Option (List Byte)
  | 0 => some []
  | rounds + 1 => do
      let c ← hexChars[((value >>> (4 * rounds)) &&& 0xf#64).toNat]?
      let rest ← putHexDigits value rounds
      return c :: rest

/-- `uart_puts` of a string literal. -/
def puts (text : String) : List Byte := Console.uartPuts (bytes text)

/-- Model of `uart_put_hex64`: what it sends. -/
def uartPutHex64 (value : Word) : Option (List Byte) := do
  let digits ← putHexDigits value 16
  return puts "0x" ++ digits

/-- The character of a digit. -/
def hexChar (d : ℕ) : Byte := hexChars.getD d 0

/-- The digits that are printed. -/
def hexDigits (value : Word) : List Byte := (Positional.fixed 16 value.toNat 16).map hexChar

theorem hexChar_eq {d : ℕ} (h : d < hexChars.length) : hexChar d = hexChars[d] := by
  rw [hexChar, List.getD_eq_getElem?_getD, List.getElem?_eq_getElem h, Option.getD_some]

/-- The value of some digits. -/
def hexValue (text : List Byte) : ℕ := Positional.value 16 (text.map fun c => hexChars.idxOf c)

theorem idxOf_hexChar {d : ℕ} (h : d < 16) : hexChars.idxOf (hexChar d) = d := by
  have hnodup : hexChars.Nodup := by decide
  have hlen : d < hexChars.length := h
  rw [hexChar_eq hlen]
  exact hnodup.idxOf_getElem d hlen

/-- **The digits can be read back.** -/
theorem hexValue_hexDigits (value : Word) : hexValue (hexDigits value) = value.toNat := by
  have hmap : ∀ d ∈ Positional.fixed 16 value.toNat 16,
      ((fun c => hexChars.idxOf c) ∘ hexChar) d = id d := fun d hd =>
    idxOf_hexChar (Positional.lt_of_mem_fixed (by decide) hd)
  rw [hexValue, hexDigits, List.map_map, List.map_congr_left hmap, List.map_id]
  exact Positional.value_fixed (Nat.lt_of_lt_of_le value.isLt (by decide))

theorem length_hexDigits (value : Word) : (hexDigits value).length = 16 := by
  rw [hexDigits, List.length_map, Positional.length_fixed]

/-- What `uart_put_hex64` prints. -/
def hexString (value : Word) : List Byte := puts "0x" ++ hexDigits value

theorem hexDigits_injective {v w : Word} (h : hexDigits v = hexDigits w) : v = w := by
  apply BitVec.eq_of_toNat_eq
  rw [← hexValue_hexDigits v, h, hexValue_hexDigits]

/-- A nibble of a word. -/
theorem toNat_nibble (value : Word) (k : ℕ) :
    ((value >>> (4 * k)) &&& 0xf#64).toNat = value.toNat / 16 ^ k % 16 := by
  have hpow : (16 : ℕ) ^ k = 2 ^ (4 * k) := by rw [Nat.pow_mul]
  rw [BitVec.toNat_and, BitVec.toNat_ushiftRight, Nat.shiftRight_eq_div_pow, hpow]
  exact Nat.and_two_pow_sub_one_eq_mod _ 4

theorem putHexDigits_eq (value : Word) (rounds : ℕ) : putHexDigits value rounds =
    some ((Positional.fixed 16 value.toNat rounds).map hexChar) := by
  induction rounds with
  | zero => rfl
  | succ k ih =>
      have hlt : value.toNat / 16 ^ k % 16 < hexChars.length := Nat.mod_lt _ (by decide)
      rw [putHexDigits, toNat_nibble, List.getElem?_eq_getElem hlt, ih, Positional.fixed,
        List.map_cons, hexChar_eq hlt]
      rfl

/-- **A number is printed in sixteen digits.** -/
theorem uartPutHex64_eq (value : Word) : uartPutHex64 value = some (hexString value) := by
  rw [uartPutHex64, putHexDigits_eq]
  rfl

/-! ### The report -/

/-- The registers that `exception_handle` reads. -/
structure Syndrome where
  esr : Word
  elr : Word
  far : Word
  spsr : Word

/-- The table `names` of `vector_name`. -/
def vectorNames : List String :=
  ["Synchronous, current EL with SP0",
    "IRQ, current EL with SP0",
    "FIQ, current EL with SP0",
    "SError, current EL with SP0",
    "Synchronous, current EL with SPx",
    "IRQ, current EL with SPx",
    "FIQ, current EL with SPx",
    "SError, current EL with SPx",
    "Synchronous, lower EL using AArch64",
    "IRQ, lower EL using AArch64",
    "FIQ, lower EL using AArch64",
    "SError, lower EL using AArch64",
    "Synchronous, lower EL using AArch32",
    "IRQ, lower EL using AArch32",
    "FIQ, lower EL using AArch32",
    "SError, lower EL using AArch32"]

/-- Model of `vector_name`. -/
def vectorName (vectorIndex : Word) : String :=
  if h : vectorIndex.toNat < vectorNames.length then vectorNames[vectorIndex.toNat]
  else "Unknown vector"

/-- Model of `exception_class_name`. -/
def exceptionClassName (exceptionClass : Word) : String :=
  if exceptionClass = 0x15#64 then "SVC instruction from AArch64"
  else if exceptionClass = 0x20#64 ∨ exceptionClass = 0x21#64 then "Instruction abort"
  else if exceptionClass = 0x24#64 ∨ exceptionClass = 0x25#64 then "Data abort"
  else if exceptionClass = 0x3c#64 then "BRK instruction"
  else "Unclassified or unsupported"

/-- The text that `exception_handle` prints, with the numbers as they are printed. -/
def reportText (vectorIndex exceptionClass : Word) (esr ec elr far spsr : List Byte) : List Byte :=
  puts "\n*** ARM64 EXCEPTION ***\n" ++ (puts "Vector:   " ++ (puts (vectorName vectorIndex) ++
    (puts "\nESR_EL1: " ++ (esr ++ (puts "\nEC:      " ++ (ec ++ (puts " (" ++
    (puts (exceptionClassName exceptionClass) ++ (puts ")\nELR_EL1: " ++ (elr ++
    (puts "\nFAR_EL1: " ++ (far ++ (puts "\nSPSR:    " ++ (spsr ++
    puts "\nSystem halted. Exit QEMU with Control-A, X.\n"))))))))))))))

/-- Model of `exception_handle`: what it prints before it halts. -/
def exceptionHandle (vectorIndex : Word) (r : Syndrome) : Option (List Byte) := do
  let exceptionClass := (r.esr >>> 26) &&& 0x3f#64
  let esr ← uartPutHex64 r.esr
  let ec ← uartPutHex64 exceptionClass
  let elr ← uartPutHex64 r.elr
  let far ← uartPutHex64 r.far
  let spsr ← uartPutHex64 r.spsr
  return reportText vectorIndex exceptionClass esr ec elr far spsr

/-! ### Reading the report -/

/-- What stands before a separator that it does not contain. -/
theorem append_separator {α : Type} {a : α} {l l' r r' : List α} (hl : a ∉ l) (hl' : a ∉ l')
    (h : l ++ a :: r = l' ++ a :: r') : l = l' ∧ r = r' := by
  induction l generalizing l' with
  | nil =>
      cases l' with
      | nil => exact ⟨rfl, (List.cons.inj h).2⟩
      | cons b l' => exact absurd (List.mem_cons.2 (Or.inl (List.cons.inj h).1)) hl'
  | cons b l ih =>
      cases l' with
      | nil => exact absurd (List.mem_cons.2 (Or.inl (List.cons.inj h).1.symm)) hl
      | cons b' l' =>
          obtain ⟨rfl, htail⟩ := List.cons.inj h
          rw [List.mem_cons, not_or] at hl hl'
          obtain ⟨rfl, hrest⟩ := ih hl.2 hl'.2 htail
          exact ⟨rfl, hrest⟩

/-- A number that is printed can be read back, whatever follows. -/
theorem append_number {v w : Word} {r r' : List Byte}
    (h : hexString v ++ r = hexString w ++ r') : v = w ∧ r = r' := by
  rw [hexString, hexString, List.append_assoc, List.append_assoc] at h
  have hrest := List.append_cancel_left h
  obtain ⟨hdigits, htail⟩ :=
    List.append_inj hrest (by rw [length_hexDigits, length_hexDigits])
  exact ⟨hexDigits_injective hdigits, htail⟩

/-- The names have no line breaks in them. -/
theorem carriageReturn_notMem_vectorName (vectorIndex : Word) :
    Console.carriageReturn ∉ puts (vectorName vectorIndex) := by
  rw [vectorName]
  split
  · rename_i h
    have hall : vectorNames.all fun name => !(puts name).contains Console.carriageReturn := by decide
    have hname := List.all_eq_true.1 hall _ (List.getElem_mem h)
    simpa using hname
  · decide

theorem vectorName_eq {i : ℕ} (h : i < vectorNames.length) :
    vectorName (BitVec.ofNat 64 i) = vectorNames[i] := by
  have hlen : vectorNames.length = 16 := rfl
  have hindex : (BitVec.ofNat 64 i).toNat = i := by
    rw [BitVec.toNat_ofNat]
    omega
  have hbound : (BitVec.ofNat 64 i).toNat < vectorNames.length := hindex.symm ▸ h
  rw [vectorName, dif_pos hbound]
  simp only [hindex]

/-- Different vectors have different names. -/
theorem vectorName_injective {i j : ℕ} (hi : i < vectorNames.length) (hj : j < vectorNames.length)
    (h : puts (vectorName (BitVec.ofNat 64 i)) = puts (vectorName (BitVec.ofNat 64 j))) : i = j := by
  have hnodup : (vectorNames.map puts).Nodup := by decide
  have hi' : i < (vectorNames.map puts).length := by rwa [List.length_map]
  have hj' : j < (vectorNames.map puts).length := by rwa [List.length_map]
  rw [vectorName_eq hi, vectorName_eq hj, ← List.getElem_map puts (h := hi'),
    ← List.getElem_map puts (h := hj')] at h
  exact hnodup.getElem_inj_iff.1 h

/-- What `exception_handle` prints. -/
def report (vectorIndex : Word) (r : Syndrome) : List Byte :=
  let exceptionClass := (r.esr >>> 26) &&& 0x3f#64
  reportText vectorIndex exceptionClass (hexString r.esr) (hexString exceptionClass)
    (hexString r.elr) (hexString r.far) (hexString r.spsr)

theorem exceptionHandle_eq (vectorIndex : Word) (r : Syndrome) :
    exceptionHandle vectorIndex r = some (report vectorIndex r) := by
  simp only [exceptionHandle, uartPutHex64_eq]
  rfl

/-- **No two reports are the same.** -/
theorem report_injective {i j : ℕ} (hi : i < vectorNames.length) (hj : j < vectorNames.length)
    {r r' : Syndrome} (h : report (BitVec.ofNat 64 i) r = report (BitVec.ofNat 64 j) r') :
    i = j ∧ r = r' := by
  obtain ⟨esr, elr, far, spsr⟩ := r
  obtain ⟨esr', elr', far', spsr'⟩ := r'
  have hname := List.append_cancel_left (List.append_cancel_left h)
  have hline : puts "\nESR_EL1: " = Console.carriageReturn :: bytes "\nESR_EL1: " := by decide
  rw [hline, List.cons_append, List.cons_append] at hname
  obtain ⟨hvector, hesr⟩ := append_separator (carriageReturn_notMem_vectorName _)
    (carriageReturn_notMem_vectorName _) hname
  obtain ⟨rfl, hec⟩ := append_number (List.append_cancel_left hesr)
  -- the class is told by `esr`
  have helr := List.append_cancel_left (List.append_cancel_left (List.append_cancel_left
    (List.append_cancel_left (List.append_cancel_left hec))))
  obtain ⟨rfl, hfar⟩ := append_number helr
  obtain ⟨rfl, hspsr⟩ := append_number (List.append_cancel_left hfar)
  obtain ⟨rfl, -⟩ := append_number (List.append_cancel_left hspsr)
  exact ⟨vectorName_injective hi hj hvector, rfl⟩

/-! ### What the lines say -/

/-- The words for a kind of exceptions. -/
def Kind.name : Kind → String
  | .sync => "Synchronous"
  | .irq => "IRQ"
  | .fiq => "FIQ"
  | .serror => "SError"

/-- The words for where an exception comes from. -/
def Source.name : Source → String
  | .currentSp0 => "current EL with SP0"
  | .currentSpx => "current EL with SPx"
  | .lowerA64 => "lower EL using AArch64"
  | .lowerA32 => "lower EL using AArch32"

/-- The names of `vector_name` stand in the order of the slots. -/
theorem vectorName_slotNumber (source : Source) (kind : Kind) :
    vectorName (BitVec.ofNat 64 (slotNumber source kind)) = kind.name ++ ", " ++ source.name := by
  cases source <;> cases kind <;> decide

/-- The lines of a report: the vector, the class of the exception by its name, and the registers. -/
def reportLines (source : Source) (kind : Kind) (r : Syndrome) : List (List Byte) :=
  let exceptionClass := (r.esr >>> 26) &&& 0x3f#64
  [puts "\nVector:   " ++ puts (kind.name ++ ", " ++ source.name),
    puts "\nESR_EL1: " ++ hexString r.esr,
    puts "\nEC:      " ++ hexString exceptionClass ++
      (puts " (" ++ puts (exceptionClassName exceptionClass) ++ puts ")"),
    puts "\nELR_EL1: " ++ hexString r.elr,
    puts "\nFAR_EL1: " ++ hexString r.far,
    puts "\nSPSR:    " ++ hexString r.spsr]

/-- A report is these lines, one after the other. -/
theorem report_eq (source : Source) (kind : Kind) (r : Syndrome) :
    report (BitVec.ofNat 64 (slotNumber source kind)) r = puts "\n*** ARM64 EXCEPTION ***" ++
      (reportLines source kind r).flatten ++
      puts "\nSystem halted. Exit QEMU with Control-A, X.\n" := by
  have hvector : puts "\n*** ARM64 EXCEPTION ***\n" ++ puts "Vector:   " =
      puts "\n*** ARM64 EXCEPTION ***" ++ puts "\nVector:   " := by decide
  have helr : puts ")\nELR_EL1: " = puts ")" ++ puts "\nELR_EL1: " := by decide
  simp only [report, reportText, reportLines, vectorName_slotNumber, helr, List.flatten_cons,
    List.flatten_nil, List.append_nil, List.append_assoc]
  rw [← List.append_assoc, hvector, List.append_assoc]

theorem report_lines (source : Source) (kind : Kind) (r : Syndrome) :
    ∀ line ∈ reportLines source kind r,
      line <:+: report (BitVec.ofNat 64 (slotNumber source kind)) r := by
  intro line hline
  rw [report_eq]
  exact (List.infix_of_mem_flatten hline).trans (List.infix_append _ _ _)

/-! ### From the exception to its report -/

variable {base returnAddress : Word} {source : Source} {kind : Kind} {m m' : Machine}

/-- The slots of interrupts lead to `irq_entry_common`. -/
theorem slot_irq (source : Source) : vectorTable[slotNumber source .irq]? =
    some (if source = .currentSp0 then .irqSp0Vector else .irqVector) := by
  cases source <;> rfl

/-- **An interrupt leads to `irq_entry_common`**, by way of the vector for the stack in use. -/
theorem irq_routed (halign : 2 ^ 11 ∣ base.toNat)
    (htake : Takes base source .irq returnAddress m m') :
    (slotAt base m'.pc).map Slot.code =
      some (.inl (if source = .currentSp0 then .sp0 else .spx)) ∧ fatalCall base m' = none := by
  rw [fatalCall, htake.pc, slotAt_entry halign, slot_irq]
  by_cases hsource : source = .currentSp0
  · rw [if_pos hsource, if_pos hsource]
    exact ⟨rfl, rfl⟩
  · rw [if_neg hsource, if_neg hsource]
    exact ⟨rfl, rfl⟩

/-- The other slots are fatal ones. -/
theorem slot_fatal (source : Source) (h : kind ≠ .irq) : vectorTable[slotNumber source kind]? =
    some (if source = .currentSp0 then .fatalSp0Vector (slotNumber source kind)
      else .fatalVector (slotNumber source kind)) := by
  cases kind with
  | irq => exact absurd rfl h
  | sync => cases source <;> rfl
  | fiq => cases source <;> rfl
  | serror => cases source <;> rfl

/-- The masks D, A, I and F in `pstate`. -/
def daif : Word := 0x3c0#64

theorem daif_masked (pstate : Word) :
    (pstate ||| BitVec.ofNat 64 0xf <<< 6) &&& daif = daif := by
  have hmask : BitVec.ofNat 64 0xf <<< 6 = daif := by decide
  rw [hmask]
  ext i
  rw [BitVec.getElem_and, BitVec.getElem_or]
  cases pstate[i] <;> cases daif[i] <;> rfl

/-- **A fatal exception leads to `exception_handle`**, on the stack of EL1 and with everything masked,
and what the processor has noted of the exception is still there. -/
theorem fatalCall_spec (halign : 2 ^ 11 ∣ base.toNat)
    (htake : Takes base source kind returnAddress m m') (hkind : kind ≠ .irq) :
    ∃ m₁, fatalCall base m' = some m₁ ∧ m₁.x x0 = BitVec.ofNat 64 (slotNumber source kind) ∧
      m₁.elrEl1 = returnAddress ∧ m₁.spsrEl1 = m.pstate ∧ m₁.SelectsEl1 ∧
      m₁.pstate &&& daif = daif := by
  rw [fatalCall, htake.pc, slotAt_entry halign, slot_fatal source hkind]
  by_cases hsource : source = .currentSp0
  · rw [if_pos hsource]
    refine ⟨_, rfl, ?_, htake.elr, htake.spsr, ?_, daif_masked _⟩
    · exact Function.update_self x0 _ m'.x
    · have hspsel := Vectors.getLsbD_or_of_left htake.selects (BitVec.twoPow 64 Vectors.spSelBit)
      exact Vectors.getLsbD_or_of_left hspsel (BitVec.ofNat 64 0xf <<< 6)
  · rw [if_neg hsource]
    refine ⟨_, rfl, ?_, htake.elr, htake.spsr, ?_, daif_masked _⟩
    · exact Function.update_self x0 _ m'.x
    · exact Vectors.getLsbD_or_of_left htake.selects (BitVec.ofNat 64 0xf <<< 6)

/-- **The report tells which exception it was, and its registers.**  Wherever the vector table is, a
fatal exception of any kind from anywhere calls `exception_handle`, which prints a report: the name of
the vector, that of the class and each of the registers stand in it, under their labels.  And an
exception would print this very report only if it came from there, and was of this kind, with the same
`ESR_EL1` and `FAR_EL1`, and had interrupted the same place in the same state. -/
theorem exception_reported (halign : 2 ^ 11 ∣ base.toNat)
    (htake : Takes base source kind returnAddress m m') (hkind : kind ≠ .irq) (esr far : Word) :
    ∃ m₁ text, fatalCall base m' = some m₁ ∧ m₁.SelectsEl1 ∧ m₁.pstate &&& daif = daif ∧
      exceptionHandle (m₁.x x0) ⟨esr, m₁.elrEl1, far, m₁.spsrEl1⟩ = some text ∧
      (∀ line ∈ reportLines source kind ⟨esr, returnAddress, far, m.pstate⟩, line <:+: text) ∧
      ∀ source' kind' r, exceptionHandle (BitVec.ofNat 64 (slotNumber source' kind')) r = some text ↔
        source' = source ∧ kind' = kind ∧ r = ⟨esr, returnAddress, far, m.pstate⟩ := by
  obtain ⟨m₁, hcall, hindex, helr, hspsr, hselects, hmasked⟩ := fatalCall_spec halign htake hkind
  refine ⟨m₁, _, hcall, hselects, hmasked, exceptionHandle_eq _ _, ?_, fun source' kind' r => ?_⟩
  · rw [hindex, helr, hspsr]
    exact report_lines source kind _
  rw [exceptionHandle_eq, hindex, helr, hspsr, Option.some_inj]
  constructor
  · intro h
    obtain ⟨hslot, hr⟩ := report_injective (slotNumber_lt _ _) (slotNumber_lt _ _) h
    obtain ⟨hsource, hkind'⟩ := slotNumber_injective hslot
    exact ⟨hsource, hkind', hr⟩
  · rintro ⟨rfl, rfl, rfl⟩
    rfl

/-- Code that uses `SP_EL1`. -/
def running : Machine := { Vectors.interrupted with pstate := 0x60000005#64 }

/-- The processor after a `brk` in this code, with the table at `0x40080800`. -/
def trapped : Machine :=
  { running with
    elrEl1 := 0x40081000#64
    spsrEl1 := running.pstate
    pstate := 0x600003c5#64
    pc := 0x40080a00#64 }

theorem takes_trapped :
    Takes 0x40080800#64 .currentSpx .sync 0x40081000#64 running trapped where
  pc := by decide
  elr := rfl
  spsr := rfl
  selects := by decide

/-- The `brk` leads to `exception_handle`, and its report says where it came from. -/
theorem exception_reported_trapped : ∃ m₁ text, fatalCall 0x40080800#64 trapped = some m₁ ∧
    exceptionHandle (m₁.x x0) ⟨0xf2000000#64, m₁.elrEl1, 0#64, m₁.spsrEl1⟩ = some text ∧
      puts "\nVector:   " ++ puts "Synchronous, current EL with SPx" <:+: text := by
  obtain ⟨m₁, text, hcall, -, -, htext, hlines, -⟩ :=
    exception_reported (by decide) takes_trapped (by decide) 0xf2000000#64 0#64
  have hname : Kind.sync.name ++ ", " ++ Source.currentSpx.name =
      "Synchronous, current EL with SPx" := by decide
  refine ⟨m₁, text, hcall, htext, hlines _ (List.mem_cons.2 (Or.inl ?_))⟩
  rw [hname]

end Exception

end MiniOs
