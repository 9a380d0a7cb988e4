/-
**Decimal numbers (`uart_put_uint64` in `src/uart.c`, `parse_uint64` in `src/shell.c`).**

The printer fills an array of twenty digits from the last digit on, and then sends them in the other
order.  The array is not initialised, so what it holds first is a parameter, and each access to it
is checked.

The parser reads up to the zero, and stops before a step that would leave the 64 bits.  That it
finds all such steps is a matter of its arithmetic: the operations are a parameter, once as the
machine has them, which wrap, and once with a check that fails where they would wrap.

Main definitions:

* `Decimal.uartPutUint64` — what the printer sends;
* `Decimal.parseUint64` — **the parser**, for one or the other arithmetic;
* `Decimal.Numeral`, `Decimal.decimalValue` — the strings it accepts, and their values.

Main results:

* `Decimal.uartPutUint64_eq` — the printer stays inside its array, and sends the numeral;
* `Decimal.parseUint64_eq` — **what the parser answers**, for both kinds of arithmetic;
* `Decimal.print_parse_inverse` — printing and parsing are inverse to each other.
-/

import MiniOs.CString
import MiniOs.Machine
import MiniOs.Positional

set_option relaxedAutoImplicit false
set_option autoImplicit false

namespace MiniOs

namespace Decimal

open CString

/-! ### Digits -/

/-- `'0'`. -/
def zeroChar : Byte := 0x30#8

/-- `'9'`. -/
def nineChar : Byte := 0x39#8

/-- The characters of the digits. -/
def IsDigit (c : Byte) : Prop := ¬(c < zeroChar ∨ nineChar < c)

instance (c : Byte) : Decidable (IsDigit c) := inferInstanceAs (Decidable (¬_))

/-- The character of a digit. -/
def digitChar (d : ℕ) : Byte := BitVec.ofNat 8 (48 + d)

/-- The digit of a character. -/
def digitValue (c : Byte) : ℕ := c.toNat - 48

theorem isDigit_iff {c : Byte} : IsDigit c ↔ 48 ≤ c.toNat ∧ c.toNat ≤ 57 := by
  change ¬(c.toNat < 48 ∨ 57 < c.toNat) ↔ _
  omega

theorem toNat_digitChar {d : ℕ} (h : d < 10) : (digitChar d).toNat = 48 + d := by
  rw [digitChar, BitVec.toNat_ofNat]
  omega

theorem isDigit_digitChar {d : ℕ} (h : d < 10) : IsDigit (digitChar d) := by
  rw [isDigit_iff, toNat_digitChar h]
  omega

theorem digitValue_digitChar {d : ℕ} (h : d < 10) : digitValue (digitChar d) = d := by
  rw [digitValue, toNat_digitChar h]
  omega

theorem digitChar_digitValue {c : Byte} (h : IsDigit c) : digitChar (digitValue c) = c := by
  have hc := isDigit_iff.1 h
  apply BitVec.eq_of_toNat_eq
  rw [toNat_digitChar (by unfold digitValue; omega), digitValue]
  omega

theorem digitValue_lt {c : Byte} (h : IsDigit c) : digitValue c < 10 := by
  have hc := isDigit_iff.1 h
  unfold digitValue
  omega

/-- The value of a string of digits. -/
def decimalValue (text : List Byte) : ℕ := Positional.value 10 (text.map digitValue)

/-- The string of a number. -/
def decimalString (n : ℕ) : List Byte := (Positional.numeral 10 n).map digitChar

theorem decimalValue_decimalString (n : ℕ) : decimalValue (decimalString n) = n := by
  have hmap : (decimalString n).map digitValue = Positional.numeral 10 n := by
    rw [decimalString, List.map_map]
    conv_rhs => rw [← List.map_id (Positional.numeral 10 n)]
    exact List.map_congr_left fun d hd =>
      digitValue_digitChar (Positional.lt_of_mem_numeral (by decide) hd)
  rw [decimalValue, hmap, Positional.value_numeral]

theorem isDigit_of_mem_decimalString {n : ℕ} {c : Byte} (h : c ∈ decimalString n) :
    IsDigit c := by
  obtain ⟨d, hd, rfl⟩ := List.mem_map.1 h
  exact isDigit_digitChar (Positional.lt_of_mem_numeral (by decide) hd)

theorem decimalString_ne_nil (n : ℕ) : decimalString n ≠ [] := by
  rw [decimalString, ne_eq, List.map_eq_nil_iff]
  exact Positional.numeral_ne_nil 10 n

/-- A string of digits without its leading zeros; one zero stays where there is nothing else. -/
def withoutLeadingZeros (text : List Byte) : List Byte :=
  let rest := text.dropWhile (· = zeroChar)
  if rest = [] then [zeroChar] else rest

theorem map_dropWhile {text : List Byte} (h : ∀ c ∈ text, IsDigit c) :
    ((text.map digitValue).dropWhile (· = 0)).map digitChar = text.dropWhile (· = zeroChar) := by
  induction text with
  | nil => rfl
  | cons c text ih =>
      have hc : IsDigit c := h c List.mem_cons_self
      have hzero : digitValue c = 0 ↔ c = zeroChar := by
        constructor
        · intro h0
          rw [← digitChar_digitValue hc, h0]
          rfl
        · rintro rfl
          rfl
      rw [List.map_cons]
      rcases eq_or_ne c zeroChar with h0 | h0
      · rw [List.dropWhile_cons_of_pos (by simpa using hzero.2 h0),
          List.dropWhile_cons_of_pos (by simpa using h0)]
        exact ih fun a ha => h a (List.mem_cons_of_mem c ha)
      · rw [List.dropWhile_cons_of_neg (by simpa using mt hzero.1 h0),
          List.dropWhile_cons_of_neg (by simpa using h0), List.map_cons,
          digitChar_digitValue hc, List.map_map]
        have hmap : text.map (digitChar ∘ digitValue) = text.map id :=
          List.map_congr_left fun a ha => digitChar_digitValue (h a (List.mem_cons_of_mem c ha))
        rw [hmap, List.map_id]

/-- The string of the value of some digits is these digits without leading zeros. -/
theorem decimalString_decimalValue {text : List Byte} (h : ∀ c ∈ text, IsDigit c) :
    decimalString (decimalValue text) = withoutLeadingZeros text := by
  have hlt : ∀ d ∈ text.map digitValue, d < 10 := by
    intro d hd
    obtain ⟨c, hc, rfl⟩ := List.mem_map.1 hd
    exact digitValue_lt (h c hc)
  rw [decimalString, decimalValue, Positional.numeral_value (by decide) hlt, Positional.trim,
    withoutLeadingZeros, ← map_dropWhile h]
  generalize (text.map digitValue).dropWhile (· = 0) = rest
  cases rest with
  | nil => rfl
  | cons d rest => rfl

/-! ### The printer -/

/-- The first loop of `uart_put_uint64`: the array and `length` after it. -/
def fillDigits (digits : List Byte) (length : ℕ) (value : Word) : Option (List Byte × ℕ) :=
  if _h : value = 0 then some (digits, length)
  else do
    let digits ← store digits length ((0x30#64 + value % 10#64).setWidth 8)
    fillDigits digits (length + 1) (value / 10#64)
termination_by value.toNat
decreasing_by
  have hpos : 0 < value.toNat := Nat.pos_of_ne_zero fun h0 => _h (BitVec.eq_of_toNat_eq h0)
  rw [BitVec.toNat_udiv]
  exact Nat.div_lt_self hpos (by decide)

/-- The second loop of `uart_put_uint64`. -/
def sendDigits (digits : List Byte) : ℕ → Option (List Byte)
  | 0 => some []
  | length + 1 => do
      let c ← digits[length]?
      let rest ← sendDigits digits length
      return c :: rest

/-- Model of `uart_put_uint64`: what it sends, from what its array holds first. -/
def uartPutUint64 (stack : Vector Byte 20) (value : Word) : Option (List Byte) :=
  if value = 0 then some [zeroChar]
  else do
    let (digits, length) ← fillDigits stack.toList 0 value
    sendDigits digits length

theorem fillDigits_zero (digits : List Byte) (length : ℕ) :
    fillDigits digits length 0 = some (digits, length) := by
  rw [fillDigits, dif_pos rfl]

theorem fillDigits_of_ne_zero (digits : List Byte) (length : ℕ) {value : Word} (h : value ≠ 0) :
    fillDigits digits length value =
      (store digits length ((0x30#64 + value % 10#64).setWidth 8)).bind fun digits =>
        fillDigits digits (length + 1) (value / 10#64) := by
  rw [fillDigits, dif_neg h]
  rfl

/-- The character that is stored is that of the last digit. -/
theorem setWidth_digit (value : Word) :
    (0x30#64 + value % 10#64).setWidth 8 = digitChar (value.toNat % 10) := by
  apply BitVec.eq_of_toNat_eq
  rw [toNat_digitChar (Nat.mod_lt _ (by decide)), BitVec.toNat_setWidth, BitVec.toNat_add,
    BitVec.toNat_umod]
  change (48 + value.toNat % 10) % 2 ^ 64 % 2 ^ 8 = 48 + value.toNat % 10
  omega

theorem digits_toNat {value : Word} (h : value ≠ 0) :
    Nat.digits 10 value.toNat =
      value.toNat % 10 :: Nat.digits 10 (value / 10#64).toNat := by
  have hpos : 0 < value.toNat := Nat.pos_of_ne_zero fun h0 => h (BitVec.eq_of_toNat_eq h0)
  rw [Nat.digits_def' (by decide) hpos, BitVec.toNat_udiv]
  rfl

/-- **What the first loop writes**, when there is room for it: the digits, the last one first. -/
theorem fillDigits_eq {digits : List Byte} {length : ℕ} {value : Word}
    (h : length + (Nat.digits 10 value.toNat).length ≤ digits.length) :
    ∃ filled, fillDigits digits length value =
        some (filled, length + (Nat.digits 10 value.toNat).length) ∧
      filled.length = digits.length ∧
      filled.take (length + (Nat.digits 10 value.toNat).length) =
        digits.take length ++ (Nat.digits 10 value.toNat).map digitChar := by
  induction hn : value.toNat using Nat.strong_induction_on generalizing digits length value with
  | _ n ih =>
      subst hn
      rcases eq_or_ne value 0 with rfl | h0
      · exact ⟨digits, fillDigits_zero digits length, rfl, by simp⟩
      · have hlt : (value / 10#64).toNat < value.toNat := by
          rw [BitVec.toNat_udiv]
          exact Nat.div_lt_self
            (Nat.pos_of_ne_zero fun hz => h0 (BitVec.eq_of_toNat_eq hz)) (by decide)
        rw [digits_toNat h0, List.length_cons] at h ⊢
        have hroom : length < digits.length := by omega
        have hnext : length + 1 + (Nat.digits 10 (value / 10#64).toNat).length ≤
            (digits.set length (digitChar (value.toNat % 10))).length := by
          rw [List.length_set]
          omega
        obtain ⟨filled, heq, hlen, htake⟩ := ih _ hlt hnext rfl
        rw [fillDigits_of_ne_zero digits length h0, setWidth_digit, store_of_lt hroom]
        rw [Nat.add_assoc, Nat.add_comm 1] at heq htake
        refine ⟨filled, heq, by rw [hlen, List.length_set], ?_⟩
        rw [htake, take_set hroom, List.map_cons, List.append_assoc, List.singleton_append]

/-- The second loop sends what was written, in the other order. -/
theorem sendDigits_eq {digits : List Byte} {length : ℕ} (h : length ≤ digits.length) :
    sendDigits digits length = some (digits.take length).reverse := by
  induction length with
  | zero => rfl
  | succ n ih =>
      rw [sendDigits, List.getElem?_eq_getElem h, ih (Nat.le_of_succ_le h),
        List.take_succ_eq_append_getElem h, List.reverse_concat]
      rfl

/-- A number of 64 bits has at most twenty digits. -/
theorem length_digits_le (value : Word) : (Nat.digits 10 value.toNat).length ≤ 20 := by
  rw [Nat.digits_length_le_iff (by decide)]
  exact Nat.lt_of_lt_of_le value.isLt (by decide)

/-- **The printer stays inside its array, and sends the numeral.** -/
theorem uartPutUint64_eq (stack : Vector Byte 20) (value : Word) :
    uartPutUint64 stack value = some (decimalString value.toNat) := by
  rcases eq_or_ne value 0 with rfl | h0
  · rfl
  · have hroom : 0 + (Nat.digits 10 value.toNat).length ≤ stack.toList.length := by
      rw [Vector.length_toList, Nat.zero_add]
      exact length_digits_le value
    obtain ⟨filled, heq, hlen, htake⟩ := fillDigits_eq hroom
    have hne : value.toNat ≠ 0 := fun hz => h0 (BitVec.eq_of_toNat_eq hz)
    rw [uartPutUint64, if_neg h0, heq]
    change sendDigits filled _ = _
    rw [sendDigits_eq (hlen ▸ hroom), htake, List.take_zero, List.nil_append, decimalString,
      Positional.numeral_of_ne_zero hne, List.map_reverse]

/-! ### The parser -/

/-- The operations of the 64-bit arithmetic that may wrap. -/
structure Arithmetic where
  add : Word → Word → Option Word
  sub : Word → Word → Option Word
  mul : Word → Word → Option Word

/-- The arithmetic of the machine, which wraps. -/
def wrapping : Arithmetic where
  add a b := some (a + b)
  sub a b := some (a - b)
  mul a b := some (a * b)

/-- The arithmetic that fails where the machine would wrap. -/
def checked : Arithmetic where
  add a b := if a.toNat + b.toNat < 2 ^ 64 then some (a + b) else none
  sub a b := if b.toNat ≤ a.toNat then some (a - b) else none
  mul a b := if a.toNat * b.toNat < 2 ^ 64 then some (a * b) else none

/-- `UINT64_MAX`. -/
def uint64Max : Word := BitVec.allOnes 64

/-- The loop of `parse_uint64`, at a place of the text: what it returns, and `*value` then. -/
def parseLoop (arith : Arithmetic) (value result : Word) : List Byte → Option (Bool × Word)
  | [] => none
  | c :: rest =>
      if c = 0 then some (true, result)
      else if c < zeroChar ∨ nineChar < c then some (false, value)
      else do
        let digit ← arith.sub (c.setWidth 64) 0x30#64
        let room ← arith.sub uint64Max digit
        if room / 10#64 < result then return (false, value)
        let scaled ← arith.mul result 10#64
        let result ← arith.add scaled digit
        parseLoop arith value result rest

/-- Model of `parse_uint64`: what it returns, and what stands in `*value` afterwards. -/
def parseUint64 (arith : Arithmetic) (text : List Byte) (value : Word) : Option (Bool × Word) :=
  match text with
  | [] => none
  | c :: _ => if c = 0 then some (false, value) else parseLoop arith value 0#64 text

theorem parseLoop_of_isDigit (arith : Arithmetic) (value result : Word) {c : Byte}
    (hc : IsDigit c) (rest : List Byte) :
    parseLoop arith value result (c :: rest) =
      (arith.sub (c.setWidth 64) 0x30#64).bind fun digit =>
        (arith.sub uint64Max digit).bind fun room =>
          if room / 10#64 < result then some (false, value)
          else (arith.mul result 10#64).bind fun scaled =>
            (arith.add scaled digit).bind fun result => parseLoop arith value result rest := by
  have h0 : c ≠ 0 := by
    rintro rfl
    exact absurd hc (by decide)
  rw [parseLoop, if_neg h0, if_neg hc]
  rfl

/-- The operations of an arithmetic that gives the sum, the difference and the product where they
do not wrap. -/
structure Arithmetic.Exact (arith : Arithmetic) : Prop where
  add : ∀ a b, a.toNat + b.toNat < 2 ^ 64 → arith.add a b = some (a + b)
  sub : ∀ a b, b.toNat ≤ a.toNat → arith.sub a b = some (a - b)
  mul : ∀ a b, a.toNat * b.toNat < 2 ^ 64 → arith.mul a b = some (a * b)

theorem wrapping_exact : wrapping.Exact :=
  ⟨fun _ _ _ => rfl, fun _ _ _ => rfl, fun _ _ _ => rfl⟩

theorem checked_exact : checked.Exact :=
  ⟨fun _ _ h => if_pos h, fun _ _ h => if_pos h, fun _ _ h => if_pos h⟩

/-- The strings that are numbers of 64 bits. -/
def Numeral (text : List Byte) : Prop :=
  text ≠ [] ∧ (∀ c ∈ text, IsDigit c) ∧ decimalValue text < 2 ^ 64

/-- What is read after a result, as a number. -/
def continued (result : Word) (text : List Byte) : ℕ :=
  Positional.valueFrom 10 result.toNat (text.map digitValue)

theorem continued_zero (text : List Byte) : continued 0#64 text = decimalValue text := rfl

theorem toNat_digit {c : Byte} (h : IsDigit c) :
    (c.setWidth 64 - 0x30#64).toNat = digitValue c := by
  have hc := isDigit_iff.1 h
  have hwide : (c.setWidth 64).toNat = c.toNat := by
    rw [BitVec.toNat_setWidth]
    omega
  have hle : (0x30#64).toNat ≤ (c.setWidth 64).toNat := by
    rw [hwide]
    exact hc.1
  rw [BitVec.toNat_sub_of_le hle, hwide]
  rfl

theorem toNat_uint64Max : uint64Max.toNat = 2 ^ 64 - 1 := BitVec.toNat_allOnes

theorem toNat_ten : (10#64).toNat = 10 := rfl

theorem le_uint64Max (digit : Word) : digit.toNat ≤ uint64Max.toNat := by
  rw [toNat_uint64Max]
  exact Nat.le_sub_one_of_lt digit.isLt

/-- **One digit more**: the guard stops the loop just when the next result would not fit, and
otherwise no operation wraps. -/
theorem parseLoop_digit {arith : Arithmetic} (ha : arith.Exact) (value result : Word) {c : Byte}
    (hc : IsDigit c) (rest : List Byte) :
    parseLoop arith value result (c :: rest) =
      if result.toNat * 10 + digitValue c < 2 ^ 64 then
        parseLoop arith value (BitVec.ofNat 64 (result.toNat * 10 + digitValue c)) rest
      else some (false, value) := by
  have hrange := isDigit_iff.1 hc
  have hsub : arith.sub (c.setWidth 64) 0x30#64 = some (c.setWidth 64 - 0x30#64) := by
    refine ha.sub _ _ ?_
    rw [BitVec.toNat_setWidth]
    change 48 ≤ c.toNat % 2 ^ 64
    omega
  have hdigit := toNat_digit hc
  have hlt := digitValue_lt hc
  generalize c.setWidth 64 - 0x30#64 = digit at hsub hdigit
  have hroom : arith.sub uint64Max digit = some (uint64Max - digit) :=
    ha.sub _ _ (le_uint64Max digit)
  have hguard : (uint64Max - digit) / 10#64 < result ↔
      ¬result.toNat * 10 + digitValue c < 2 ^ 64 := by
    rw [BitVec.lt_def, BitVec.toNat_udiv, BitVec.toNat_sub_of_le (le_uint64Max digit), toNat_ten,
      Positional.div_lt_iff_overflow (by decide) (le_uint64Max digit), toNat_uint64Max, hdigit]
    omega
  rw [parseLoop_of_isDigit arith value result hc, hsub, Option.bind_some, hroom, Option.bind_some]
  by_cases hfits : result.toNat * 10 + digitValue c < 2 ^ 64
  · have hsmall : result.toNat * (10#64).toNat < 2 ^ 64 := by
      rw [toNat_ten]
      omega
    have hmul : arith.mul result 10#64 = some (result * 10#64) := ha.mul _ _ hsmall
    have hscaled : (result * 10#64).toNat = result.toNat * 10 := by
      rw [BitVec.toNat_mul, Nat.mod_eq_of_lt hsmall, toNat_ten]
    have hadd : arith.add (result * 10#64) digit = some (result * 10#64 + digit) :=
      ha.add _ _ (by rw [hscaled, hdigit]; exact hfits)
    have hnext : result * 10#64 + digit = BitVec.ofNat 64 (result.toNat * 10 + digitValue c) := by
      apply BitVec.eq_of_toNat_eq
      rw [BitVec.toNat_add, hscaled, hdigit, BitVec.toNat_ofNat]
    rw [if_neg fun hstop => hguard.1 hstop hfits, if_pos hfits, hmul, ← hnext,
      Option.bind_some, hadd, Option.bind_some]
  · rw [if_pos (hguard.2 hfits), if_neg hfits]

/-- The loop, on a string: it answers with the number where all characters are digits and the number
fits, and leaves `*value` alone otherwise. -/
theorem parseLoop_eq {arith : Arithmetic} (ha : arith.Exact) (value result : Word)
    {text s : List Byte} (h : StringAt text 0 s) :
    ((∀ c ∈ s, IsDigit c) ∧ continued result s < 2 ^ 64 →
        parseLoop arith value result text =
          some (true, BitVec.ofNat 64 (continued result s))) ∧
      (¬((∀ c ∈ s, IsDigit c) ∧ continued result s < 2 ^ 64) →
        parseLoop arith value result text = some (false, value)) := by
  induction s generalizing text result with
  | nil =>
      obtain ⟨rest, rfl⟩ := stringAt_nil.1 h
      refine ⟨fun _ => ?_, fun hs => absurd ⟨fun c hc => absurd hc List.not_mem_nil, ?_⟩ hs⟩
      · rw [parseLoop, if_pos rfl, continued, List.map_nil, Positional.valueFrom_nil,
          BitVec.ofNat_toNat, BitVec.setWidth_eq]
      · exact result.isLt
  | cons c s ih =>
      obtain ⟨rest, rfl, h0, hrest⟩ := stringAt_cons.1 h
      by_cases hc : IsDigit c
      · have hall : (∀ a ∈ c :: s, IsDigit a) ↔ ∀ a ∈ s, IsDigit a := by
          rw [List.forall_mem_cons]
          exact and_iff_right hc
        have hstep : continued result (c :: s) =
            Positional.valueFrom 10 (result.toNat * 10 + digitValue c) (s.map digitValue) := rfl
        rw [parseLoop_digit ha value result hc, hall, hstep]
        by_cases hfits : result.toNat * 10 + digitValue c < 2 ^ 64
        · have hnext := ih (BitVec.ofNat 64 (result.toNat * 10 + digitValue c)) hrest
          rw [continued, BitVec.toNat_ofNat, Nat.mod_eq_of_lt hfits] at hnext
          rwa [if_pos hfits]
        · have hover : ¬Positional.valueFrom 10 (result.toNat * 10 + digitValue c)
              (s.map digitValue) < 2 ^ 64 := fun hlt =>
            hfits (Nat.lt_of_le_of_lt (Positional.le_valueFrom (by decide) _ _) hlt)
          exact ⟨fun hs => absurd hs.2 hover, fun _ => if_neg hfits⟩
      · refine ⟨fun hs => absurd (hs.1 c List.mem_cons_self) hc, fun _ => ?_⟩
        rw [parseLoop, if_neg h0, if_pos (Decidable.not_not.1 hc)]

/-- The parser stores the value of a string of digits that fits. -/
theorem parseUint64_of_numeral {arith : Arithmetic} (ha : arith.Exact) (value : Word)
    {text s : List Byte} (h : StringAt text 0 s) (hs : Numeral s) :
    parseUint64 arith text value = some (true, BitVec.ofNat 64 (decimalValue s)) := by
  cases s with
  | nil => exact absurd rfl hs.1
  | cons c s =>
      obtain ⟨rest, rfl, h0, -⟩ := stringAt_cons.1 h
      have hloop := (parseLoop_eq ha value 0#64 h).1
      rw [continued_zero] at hloop
      rw [parseUint64, if_neg h0, hloop hs.2]

/-- The parser refuses all other strings, and leaves `*value` alone. -/
theorem parseUint64_of_not_numeral {arith : Arithmetic} (ha : arith.Exact) (value : Word)
    {text s : List Byte} (h : StringAt text 0 s) (hs : ¬Numeral s) :
    parseUint64 arith text value = some (false, value) := by
  cases s with
  | nil =>
      obtain ⟨rest, rfl⟩ := stringAt_nil.1 h
      rw [parseUint64, if_pos rfl]
  | cons c s =>
      obtain ⟨rest, rfl, h0, -⟩ := stringAt_cons.1 h
      have hloop := (parseLoop_eq ha value 0#64 h).2
      rw [continued_zero] at hloop
      rw [parseUint64, if_neg h0, hloop fun hfits => hs ⟨List.cons_ne_nil c s, hfits⟩]

/-- The string of a word is a numeral of 64 bits. -/
theorem numeral_decimalString (v : Word) : Numeral (decimalString v.toNat) := by
  refine ⟨decimalString_ne_nil _, fun _ hc => isDigit_of_mem_decimalString hc, ?_⟩
  rw [decimalValue_decimalString]
  exact v.isLt

/-- No string of a number begins with a zero, but that of zero. -/
theorem decimalString_of_head {n : ℕ} (h : (decimalString n).head? = some zeroChar) :
    decimalString n = [zeroChar] := by
  have hhead : (Positional.numeral 10 n).head? = some 0 := by
    rw [decimalString, List.head?_map, Option.map_eq_some_iff] at h
    obtain ⟨d, hd, hchar⟩ := h
    have hlt := Positional.lt_of_mem_numeral (by decide) (List.mem_of_head? hd)
    rw [hd, ← digitValue_digitChar hlt, hchar]
    rfl
  rw [decimalString, Positional.numeral_eq_of_head hhead]
  rfl

/-- **Printing and parsing are inverse to each other.**  What is printed is the shortest string of
digits with the value, and parsing it gives the value back.  A string is parsed just when it is a
number of 64 bits, with or without a check that no operation wraps; printing the result gives the
string without its leading zeros. -/
theorem print_parse_inverse (stack : Vector Byte 20) (arith : Arithmetic)
    (ha : arith = wrapping ∨ arith = checked) :
    (∀ v : Word, ∃ text, uartPutUint64 stack v = some text ∧
      text ≠ [] ∧ (∀ c ∈ text, IsDigit c) ∧ (text.head? = some zeroChar → text = [zeroChar]) ∧
      decimalValue text = v.toNat ∧
      ∀ buffer value, StringAt buffer 0 text →
        parseUint64 arith buffer value = some (true, v)) ∧
    ∀ buffer s value, StringAt buffer 0 s →
      ((∃ v, parseUint64 arith buffer value = some (true, v)) ↔
        s ≠ [] ∧ (∀ c ∈ s, IsDigit c) ∧ decimalValue s ≤ 2 ^ 64 - 1) ∧
      (∀ v, parseUint64 arith buffer value = some (true, v) →
        v.toNat = decimalValue s ∧ uartPutUint64 stack v = some (withoutLeadingZeros s)) ∧
      ((∀ v, parseUint64 arith buffer value ≠ some (true, v)) →
        parseUint64 arith buffer value = some (false, value)) := by
  have hexact : arith.Exact := by
    rcases ha with rfl | rfl
    · exact wrapping_exact
    · exact checked_exact
  constructor
  · intro v
    refine ⟨decimalString v.toNat, uartPutUint64_eq stack v, decimalString_ne_nil _,
      fun c hc => isDigit_of_mem_decimalString hc, decimalString_of_head,
      decimalValue_decimalString _, fun buffer value h => ?_⟩
    rw [parseUint64_of_numeral hexact value h (numeral_decimalString v),
      decimalValue_decimalString, BitVec.ofNat_toNat, BitVec.setWidth_eq]
  · intro buffer s value h
    have hnumeral : (s ≠ [] ∧ (∀ c ∈ s, IsDigit c) ∧ decimalValue s ≤ 2 ^ 64 - 1) ↔ Numeral s :=
      and_congr_right fun _ => and_congr_right fun _ => by omega
    rw [hnumeral]
    by_cases hs : Numeral s
    · have hparse := parseUint64_of_numeral hexact value h hs
      refine ⟨⟨fun _ => hs, fun _ => ⟨_, hparse⟩⟩, fun v hv => ?_, fun hne => ?_⟩
      · rw [hparse, Option.some.injEq, Prod.mk.injEq] at hv
        have hv' : v.toNat = decimalValue s := by
          rw [← hv.2, BitVec.toNat_ofNat, Nat.mod_eq_of_lt hs.2.2]
        refine ⟨hv', ?_⟩
        rw [uartPutUint64_eq, hv', decimalString_decimalValue hs.2.1]
      · exact absurd hparse (hne _)
    · have hparse := parseUint64_of_not_numeral hexact value h hs
      have hno : ∀ v, parseUint64 arith buffer value ≠ some (true, v) := by
        intro v hv
        rw [hparse, Option.some.injEq, Prod.mk.injEq] at hv
        exact Bool.false_ne_true hv.1
      exact ⟨⟨fun ⟨v, hv⟩ => absurd hv (hno v), fun h => absurd h hs⟩,
        fun v hv => absurd hv (hno v), fun _ => hparse⟩

/-- The string `"07"` is parsed as seven, which is printed as `"7"`. -/
theorem print_parse_inverse_seven :
    parseUint64 checked [0x30#8, 0x37#8, 0#8] 5#64 = some (true, 7#64) ∧
      uartPutUint64 (Vector.replicate 20 0#8) 7#64 =
        some (withoutLeadingZeros [0x30#8, 0x37#8]) := by
  have hstring : StringAt [0x30#8, 0x37#8, 0#8] 0 [0x30#8, 0x37#8] :=
    ⟨by decide, by decide⟩
  have hparse : parseUint64 checked [0x30#8, 0x37#8, 0#8] 5#64 = some (true, 7#64) := rfl
  exact ⟨hparse, ((print_parse_inverse (Vector.replicate 20 0#8) checked (.inr rfl)).2 _ _ 5#64
    hstring).2.1 7#64 hparse |>.2⟩

end Decimal

end MiniOs
