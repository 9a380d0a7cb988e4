/-
**Numerals in a base.**

A numeral is a list of digits, the most significant first.  It is read from the left, which
multiplies by the base and adds, and written from the right, which divides; a program that reads or
writes one in a word of bounded size relies on one inequality of natural numbers at each digit.

Main definitions:

* `Positional.valueFrom`, `Positional.value` — the value of a list of digits;
* `Positional.numeral` — **the numeral of a number**, without leading zeros;
* `Positional.fixed` — the lowest digits of a number, with leading zeros;
* `Positional.trim` — a list of digits without its leading zeros.

Main results:

* `Positional.value_numeral` — the numeral of a number has that value;
* `Positional.value_fixed` — digits of a fixed width have the value of the number, if it fits;
* `Positional.numeral_value` — **the numeral of a value is the list without its leading zeros**;
* `Positional.div_lt_iff_overflow` — the test for overflow by division is exact.
-/

import Mathlib.Data.Nat.Digits.Lemmas

set_option relaxedAutoImplicit false
set_option autoImplicit false

namespace Positional

/-! ### The value of a list of digits -/

/-- Read digits, the most significant first, after a number. -/
def valueFrom (b v : ℕ) (ds : List ℕ) : ℕ := ds.foldl (fun v d => v * b + d) v

/-- The value of a list of digits. -/
def value (b : ℕ) (ds : List ℕ) : ℕ := valueFrom b 0 ds

theorem valueFrom_nil (b v : ℕ) : valueFrom b v [] = v := rfl

theorem valueFrom_cons (b v d : ℕ) (ds : List ℕ) :
    valueFrom b v (d :: ds) = valueFrom b (v * b + d) ds := rfl

theorem valueFrom_append (b v : ℕ) (ds es : List ℕ) :
    valueFrom b v (ds ++ es) = valueFrom b (valueFrom b v ds) es := List.foldl_append

/-- Reading on never makes a number smaller. -/
theorem le_valueFrom {b : ℕ} (hb : 0 < b) (v : ℕ) (ds : List ℕ) : v ≤ valueFrom b v ds := by
  induction ds generalizing v with
  | nil => exact Nat.le_refl v
  | cons d ds ih =>
      rw [valueFrom_cons]
      calc v ≤ v * b := Nat.le_mul_of_pos_right v hb
        _ ≤ v * b + d := Nat.le_add_right _ _
        _ ≤ valueFrom b (v * b + d) ds := ih _

theorem value_eq_ofDigits (b : ℕ) (ds : List ℕ) : value b ds = Nat.ofDigits b ds.reverse := by
  induction ds using List.reverseRecOn with
  | nil => rfl
  | append_singleton ds d ih =>
      rw [value, valueFrom_append, List.reverse_append, List.reverse_singleton,
        List.singleton_append, Nat.ofDigits_cons, ← ih, valueFrom_cons, valueFrom_nil, value,
        Nat.mul_comm, Nat.add_comm]

/-! ### The numeral of a number -/

/-- The digits of a number, the most significant first; `0` for zero. -/
def numeral (b n : ℕ) : List ℕ := if n = 0 then [0] else (Nat.digits b n).reverse

theorem numeral_zero (b : ℕ) : numeral b 0 = [0] := rfl

theorem numeral_of_ne_zero {b n : ℕ} (h : n ≠ 0) : numeral b n = (Nat.digits b n).reverse :=
  if_neg h

theorem value_numeral (b n : ℕ) : value b (numeral b n) = n := by
  rcases eq_or_ne n 0 with rfl | h
  · rw [numeral_zero, value, valueFrom_cons, Nat.zero_mul]
    rfl
  · rw [numeral_of_ne_zero h, value_eq_ofDigits, List.reverse_reverse, Nat.ofDigits_digits]

theorem numeral_ne_nil (b n : ℕ) : numeral b n ≠ [] := by
  rcases eq_or_ne n 0 with rfl | h
  · exact List.cons_ne_nil _ _
  · rw [numeral_of_ne_zero h, ne_eq, List.reverse_eq_nil_iff]
    exact Nat.digits_ne_nil_iff_ne_zero.2 h

theorem lt_of_mem_numeral {b n d : ℕ} (hb : 1 < b) (h : d ∈ numeral b n) : d < b := by
  rcases eq_or_ne n 0 with rfl | hn
  · rw [numeral_zero, List.mem_singleton] at h
    omega
  · rw [numeral_of_ne_zero hn, List.mem_reverse] at h
    exact Nat.digits_lt_base hb h

/-- A numeral begins with zero only when it is the zero alone. -/
theorem numeral_eq_of_head {b n : ℕ} (h : (numeral b n).head? = some 0) : numeral b n = [0] := by
  rcases eq_or_ne n 0 with rfl | hn
  · rfl
  · rw [numeral_of_ne_zero hn, List.head?_reverse,
      List.getLast?_eq_getLast_of_ne_nil (Nat.digits_ne_nil_iff_ne_zero.2 hn)] at h
    exact absurd (Option.some.inj h) (Nat.getLast_digit_ne_zero b hn)

/-! ### Numerals of a fixed width -/

/-- The `k` lowest digits of a number, the most significant first. -/
def fixed (b n : ℕ) : ℕ → List ℕ
  | 0 => []
  | k + 1 => n / b ^ k % b :: fixed b n k

theorem length_fixed (b n k : ℕ) : (fixed b n k).length = k := by
  induction k with
  | zero => rfl
  | succ k ih => rw [fixed, List.length_cons, ih]

theorem lt_of_mem_fixed {b n k d : ℕ} (hb : 0 < b) (h : d ∈ fixed b n k) : d < b := by
  induction k with
  | zero => exact absurd h List.not_mem_nil
  | succ k ih =>
      rcases List.mem_cons.1 h with rfl | h
      · exact Nat.mod_lt _ hb
      · exact ih h

theorem valueFrom_fixed (b n v k : ℕ) : valueFrom b v (fixed b n k) = v * b ^ k + n % b ^ k := by
  induction k generalizing v with
  | zero => rw [fixed, valueFrom_nil, Nat.pow_zero, Nat.mul_one, Nat.mod_one, Nat.add_zero]
  | succ k ih =>
      have hdigit : n % b ^ (k + 1) = n % b ^ k + b ^ k * (n / b ^ k % b) := Nat.mod_pow_succ
      rw [fixed, valueFrom_cons, ih, hdigit, Nat.pow_succ]
      ring

/-- **The digits determine the number**, if it has no others. -/
theorem value_fixed {b n k : ℕ} (h : n < b ^ k) : value b (fixed b n k) = n := by
  rw [value, valueFrom_fixed, Nat.zero_mul, Nat.zero_add, Nat.mod_eq_of_lt h]

/-! ### Leading zeros -/

/-- A list of digits without its leading zeros; the last zero of a list of zeros stays. -/
def trim (ds : List ℕ) : List ℕ :=
  let rest := ds.dropWhile (· = 0)
  if rest = [] then [0] else rest

theorem value_dropWhile (b : ℕ) (ds : List ℕ) : value b (ds.dropWhile (· = 0)) = value b ds := by
  induction ds with
  | nil => rfl
  | cons d ds ih =>
      rcases eq_or_ne d 0 with rfl | h
      · rw [List.dropWhile_cons_of_pos (by simp), ih, value, value, valueFrom_cons, Nat.zero_mul]
      · rw [List.dropWhile_cons_of_neg (by simpa using h)]

/-- **The numeral of a value is the list without its leading zeros.** -/
theorem numeral_value {b : ℕ} (hb : 1 < b) {ds : List ℕ} (h : ∀ d ∈ ds, d < b) :
    numeral b (value b ds) = trim ds := by
  rw [← value_dropWhile, trim]
  have hmem : ∀ d ∈ ds.dropWhile (· = 0), d < b := fun d hd =>
    h d ((List.dropWhile_sublist _).mem hd)
  have hhead := List.head?_dropWhile_not (· = 0) ds
  generalize ds.dropWhile (· = 0) = es at hmem hhead
  cases es with
  | nil => rfl
  | cons e es =>
      have he : e ≠ 0 := by simpa using hhead
      have hdigits : Nat.digits b (value b (e :: es)) = (e :: es).reverse := by
        rw [value_eq_ofDigits]
        refine Nat.digits_ofDigits b hb _ (fun d hd => hmem d (List.mem_reverse.1 hd)) fun _ => ?_
        rw [List.getLast_reverse]
        exact he
      have hvalue : value b (e :: es) ≠ 0 := by
        rw [← Nat.digits_ne_nil_iff_ne_zero (b := b), hdigits]
        simp
      rw [numeral_of_ne_zero hvalue, hdigits, List.reverse_reverse, if_neg (List.cons_ne_nil _ _)]

/-! ### Overflow -/

/-- **The test for overflow by division is exact**: a number may take one more digit under a bound
just when it does not exceed the quotient. -/
theorem div_lt_iff_overflow {b bound d v : ℕ} (hb : 0 < b) (hd : d ≤ bound) :
    (bound - d) / b < v ↔ bound < v * b + d := by
  rw [Nat.div_lt_iff_lt_mul hb]
  omega

end Positional
