import ContextLedger.Numerals
import Mathlib.Data.Int.Log
import Mathlib.Data.Rat.Floor
import Mathlib.Algebra.Order.Floor.Semifield
import Mathlib.Tactic.LinearCombination
import Mathlib.Tactic.Positivity
import Mathlib.Tactic.NormNum

/-!
Finite binary64 numbers, reading a decimal as the nearest of them, and the
shortest decimal that reads back as a given number. Writing follows the usual
rule for that decimal: positional notation for decimal points from four places
left of the digits to sixteen places into them, an exponent otherwise.
-/
namespace ContextLedger.FloatText

open Numerals

/-- A sign and `mantissa * 2 ^ exponent`; subnormal numbers have the least
exponent, all others a mantissa of full length, so equal numbers are equal. -/
structure Binary64 where
  negative : Bool
  mantissa : ℕ
  exponent : ℤ
  mantissa_lt : mantissa < 2 ^ 53
  exponent_ge : -1074 ≤ exponent
  exponent_le : exponent ≤ 971
  normal : exponent = -1074 ∨ 2 ^ 52 ≤ mantissa
  deriving DecidableEq

def zero (negative : Bool) : Binary64 :=
  ⟨negative, 0, -1074, by norm_num, by norm_num, by norm_num, Or.inl rfl⟩

def magnitude (x : Binary64) : ℚ := x.mantissa * 2 ^ x.exponent

/-- Ties go to the even neighbour. -/
def roundHalfEven (q : ℚ) : ℕ :=
  if q - ⌊q⌋₊ < 1 / 2 then ⌊q⌋₊
  else if 1 / 2 < q - ⌊q⌋₊ then ⌊q⌋₊ + 1
  else if ⌊q⌋₊ % 2 = 0 then ⌊q⌋₊ else ⌊q⌋₊ + 1

theorem roundHalfEven_natCast (n : ℕ) : roundHalfEven (n : ℚ) = n := by
  simp [roundHalfEven]

/-- The exponent of the unit in the last place at magnitude `q`. -/
def unitExponent (q : ℚ) : ℤ := max (-1074) (Int.log 2 q - 52)

/-- The number nearest to a magnitude, with the given sign. A mantissa rounded
up to the next power of two moves to the next exponent; `none` is an overflow. -/
def nearest (negative : Bool) (q : ℚ) : Option Binary64 :=
  if q = 0 then some (zero negative)
  else
    let e := unitExponent q
    let m := roundHalfEven (q / 2 ^ e)
    if h : m < 2 ^ 53 ∧ -1074 ≤ e ∧ e ≤ 971 ∧ (e = -1074 ∨ 2 ^ 52 ≤ m) then
      some ⟨negative, m, e, h.1, h.2.1, h.2.2.1, h.2.2.2⟩
    else if h : -1074 ≤ e ∧ e + 1 ≤ 971 then
      some ⟨negative, 2 ^ 52, e + 1, by norm_num, by omega, h.2, Or.inr le_rfl⟩
    else none

private theorem unitExponent_magnitude (x : Binary64) (h : x.mantissa ≠ 0) :
    unitExponent (magnitude x) = x.exponent := by
  have hpos : (0 : ℚ) < x.mantissa := by exact_mod_cast Nat.pos_of_ne_zero h
  have hq : 0 < magnitude x := mul_pos hpos (by positivity)
  have hupper : magnitude x < (2 : ℕ) ^ (x.exponent + 53) := by
    rw [zpow_add₀ (by norm_num), magnitude, mul_comm]
    apply mul_lt_mul_of_pos_left _ (by positivity)
    exact_mod_cast x.mantissa_lt
  have hlog : Int.log 2 (magnitude x) < x.exponent + 53 :=
    (Int.lt_zpow_iff_log_lt (by norm_num) hq).mp hupper
  have hge := x.exponent_ge
  rcases x.normal with hsub | hnormal
  · rw [unitExponent]
    omega
  · have hlower : ((2 : ℕ) : ℚ) ^ (x.exponent + 52) ≤ magnitude x := by
      rw [zpow_add₀ (by norm_num), magnitude, mul_comm]
      apply mul_le_mul_of_nonneg_right _ (by positivity)
      exact_mod_cast hnormal
    have hlog' : x.exponent + 52 ≤ Int.log 2 (magnitude x) :=
      (Int.zpow_le_iff_le_log (by norm_num) hq).mp hlower
    rw [unitExponent]
    omega

/-- A number is the nearest one to its own magnitude. -/
theorem nearest_magnitude (x : Binary64) : nearest x.negative (magnitude x) = some x := by
  by_cases h : x.mantissa = 0
  · have hexp : x.exponent = -1074 := by
      rcases x.normal with hsub | hnormal
      · exact hsub
      · rw [h] at hnormal
        norm_num at hnormal
    have hq : magnitude x = 0 := by simp [magnitude, h]
    rw [nearest, if_pos hq]
    obtain ⟨negative, mantissa, exponent, _, _, _, _⟩ := x
    simp_all [zero]
  · have hq : magnitude x ≠ 0 := by
      have hpos : (0 : ℚ) < x.mantissa := by exact_mod_cast Nat.pos_of_ne_zero h
      exact ne_of_gt (mul_pos hpos (by positivity))
    have hdiv : magnitude x / 2 ^ x.exponent = (x.mantissa : ℚ) := by
      rw [magnitude, mul_div_assoc, div_self (by positivity), mul_one]
    simp only [nearest, if_neg hq, unitExponent_magnitude x h, hdiv, roundHalfEven_natCast]
    rw [dif_pos ⟨x.mantissa_lt, x.exponent_ge, x.exponent_le, x.normal⟩]

/-- `digits * 10 ^ exponent`. -/
structure Decimal where
  digits : ℕ
  exponent : ℤ
  deriving DecidableEq

namespace Decimal

def value (d : Decimal) : ℚ := d.digits * 10 ^ d.exponent

/-- Drop trailing zeros of the digits, at most as many as the fuel allows. -/
def strip : ℕ → Decimal → Decimal
  | 0, d => d
  | fuel + 1, d =>
    if d.digits % 10 = 0 then strip fuel ⟨d.digits / 10, d.exponent + 1⟩ else d

theorem value_strip (fuel : ℕ) (d : Decimal) : (strip fuel d).value = d.value := by
  induction fuel generalizing d with
  | zero => rfl
  | succ fuel ih =>
    rw [strip]
    split
    · rename_i h
      have hdigits : ((d.digits / 10 : ℕ) : ℚ) * 10 = d.digits := by
        exact_mod_cast Nat.div_mul_cancel (Nat.dvd_of_mod_eq_zero h)
      rw [ih, value, value, zpow_add₀ (by norm_num), zpow_one, ← hdigits]
      ring
    · rfl

end Decimal

/-- The magnitude rounded to `n` significant decimal digits. -/
def candidate (x : Binary64) (n : ℕ) : Decimal :=
  let unit := Int.log 10 (magnitude x) + 1 - n
  Decimal.strip n ⟨roundHalfEven (magnitude x / 10 ^ unit), unit⟩

/-- All decimal digits of the magnitude. -/
def exactDecimal (x : Binary64) : Decimal :=
  if 0 ≤ x.exponent then ⟨x.mantissa * 2 ^ x.exponent.toNat, 0⟩
  else ⟨x.mantissa * 5 ^ x.exponent.natAbs, x.exponent⟩

/-- The first of the roundings to 1, 2, ... 17 digits that reads back as `x`.
Seventeen digits always suffice; the exact decimal only makes this total. -/
def shortest (x : Binary64) : Decimal :=
  if x.mantissa = 0 then ⟨0, 0⟩
  else
    (((List.range 17).map fun n => candidate x (n + 1)).find? fun d =>
      decide (nearest x.negative d.value = some x)).getD (exactDecimal x)

theorem value_exactDecimal (x : Binary64) : (exactDecimal x).value = magnitude x := by
  rw [exactDecimal]
  split
  · rename_i h
    have hexp : (2 : ℚ) ^ x.exponent = 2 ^ x.exponent.toNat := by
      rw [← zpow_natCast, Int.toNat_of_nonneg h]
    rw [Decimal.value, magnitude, hexp]
    push_cast
    ring
  · rename_i h
    have habs : ((x.exponent.natAbs : ℕ) : ℤ) = -x.exponent := by omega
    have hten : (10 : ℚ) ^ x.exponent = 5 ^ x.exponent * 2 ^ x.exponent := by
      rw [← mul_zpow]
      norm_num
    have hfive : (5 : ℚ) ^ x.exponent.natAbs * 5 ^ x.exponent = 1 := by
      rw [← zpow_natCast, habs, ← zpow_add₀ (by norm_num)]
      simp
    rw [Decimal.value, magnitude, hten]
    push_cast
    linear_combination (x.mantissa : ℚ) * 2 ^ x.exponent * hfive

/-- The shortest decimal reads back as the number it was made from. -/
theorem nearest_shortest (x : Binary64) : nearest x.negative (shortest x).value = some x := by
  rw [shortest]
  split
  · rename_i h
    have hzero : (Decimal.value ⟨0, 0⟩ : ℚ) = magnitude x := by simp [Decimal.value, magnitude, h]
    rw [hzero]
    exact nearest_magnitude x
  · cases hfind : ((List.range 17).map fun n => candidate x (n + 1)).find? fun d =>
        decide (nearest x.negative d.value = some x) with
    | none =>
      rw [Option.getD_none, value_exactDecimal]
      exact nearest_magnitude x
    | some d =>
      have hd := List.find?_some hfind
      exact of_decide_eq_true hd

/-- How many places the decimal point stands right of the first digit's left edge. -/
def pointPosition (x : Binary64) : ℤ :=
  (digits (shortest x).digits).length + (shortest x).exponent

/-- The text form: an exponent when the point is four or more places left of
the digits or more than sixteen right of their start, positional otherwise. -/
def repr (x : Binary64) : Literal :=
  let d := shortest x
  if pointPosition x ≤ -4 ∨ 16 < pointPosition x then
    ⟨x.negative, d.digits, (digits d.digits).length - 1, some (pointPosition x - 1)⟩
  else if 0 ≤ d.exponent then ⟨x.negative, d.digits * 10 ^ (d.exponent.toNat + 1), 1, none⟩
  else ⟨x.negative, d.digits, d.exponent.natAbs, none⟩

end ContextLedger.FloatText
