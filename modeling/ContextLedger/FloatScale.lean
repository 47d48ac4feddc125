import ContextLedger.FloatText

/-!
Where the decimal point of a number's shortest text stands. The shortest decimal
lies in the same decade as the number, or at its upper end, so a number of
`10 ^ 16` or more is exactly one whose point stands beyond sixteen digits, and
its shortest decimal is then a whole number.
-/
namespace ContextLedger.FloatText

open Numerals

theorem digits_length_le_iff {n k : ℕ} (hk : 0 < k) : (digits n).length ≤ k ↔ n < 10 ^ k :=
  Nat.length_toDigits_le_iff (by omega) hk

theorem le_of_digits_length {n k : ℕ} (hn : 0 < n) (h : (digits n).length = k + 1) :
    10 ^ k ≤ n := by
  cases k with
  | zero => exact hn
  | succ k =>
    by_contra hlt
    have hle := (digits_length_le_iff (Nat.succ_pos k)).mpr (not_le.mp hlt)
    omega

theorem le_roundHalfEven {a : ℕ} {q : ℚ} (h : (a : ℚ) ≤ q) : a ≤ roundHalfEven q := by
  have hfloor : a ≤ ⌊q⌋₊ := Nat.le_floor h
  rw [roundHalfEven]
  split_ifs <;> omega

theorem roundHalfEven_le {b : ℕ} {q : ℚ} (hq : 0 ≤ q) (h : q ≤ b) : roundHalfEven q ≤ b := by
  have hfloor : ⌊q⌋₊ ≤ b := by
    have hb := Nat.floor_le_floor h
    rwa [Nat.floor_natCast] at hb
  rcases Nat.lt_or_eq_of_le hfloor with hlt | heq
  · rw [roundHalfEven]
    split_ifs <;> omega
  · have hge : (⌊q⌋₊ : ℚ) ≤ q := Nat.floor_le hq
    have hzero : q - ⌊q⌋₊ < 1 / 2 := by
      rw [heq] at hge ⊢
      linarith
    rw [roundHalfEven, if_pos hzero, heq]

theorem Decimal.exponent_strip (fuel : ℕ) (d : Decimal) :
    d.exponent ≤ (strip fuel d).exponent := by
  induction fuel generalizing d with
  | zero => exact le_rfl
  | succ fuel ih =>
    rw [strip]
    split
    · have hle := ih ⟨d.digits / 10, d.exponent + 1⟩
      simp only at hle
      omega
    · exact le_rfl

theorem magnitude_pos {x : Binary64} (h : x.mantissa ≠ 0) : 0 < magnitude x := by
  have hpos : (0 : ℚ) < x.mantissa := by exact_mod_cast Nat.pos_of_ne_zero h
  exact mul_pos hpos (by positivity)

/-- A rounding to a count of digits stays in the decade of the number, up to its end. -/
theorem candidate_bounds {x : Binary64} (h : x.mantissa ≠ 0) (n : ℕ) :
    (10 : ℚ) ^ Int.log 10 (magnitude x) ≤ (candidate x (n + 1)).value ∧
      (candidate x (n + 1)).value ≤ 10 ^ (Int.log 10 (magnitude x) + 1) := by
  have hq := magnitude_pos h
  have hlow := Int.zpow_log_le_self (b := 10) (by norm_num) hq
  have hhigh := Int.lt_zpow_succ_log_self (b := 10) (by norm_num) (magnitude x)
  simp only [candidate, Decimal.value_strip]
  simp only [Decimal.value]
  generalize hlog : Int.log 10 (magnitude x) = log at hlow hhigh ⊢
  have hunit : (0 : ℚ) < 10 ^ (log + 1 - ((n + 1 : ℕ) : ℤ)) := by positivity
  have hscale (k : ℕ) (e : ℤ) (he : e = k + (log + 1 - ((n + 1 : ℕ) : ℤ))) :
      (10 : ℚ) ^ e = ((10 ^ k : ℕ) : ℚ) * 10 ^ (log + 1 - ((n + 1 : ℕ) : ℤ)) := by
    rw [he, zpow_add₀ (by norm_num), zpow_natCast]
    push_cast
    rfl
  have hbelow := hscale n log (by push_cast; ring)
  have habove := hscale (n + 1) (log + 1) (by push_cast; ring)
  push_cast at hlow hhigh
  rw [hbelow] at hlow ⊢
  rw [habove] at hhigh ⊢
  constructor
  · apply mul_le_mul_of_nonneg_right _ hunit.le
    exact_mod_cast le_roundHalfEven ((le_div_iff₀ hunit).mpr hlow)
  · apply mul_le_mul_of_nonneg_right _ hunit.le
    exact_mod_cast roundHalfEven_le (by positivity) ((div_le_iff₀ hunit).mpr hhigh.le)

theorem exponent_candidate (x : Binary64) (n : ℕ) :
    Int.log 10 (magnitude x) + 1 - n ≤ (candidate x n).exponent := by
  rw [candidate]
  exact Decimal.exponent_strip n _

/-- The shortest decimal is zero, one of the roundings or exact. -/
theorem shortest_cases {x : Binary64} (h : x.mantissa ≠ 0) :
    (∃ n < 17, shortest x = candidate x (n + 1)) ∨ shortest x = exactDecimal x := by
  rw [shortest, if_neg h]
  cases hfind : ((List.range 17).map fun n => candidate x (n + 1)).find? fun d =>
      decide (nearest x.negative d.value = some x) with
  | none => exact Or.inr rfl
  | some d =>
    obtain ⟨n, hn, rfl⟩ := List.mem_map.mp (List.mem_of_find?_eq_some hfind)
    exact Or.inl ⟨n, List.mem_range.mp hn, rfl⟩

/-- `10 ^ 16` itself is one of the numbers. -/
def tenToSixteen (negative : Bool) : Binary64 :=
  ⟨negative, 5000000000000000, 1, by norm_num, by norm_num, by norm_num, Or.inr (by norm_num)⟩

theorem magnitude_tenToSixteen (negative : Bool) : magnitude (tenToSixteen negative) = 10 ^ 16 := by
  norm_num [magnitude, tenToSixteen]

theorem eq_of_nearest_tenToSixteen {x : Binary64} (h : nearest x.negative (10 ^ 16) = some x) :
    magnitude x = 10 ^ 16 := by
  have hself := nearest_magnitude (tenToSixteen x.negative)
  rw [magnitude_tenToSixteen] at hself
  rw [← Option.some.inj (hself.symm.trans h), magnitude_tenToSixteen]

theorem le_shortest_value_iff (x : Binary64) :
    10 ^ 16 ≤ (shortest x).value ↔ 10 ^ 16 ≤ magnitude x := by
  by_cases h : x.mantissa = 0
  · norm_num [shortest, h, Decimal.value, magnitude]
  have hq := magnitude_pos h
  rcases shortest_cases h with ⟨n, -, hshort⟩ | hshort
  · obtain ⟨hlow, hhigh⟩ := candidate_bounds h n
    rw [← hshort] at hlow hhigh
    constructor
    · intro hvalue
      by_contra hlt
      have hlog : Int.log 10 (magnitude x) < 16 := by
        apply (Int.lt_zpow_iff_log_lt (by norm_num) hq).mp
        norm_num at hlt ⊢
        exact hlt
      have hle : (10 : ℚ) ^ (Int.log 10 (magnitude x) + 1) ≤ 10 ^ (16 : ℤ) :=
        zpow_le_zpow_right₀ (by norm_num) (by omega)
      have heq : (shortest x).value = 10 ^ 16 := by
        norm_num at hle hvalue ⊢
        linarith
      have hnearest := nearest_shortest x
      rw [heq] at hnearest
      exact hlt (eq_of_nearest_tenToSixteen hnearest).ge
    · intro hmag
      have hlog : 16 ≤ Int.log 10 (magnitude x) := by
        apply (Int.zpow_le_iff_le_log (by norm_num) hq).mp
        norm_num at hmag ⊢
        exact hmag
      have hle : (10 : ℚ) ^ (16 : ℤ) ≤ 10 ^ Int.log 10 (magnitude x) :=
        zpow_le_zpow_right₀ (by norm_num) hlog
      norm_num at hle ⊢
      linarith
  · rw [hshort, value_exactDecimal]

theorem shortest_digits_pos {x : Binary64} (h : x.mantissa ≠ 0) : 0 < (shortest x).digits := by
  by_contra hzero
  have hdigits : (shortest x).digits = 0 := by omega
  have hnearest := nearest_shortest x
  rw [Decimal.value, hdigits, Nat.cast_zero, zero_mul, nearest, if_pos rfl] at hnearest
  exact h (by rw [← Option.some.inj hnearest]; rfl)

theorem le_shortest_value_iff_pointPosition {x : Binary64} (h : x.mantissa ≠ 0) :
    10 ^ 16 ≤ (shortest x).value ↔ 16 < pointPosition x := by
  have hpos := shortest_digits_pos h
  obtain ⟨k, hk⟩ : ∃ k, (digits (shortest x).digits).length = k + 1 :=
    Nat.exists_eq_succ_of_ne_zero (by simp [digits_ne_nil])
  have hlow : ((10 ^ k : ℕ) : ℚ) ≤ (shortest x).digits := by
    exact_mod_cast le_of_digits_length hpos hk
  have hhigh : ((shortest x).digits : ℚ) < ((10 ^ (k + 1) : ℕ) : ℚ) := by
    exact_mod_cast (digits_length_le_iff (Nat.succ_pos k)).mp hk.le
  have hunit : (0 : ℚ) < 10 ^ (shortest x).exponent := by positivity
  rw [pointPosition, hk, Decimal.value]
  constructor
  · intro hvalue
    have hlt : (10 : ℚ) ^ (16 : ℤ) < 10 ^ (((k + 1 : ℕ) : ℤ) + (shortest x).exponent) := by
      rw [zpow_add₀ (by norm_num), zpow_natCast]
      push_cast at hhigh
      have hmul := mul_lt_mul_of_pos_right hhigh hunit
      norm_num at hvalue ⊢
      linarith
    exact (zpow_lt_zpow_iff_right₀ (by norm_num)).mp hlt
  · intro hpoint
    have hle : (10 : ℚ) ^ (16 : ℤ) ≤ 10 ^ ((k : ℤ) + (shortest x).exponent) := by
      apply zpow_le_zpow_right₀ (by norm_num)
      push_cast at hpoint
      omega
    rw [zpow_add₀ (by norm_num), zpow_natCast] at hle
    push_cast at hlow
    have hmul := mul_le_mul_of_nonneg_right hlow hunit.le
    norm_num at hle ⊢
    linarith

/-- From `10 ^ 16` on the text has an exponent. -/
theorem pointPosition_gt_iff (x : Binary64) : 16 < pointPosition x ↔ 10 ^ 16 ≤ magnitude x := by
  by_cases h : x.mantissa = 0
  · norm_num [pointPosition, shortest, h, magnitude, digits]
  · rw [← le_shortest_value_iff_pointPosition h, le_shortest_value_iff]

/-- From `10 ^ 16` on the shortest decimal is a whole number. -/
theorem shortest_exponent_nonneg {x : Binary64} (h : 10 ^ 16 ≤ magnitude x) :
    0 ≤ (shortest x).exponent := by
  have hne : x.mantissa ≠ 0 := by
    rintro hzero
    norm_num [magnitude, hzero] at h
  have hq := magnitude_pos hne
  rcases shortest_cases hne with ⟨n, hn, hshort⟩ | hshort
  · have hlog : 16 ≤ Int.log 10 (magnitude x) := by
      apply (Int.zpow_le_iff_le_log (by norm_num) hq).mp
      norm_num at h ⊢
      exact h
    have hexp := exponent_candidate x (n + 1)
    rw [hshort]
    push_cast at hexp
    omega
  · have hexp : 0 ≤ x.exponent := by
      by_contra hneg
      have hone : (2 : ℚ) ^ x.exponent ≤ 1 := zpow_le_one_of_nonpos₀ (by norm_num) (by omega)
      have hlt : (x.mantissa : ℚ) < 2 ^ 53 := by exact_mod_cast x.mantissa_lt
      have hmul := mul_le_mul_of_nonneg_left hone (Nat.cast_nonneg (α := ℚ) x.mantissa)
      rw [magnitude] at h
      norm_num at h
      linarith
    rw [hshort, exactDecimal, if_pos hexp]

end ContextLedger.FloatText
