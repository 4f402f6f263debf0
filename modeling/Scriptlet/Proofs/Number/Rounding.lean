import Mathlib.Algebra.Order.Field.Power
import Mathlib.Data.Int.Log
import Mathlib.Data.Rat.Floor
import Mathlib.Tactic.FieldSimp
import Mathlib.Tactic.Linarith
import Mathlib.Tactic.NormNum
import Mathlib.Tactic.Positivity
import Scriptlet.Number.Basic

/-!
# Rounding

What the bits of a number denote, and that rounding a quotient of naturals never leaves the
nonnegative numbers and **changes nothing that a number can represent** (`ofRatio_of_value`).

* `Number.value`: the magnitude of a finite number as a rational.
* `magnitude_eq`: the bits count the representable magnitudes upwards from zero.
* `unitExponent_eq`: the unit of rounding lies 52 binary places below the first one of the
  quotient, but not below that of the subnormal numbers.
-/

namespace Scriptlet

namespace Number

/-! ## Fields -/

theorem eq_of_toNat_bits {x y : Number} (h : x.bits.toNat = y.bits.toNat) : x = y :=
  congrArg mk (UInt64.toNat_inj.mp h)

theorem fraction_lt (x : Number) : x.fraction < 2 ^ 52 := by
  unfold fraction
  rw [UInt64.toNat_mod]
  exact Nat.mod_lt _ (by decide)

theorem magnitude_eq_fields (x : Number) : x.magnitude = x.biased * 2 ^ 52 + x.fraction := by
  unfold magnitude biased fraction
  simp only [UInt64.toNat_mod, UInt64.toNat_div, UInt64.reduceToNat]
  omega

/-- **The bits count the representable magnitudes**: each step of the exponent adds as many as
there are fractions. -/
theorem magnitude_eq (x : Number) :
    x.magnitude = (x.exponent + 1074).toNat * 2 ^ 52 + x.significand := by
  rw [magnitude_eq_fields]
  unfold exponent significand
  split_ifs with h
  · rw [h]
    rfl
  · omega

theorem significand_lt (x : Number) : x.significand < 2 ^ 53 := by
  have hfraction := x.fraction_lt
  unfold significand
  split_ifs <;> omega

theorem le_exponent (x : Number) : -1074 ≤ x.exponent := by
  unfold exponent
  omega

theorem exponent_eq_or (x : Number) : x.exponent = -1074 ∨ 2 ^ 52 ≤ x.significand := by
  unfold exponent significand
  split_ifs with h
  · left
    rw [h]
    rfl
  · right
    omega

theorem biased_lt (x : Number) : x.biased < 2048 := by
  unfold biased
  rw [UInt64.toNat_mod]
  exact Nat.mod_lt _ (by decide)

theorem isFinite_iff {x : Number} : x.isFinite ↔ x.magnitude < infinityBits := by
  have hbiased := x.biased_lt
  have hfraction := x.fraction_lt
  rw [magnitude_eq_fields, isFinite, infinityBits, bne_iff_ne]
  omega

theorem isNaN_iff {x : Number} : x.isNaN ↔ infinityBits < x.magnitude := by
  have hbiased := x.biased_lt
  have hfraction := x.fraction_lt
  rw [magnitude_eq_fields, isNaN, infinityBits, Bool.and_eq_true, beq_iff_eq, bne_iff_ne]
  omega

theorem negative_iff {x : Number} : x.negative ↔ 2 ^ 63 ≤ x.bits.toNat := by
  unfold negative
  rw [decide_eq_true_iff, UInt64.le_iff_toNat_le]
  rfl

theorem abs_eq (x : Number) : x.abs = ⟨.ofNat x.magnitude⟩ := by
  rw [abs, magnitude, UInt64.ofNat_toNat]

theorem abs_of_bits_le {x : Number} (h : x.bits.toNat ≤ infinityBits) : x.abs = x := by
  unfold infinityBits at h
  rw [abs_eq, magnitude, UInt64.toNat_mod, Nat.mod_eq_of_lt, UInt64.ofNat_toNat]
  simp only [UInt64.reduceToNat]
  omega

/-! ## Values -/

/-- The magnitude that a finite number denotes. -/
def value (x : Number) : ℚ := x.significand * 2 ^ x.exponent

theorem value_nonneg (x : Number) : 0 ≤ x.value := by
  unfold value
  positivity

theorem shiftLeft_pos {n : Nat} (h : 0 < n) (k : Nat) : 0 < n <<< k := by
  rw [Nat.shiftLeft_eq]
  exact Nat.mul_pos h (Nat.two_pow_pos k)

theorem shifted_div (num den : Nat) (e : Int) :
    ((num <<< (-e).toNat : Nat) : ℚ) / (den <<< e.toNat : Nat) = num / den * 2 ^ (-e) := by
  have hpow : (2 : ℚ) ^ (-e) = 2 ^ (-e).toNat / 2 ^ e.toNat := by
    rw [← zpow_natCast, ← zpow_natCast, ← zpow_sub₀ two_ne_zero]
    congr 1
    omega
  rw [hpow, Nat.shiftLeft_eq, Nat.shiftLeft_eq]
  push_cast
  rw [mul_div_mul_comm]

theorem ratio_value (x : Number) : (x.ratio.1 : ℚ) / x.ratio.2 = x.value := by
  have h := shifted_div x.significand 1 (-x.exponent)
  rwa [neg_neg, Nat.cast_one, div_one] at h

theorem ratio_pos (x : Number) : 0 < x.ratio.2 := shiftLeft_pos Nat.one_pos _

/-! ## The unit of rounding -/

/-- The first one of a quotient lies at the difference of the places of those of its two sides,
or at the place below. -/
theorem log_div_bounds {num den : Nat} (hnum : 0 < num) (hden : 0 < den) :
    (num.log2 : Int) - den.log2 - 1 ≤ Int.log 2 ((num : ℚ) / den) ∧
      Int.log 2 ((num : ℚ) / den) < (num.log2 : Int) - den.log2 + 1 := by
  have hden' : (0 : ℚ) < den := by exact_mod_cast hden
  have hq : (0 : ℚ) < num / den := div_pos (by exact_mod_cast hnum) hden'
  rw [← Int.zpow_le_iff_le_log one_lt_two hq, ← Int.lt_zpow_iff_log_lt one_lt_two hq,
    le_div_iff₀ hden', div_lt_iff₀ hden', Nat.cast_ofNat]
  constructor
  · have hnumLow : (2 : ℚ) ^ (num.log2 : Int) ≤ num := by
      exact_mod_cast Nat.log2_self_le hnum.ne'
    have hdenHigh : (den : ℚ) ≤ 2 ^ (den.log2 + 1 : Int) := by
      exact_mod_cast Nat.lt_log2_self.le
    calc (2 : ℚ) ^ ((num.log2 : Int) - den.log2 - 1) * den
        ≤ 2 ^ ((num.log2 : Int) - den.log2 - 1) * 2 ^ (den.log2 + 1 : Int) := by gcongr
      _ = 2 ^ (num.log2 : Int) := by
          rw [← zpow_add₀ two_ne_zero]
          congr 1
          omega
      _ ≤ num := hnumLow
  · have hnumHigh : (num : ℚ) < 2 ^ (num.log2 + 1 : Int) := by
      exact_mod_cast Nat.lt_log2_self (n := num)
    have hdenLow : (2 : ℚ) ^ (den.log2 : Int) ≤ den := by
      exact_mod_cast Nat.log2_self_le hden.ne'
    calc (num : ℚ) < 2 ^ (num.log2 + 1 : Int) := hnumHigh
      _ = 2 ^ ((num.log2 : Int) - den.log2 + 1) * 2 ^ (den.log2 : Int) := by
          rw [← zpow_add₀ two_ne_zero]
          congr 1
          omega
      _ ≤ 2 ^ ((num.log2 : Int) - den.log2 + 1) * den := by gcongr

/-- The unit of rounding lies 52 binary places below the first one of the quotient. -/
theorem unitExponent_eq {num den : Nat} (hnum : 0 < num) (hden : 0 < den) :
    unitExponent num den = max (Int.log 2 ((num : ℚ) / den) - 52) (-1074) := by
  have hq : (0 : ℚ) < num / den := div_pos (by exact_mod_cast hnum) (by exact_mod_cast hden)
  obtain ⟨hlow, hhigh⟩ := log_div_bounds hnum hden
  unfold unitExponent
  dsimp only
  generalize he : (num.log2 : Int) - den.log2 - 53 = e
  have hfits : num <<< (-e).toNat < den <<< (53 + e.toNat) ↔
      Int.log 2 ((num : ℚ) / den) < e + 53 := by
    have hshift := shiftLeft_pos hden e.toNat
    have hscale : (2 : ℚ) ^ (e + 53) = 2 ^ 53 * 2 ^ e := by
      rw [add_comm, zpow_add₀ two_ne_zero]
      rfl
    rw [← Int.lt_zpow_iff_log_lt one_lt_two hq, Nat.cast_ofNat, hscale,
      ← div_lt_iff₀ (zpow_pos two_pos e), div_eq_mul_inv, ← zpow_neg, ← shifted_div,
      div_lt_iff₀ (by exact_mod_cast hshift), Nat.add_comm, Nat.shiftLeft_add,
      Nat.shiftLeft_eq _ 53, mul_comm]
    exact_mod_cast Iff.rfl
  simp only [hfits]
  split_ifs <;> omega

/-! ## Exact quotients -/

theorem roundDiv_mul_right {m den : Nat} (hden : 0 < den) : roundDiv (m * den) den = m := by
  unfold roundDiv
  dsimp only
  rw [Nat.mul_div_cancel m hden, Nat.mul_mod_left, if_neg (by omega)]

theorem nearestBits_le (num den : Nat) : nearestBits num den ≤ infinityBits := by
  unfold nearestBits
  split_ifs
  · exact Nat.zero_le _
  · exact min_le_right _ _

theorem bits_ofRatio (num den : Nat) : (ofRatio num den).bits.toNat = nearestBits num den := by
  have hle := nearestBits_le num den
  unfold infinityBits at hle
  exact UInt64.toNat_ofNat_of_lt' (by rw [UInt64.size]; omega)

theorem max_log_value {x : Number} (hx : x.significand ≠ 0) :
    max (Int.log 2 x.value - 52) (-1074) = x.exponent := by
  have hpos : (0 : ℚ) < x.significand := by exact_mod_cast Nat.pos_of_ne_zero hx
  have hvalue : 0 < x.value := mul_pos hpos (zpow_pos two_pos _)
  have hhigh : Int.log 2 x.value < x.exponent + 53 := by
    rw [← Int.lt_zpow_iff_log_lt one_lt_two hvalue, Nat.cast_ofNat, add_comm,
      zpow_add₀ two_ne_zero]
    have hlt : (x.significand : ℚ) < 2 ^ (53 : Int) := by exact_mod_cast x.significand_lt
    unfold value
    gcongr
  have hexponent := x.le_exponent
  rcases x.exponent_eq_or with h | h
  · omega
  · have hlow : x.exponent + 52 ≤ Int.log 2 x.value := by
      rw [← Int.zpow_le_iff_le_log one_lt_two hvalue, Nat.cast_ofNat, add_comm,
        zpow_add₀ two_ne_zero]
      have hle : (2 : ℚ) ^ (52 : Int) ≤ x.significand := by exact_mod_cast h
      unfold value
      gcongr
    omega

/-- **Rounding changes nothing that a number can represent.** -/
theorem ofRatio_of_value {x : Number} {num den : Nat} (hx : x.isFinite) (hden : 0 < den)
    (h : (num : ℚ) / den = x.value) : ofRatio num den = x.abs := by
  rw [abs_eq, ofRatio]
  congr 2
  have hmagnitude := isFinite_iff.mp hx
  have hden' : (den : ℚ) ≠ 0 := by exact_mod_cast hden.ne'
  unfold nearestBits
  split_ifs with hnum
  · have hzero : x.significand = 0 := by
      rw [hnum, Nat.cast_zero, zero_div] at h
      have hpow : (2 : ℚ) ^ x.exponent ≠ 0 := zpow_ne_zero _ two_ne_zero
      exact_mod_cast (mul_eq_zero.mp h.symm).resolve_right hpow
    rcases x.exponent_eq_or with he | he
    · rw [magnitude_eq, hzero, he]
      rfl
    · omega
  · have hsig : x.significand ≠ 0 := by
      intro hzero
      rw [value, hzero, Nat.cast_zero, zero_mul, div_eq_zero_iff] at h
      exact h.elim (fun h => hnum (by exact_mod_cast h)) hden'
    have hunit : unitExponent num den = x.exponent := by
      rw [unitExponent_eq (Nat.pos_of_ne_zero hnum) hden, h, max_log_value hsig]
    have hshift := shiftLeft_pos hden x.exponent.toNat
    -- measured in units the quotient is the significand itself
    have hexact : num <<< (-x.exponent).toNat = x.significand * den <<< x.exponent.toNat := by
      have hscaled := shifted_div num den x.exponent
      have hne : ((den <<< x.exponent.toNat : Nat) : ℚ) ≠ 0 := by exact_mod_cast hshift.ne'
      rw [h, value, mul_assoc, ← zpow_add₀ two_ne_zero, add_neg_cancel, zpow_zero, mul_one,
        div_eq_iff hne] at hscaled
      exact_mod_cast hscaled
    dsimp only
    rw [hunit, hexact, roundDiv_mul_right hshift, Nat.shiftLeft_eq, ← magnitude_eq]
    exact min_eq_left hmagnitude.le

end Number

end Scriptlet
