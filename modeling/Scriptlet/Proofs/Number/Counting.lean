import Scriptlet.Proofs.Number.Rounding

/-!
# Counting with numbers

An integer is countable when its magnitude is at most `2 ^ 53 - 1`. A number has 53 binary places,
so that shifting a countable integer until its first one is the leading bit gives a significand,
and **rounding loses nothing**.

* `Number.rational`: what a finite number denotes, with its sign.
* `Number.Denotes`: a finite number that is an integer.
* `denotes_ofInt`: **a countable integer converts to the number that it is**.
* `toInt_eq`: which integer is read off a number, and why none is read.
* `conversions_exact`: **the two conversions are exact and inverse to each other**.
-/

namespace Scriptlet

namespace Number

/-! ## Countable integers -/

/-- Integers of magnitude at most `2 ^ 53 - 1`. -/
def Countable (i : Int) : Prop := i.natAbs ≤ countLimit

instance (i : Int) : Decidable (Countable i) :=
  inferInstanceAs (Decidable (i.natAbs ≤ countLimit))

theorem Countable.between {lo i hi : Int} (hlo : Countable lo) (hhi : Countable hi) (hle : lo ≤ i)
    (hlt : i ≤ hi) : Countable i := by
  unfold Countable at *
  omega

theorem Countable.lt {i : Int} (h : Countable i) : i.natAbs < 2 ^ 53 := by
  unfold Countable countLimit at h
  omega

theorem ofInt?_of_countable {i : Int} (h : Countable i) : ofInt? i = some (ofInt i) := if_pos h

/-! ## Signs -/

theorem magnitude_eq_mod (x : Number) : x.magnitude = x.bits.toNat % 2 ^ 63 := by
  rw [magnitude, UInt64.toNat_mod]
  rfl

theorem bits_neg (x : Number) : (-x).bits.toNat = (x.bits.toNat + 2 ^ 63) % 2 ^ 64 :=
  UInt64.toNat_add x.bits 0x8000000000000000

theorem magnitude_neg (x : Number) : (-x).magnitude = x.magnitude := by
  rw [magnitude_eq_mod, magnitude_eq_mod, bits_neg]
  omega

theorem negative_neg {x : Number} (h : x.negative = false) : (-x).negative := by
  have hbits : ¬ 2 ^ 63 ≤ x.bits.toNat := by rw [← negative_iff, h]; exact Bool.false_ne_true
  rw [negative_iff, bits_neg]
  omega

theorem value_of_magnitude_eq {x y : Number} (h : x.magnitude = y.magnitude) :
    x.value = y.value := by
  rw [magnitude_eq_fields, magnitude_eq_fields] at h
  have hx := x.fraction_lt
  have hy := y.fraction_lt
  have hbiased : x.biased = y.biased := by omega
  have hfraction : x.fraction = y.fraction := by omega
  unfold value significand exponent
  rw [hbiased, hfraction]

/-! ## Conversion -/

/-- What a finite number denotes. -/
def rational (x : Number) : ℚ := if x.negative then -x.value else x.value

/-- **A number that is an integer.** -/
def Denotes (x : Number) (i : Int) : Prop := x.isFinite ∧ x.rational = i

theorem magnitude_ofRatio (num den : Nat) : (ofRatio num den).magnitude = nearestBits num den := by
  have hle := nearestBits_le num den
  unfold infinityBits at hle
  rw [magnitude_eq_mod, bits_ofRatio]
  omega

theorem negative_ofRatio (num den : Nat) : (ofRatio num den).negative = false := by
  have hle := nearestBits_le num den
  unfold infinityBits at hle
  rw [Bool.eq_false_iff, ne_eq, negative_iff, bits_ofRatio]
  omega

theorem value_of_magnitude {x : Number} {k s : Nat} (h : x.magnitude = k * 2 ^ 52 + s)
    (hlow : 2 ^ 52 ≤ s) (hhigh : s < 2 ^ 53) : x.value = s * 2 ^ ((k : Int) - 1074) := by
  rw [magnitude_eq_fields] at h
  have hfraction := x.fraction_lt
  have hbiased : x.biased = k + 1 := by omega
  have hsignificand : x.significand = s := by
    unfold significand
    rw [if_neg (by omega)]
    omega
  have hexponent : x.exponent = (k : Int) - 1074 := by
    unfold exponent
    omega
  rw [value, hsignificand, hexponent]

theorem log_le_of_lt {m : Nat} (hpos : 0 < m) (hlt : m < 2 ^ 53) : Nat.log 2 m ≤ 52 :=
  Nat.le_of_lt_succ (Nat.log_lt_of_lt_pow hpos.ne' hlt)

theorem scaled_bounds {m : Nat} (hpos : 0 < m) (hlt : m < 2 ^ 53) :
    2 ^ 52 ≤ m * 2 ^ (52 - Nat.log 2 m) ∧ m * 2 ^ (52 - Nat.log 2 m) < 2 ^ 53 := by
  have hlog := log_le_of_lt hpos hlt
  constructor
  · calc 2 ^ 52 = 2 ^ Nat.log 2 m * 2 ^ (52 - Nat.log 2 m) := by
          rw [← Nat.pow_add, Nat.add_sub_cancel' hlog]
      _ ≤ m * 2 ^ (52 - Nat.log 2 m) := by
          gcongr
          exact Nat.pow_log_le_self 2 hpos.ne'
  · calc m * 2 ^ (52 - Nat.log 2 m)
        < 2 ^ (Nat.log 2 m + 1) * 2 ^ (52 - Nat.log 2 m) := by
          gcongr
          exact Nat.lt_pow_succ_log_self (by decide) m
      _ = 2 ^ 53 := by
          rw [← Nat.pow_add]
          congr 1
          omega

theorem nearestBits_nat {m : Nat} (hpos : 0 < m) (hlt : m < 2 ^ 53) :
    nearestBits m 1 = (Nat.log 2 m + 1022) * 2 ^ 52 + m * 2 ^ (52 - Nat.log 2 m) := by
  have hlog := log_le_of_lt hpos hlt
  have hunit : unitExponent m 1 = (Nat.log 2 m : Int) - 52 := by
    rw [unitExponent_eq hpos Nat.one_pos, Nat.cast_one, div_one, Int.log_natCast]
    omega
  have hbounds := scaled_bounds hpos hlt
  unfold nearestBits
  rw [if_neg hpos.ne']
  dsimp only
  rw [hunit]
  have hshift : (-((Nat.log 2 m : Int) - 52)).toNat = 52 - Nat.log 2 m := by omega
  have hnone : ((Nat.log 2 m : Int) - 52).toNat = 0 := by omega
  have hplace : ((Nat.log 2 m : Int) - 52 + 1074).toNat = Nat.log 2 m + 1022 := by omega
  have hround := roundDiv_mul_right (m := m * 2 ^ (52 - Nat.log 2 m)) Nat.one_pos
  rw [Nat.mul_one] at hround
  rw [hshift, hnone, hplace, Nat.shiftLeft_zero, Nat.shiftLeft_eq, Nat.shiftLeft_eq, hround]
  refine min_eq_left ?_
  unfold infinityBits
  omega

/-- **A natural of at most 53 binary places is a number.** -/
theorem ofRatio_nat {m : Nat} (hlt : m < 2 ^ 53) :
    (ofRatio m 1).isFinite ∧ (ofRatio m 1).value = m := by
  rcases Nat.eq_zero_or_pos m with rfl | hpos
  · refine ⟨by decide, ?_⟩
    have hsignificand : (ofRatio 0 1).significand = 0 := by decide
    rw [value, hsignificand, Nat.cast_zero, zero_mul]
  · have hlog := log_le_of_lt hpos hlt
    obtain ⟨hlow, hhigh⟩ := scaled_bounds hpos hlt
    have hmagnitude := (magnitude_ofRatio m 1).trans (nearestBits_nat hpos hlt)
    constructor
    · rw [isFinite_iff, hmagnitude]
      unfold infinityBits
      omega
    · rw [value_of_magnitude hmagnitude hlow hhigh]
      push_cast
      rw [mul_assoc, ← zpow_natCast, ← zpow_add₀ two_ne_zero]
      have hexponent :
          ((52 - Nat.log 2 m : Nat) : Int) + ((Nat.log 2 m : Int) + 1022 - 1074) = 0 := by
        omega
      rw [hexponent, zpow_zero, mul_one]

/-- **A countable integer converts to the number that it is.** -/
theorem denotes_ofInt {i : Int} (h : Countable i) : (ofInt i).Denotes i := by
  obtain ⟨hfinite, hvalue⟩ := ofRatio_nat h.lt
  have hpositive := negative_ofRatio i.natAbs 1
  unfold ofInt
  dsimp only
  split_ifs with hi
  · refine ⟨by rwa [isFinite_iff, magnitude_neg, ← isFinite_iff], ?_⟩
    have habs : (i : ℚ) = -(i.natAbs : ℚ) := by
      rw [← Int.cast_natCast, Int.ofNat_natAbs_of_nonpos hi.le]
      push_cast
      rw [neg_neg]
    rw [rational, if_pos (negative_neg hpositive),
      value_of_magnitude_eq (magnitude_neg (ofRatio i.natAbs 1)), hvalue, habs]
  · refine ⟨hfinite, ?_⟩
    have habs : (i : ℚ) = (i.natAbs : ℚ) := by
      rw [← Int.cast_natCast, Int.natAbs_of_nonneg (by omega)]
    rw [rational, hpositive, if_neg Bool.false_ne_true, hvalue, habs]

example : (ofInt (-3)).bits = 0xc008000000000000 := by decide

/-! ## Reading integers -/

theorem abs_rational (x : Number) : |x.rational| = x.value := by
  unfold rational
  split_ifs
  · rw [abs_neg, abs_of_nonneg x.value_nonneg]
  · exact abs_of_nonneg x.value_nonneg

theorem den_rational (x : Number) : x.rational.den = x.value.den := by
  unfold rational
  split_ifs
  · exact Rat.neg_den _
  · rfl

theorem mod_ratio_eq_zero_iff (x : Number) : x.ratio.1 % x.ratio.2 = 0 ↔ x.rational.den = 1 := by
  rw [den_rational, ← ratio_value, Rat.den_div_natCast_eq_one_iff _ _ x.ratio_pos.ne',
    Nat.dvd_iff_mod_eq_zero]

theorem num_rational {x : Number} (h : x.rational.den = 1) :
    (if x.negative then -((x.ratio.1 / x.ratio.2 : Nat) : Int) else (x.ratio.1 / x.ratio.2 : Nat)) =
      x.rational.num := by
  have hpos : (0 : ℚ) < x.ratio.2 := by exact_mod_cast x.ratio_pos
  obtain ⟨k, hk⟩ := Nat.dvd_of_mod_eq_zero (x.mod_ratio_eq_zero_iff.mpr h)
  have hvalue : x.value = (k : ℚ) := by
    rw [← ratio_value, hk, Nat.cast_mul, mul_div_cancel_left₀ _ hpos.ne']
  rw [hk, Nat.mul_div_cancel_left k x.ratio_pos]
  unfold rational
  split_ifs
  · rw [hvalue, Rat.neg_num, Rat.num_natCast]
  · rw [hvalue, Rat.num_natCast]

/-- **How a number is read as an integer**, said of the rational that it denotes. -/
theorem toInt_eq (x : Number) :
    x.toInt =
      if ¬ x.isFinite then .error .notFinite
      else if countLimit < |x.rational| then .error .tooLarge
      else if x.rational.den ≠ 1 then .error .notInteger
      else .ok x.rational.num := by
  have hpos : (0 : ℚ) < x.ratio.2 := by exact_mod_cast x.ratio_pos
  have hlarge : countLimit * x.ratio.2 < x.ratio.1 ↔ (countLimit : ℚ) < |x.rational| := by
    rw [abs_rational, ← ratio_value, lt_div_iff₀ hpos]
    exact_mod_cast Iff.rfl
  unfold toInt
  simp only [Bool.not_eq_true', ← Bool.not_eq_true, hlarge, ne_eq, mod_ratio_eq_zero_iff]
  split_ifs with hfinite hbeyond hinteger hnegative
  · rfl
  · rw [← num_rational hinteger, if_pos hnegative]
  · rw [← num_rational hinteger, if_neg hnegative]
  · rfl
  · rfl

/-- **A number is read as the integer that it is, if that is countable.** -/
theorem toInt_eq_ok_iff {x : Number} {i : Int} : x.toInt = .ok i ↔ x.Denotes i ∧ Countable i := by
  have hcountable : Countable i ↔ ¬ (countLimit : ℚ) < |(i : ℚ)| := by
    rw [not_lt, ← Int.cast_abs, Int.abs_eq_natAbs]
    exact_mod_cast Iff.rfl
  rw [toInt_eq, hcountable, Denotes]
  constructor
  · intro h
    split_ifs at h with hfinite hlarge hinteger
    cases h
    rw [(Rat.den_eq_one_iff _).mp (not_not.mp hinteger)]
    exact ⟨⟨hfinite, rfl⟩, hlarge⟩
  · rintro ⟨⟨hfinite, hrational⟩, hlarge⟩
    rw [hrational, if_neg (not_not.mpr hfinite), if_neg hlarge, Rat.den_intCast, Rat.num_intCast]
    rfl

/-- **Only countable integers are read off numbers.** -/
theorem countable_of_toInt {x : Number} {i : Int} (h : x.toInt = .ok i) : Countable i :=
  (toInt_eq_ok_iff.mp h).2

/-- **The conversions are exact, and inverse to each other on the countable integers.** -/
theorem conversions_exact :
    (∀ (x : Number) (i : Int), x.toInt = .ok i ↔ x.Denotes i ∧ Countable i) ∧
      ∀ i : Int, match ofInt? i with
        | some x => Countable i ∧ x.Denotes i ∧ x.toInt = .ok i
        | none => ¬ Countable i := by
  refine ⟨fun x i => toInt_eq_ok_iff, fun i => ?_⟩
  by_cases h : Countable i
  · rw [ofInt?_of_countable h]
    exact ⟨h, denotes_ofInt h, toInt_eq_ok_iff.mpr ⟨denotes_ofInt h, h⟩⟩
  · have hnone : ofInt? i = none := if_neg h
    rw [hnone]
    exact h

example : ofInt? (-2 ^ 63) = none := by decide

end Number

end Scriptlet
