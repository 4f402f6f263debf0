import Scriptlet.Proofs.Number.Counting

/-!
# Rounding to the nearest number

`Number.ofRatio` gives **a number to which no other is nearer** (`ofRatio_nearest`), and of two
quotients the greater never gets the smaller number (`nearestBits_mono`). Infinity takes part in
both as the magnitude `2 ^ 1024` that its fields write.

* `Number.roundedSignificand`: the quotient counted in its unit of rounding.
* `value_le_mul_sub`: two numbers that differ do so by at least one part in `2 ^ 53`.
-/

namespace Scriptlet

namespace Number

/-! ## Integers next to a quotient -/

/-- What a quotient has behind its whole part. -/
def rest (num den : Nat) : ℚ := (num % den : Nat) / den

theorem rest_nonneg (num den : Nat) : 0 ≤ rest num den := by
  unfold rest
  positivity

section

variable {num den : Nat} (hden : 0 < den)

include hden

theorem div_eq_whole_add : (num : ℚ) / den = (num / den : Nat) + rest num den := by
  have hden' : (den : ℚ) ≠ 0 := by exact_mod_cast hden.ne'
  rw [rest, div_eq_iff hden', add_mul, div_mul_cancel₀ _ hden']
  exact_mod_cast (Nat.div_add_mod' num den).symm

theorem rest_lt_one : rest num den < 1 := by
  rw [rest, div_lt_one (by exact_mod_cast hden)]
  exact_mod_cast Nat.mod_lt num hden

theorem half_le_rest_iff : 1 / 2 ≤ rest num den ↔ den ≤ 2 * (num % den) := by
  rw [rest, div_le_div_iff₀ two_pos (by exact_mod_cast hden), one_mul, mul_comm]
  exact_mod_cast Iff.rfl

theorem rest_le_half_iff : rest num den ≤ 1 / 2 ↔ 2 * (num % den) ≤ den := by
  rw [rest, div_le_div_iff₀ (by exact_mod_cast hden) two_pos, one_mul, mul_comm]
  exact_mod_cast Iff.rfl

/-- **Rounding looks at the half**, and at the whole part where exactly a half remains. -/
theorem roundDiv_eq :
    roundDiv num den =
      if 1 / 2 < rest num den ∨ (rest num den = 1 / 2 ∧ num / den % 2 = 1) then num / den + 1
      else num / den := by
  have hup : den < 2 * (num % den) ↔ 1 / 2 < rest num den := by
    rw [← not_le, ← not_le, rest_le_half_iff hden]
  have htie : 2 * (num % den) = den ↔ rest num den = 1 / 2 := by
    rw [le_antisymm_iff, le_antisymm_iff, rest_le_half_iff hden, half_le_rest_iff hden]
  unfold roundDiv
  simp only [hup, htie]

theorem abs_roundDiv_sub_le : |(roundDiv num den : ℚ) - num / den| ≤ 1 / 2 := by
  have hpos := rest_nonneg num den
  have hone : rest num den < 1 := rest_lt_one hden
  rw [roundDiv_eq hden, div_eq_whole_add hden, abs_le]
  split_ifs with hup
  · have hhalf : 1 / 2 ≤ rest num den := hup.elim le_of_lt fun h => h.1.ge
    rw [Nat.cast_add_one]
    constructor <;> linarith
  · have hhalf : rest num den ≤ 1 / 2 := not_lt.mp (not_or.mp hup).1
    constructor <;> linarith

end

theorem abs_sub_le_of_half {m k : Int} {q : ℚ} (h : |(m : ℚ) - q| ≤ 1 / 2) :
    |(m : ℚ) - q| ≤ |(k : ℚ) - q| := by
  rcases eq_or_ne m k with rfl | hne
  · exact le_rfl
  · have hone : (1 : ℚ) ≤ |(k : ℚ) - m| := by
      exact_mod_cast Int.one_le_abs (sub_ne_zero.mpr hne.symm)
    have htriangle := abs_sub_le (k : ℚ) q m
    rw [abs_sub_comm q (m : ℚ)] at htriangle
    linarith

/-- **The greater of two quotients never gets the smaller integer.** -/
theorem roundDiv_mono {num den num' den' : Nat} (hden : 0 < den) (hden' : 0 < den')
    (h : (num : ℚ) / den ≤ num' / den') : roundDiv num den ≤ roundDiv num' den' := by
  have hpos := rest_nonneg num den
  have hone : rest num' den' < 1 := rest_lt_one hden'
  rw [div_eq_whole_add hden, div_eq_whole_add hden'] at h
  rw [roundDiv_eq hden, roundDiv_eq hden']
  rcases lt_trichotomy (num / den) (num' / den') with hlt | heq | hgt
  · split_ifs <;> omega
  · -- within one integer the greater quotient has the greater rest
    rw [heq, add_le_add_iff_left] at h
    rw [heq]
    split_ifs with hup hstay
    · exact le_rfl
    · exfalso
      obtain ⟨hhalf, hodd⟩ := not_or.mp hstay
      rw [not_lt] at hhalf
      rcases hup with hmore | ⟨htie, hone⟩
      · exact absurd (hmore.trans_le h) (not_lt.mpr hhalf)
      · exact hodd ⟨le_antisymm hhalf (htie ▸ h), hone⟩
    · exact Nat.le_succ _
    · exact le_rfl
  · have hnext : ((num' / den' : Nat) : ℚ) + 1 ≤ (num / den : Nat) := by exact_mod_cast hgt
    linarith

theorem roundDiv_one (m : Nat) : roundDiv m 1 = m := by
  have h := roundDiv_mul_right (m := m) Nat.one_pos
  rwa [Nat.mul_one] at h

theorem roundDiv_le {num den m : Nat} (hden : 0 < den) (h : (num : ℚ) / den ≤ m) :
    roundDiv num den ≤ m := by
  rw [← roundDiv_one m]
  exact roundDiv_mono hden Nat.one_pos (by rwa [Nat.cast_one, div_one])

theorem le_roundDiv {num den m : Nat} (hden : 0 < den) (h : (m : ℚ) ≤ num / den) :
    m ≤ roundDiv num den := by
  rw [← roundDiv_one m]
  exact roundDiv_mono Nat.one_pos hden (by rwa [Nat.cast_one, div_one])

/-! ## The rounded significand -/

/-- A quotient in its unit of rounding, rounded to an integer. -/
def roundedSignificand (num den : Nat) : Nat :=
  roundDiv (num <<< (-unitExponent num den).toNat) (den <<< (unitExponent num den).toNat)

theorem nearestBits_eq {num : Nat} (den : Nat) (hnum : num ≠ 0) :
    nearestBits num den =
      min (((unitExponent num den + 1074).toNat <<< 52) + roundedSignificand num den)
        infinityBits := by
  unfold nearestBits
  rw [if_neg hnum]
  rfl

section

variable {num den : Nat} (hnum : 0 < num) (hden : 0 < den)

include hnum hden

theorem le_unitExponent : -1074 ≤ unitExponent num den := by
  rw [unitExponent_eq hnum hden]
  exact le_max_right _ _

theorem div_lt_unit : (num : ℚ) / den < 2 ^ (53 + unitExponent num den) := by
  have hq : (0 : ℚ) < num / den := div_pos (by exact_mod_cast hnum) (by exact_mod_cast hden)
  have hlog := (Int.lt_zpow_iff_log_lt one_lt_two hq (x := 53 + unitExponent num den)).mpr (by
    rw [unitExponent_eq hnum hden]
    omega)
  rwa [Nat.cast_ofNat] at hlog

theorem unit_le_div (hunit : unitExponent num den ≠ -1074) :
    (2 : ℚ) ^ (52 + unitExponent num den) ≤ num / den := by
  have hq : (0 : ℚ) < num / den := div_pos (by exact_mod_cast hnum) (by exact_mod_cast hden)
  have hlog := (Int.zpow_le_iff_le_log one_lt_two hq (x := 52 + unitExponent num den)).mpr (by
    rw [unitExponent_eq hnum hden] at hunit ⊢
    omega)
  rwa [Nat.cast_ofNat] at hlog

theorem roundedSignificand_le : roundedSignificand num den ≤ 2 ^ 53 := by
  refine roundDiv_le (shiftLeft_pos hden _) ?_
  rw [shifted_div, zpow_neg, ← div_eq_mul_inv, div_le_iff₀ (zpow_pos two_pos _)]
  have hlt := div_lt_unit hnum hden
  rw [zpow_add₀ two_ne_zero] at hlt
  exact_mod_cast hlt.le

theorem le_roundedSignificand (hunit : unitExponent num den ≠ -1074) :
    2 ^ 52 ≤ roundedSignificand num den := by
  refine le_roundDiv (shiftLeft_pos hden _) ?_
  rw [shifted_div, zpow_neg, ← div_eq_mul_inv, le_div_iff₀ (zpow_pos two_pos _)]
  have hle := unit_le_div hnum hden hunit
  rw [zpow_add₀ two_ne_zero] at hle
  exact_mod_cast hle

end

theorem abs_roundedSignificand_sub_le (num : Nat) {den : Nat} (hden : 0 < den) :
    |(roundedSignificand num den : ℚ) - num / den * 2 ^ (-unitExponent num den)| ≤ 1 / 2 := by
  rw [← shifted_div]
  exact abs_roundDiv_sub_le (shiftLeft_pos hden _)

/-! ## Monotonicity -/

/-- **The greater of two quotients never gets the smaller number.** -/
theorem nearestBits_mono {num den num' den' : Nat} (hden : 0 < den) (hden' : 0 < den')
    (h : (num : ℚ) / den ≤ num' / den') : nearestBits num den ≤ nearestBits num' den' := by
  rcases Nat.eq_zero_or_pos num with rfl | hnum
  · exact Nat.zero_le _
  have hq : (0 : ℚ) < num / den := div_pos (by exact_mod_cast hnum) (by exact_mod_cast hden)
  have hnum' : 0 < num' := by
    rcases Nat.eq_zero_or_pos num' with rfl | hpos
    · rw [Nat.cast_zero, zero_div] at h
      exact absurd (hq.trans_le h) (lt_irrefl 0)
    · exact hpos
  have hunit : unitExponent num den ≤ unitExponent num' den' := by
    rw [unitExponent_eq hnum hden, unitExponent_eq hnum' hden']
    have hlog := Int.log_mono_right (b := 2) hq h
    omega
  have hlow := le_unitExponent hnum hden
  rw [nearestBits_eq den hnum.ne', nearestBits_eq den' hnum'.ne', Nat.shiftLeft_eq,
    Nat.shiftLeft_eq]
  refine min_le_min_right _ ?_
  rcases hunit.lt_or_eq with hlt | heq
  · -- a greater unit is worth more than all significands of the smaller one
    have hhigh := roundedSignificand_le hnum hden
    have hlow' := le_roundedSignificand hnum' hden' (by omega)
    have hstep :
        (unitExponent num den + 1074).toNat + 1 ≤ (unitExponent num' den' + 1074).toNat := by
      omega
    have hscaled := Nat.mul_le_mul_right (2 ^ 52) hstep
    omega
  · have hsignificand : roundedSignificand num den ≤ roundedSignificand num' den' := by
      unfold roundedSignificand
      refine roundDiv_mono (shiftLeft_pos hden _) (shiftLeft_pos hden' _) ?_
      rw [shifted_div, shifted_div, heq]
      gcongr
    rw [heq]
    omega

/-! ## The nearest number -/

theorem value_of_units {x : Number} {k m : Nat} (h : x.magnitude = k * 2 ^ 52 + m)
    (hlow : k = 0 ∨ 2 ^ 52 ≤ m) (hhigh : m ≤ 2 ^ 53) : x.value = m * 2 ^ ((k : Int) - 1074) := by
  rcases Nat.lt_or_ge m (2 ^ 52) with hlt | hge
  · have hzero : k = 0 := by omega
    subst hzero
    rw [magnitude_eq_fields] at h
    have hfraction := x.fraction_lt
    have hbiased : x.biased = 0 := by omega
    have hsignificand : x.significand = m := by
      unfold significand
      rw [if_pos hbiased]
      omega
    have hexponent : x.exponent = -1074 := by
      unfold exponent
      omega
    rw [value, hsignificand, hexponent]
    rfl
  · rcases hhigh.lt_or_eq with hlt | rfl
    · exact value_of_magnitude h hge hlt
    · have hnext : x.magnitude = (k + 1) * 2 ^ 52 + 2 ^ 52 := by
        rw [h]
        ring
      have hdouble : (((k + 1 : Nat) : Int) - 1074) = 1 + ((k : Int) - 1074) := by
        push_cast
        ring
      rw [value_of_magnitude hnext le_rfl (Nat.pow_lt_pow_right (by decide) (by decide)), hdouble,
        zpow_add₀ two_ne_zero, Nat.cast_pow, Nat.cast_pow]
      ring

theorem value_of_infinityBits {x : Number} (h : x.magnitude = infinityBits) :
    x.value = 2 ^ (1024 : Int) := by
  have hunits : x.magnitude = 2046 * 2 ^ 52 + 2 ^ 52 := h
  rw [value_of_units hunits (Or.inr le_rfl) (by omega), Nat.cast_pow, Nat.cast_ofNat,
    ← zpow_natCast, ← zpow_add₀ two_ne_zero]
  rfl

theorem value_lt (x : Number) : x.value < 2 ^ (53 + x.exponent) := by
  have hsignificand : (x.significand : ℚ) < 2 ^ (53 : Int) := by exact_mod_cast x.significand_lt
  rw [value, zpow_add₀ two_ne_zero]
  gcongr

theorem value_lt_of_isFinite {x : Number} (hx : x.isFinite) : x.value < 2 ^ (1024 : Int) := by
  have hbiased := x.biased_lt
  have hexponent : 53 + x.exponent ≤ 1024 := by
    rw [isFinite, bne_iff_ne] at hx
    unfold exponent
    omega
  exact x.value_lt.trans_le (zpow_le_zpow_right₀ one_le_two hexponent)

theorem value_le_of_magnitude {x : Number} (hx : x.magnitude ≤ infinityBits) :
    x.value ≤ 2 ^ (1024 : Int) := by
  rcases hx.lt_or_eq with hlt | heq
  · exact (value_lt_of_isFinite (isFinite_iff.mpr hlt)).le
  · exact (value_of_infinityBits heq).le

theorem value_eq_units {x : Number} {e : Int} (h : e ≤ x.exponent) :
    x.value = (x.significand * 2 ^ (x.exponent - e).toNat : Nat) * 2 ^ e := by
  have hsum : x.exponent = ((x.exponent - e).toNat : Int) + e := by omega
  rw [value, hsum, zpow_add₀ two_ne_zero, zpow_natCast, Nat.cast_mul, Nat.cast_pow,
    Nat.cast_ofNat, mul_assoc]
  congr 4
  omega

section

variable {num den : Nat} (hnum : 0 < num) (hden : 0 < den)

include hden

theorem abs_units_sub_le (k : Int) :
    |(roundedSignificand num den : ℚ) * 2 ^ unitExponent num den - num / den| ≤
      |(k : ℚ) * 2 ^ unitExponent num den - num / den| := by
  have hunit : (0 : ℚ) < 2 ^ unitExponent num den := zpow_pos two_pos _
  have hscale (j : Int) : |(j : ℚ) * 2 ^ unitExponent num den - num / den| =
      |(j : ℚ) - num / den * 2 ^ (-unitExponent num den)| * 2 ^ unitExponent num den := by
    rw [← abs_of_pos hunit, ← abs_mul, abs_of_pos hunit, sub_mul, mul_assoc,
      ← zpow_add₀ two_ne_zero, neg_add_cancel, zpow_zero, mul_one]
  have hnearest := abs_sub_le_of_half (m := roundedSignificand num den) (k := k)
    (abs_roundedSignificand_sub_le num hden)
  have hrounded := hscale (roundedSignificand num den)
  rw [Int.cast_natCast] at hnearest hrounded
  rw [hrounded, hscale k]
  gcongr

include hnum

theorem abs_units_sub_le_value (x : Number) :
    |(roundedSignificand num den : ℚ) * 2 ^ unitExponent num den - num / den| ≤
      |x.value - num / den| := by
  rcases le_or_gt (unitExponent num den) x.exponent with hle | hlt
  · rw [value_eq_units hle]
    exact_mod_cast abs_units_sub_le hden _
  · -- the number lies below the least significand of the unit, which is nearer
    have hlow := x.le_exponent
    have hunit := unit_le_div hnum hden (by omega)
    have hvalue : x.value < 2 ^ (52 + unitExponent num den) :=
      x.value_lt.trans_le (zpow_le_zpow_right₀ one_le_two (by omega))
    have hleast : (((2 ^ 52 : Nat) : Int) : ℚ) * 2 ^ unitExponent num den =
        2 ^ (52 + unitExponent num den) := by
      rw [zpow_add₀ two_ne_zero]
      norm_num
    refine (abs_units_sub_le hden (2 ^ 52 : Nat)).trans ?_
    rw [hleast, abs_of_nonpos (by linarith), abs_of_nonpos (by linarith)]
    linarith

end

/-- **No number is nearer to a quotient than the one that it is rounded to.** -/
theorem ofRatio_nearest (num : Nat) {den : Nat} (hden : 0 < den) {x : Number}
    (hx : x.magnitude ≤ infinityBits) :
    |(ofRatio num den).value - num / den| ≤ |x.value - num / den| := by
  have hmagnitude := magnitude_ofRatio num den
  rcases Nat.eq_zero_or_pos num with rfl | hnum
  · have hvalue : (ofRatio 0 den).value = 0 := by
      have hzero : (ofRatio 0 den).magnitude = 0 * 2 ^ 52 + 0 := hmagnitude
      rw [value_of_units hzero (Or.inl rfl) (Nat.zero_le _), Nat.cast_zero, zero_mul]
    rw [hvalue, Nat.cast_zero, zero_div, sub_zero, abs_zero]
    exact abs_nonneg _
  have hlow := le_unitExponent hnum hden
  have hhigh := roundedSignificand_le hnum hden
  rw [nearestBits_eq den hnum.ne', Nat.shiftLeft_eq] at hmagnitude
  rcases le_or_gt ((unitExponent num den + 1074).toNat * 2 ^ 52 + roundedSignificand num den)
    infinityBits with hle | hlt
  · rw [min_eq_left hle] at hmagnitude
    have hnormal : (unitExponent num den + 1074).toNat = 0 ∨
        2 ^ 52 ≤ roundedSignificand num den := by
      rcases eq_or_ne (unitExponent num den) (-1074) with heq | hne
      · left
        omega
      · exact Or.inr (le_roundedSignificand hnum hden hne)
    have hplace : ((unitExponent num den + 1074).toNat : Int) - 1074 = unitExponent num den := by
      omega
    rw [value_of_units hmagnitude hnormal hhigh, hplace]
    exact abs_units_sub_le_value hnum hden x
  · -- the quotient lies beyond all numbers
    rw [min_eq_right hlt.le] at hmagnitude
    have hlarge : (2 : ℚ) ^ (1024 : Int) ≤ num / den := by
      unfold infinityBits at hlt
      refine le_trans ?_ (unit_le_div hnum hden (by omega))
      exact zpow_le_zpow_right₀ one_le_two (by omega)
    have hvalue := value_le_of_magnitude hx
    rw [value_of_infinityBits hmagnitude, abs_of_nonpos (by linarith),
      abs_of_nonpos (by linarith)]
    linarith

/-! ## Gaps -/

/-- Two numbers that differ do so by at least one part in `2 ^ 53`. -/
theorem value_le_mul_sub {x y : Number} (h : x.value ≠ y.value) :
    x.value ≤ 2 ^ 53 * |x.value - y.value| := by
  rcases le_or_gt x.exponent y.exponent with hle | hlt
  · have hunit : (0 : ℚ) < 2 ^ x.exponent := zpow_pos two_pos _
    have hx : x.value = (x.significand : Int) * 2 ^ x.exponent := by
      rw [value, Int.cast_natCast]
    obtain ⟨k, hk⟩ : ∃ k : Int, y.value = k * 2 ^ x.exponent :=
      ⟨_, by rw [value_eq_units hle]; exact_mod_cast rfl⟩
    rw [hx, hk] at h ⊢
    have hne : (x.significand : Int) - k ≠ 0 := fun heq => h (by rw [sub_eq_zero.mp heq])
    have hone : (1 : ℚ) ≤ |((x.significand : Int) : ℚ) - k| := by
      exact_mod_cast Int.one_le_abs hne
    have hsignificand : ((x.significand : Int) : ℚ) ≤ 2 ^ 53 := by
      exact_mod_cast x.significand_lt.le
    rw [← sub_mul, abs_mul, abs_of_pos hunit, ← mul_assoc]
    gcongr
    linarith
  · -- the greater unit makes the value at least `2 ^ 53` of the smaller ones
    have hunit : (0 : ℚ) < 2 ^ y.exponent := zpow_pos two_pos _
    have hnormal : 2 ^ 52 ≤ x.significand := by
      have hlow := y.le_exponent
      have hor := x.exponent_eq_or
      omega
    have hmany : 2 ^ 53 ≤ x.significand * 2 ^ (x.exponent - y.exponent).toNat :=
      calc 2 ^ 53 = 2 ^ 52 * 2 ^ 1 := rfl
        _ ≤ x.significand * 2 ^ (x.exponent - y.exponent).toNat :=
          Nat.mul_le_mul hnormal (Nat.pow_le_pow_right (by decide) (by omega))
    have hfew := y.significand_lt
    rw [value_eq_units hlt.le, value]
    generalize x.significand * 2 ^ (x.exponent - y.exponent).toNat = many at hmany
    have hmany' : (2 : ℚ) ^ 53 ≤ many := by exact_mod_cast hmany
    have hfew' : (y.significand : ℚ) + 1 ≤ 2 ^ 53 := by exact_mod_cast hfew
    rw [← sub_mul, abs_mul, abs_of_pos hunit, abs_of_nonneg (by linarith), ← mul_assoc]
    gcongr
    linarith

theorem abs_eq_of_value_eq {x y : Number} (hx : x.isFinite) (hy : y.isFinite)
    (h : x.value = y.value) : x.abs = y.abs := by
  rw [← ofRatio_of_value hx x.ratio_pos x.ratio_value,
    ← ofRatio_of_value hy x.ratio_pos (x.ratio_value.trans h)]

/-- **A quotient less than half a gap away from a number is rounded to it.** -/
theorem ofRatio_of_close {x : Number} {num den : Nat} (hx : x.isFinite) (hden : 0 < den)
    (h : 2 ^ 54 * |x.value - num / den| < x.value) : ofRatio num den = x.abs := by
  have hbits : (ofRatio num den).bits.toNat ≤ infinityBits := by
    rw [bits_ofRatio]
    exact nearestBits_le num den
  have hmagnitude : (ofRatio num den).magnitude ≤ infinityBits := by
    rw [magnitude_ofRatio]
    exact nearestBits_le num den
  have hvalue : x.value = (ofRatio num den).value := by
    by_contra hne
    have hgap := value_le_mul_sub hne
    have hnearest := ofRatio_nearest num hden (isFinite_iff.mp hx).le
    have htriangle := abs_sub_le x.value (num / den) (ofRatio num den).value
    rw [abs_sub_comm (num / den : ℚ)] at htriangle
    linarith
  have hfinite : (ofRatio num den).isFinite := by
    rw [isFinite_iff]
    refine hmagnitude.lt_of_ne fun heq => ?_
    rw [value_of_infinityBits heq] at hvalue
    exact (value_lt_of_isFinite hx).ne hvalue
  rw [abs_eq_of_value_eq hx hfinite hvalue, abs_of_bits_le hbits]

theorem magnitude_abs (x : Number) : x.abs.magnitude = x.magnitude := by
  have hbits : x.abs.bits.toNat = x.bits.toNat % 2 ^ 63 := UInt64.toNat_mod _ _
  rw [magnitude_eq_mod, magnitude_eq_mod, hbits, Nat.mod_mod]

theorem exists_next {x : Number} (hx : x.isFinite) :
    ∃ y : Number, y.magnitude ≤ infinityBits ∧ y.value = x.value + 2 ^ x.exponent := by
  have hfinite := isFinite_iff.mp hx
  obtain ⟨y, hy⟩ : ∃ y : Number, y.magnitude = x.magnitude + 1 := by
    unfold infinityBits at hfinite
    have hbits : (UInt64.ofNat (x.magnitude + 1)).toNat = x.magnitude + 1 :=
      UInt64.toNat_ofNat_of_lt' (by rw [UInt64.size]; omega)
    refine ⟨⟨.ofNat (x.magnitude + 1)⟩, ?_⟩
    rw [magnitude_eq_mod, hbits]
    omega
  refine ⟨y, hy.trans_le hfinite, ?_⟩
  have hlow := x.le_exponent
  have hor := x.exponent_eq_or
  have hplace : ((x.exponent + 1074).toNat : Int) - 1074 = x.exponent := by omega
  rw [x.magnitude_eq, Nat.add_assoc] at hy
  rw [value_of_units hy (by omega) x.significand_lt, hplace, value]
  push_cast
  ring

theorem div_le_of_ofRatio {x : Number} {num den : Nat} (hx : x.isFinite) (hden : 0 < den)
    (h : ofRatio num den = x.abs) : (num : ℚ) / den ≤ x.value + 2 ^ x.exponent / 2 := by
  obtain ⟨y, hy, hnext⟩ := exists_next hx
  have hnearest := ofRatio_nearest num hden hy
  have hunit : (0 : ℚ) < 2 ^ x.exponent := zpow_pos two_pos _
  rw [h, value_of_magnitude_eq x.magnitude_abs, hnext] at hnearest
  by_contra hlt
  rw [not_le] at hlt
  rw [abs_of_nonpos (by linarith)] at hnearest
  rcases le_abs.mp hnearest with hle | hle <;> linarith

end Number

end Scriptlet
