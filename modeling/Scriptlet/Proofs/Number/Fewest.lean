import Scriptlet.Proofs.Number.Shortest

/-!
# The fewest digits

`Number.shortest` is **the decimal with the fewest digits that reads back**, and of those the
nearest to the number (`shortestFor_shortest`). The search goes from coarse grids to fine ones, so
that a decimal with fewer digits would have been a hit on an earlier grid; that it ends within
seventeen digits is because numbers lie further apart than those grids have steps.

* `Decimal.ShortestFor`: what the shortest decimal of a number is.
* `leadingPlace_bounds`: the place of the first digit of a quotient.
* `onGrid?_of_coefficient`: a grid on which some decimal reads back has a hit, and a nearest one.
-/

namespace Scriptlet

/-! ## Digits and powers of ten -/

theorem Decimal.length_digits_pos (d : Decimal) : 0 < d.digits.length :=
  List.length_pos_iff.mpr d.digits_ne_nil

theorem Decimal.length_digits_le_iff {d : Decimal} {k : Nat} (hk : 0 < k) :
    d.digits.length ≤ k ↔ d.coefficient < 10 ^ k :=
  Nat.length_toDigits_le_iff (by decide) hk

theorem Decimal.coefficient_lt (d : Decimal) : d.coefficient < 10 ^ d.digits.length :=
  (length_digits_le_iff d.length_digits_pos).mp le_rfl

theorem ten_zpow_add (j k : Int) : (10 : ℚ) ^ (j + k) = 10 ^ j * 10 ^ k :=
  zpow_add₀ (by norm_num) j k

theorem ten_zpow_eq_mul (n : Nat) (k : Int) : (10 : ℚ) ^ k = 10 ^ n * 10 ^ (k - n) := by
  rw [← zpow_natCast, ← ten_zpow_add, add_sub_cancel]

theorem Decimal.value_lt (d : Decimal) : d.value < 10 ^ (d.digits.length + d.exponent) := by
  have hcoefficient : (d.coefficient : ℚ) < 10 ^ (d.digits.length : Int) := by
    exact_mod_cast d.coefficient_lt
  have hpos := ten_zpow_pos d.exponent
  rw [value, ten_zpow_add]
  gcongr

theorem Decimal.value_ten_pow (k : Nat) (place : Int) :
    (⟨10 ^ k, place⟩ : Decimal).value = 10 ^ (k + place) := by
  rw [ten_zpow_add, zpow_natCast]
  show ((10 ^ k : Nat) : ℚ) * 10 ^ place = 10 ^ k * 10 ^ place
  push_cast
  rfl

theorem Decimal.exists_coefficient {d : Decimal} {place : Int} (h : place ≤ d.exponent) :
    ∃ c : Nat, (⟨c, place⟩ : Decimal).value = d.value := by
  obtain ⟨k, hk⟩ : ∃ k : Nat, d.exponent = k + place := ⟨(d.exponent - place).toNat, by omega⟩
  refine ⟨d.coefficient * 10 ^ k, ?_⟩
  rw [value, value, hk, ten_zpow_add, zpow_natCast]
  push_cast
  ring

theorem exists_length_toDigits {m : Nat} (hm : 0 < m) :
    ∃ k, (Nat.toDigits 10 m).length = k + 1 ∧ 10 ^ k ≤ m ∧ m < 10 ^ (k + 1) := by
  have hpos : 0 < (Nat.toDigits 10 m).length := Nat.length_toDigits_pos
  obtain ⟨k, hk⟩ : ∃ k, (Nat.toDigits 10 m).length = k + 1 :=
    ⟨_, (Nat.succ_pred_eq_of_pos hpos).symm⟩
  refine ⟨k, hk, ?_, hk ▸ (Nat.length_toDigits_le_iff (by decide) hpos).mp le_rfl⟩
  rcases Nat.eq_zero_or_pos k with rfl | hpred
  · exact hm
  · have hiff := Nat.length_toDigits_le_iff (n := m) (show 1 < 10 by decide) hpred
    omega

namespace Number

/-- **The first digit of a quotient** lies at its leading place. -/
theorem leadingPlace_bounds {num den : Nat} (hnum : 0 < num) (hden : 0 < den) :
    (10 : ℚ) ^ leadingPlace num den ≤ num / den ∧
      (num : ℚ) / den < 10 ^ (leadingPlace num den + 1) := by
  have hden' : (0 : ℚ) < den := by exact_mod_cast hden
  unfold leadingPlace
  split_ifs with hle
  · -- the whole part of the quotient has the first digit
    obtain ⟨k, hk, hlow, hhigh⟩ := exists_length_toDigits (Nat.div_pos hle hden)
    have hexponent : ((k + 1 : Nat) : Int) - 1 = (k : Int) := by omega
    have hnext : (k : Int) + 1 = ((k + 1 : Nat) : Int) := rfl
    rw [hk, hexponent, hnext, zpow_natCast, zpow_natCast, le_div_iff₀ hden', div_lt_iff₀ hden']
    constructor
    · exact_mod_cast (Nat.le_div_iff_mul_le hden).mp hlow
    · exact_mod_cast (Nat.div_lt_iff_lt_mul hden).mp hhigh
  · -- as many steps down as the inverse quotient has digits
    obtain ⟨k, hk, hlow, hhigh⟩ :=
      exists_length_toDigits (Nat.div_pos (show num ≤ den - 1 by omega) hnum)
    rw [Nat.le_div_iff_mul_le hnum, Nat.mul_comm] at hlow
    rw [Nat.div_lt_iff_lt_mul hnum, Nat.mul_comm] at hhigh
    have hnext : -((k + 1 : Nat) : Int) + 1 = -(k : Int) := by omega
    rw [hk, hnext, zpow_neg, zpow_neg, zpow_natCast, zpow_natCast, inv_eq_one_div, inv_eq_one_div,
      div_le_div_iff₀ (by positivity) hden', div_lt_div_iff₀ hden' (by positivity), one_mul]
    constructor
    · have hdown : den ≤ num * 10 ^ (k + 1) := by omega
      exact_mod_cast hdown
    · have hup : num * 10 ^ k < den := by omega
      exact_mod_cast hup

/-! ## Grids -/

/-- The magnitude of a number counted in steps of `10 ^ place`. -/
def steps (x : Number) (place : Int) : Nat × Nat :=
  (x.ratio.1 * tenTo (-place).toNat, x.ratio.2 * tenTo place.toNat)

/-- The multiple of `10 ^ place` at or below the magnitude of a number. -/
def below (x : Number) (place : Int) : Decimal := ⟨(x.steps place).1 / (x.steps place).2, place⟩

/-- The next multiple of `10 ^ place`. -/
def above (x : Number) (place : Int) : Decimal := ⟨(x.below place).coefficient + 1, place⟩

section

variable (x : Number) (place : Int)

theorem steps_pos : 0 < (x.steps place).2 := Nat.mul_pos x.ratio_pos (tenTo_pos _)

theorem steps_ratio : ((x.steps place).1 : ℚ) / (x.steps place).2 = x.value / 10 ^ place := by
  rw [← ratio_value, ten_zpow_eq_div place, steps, tenTo_eq, tenTo_eq]
  push_cast
  rw [mul_div_mul_comm, div_div_eq_mul_div, mul_div_assoc]

theorem value_eq_below_add :
    x.value = (x.below place).value +
      rest (x.steps place).1 (x.steps place).2 * 10 ^ place := by
  have hratio := x.steps_ratio place
  rw [div_eq_whole_add (x.steps_pos place), eq_div_iff (ten_zpow_pos place).ne', add_mul] at hratio
  exact hratio.symm

theorem above_value : (x.above place).value = (x.below place).value + 10 ^ place := by
  show (((x.below place).coefficient + 1 : Nat) : ℚ) * 10 ^ place =
    (x.below place).coefficient * 10 ^ place + 10 ^ place
  push_cast
  ring

theorem below_le : (x.below place).value ≤ x.value := by
  rw [value_eq_below_add x place, le_add_iff_nonneg_right]
  exact mul_nonneg (rest_nonneg _ _) (ten_zpow_pos place).le

theorem lt_above : x.value < (x.above place).value := by
  rw [above_value, value_eq_below_add x place, add_lt_add_iff_left,
    mul_lt_iff_lt_one_left (ten_zpow_pos place)]
  exact rest_lt_one (x.steps_pos place)

theorem abs_below_sub :
    |(x.below place).value - x.value| = x.value - (x.below place).value := by
  rw [abs_sub_comm, abs_of_nonneg (sub_nonneg.mpr (x.below_le place))]

theorem abs_above_sub :
    |(x.above place).value - x.value| = (x.above place).value - x.value :=
  abs_of_nonneg (sub_nonneg.mpr (x.lt_above place).le)

theorem half_step_iff :
    (x.steps place).2 ≤ 2 * ((x.steps place).1 % (x.steps place).2) ↔
      |(x.above place).value - x.value| ≤ |(x.below place).value - x.value| := by
  rw [← half_le_rest_iff (x.steps_pos place), abs_above_sub, abs_below_sub, above_value,
    value_eq_below_add x place, add_sub_add_left_eq_sub, add_sub_cancel_left, sub_le_iff_le_add,
    ← two_mul, ← mul_assoc, le_mul_iff_one_le_left (ten_zpow_pos place), div_le_iff₀' two_pos]

/-- Of the two neighbours on a grid the nearer is tried first. -/
theorem onGrid?_eq :
    ∃ near far, (near = x.below place ∧ far = x.above place ∨
        near = x.above place ∧ far = x.below place) ∧
      |near.value - x.value| ≤ |far.value - x.value| ∧
      x.onGrid? place = [near, far].find? fun d => d.toNumber == x.abs := by
  have hdef : x.onGrid? place =
      (if (x.steps place).2 ≤ 2 * ((x.steps place).1 % (x.steps place).2)
        then [x.above place, x.below place] else [x.below place, x.above place]).find?
          fun d => d.toNumber == x.abs := rfl
  rw [hdef]
  split_ifs with hhalf <;> rw [half_step_iff] at hhalf
  · exact ⟨x.above place, x.below place, Or.inr ⟨rfl, rfl⟩, hhalf, rfl⟩
  · exact ⟨x.below place, x.above place, Or.inl ⟨rfl, rfl⟩, (not_le.mp hhalf).le, rfl⟩

end

section

variable {x : Number} (hx : x.isFinite) {place : Int}

include hx

theorem expansion_toNumber : x.expansion.toNumber = x.abs :=
  Decimal.toNumber_of_value hx x.expansion_value

/-- What lies between a number and a decimal that reads back as it reads back as well, and is no
further away. -/
theorem reads_of_between {d d' : Decimal} (h : d.toNumber = x.abs)
    (hle : d.value ≤ d'.value ∧ d'.value ≤ x.value ∨ x.value ≤ d'.value ∧ d'.value ≤ d.value) :
    d'.toNumber = x.abs ∧ |d'.value - x.value| ≤ |d.value - x.value| := by
  have hexpansion := expansion_toNumber hx
  have hvalue := x.expansion_value
  rcases hle with ⟨hlow, hhigh⟩ | ⟨hlow, hhigh⟩
  · constructor
    · rw [← hvalue] at hhigh
      rw [Decimal.toNumber_eq_of_between hlow hhigh (h.trans hexpansion.symm), h]
    · rw [abs_of_nonpos (by linarith), abs_of_nonpos (by linarith)]
      linarith
  · constructor
    · rw [← hvalue] at hlow
      rw [Decimal.toNumber_eq_of_between hlow hhigh (hexpansion.trans h.symm), hexpansion]
    · rw [abs_of_nonneg (by linarith), abs_of_nonneg (by linarith)]
      linarith

theorem exists_neighbour {c : Nat} (h : (⟨c, place⟩ : Decimal).toNumber = x.abs) :
    ∃ d, (d = x.below place ∨ d = x.above place) ∧ d.toNumber = x.abs ∧
      |d.value - x.value| ≤ |(⟨c, place⟩ : Decimal).value - x.value| := by
  have hbelow := x.below_le place
  have habove := x.lt_above place
  rcases le_or_gt c (x.below place).coefficient with hle | hlt
  · have hvalue : (⟨c, place⟩ : Decimal).value ≤ (x.below place).value := by
      show (c : ℚ) * 10 ^ place ≤ (x.below place).coefficient * 10 ^ place
      gcongr
    exact ⟨_, Or.inl rfl, reads_of_between hx h (Or.inl ⟨hvalue, hbelow⟩)⟩
  · have hvalue : (x.above place).value ≤ (⟨c, place⟩ : Decimal).value := by
      show (((x.below place).coefficient + 1 : Nat) : ℚ) * 10 ^ place ≤ c * 10 ^ place
      gcongr
      exact hlt
    exact ⟨_, Or.inr rfl, reads_of_between hx h (Or.inr ⟨habove.le, hvalue⟩)⟩

/-- **A grid on which some decimal reads back has a hit, and none of its decimals that read back is
nearer.** -/
theorem onGrid?_of_coefficient {c : Nat} (h : (⟨c, place⟩ : Decimal).toNumber = x.abs) :
    ∃ d, x.onGrid? place = some d ∧
      |d.value - x.value| ≤ |(⟨c, place⟩ : Decimal).value - x.value| := by
  obtain ⟨near, far, hsides, hnear, hgrid⟩ := x.onGrid?_eq place
  obtain ⟨d, hd, hreads, hle⟩ := exists_neighbour hx h
  rw [hgrid, List.find?_cons]
  cases hfirst : near.toNumber == x.abs with
  | true =>
    have hside : |near.value - x.value| ≤ |d.value - x.value| := by
      rcases hsides with ⟨rfl, rfl⟩ | ⟨rfl, rfl⟩ <;> rcases hd with rfl | rfl <;>
        first | exact le_rfl | exact hnear
    exact ⟨near, rfl, hside.trans hle⟩
  | false =>
    have hne : d ≠ near := by
      rintro rfl
      rw [hreads, beq_self_eq_true] at hfirst
      cases hfirst
    have hfar : d = far := by
      rcases hsides with ⟨rfl, rfl⟩ | ⟨rfl, rfl⟩
      · exact hd.resolve_left hne
      · exact hd.resolve_right hne
    rw [← hfar, List.find?_cons, hreads, beq_self_eq_true]
    exact ⟨d, rfl, hle⟩

end

theorem eq_neighbour_of_onGrid? {x : Number} {place : Int} {d : Decimal}
    (h : x.onGrid? place = some d) : d = x.below place ∨ d = x.above place := by
  obtain ⟨near, far, hsides, -, hgrid⟩ := x.onGrid?_eq place
  rw [hgrid] at h
  have hmem := List.mem_of_find?_eq_some h
  rw [List.mem_pair] at hmem
  rcases hsides with ⟨rfl, rfl⟩ | ⟨rfl, rfl⟩
  · exact hmem
  · exact hmem.symm

theorem exponent_of_onGrid? {x : Number} {place : Int} {d : Decimal}
    (h : x.onGrid? place = some d) : d.exponent = place := by
  rcases eq_neighbour_of_onGrid? h with rfl | rfl <;> rfl

/-! ## The search -/

theorem exists_first_of_findSome? {α : Type} {f : Nat → Option α} {n : Nat} {a : α}
    (h : (List.range n).findSome? f = some a) :
    ∃ k < n, f k = some a ∧ ∀ j < k, f j = none := by
  induction n with
  | zero => cases h
  | succ n ih =>
    rw [List.range_succ, List.findSome?_append] at h
    cases hearlier : (List.range n).findSome? f with
    | some b =>
      rw [hearlier] at h
      obtain ⟨k, hlt, hk, hnone⟩ := ih (hearlier.trans h)
      exact ⟨k, Nat.lt_succ_of_lt hlt, hk, hnone⟩
    | none =>
      rw [hearlier] at h
      refine ⟨n, Nat.lt_succ_self n, by simpa using h, fun j hj => ?_⟩
      exact List.findSome?_eq_none_iff.mp hearlier j (List.mem_range.mpr hj)

/-- The place of the first digit of a number's magnitude. -/
def lead (x : Number) : Int := leadingPlace x.ratio.1 x.ratio.2

section

variable {x : Number} (hx : x.isFinite) (hsignificand : x.significand ≠ 0)

include hsignificand

theorem lead_bounds : (10 : ℚ) ^ x.lead ≤ x.value ∧ x.value < 10 ^ (x.lead + 1) := by
  rw [← ratio_value]
  exact leadingPlace_bounds (shiftLeft_pos (Nat.pos_of_ne_zero hsignificand) _) x.ratio_pos

theorem coefficient_below_lt (n : Nat) : (x.below (x.lead + 1 - n)).coefficient < 10 ^ n := by
  have hstep := ten_zpow_pos (x.lead + 1 - n)
  have hlt := (x.below_le (x.lead + 1 - n)).trans_lt (lead_bounds hsignificand).2
  rw [ten_zpow_eq_mul n, Decimal.value] at hlt
  exact_mod_cast lt_of_mul_lt_mul_right hlt hstep.le

theorem coefficient_pos {d : Decimal} (h : d.toNumber = x.abs) : 0 < d.coefficient := by
  refine Nat.pos_of_ne_zero fun hzero => hsignificand ?_
  have hmagnitude := magnitude_ofRatio (d.coefficient * tenTo d.exponent.toNat)
    (tenTo (-d.exponent).toNat)
  rw [← Decimal.toNumber, h, magnitude_abs, hzero, Nat.zero_mul, magnitude_eq] at hmagnitude
  have hbits : nearestBits 0 (tenTo (-d.exponent).toNat) = 0 := rfl
  omega

include hx

/-- **Seventeen digits suffice.** -/
theorem exists_hit : ∃ d, x.onGrid? (x.lead + 1 - (17 : Nat)) = some d := by
  obtain ⟨near, far, hsides, hnear, hgrid⟩ := x.onGrid?_eq (x.lead + 1 - (17 : Nat))
  have hlead := (lead_bounds hsignificand).1
  have hsum := x.above_value (x.lead + 1 - (17 : Nat))
  have hpow : (10 : ℚ) ^ x.lead = 10 ^ 16 * 10 ^ (x.lead + 1 - (17 : Nat)) := by
    rw [ten_zpow_eq_mul 16]
    congr 2
    omega
  -- the nearer neighbour is at most half a step away
  have hhalf : 2 * |near.value - x.value| ≤ 10 ^ (x.lead + 1 - (17 : Nat)) := by
    rcases hsides with ⟨rfl, rfl⟩ | ⟨rfl, rfl⟩
    · rw [abs_below_sub, abs_above_sub] at hnear
      rw [abs_below_sub]
      linarith
    · rw [abs_above_sub, abs_below_sub] at hnear
      rw [abs_above_sub]
      linarith
  have hreads : near.toNumber = x.abs := by
    have hstep := ten_zpow_pos (x.lead + 1 - (17 : Nat))
    refine ofRatio_of_close hx (tenTo_pos _) ?_
    rw [near.div_eq_value, abs_sub_comm]
    linarith
  rw [hgrid, List.find?_cons, hreads, beq_self_eq_true]
  exact ⟨near, rfl⟩

/-- The shortest decimal is the hit of the first grid that has one. -/
theorem shortest_first :
    ∃ n < 18, x.onGrid? (x.lead + 1 - (n : Nat)) = some x.shortest ∧
      ∀ m < n, x.onGrid? (x.lead + 1 - (m : Nat)) = none := by
  obtain ⟨d, hd⟩ := exists_hit hx hsignificand
  have hshortest : x.shortest = ((List.range 18).findSome? fun (n : Nat) =>
      x.onGrid? (x.lead + 1 - n)).getD x.expansion := by
    unfold shortest
    rw [if_neg hsignificand]
    rfl
  cases hhit : (List.range 18).findSome? fun (n : Nat) => x.onGrid? (x.lead + 1 - n) with
  | none =>
    have hnone := List.findSome?_eq_none_iff.mp hhit 17 (by decide)
    rw [hd] at hnone
    cases hnone
  | some b =>
    rw [hhit, Option.getD_some] at hshortest
    rw [hshortest]
    exact exists_first_of_findSome? hhit

/-! ## Fewer digits -/

/-- A decimal that reads back has one with as few digits on the grid of that many digits, which
reads back as well and is not further from the number. -/
theorem exists_on_grid {d : Decimal} (h : d.toNumber = x.abs) :
    ∃ c : Nat, (⟨c, x.lead + 1 - d.digits.length⟩ : Decimal).toNumber = x.abs ∧
      |(⟨c, x.lead + 1 - d.digits.length⟩ : Decimal).value - x.value| ≤ |d.value - x.value| := by
  rcases le_or_gt (x.lead + 1 - d.digits.length) d.exponent with hle | hlt
  · obtain ⟨c, hc⟩ := Decimal.exists_coefficient hle
    exact ⟨c, (Decimal.toNumber_eq_of_value_eq hc).trans h, by rw [hc]⟩
  · -- the decimal lies below the power of ten that the number's first digit counts
    have hlength := d.length_digits_pos
    have hlead := (lead_bounds hsignificand).1
    have hpower : (⟨10 ^ (d.digits.length - 1), x.lead + 1 - d.digits.length⟩ : Decimal).value =
        10 ^ x.lead := by
      rw [Decimal.value_ten_pow]
      congr 1
      omega
    have hbelow : d.value ≤ 10 ^ x.lead :=
      d.value_lt.le.trans (zpow_le_zpow_right₀ (by norm_num) (by omega))
    refine ⟨10 ^ (d.digits.length - 1), reads_of_between hx h (Or.inl ?_)⟩
    rw [hpower]
    exact ⟨hbelow, hlead⟩

theorem le_length_digits {n : Nat} (hnone : ∀ m < n, x.onGrid? (x.lead + 1 - (m : Nat)) = none)
    {d : Decimal} (h : d.toNumber = x.abs) : n ≤ d.digits.length := by
  by_contra hlt
  obtain ⟨c, hc, -⟩ := exists_on_grid hx hsignificand h
  obtain ⟨hit, hhit, -⟩ := onGrid?_of_coefficient hx hc
  rw [hnone _ (not_le.mp hlt)] at hhit
  cases hhit

/-- The first hit has as many digits as its grid, except that the coarsest grid gives one. -/
theorem length_digits_le {n : Nat} {d : Decimal}
    (hhit : x.onGrid? (x.lead + 1 - (n : Nat)) = some d)
    (hnone : ∀ m < n, x.onGrid? (x.lead + 1 - (m : Nat)) = none) :
    d.digits.length ≤ max n 1 := by
  have hlt := coefficient_below_lt hsignificand n
  have hle : d.coefficient ≤ 10 ^ n := by
    rcases eq_neighbour_of_onGrid? hhit with rfl | rfl
    · exact hlt.le
    · exact hlt
  rw [Decimal.length_digits_le_iff (by omega)]
  rcases Nat.eq_zero_or_pos n with rfl | hn
  · exact hle.trans_lt (by decide)
  · rw [max_eq_left hn]
    refine hle.lt_of_ne fun heq => ?_
    -- a power of ten would have been a hit one grid earlier
    have hd : d = ⟨10 ^ n, x.lead + 1 - n⟩ := by
      rw [← heq, ← exponent_of_onGrid? hhit]
    have hvalue : (⟨10 ^ (n - 1), x.lead + 1 - (n - 1 : Nat)⟩ : Decimal).value = d.value := by
      rw [hd, Decimal.value_ten_pow, Decimal.value_ten_pow]
      congr 1
      omega
    have hreads := (Decimal.toNumber_eq_of_value_eq hvalue).trans (toNumber_of_onGrid? hhit)
    obtain ⟨hit, hearlier, -⟩ := onGrid?_of_coefficient hx hreads
    rw [hnone (n - 1) (by omega)] at hearlier
    cases hearlier

/-! ## The power of ten above a number -/

omit hsignificand hx in
theorem least_unit_bounds :
    (19 : ℚ) * 10 ^ (-324 : Int) < 4 * 2 ^ (-1074 : Int) ∧
      (3 : ℚ) * 2 ^ (-1074 : Int) < 20 * 10 ^ (-324 : Int) := by
  have hlow : 19 * 2 ^ 1074 < 4 * 10 ^ 324 := by decide +kernel
  have hhigh : 3 * 10 ^ 324 < 20 * 2 ^ 1074 := by decide +kernel
  rw [zpow_neg, zpow_neg, zpow_ofNat, zpow_ofNat, ← div_eq_mul_inv, ← div_eq_mul_inv,
    ← div_eq_mul_inv, ← div_eq_mul_inv, div_lt_div_iff₀ (by positivity) (by positivity),
    div_lt_div_iff₀ (by positivity) (by positivity)]
  exact ⟨by exact_mod_cast hlow, by exact_mod_cast hhigh⟩

omit hsignificand hx in
theorem value_next_lead : (⟨1, x.lead + 1⟩ : Decimal).value = 10 * 10 ^ x.lead := by
  rw [← pow_zero 10, Decimal.value_ten_pow, Nat.cast_zero, zero_add, add_comm, ten_zpow_add,
    zpow_one]

/-- Where the power of ten above a number reads back as it, the number is nearer to it than to what
lies a tenth lower. Only numbers of few units round so far up. -/
theorem lead_power (h : (⟨1, x.lead + 1⟩ : Decimal).toNumber = x.abs) :
    19 * 10 ^ x.lead ≤ 2 * x.value := by
  obtain ⟨hlow, -⟩ := lead_bounds hsignificand
  have hhigh := div_le_of_ofRatio hx (tenTo_pos _) h
  rw [Decimal.div_eq_value, value_next_lead] at hhigh
  by_contra hlt
  rw [not_le] at hlt
  have hpos : (0 : ℚ) < 2 ^ x.exponent := zpow_pos two_pos _
  have hunit : (10 : ℚ) ^ x.lead < 2 ^ x.exponent := by linarith
  rw [value] at hlt hhigh
  have hsmall : x.significand < 10 := by
    have hcount : x.significand * (2 : ℚ) ^ x.exponent < 10 * 2 ^ x.exponent := by linarith
    exact_mod_cast lt_of_mul_lt_mul_right hcount hpos.le
  have hexponent : x.exponent = -1074 := by
    have hor := x.exponent_eq_or
    omega
  rw [hexponent] at hlt hunit hhigh hpos
  obtain ⟨htenLow, htenHigh⟩ := least_unit_bounds
  rcases lt_trichotomy x.lead (-324) with hlead | hlead | hlead
  · have hstep : 10 * (10 : ℚ) ^ x.lead ≤ 10 ^ (-324 : Int) := by
      rw [← zpow_one_add₀ (by norm_num)]
      exact zpow_le_zpow_right₀ (by norm_num) (by omega)
    have hone : (1 : ℚ) ≤ x.significand := by exact_mod_cast Nat.pos_of_ne_zero hsignificand
    have hleast := mul_le_mul_of_nonneg_right hone hpos.le
    linarith
  · rw [hlead] at hlt hunit hhigh
    rcases eq_or_ne x.significand 1 with hone | hmore
    · rw [hone, Nat.cast_one] at hhigh
      linarith
    · have htwo : (2 : ℚ) ≤ x.significand := by
        have hge : 2 ≤ x.significand := by omega
        exact_mod_cast hge
      have hleast := mul_le_mul_of_nonneg_right htwo hpos.le
      linarith
  · have hstep : 10 * (10 : ℚ) ^ (-324 : Int) ≤ 10 ^ x.lead := by
      rw [← zpow_one_add₀ (by norm_num)]
      exact zpow_le_zpow_right₀ (by norm_num) (by omega)
    have hleast := ten_zpow_pos (-324)
    linarith

end

end Number

/-! ## The shortest decimal -/

/-- **The shortest decimal of a number**: it reads back as the number's magnitude, no decimal that
does has fewer digits, and none that has as many is nearer. -/
structure Decimal.ShortestFor (d : Decimal) (x : Number) : Prop where
  reads_back : d.toNumber = x.abs
  fewest : ∀ d' : Decimal, d'.toNumber = x.abs → d.digits.length ≤ d'.digits.length
  nearest : ∀ d' : Decimal, d'.toNumber = x.abs → d'.digits.length = d.digits.length →
    |d.value - x.value| ≤ |d'.value - x.value|

namespace Number

theorem shortestFor_zero {x : Number} (hx : x.isFinite) (hsignificand : x.significand = 0) :
    x.shortest.ShortestFor x := by
  have hzero : x.shortest = ⟨0, 0⟩ := if_pos hsignificand
  have hvalue : x.shortest.value = x.value := by
    rw [hzero, Decimal.value, value, hsignificand, Nat.cast_zero, zero_mul, zero_mul]
  refine ⟨shortest_toNumber hx, fun d _ => ?_, fun d _ _ => ?_⟩
  · rw [hzero]
    exact d.length_digits_pos
  · rw [hvalue, sub_self, abs_zero]
    exact abs_nonneg _

section

variable {x : Number} (hx : x.isFinite) (hsignificand : x.significand ≠ 0)

include hx hsignificand

theorem nearest_of_onGrid? {d d' : Decimal} {n : Nat}
    (hhit : x.onGrid? (x.lead + 1 - (n : Nat)) = some d) (h : d'.toNumber = x.abs)
    (hlength : d'.digits.length = n) : |d.value - x.value| ≤ |d'.value - x.value| := by
  obtain ⟨c, hc, hle⟩ := exists_on_grid hx hsignificand h
  obtain ⟨hit, heq, hnearest⟩ := onGrid?_of_coefficient hx hc
  rw [hlength, hhit] at heq
  cases heq
  exact hnearest.trans hle

theorem nearest_of_coarsest {d d' : Decimal} (hhit : x.onGrid? (x.lead + 1) = some d)
    (h : d'.toNumber = x.abs) (hlength : d'.digits.length = 1) :
    |d.value - x.value| ≤ |d'.value - x.value| := by
  rcases le_or_gt (x.lead + 1) d'.exponent with hle | hlt
  · obtain ⟨c, hc⟩ := Decimal.exists_coefficient hle
    obtain ⟨hit, heq, hnearest⟩ :=
      onGrid?_of_coefficient hx ((Decimal.toNumber_eq_of_value_eq hc).trans h)
    rw [hhit] at heq
    cases heq
    rwa [hc] at hnearest
  · -- the hit is the power of ten above the number, and the other lies a tenth below it or more
    have hreads := toNumber_of_onGrid? hhit
    have hd : d = ⟨1, x.lead + 1⟩ := by
      have hpos := coefficient_pos hsignificand hreads
      have hlow := coefficient_below_lt hsignificand 0
      rw [Nat.cast_zero, sub_zero, pow_zero, Nat.lt_one_iff] at hlow
      rcases eq_neighbour_of_onGrid? hhit with rfl | rfl
      · omega
      · rw [above, hlow]
    rw [hd] at hreads ⊢
    have hpower := lead_power hx hsignificand hreads
    have hhigh := (lead_bounds hsignificand).2
    have hother : d'.value ≤ 9 * 10 ^ x.lead := by
      have hcoefficient : (d'.coefficient : ℚ) ≤ 9 := by
        have hlt := d'.coefficient_lt
        rw [hlength, pow_one] at hlt
        exact_mod_cast Nat.le_of_lt_succ hlt
      have hpow : (10 : ℚ) ^ d'.exponent ≤ 10 ^ x.lead :=
        zpow_le_zpow_right₀ (by norm_num) (by omega)
      have hpos := ten_zpow_pos d'.exponent
      rw [Decimal.value]
      gcongr
    rw [add_comm, ten_zpow_add, zpow_one] at hhigh
    rw [value_next_lead, abs_of_nonneg (by linarith), abs_of_nonpos (by linarith)]
    linarith

/-- **The first hit is the shortest decimal.** -/
theorem shortestFor_of_ne_zero : x.shortest.ShortestFor x := by
  obtain ⟨n, -, hhit, hnone⟩ := shortest_first hx hsignificand
  have hlength := length_digits_le hx hsignificand hhit hnone
  refine ⟨shortest_toNumber hx, fun d hd => ?_, fun d hd hsame => ?_⟩
  · have hmany := le_length_digits hx hsignificand hnone hd
    have hone := d.length_digits_pos
    omega
  · have hmany := le_length_digits hx hsignificand hnone hd
    rcases Nat.eq_zero_or_pos n with rfl | hn
    · rw [Nat.cast_zero, sub_zero] at hhit
      exact nearest_of_coarsest hx hsignificand hhit hd (by have := d.length_digits_pos; omega)
    · exact nearest_of_onGrid? hx hsignificand hhit hd (by omega)

end

/-- **A finite number is written with the fewest digits that read back.** -/
theorem shortestFor_shortest {x : Number} (hx : x.isFinite) : x.shortest.ShortestFor x := by
  rcases eq_or_ne x.significand 0 with hzero | hne
  · exact shortestFor_zero hx hzero
  · exact shortestFor_of_ne_zero hx hne

/-! ## The place of the first digit -/

section

variable {x : Number} (hx : x.isFinite) (hsignificand : x.significand ≠ 0)

include hx hsignificand

theorem lead_range : -324 ≤ x.lead ∧ x.lead ≤ 308 := by
  obtain ⟨hlow, hhigh⟩ := lead_bounds hsignificand
  have hone : (1 : ℚ) < 10 := by norm_num
  constructor
  · have hleast : (10 : ℚ) ^ (-324 : Int) < 2 ^ (-1074 : Int) := by
      have hbounds := least_unit_bounds.1
      have hpos := ten_zpow_pos (-324)
      linarith
    have hunit : (2 : ℚ) ^ (-1074 : Int) ≤ x.value := by
      have hexponent : (2 : ℚ) ^ (-1074 : Int) ≤ 2 ^ x.exponent :=
        zpow_le_zpow_right₀ one_le_two x.le_exponent
      have hcount : (1 : ℚ) ≤ x.significand := by exact_mod_cast Nat.pos_of_ne_zero hsignificand
      exact hexponent.trans (le_mul_of_one_le_left (by positivity) hcount)
    have hlt := (zpow_lt_zpow_iff_right₀ hone).mp ((hleast.trans_le hunit).trans hhigh)
    omega
  · have hmost : (2 : ℚ) ^ (1024 : Int) < 10 ^ (309 : Int) := by
      have hnat : 2 ^ 1024 < 10 ^ 309 := by decide +kernel
      rw [zpow_ofNat, zpow_ofNat]
      exact_mod_cast hnat
    have hlt := (zpow_lt_zpow_iff_right₀ hone).mp
      ((hlow.trans_lt (value_lt_of_isFinite hx)).trans hmost)
    omega

/-- Rounding moves the first digit up by one place at most. -/
theorem order_shortest : x.shortest.order = x.lead ∨ x.shortest.order = x.lead + 1 := by
  obtain ⟨n, -, hhit, hnone⟩ := shortest_first hx hsignificand
  have hupper := length_digits_le hx hsignificand hhit hnone
  have hlower := le_length_digits hx hsignificand hnone (shortest_toNumber hx)
  have hpos := x.shortest.length_digits_pos
  rw [Decimal.order, exponent_of_onGrid? hhit]
  omega

end

theorem order_shortest_range {x : Number} (hx : x.isFinite) :
    -324 ≤ x.shortest.order ∧ x.shortest.order ≤ 309 := by
  rcases eq_or_ne x.significand 0 with hzero | hne
  · have hshortest : x.shortest = ⟨0, 0⟩ := if_pos hzero
    rw [hshortest]
    decide
  · have hrange := lead_range hx hne
    have horder := order_shortest hx hne
    omega

end Number

end Scriptlet
