import Scriptlet.Number.Decimal
import Scriptlet.Proofs.Number.Nearest

/-!
# Decimals that read back

The shortest decimal of a number and its positional layout both keep the number: **what is written
of a finite number reads back as its magnitude** (`Number.shortest_toNumber`,
`Decimal.plain_toList`).

* `pointed`: digits before a point and digits after it, the point left out if there are none.
* `Decimal.value`: the rational that a decimal denotes, on which alone `Decimal.toNumber` depends.
* `Decimal.bits_toNumber_mono`: a greater decimal reads as a number with no lesser bits.
-/

namespace Scriptlet

/-! ## Digits -/

theorem digitsValue_append (us vs : List Char) :
    digitsValue (us ++ vs) = 10 ^ vs.length * digitsValue us + digitsValue vs := by
  unfold digitsValue
  rw [List.foldl_append]
  exact Nat.ofDigitChars_eq_ofDigitChars_zero

theorem digitsValue_zeros (n : Nat) : digitsValue (List.replicate n '0') = 0 := by
  exact Nat.ofDigitChars_replicate_zero.trans (Nat.mul_zero _)

/-- A run ends where a character of another class follows. -/
theorem takeWhile_run {p : Char → Bool} {cs rest : List Char} (h : ∀ c ∈ cs, p c)
    (hrest : ∀ c ∈ rest.head?, p c = false) : (cs ++ rest).takeWhile p = cs := by
  rw [List.takeWhile_append_of_pos h]
  cases rest with
  | nil => exact List.append_nil cs
  | cons c ds =>
    rw [List.takeWhile_cons_of_neg (by simp [hrest c rfl])]
    exact List.append_nil cs

theorem dropWhile_run {p : Char → Bool} {cs rest : List Char} (h : ∀ c ∈ cs, p c)
    (hrest : ∀ c ∈ rest.head?, p c = false) : (cs ++ rest).dropWhile p = rest := by
  have hsplit := List.takeWhile_append_dropWhile (p := p) (l := cs ++ rest)
  rw [takeWhile_run h hrest] at hsplit
  exact List.append_cancel_left hsplit

theorem Decimal.digitsValue_digits (d : Decimal) : digitsValue d.digits = d.coefficient :=
  Nat.ofDigitChars_ten_toDigits

theorem Decimal.isDigit_of_mem_digits {d : Decimal} {c : Char} (h : c ∈ d.digits) : c.isDigit :=
  Nat.isDigit_of_mem_toDigits (by decide) (by decide) h

theorem Decimal.digits_ne_nil (d : Decimal) : d.digits ≠ [] := Nat.toDigits_ne_nil

/-! ## Decimals as rationals -/

/-- The rational that a decimal denotes. -/
def Decimal.value (d : Decimal) : ℚ := d.coefficient * 10 ^ d.exponent

theorem tenTo_eq (k : Nat) : tenTo k = 10 ^ k := rfl

theorem tenTo_pos (k : Nat) : 0 < tenTo k := Nat.pow_pos (by decide)

theorem ten_zpow_pos (k : Int) : (0 : ℚ) < 10 ^ k := zpow_pos (by norm_num) k

theorem ten_zpow_eq_div (k : Int) : (10 : ℚ) ^ k = 10 ^ k.toNat / 10 ^ (-k).toNat := by
  rw [← zpow_natCast, ← zpow_natCast, ← zpow_sub₀ (by norm_num)]
  congr 1
  omega

/-- The two sides of the quotient that `Decimal.toNumber` rounds. -/
theorem Decimal.div_eq_value (d : Decimal) :
    ((d.coefficient * tenTo d.exponent.toNat : Nat) : ℚ) / tenTo (-d.exponent).toNat =
      d.value := by
  rw [Decimal.value, ten_zpow_eq_div, ← mul_div_assoc, tenTo_eq, tenTo_eq]
  push_cast
  rfl

theorem Decimal.bits_toNumber_mono {d d' : Decimal} (h : d.value ≤ d'.value) :
    d.toNumber.bits.toNat ≤ d'.toNumber.bits.toNat := by
  rw [toNumber, toNumber, Number.bits_ofRatio, Number.bits_ofRatio]
  refine Number.nearestBits_mono (tenTo_pos _) (tenTo_pos _) ?_
  rwa [div_eq_value, div_eq_value]

theorem Decimal.toNumber_eq_of_value_eq {d d' : Decimal} (h : d.value = d'.value) :
    d.toNumber = d'.toNumber :=
  Number.eq_of_toNat_bits (le_antisymm (bits_toNumber_mono h.le) (bits_toNumber_mono h.ge))

theorem Decimal.toNumber_eq_of_between {lo d hi : Decimal} (hlo : lo.value ≤ d.value)
    (hhi : d.value ≤ hi.value) (h : lo.toNumber = hi.toNumber) : d.toNumber = lo.toNumber := by
  refine Number.eq_of_toNat_bits (le_antisymm ?_ (bits_toNumber_mono hlo))
  rw [h]
  exact bits_toNumber_mono hhi

theorem Decimal.toNumber_of_value {d : Decimal} {x : Number} (hx : x.isFinite)
    (h : d.value = x.value) : d.toNumber = x.abs :=
  Number.ofRatio_of_value hx (tenTo_pos _) (d.div_eq_value.trans h)

theorem Decimal.bits_toNumber_le (d : Decimal) : d.toNumber.bits.toNat ≤ Number.infinityBits := by
  rw [Decimal.toNumber, Number.bits_ofRatio]
  exact Number.nearestBits_le _ _

/-! ## The shortest decimal -/

namespace Number

theorem toNumber_of_onGrid? {x : Number} {place : Int} {d : Decimal}
    (h : x.onGrid? place = some d) : d.toNumber = x.abs := by
  unfold onGrid? at h
  have hd := List.find?_some h
  exact eq_of_beq hd

theorem expansion_value (x : Number) : x.expansion.value = x.value := by
  have hten : (10 : ℚ) ^ min x.exponent 0 =
      (5 ^ (-x.exponent).toNat * 2 ^ (-x.exponent).toNat)⁻¹ := by
    have hbase : (5 : ℚ) * 2 = 10 := by norm_num
    rw [← mul_pow, hbase, ← zpow_natCast, ← zpow_neg]
    congr 1
    omega
  have htwo : x.ratio.2 = 2 ^ (-x.exponent).toNat := by
    show 1 <<< (-x.exponent).toNat = _
    rw [Nat.shiftLeft_eq, one_mul]
  show ((x.ratio.1 * 5 ^ (-x.exponent).toNat : Nat) : ℚ) * 10 ^ min x.exponent 0 = x.value
  rw [← ratio_value, htwo, hten]
  push_cast
  field_simp

/-- **The shortest decimal of a finite number reads back as its magnitude.** -/
theorem shortest_toNumber {x : Number} (hx : x.isFinite) : x.shortest.toNumber = x.abs := by
  unfold shortest
  split_ifs with hzero
  · refine Decimal.toNumber_of_value hx ?_
    rw [Decimal.value, value, hzero, Nat.cast_zero, zero_mul, zero_mul]
  · dsimp only
    cases hhit : (List.range 18).findSome? fun (n : Nat) =>
        x.onGrid? (leadingPlace x.ratio.1 x.ratio.2 + 1 - n) with
    | none => exact Decimal.toNumber_of_value hx x.expansion_value
    | some d =>
      obtain ⟨n, -, hn⟩ := List.exists_of_findSome?_eq_some hhit
      exact toNumber_of_onGrid? hn

end Number

/-! ## The positional layout -/

/-- Digits before a point and digits after it; the point is left out if there are none. -/
def pointed (whole : List Char) : List Char → List Char
  | [] => whole
  | c :: cs => whole ++ '.' :: c :: cs

/-- The digits before the point are some, and all are digits. -/
structure Digital (whole fraction : List Char) : Prop where
  whole_ne_nil : whole ≠ []
  whole : ∀ c ∈ whole, c.isDigit
  fraction : ∀ c ∈ fraction, c.isDigit

theorem pointed_of_ne_nil {whole fraction : List Char} (h : fraction ≠ []) :
    pointed whole fraction = whole ++ '.' :: fraction := by
  cases fraction with
  | nil => exact absurd rfl h
  | cons c cs => rfl

namespace Decimal

theorem isDigit_zeros (n : Nat) : ∀ c ∈ List.replicate n '0', c.isDigit := by
  intro c hc
  rw [List.eq_of_mem_replicate hc]
  rfl

theorem digital_cut (d : Decimal) {k : Nat} (hk : k ≠ 0) :
    Digital (d.digits.take k) (d.digits.drop k) where
  whole_ne_nil := by
    rw [ne_eq, List.take_eq_nil_iff]
    exact fun h => h.elim hk d.digits_ne_nil
  whole _ hc := isDigit_of_mem_digits (List.mem_of_mem_take hc)
  fraction _ hc := isDigit_of_mem_digits (List.mem_of_mem_drop hc)

theorem value_ofDigits_zeros {d : Decimal} (h : (-d.exponent).toNat = 0) :
    (ofDigits (d.digits ++ List.replicate d.exponent.toNat '0') []).value = d.value := by
  obtain ⟨k, hk⟩ : ∃ k : Nat, d.exponent = k := ⟨d.exponent.toNat, by omega⟩
  rw [value, value, ofDigits, List.append_nil, digitsValue_append, digitsValue_zeros,
    digitsValue_digits, List.length_replicate, hk, Int.toNat_natCast, zpow_natCast]
  simp [mul_comm]

theorem ofDigits_zeros_digits {d : Decimal} (h : d.digits.length ≤ (-d.exponent).toNat) :
    ofDigits ['0'] (List.replicate ((-d.exponent).toNat - d.digits.length) '0' ++ d.digits) =
      d := by
  have hpos : 0 < d.digits.length := List.length_pos_iff.mpr d.digits_ne_nil
  have hvalue : digitsValue ['0'] = 0 := rfl
  simp only [ofDigits, digitsValue_append, hvalue, digitsValue_zeros, digitsValue_digits,
    List.length_append, List.length_replicate, Nat.mul_zero, Nat.zero_add]
  congr 1
  omega

theorem ofDigits_cut {d : Decimal} (h : (-d.exponent).toNat < d.digits.length)
    (hplaces : (-d.exponent).toNat ≠ 0) :
    ofDigits (d.digits.take (d.digits.length - (-d.exponent).toNat))
      (d.digits.drop (d.digits.length - (-d.exponent).toNat)) = d := by
  rw [ofDigits, List.take_append_drop, digitsValue_digits, List.length_drop]
  congr 1
  omega

/-- **The positional layout writes the decimal.** -/
theorem plain_toList (d : Decimal) :
    ∃ whole fraction, d.plain.toList = pointed whole fraction ∧ Digital whole fraction ∧
      (ofDigits whole fraction).value = d.value := by
  unfold plain
  dsimp only
  split_ifs with hplaces hwhole
  · refine ⟨d.digits ++ List.replicate d.exponent.toNat '0', [], ?_, ⟨?_, ?_, nofun⟩,
      value_ofDigits_zeros hplaces⟩
    · rw [String.toList_ofList]
      rfl
    · exact List.append_ne_nil_of_left_ne_nil d.digits_ne_nil _
    · exact List.forall_mem_append.mpr ⟨fun _ => isDigit_of_mem_digits, isDigit_zeros _⟩
  · refine ⟨['0'], List.replicate ((-d.exponent).toNat - d.digits.length) '0' ++ d.digits, ?_,
      ⟨nofun, isDigit_zeros 1, ?_⟩, ?_⟩
    · rw [pointed_of_ne_nil (List.append_ne_nil_of_right_ne_nil _ d.digits_ne_nil),
        String.toList_append, String.toList_ofList]
      simp
    · exact List.forall_mem_append.mpr ⟨isDigit_zeros _, fun _ => isDigit_of_mem_digits⟩
    · rw [ofDigits_zeros_digits (Nat.sub_eq_zero_iff_le.mp hwhole)]
  · have hwithin := Nat.lt_of_sub_ne_zero hwhole
    refine ⟨_, _, ?_, d.digital_cut hwhole, congrArg value (ofDigits_cut hwithin hplaces)⟩
    have hdrop : d.digits.drop (d.digits.length - (-d.exponent).toNat) ≠ [] := by
      rw [ne_eq, List.drop_eq_nil_iff]
      omega
    rw [pointed_of_ne_nil hdrop, String.toList_append, String.toList_append]
    simp

end Decimal

theorem Number.plainText_eq {x : Number} (hbits : x.bits.toNat ≤ Number.infinityBits) :
    x.plainText = if x.isFinite then x.shortest.plain else "inf" := by
  have hmagnitude : x.magnitude ≤ infinityBits := by
    rw [← abs_of_bits_le hbits] at hbits
    exact hbits
  rw [plainText, render, if_neg, if_neg]
  · exact String.empty_append
  · rw [negative_iff, infinityBits] at *
    omega
  · rw [isNaN_iff]
    exact Nat.not_lt.mpr hmagnitude

/-- **A finite number that is not negative is written so that it reads back.** -/
theorem Number.plainText_toList {x : Number} (hx : x.isFinite)
    (hbits : x.bits.toNat ≤ Number.infinityBits) :
    ∃ whole fraction, x.plainText.toList = pointed whole fraction ∧ Digital whole fraction ∧
      (Decimal.ofDigits whole fraction).toNumber = x := by
  obtain ⟨whole, fraction, hplain, hdigits, hvalue⟩ := x.shortest.plain_toList
  refine ⟨whole, fraction, ?_, hdigits, ?_⟩
  · rw [plainText_eq hbits, if_pos hx, hplain]
  · rw [Decimal.toNumber_eq_of_value_eq hvalue, shortest_toNumber hx, abs_of_bits_le hbits]

end Scriptlet
