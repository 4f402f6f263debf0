import Scriptlet.Proofs.Number.Fewest

/-!
# The text of a number by its layout

A computed number is written by way of its exponent layout: the text is cut at the `e`, and the
exponent behind it is read back. Nothing is lost on that way, since the digits hold no `e` and the
exponent of a finite number is small, and so **the order of the shortest decimal decides the
layout** (`Number.text_eq`).

* `splitOnce?_append`, `readInt?_toString`: a text is cut at a separator, and an integer is read
  back.
* `Number.valueLayout`: the layout of a computed number, by the order of its decimal.
-/

namespace Scriptlet

/-! ## Cutting and reading back -/

theorem splitOnce?_append {separator : Char} {cs : List Char} (h : separator ∉ cs)
    (ds : List Char) : splitOnce? separator (cs ++ separator :: ds) = some (cs, ds) := by
  have hrun : ∀ c ∈ cs, (c != separator) = true := fun c hc =>
    bne_iff_ne.mpr fun heq => h (heq ▸ hc)
  have hstop : ∀ c ∈ (separator :: ds).head?, (c != separator) = false := by
    rintro _ ⟨⟩
    exact bne_self_eq_false separator
  rw [splitOnce?, takeWhile_run hrun hstop, dropWhile_run hrun hstop]

theorem toString_toList (i : Int) :
    (toString i).toList = (if i < 0 then ['-'] else []) ++ Nat.toDigits 10 i.natAbs := by
  cases i with
  | ofNat n =>
    have hnonneg : ¬ Int.ofNat n < 0 := Int.not_lt.mpr (Int.natCast_nonneg n)
    rw [if_neg hnonneg]
    exact String.toList_ofList
  | negSucc n =>
    rw [if_pos (Int.negSucc_lt_zero n)]
    show ("-" ++ toString (n + 1)).toList = _
    rw [String.toList_append]
    exact congrArg _ String.toList_ofList

theorem cutSign_of_digits {cs : List Char} (h : ∀ c ∈ cs, c.isDigit) : cutSign cs = (false, cs) := by
  unfold cutSign
  split
  · exact absurd (h '-' List.mem_cons_self) (by decide)
  · exact absurd (h '+' List.mem_cons_self) (by decide)
  · rfl

/-- **An integer of 32 bits is read back** from its text. -/
theorem readInt?_toString {i : Int} (hlow : -0x80000000 ≤ i) (hhigh : i < 0x80000000) :
    readInt? (toString i).toList = some i := by
  have hvalue : digitsValue (Nat.toDigits 10 i.natAbs) = i.natAbs :=
    Decimal.digitsValue_digits ⟨i.natAbs, 0⟩
  have hdigits : ∀ c ∈ Nat.toDigits 10 i.natAbs, c.isDigit := fun c =>
    Nat.isDigit_of_mem_toDigits (by decide) (by decide)
  have hcut : cutSign (toString i).toList = (decide (i < 0), Nat.toDigits 10 i.natAbs) := by
    rw [toString_toList]
    by_cases hi : i < 0
    · rw [if_pos hi, decide_eq_true hi]
      rfl
    · rw [if_neg hi, decide_eq_false hi]
      exact cutSign_of_digits hdigits
  have hread : (if decide (i < 0) then -(i.natAbs : Int) else i.natAbs) = i := by
    simp only [decide_eq_true_eq]
    split_ifs <;> omega
  simp only [readInt?, hcut, hvalue, hread]
  exact if_pos ⟨Nat.toDigits_ne_nil, List.all_eq_true.mpr hdigits, hlow, hhigh⟩

/-! ## The exponent layout -/

namespace Decimal

/-- The exponent layout of a computed number: the exponent has a sign and at least two digits. -/
def exponential (d : Decimal) : String := d.mantissa ++ "e" ++ exponentText d.order

theorem mantissa_toList (d : Decimal) :
    d.mantissa.toList = pointed (d.digits.take 1) (d.digits.drop 1) := by
  have hpos := d.length_digits_pos
  unfold mantissa
  dsimp only
  simp only [String.toList_append, String.toList_ofList]
  split_ifs with hone
  · have hdrop : d.digits.drop 1 = [] := List.drop_eq_nil_of_le hone.le
    rw [hdrop, pointed]
    simp
  · have hdrop : d.digits.drop 1 ≠ [] := by
      rw [ne_eq, List.drop_eq_nil_iff]
      omega
    rw [pointed_of_ne_nil hdrop]
    simp

theorem not_mem_mantissa (d : Decimal) : 'e' ∉ d.mantissa.toList := by
  have hpointed : pointed (d.digits.take 1) (d.digits.drop 1) ⊆
      '.' :: (d.digits.take 1 ++ d.digits.drop 1) := by
    cases d.digits.drop 1 <;> simp [pointed]
  rw [mantissa_toList]
  intro hmem
  rw [List.take_append_drop] at hpointed
  rcases List.mem_cons.mp (hpointed hmem) with heq | hmem
  · cases heq
  · exact absurd (isDigit_of_mem_digits hmem) (by decide)

end Decimal

namespace Number

/-- The layout of a computed number: positional from `10 ^ -4` up to below `10 ^ 16`. -/
def valueLayout (d : Decimal) : String :=
  if -4 ≤ d.order ∧ d.order < 16 then d.plain else d.exponential

theorem render_of_isFinite {x : Number} (hx : x.isFinite) (layout : Decimal → String) :
    render layout x = (if x.negative then "-" else "") ++ layout x.shortest := by
  have hnan : ¬ x.isNaN := by
    rw [isNaN_iff, not_lt]
    exact (isFinite_iff.mp hx).le
  rw [render, if_neg hnan, if_pos hx]

theorem splitOnce?_scientificText {x : Number} (hx : x.isFinite) :
    splitOnce? 'e' x.scientificText.toList =
      some ((if x.negative then ['-'] else []) ++ x.shortest.mantissa.toList,
        (toString x.shortest.order).toList) := by
  have hsplit : x.scientificText.toList =
      ((if x.negative then ['-'] else []) ++ x.shortest.mantissa.toList) ++
        'e' :: (toString x.shortest.order).toList := by
    rw [scientificText, render_of_isFinite hx, Decimal.scientific]
    simp only [String.toList_append, List.append_assoc]
    split_ifs <;> rfl
  rw [hsplit, splitOnce?_append]
  intro hmem
  rcases List.mem_append.mp hmem with hsign | hmem
  · split_ifs at hsign <;> simp at hsign
  · exact x.shortest.not_mem_mantissa hmem

/-- **The order of the shortest decimal decides the layout.** -/
theorem text_eq (x : Number) : x.text = render valueLayout x := by
  by_cases hx : x.isFinite
  · obtain ⟨hlow, hhigh⟩ := order_shortest_range hx
    have hread : readInt? (toString x.shortest.order).toList = some x.shortest.order :=
      readInt?_toString (by omega) (by omega)
    rw [text, splitOnce?_scientificText hx]
    simp only [hread]
    rw [plainText, render_of_isFinite hx, render_of_isFinite hx, valueLayout]
    split_ifs
    · rfl
    · rfl
    · rw [Decimal.exponential, String.ofList_append, String.ofList_toList]
      simp only [String.append_assoc]
    · rw [Decimal.exponential, List.nil_append, String.ofList_toList, String.empty_append]
  · -- neither a NaN nor an infinity has an exponent
    have hrender : ∀ layout, render layout x =
        if x.isNaN then "NaN" else (if x.negative then "-" else "") ++ "inf" := fun layout => by
      rw [render, if_neg hx]
    have hsplit : splitOnce? 'e' x.scientificText.toList = none := by
      rw [scientificText, hrender]
      split_ifs <;> decide
    rw [text, hsplit]
    exact (hrender _).trans (hrender _).symm

end Number

end Scriptlet
