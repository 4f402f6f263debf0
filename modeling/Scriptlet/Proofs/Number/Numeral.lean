import Scriptlet.Proofs.Number.Layouts
import Scriptlet.Value.Basic

/-!
# Numerals

A numeral is a decimal number as it is written: a sign if it is negative, digits with or without a
point, and perhaps an exponent, which always has a sign. Numerals are read here without regard to
how numbers are laid out, and **the text of a finite number reads as its shortest decimal**, with
the sign of the number (`Number.text_keeps_value`).

* `Numeral.read?`: the numeral that a text is, if it is one.
* `Numeral.decimal`: the decimal that a numeral writes, without its sign.
* `Numeral.Positional`, `Numeral.Scientific`: the two forms of numerals.
-/

namespace Scriptlet

/-- The exponent of a numeral: whether its sign is a minus, and its digits. -/
structure Numeral.Exponent where
  negative : Bool
  digits : List Char
deriving DecidableEq

/-- A decimal number as it is written. -/
structure Numeral where
  negative : Bool
  whole : List Char
  fraction : List Char
  exponent : Option Numeral.Exponent
deriving DecidableEq

namespace Numeral

/-! ## Reading -/

/-- The exponent that is written behind an `e`. -/
def Exponent.read? : List Char → Option Exponent
  | [] => none
  | sign :: digits =>
    if (sign == '+' || sign == '-') && !digits.isEmpty && digits.all Char.isDigit then
      some ⟨sign == '-', digits⟩
    else none

/-- The numeral that ends in the given text behind its digits. -/
def readEnd? (negative : Bool) (whole fraction : List Char) : List Char → Option Numeral
  | [] => some ⟨negative, whole, fraction, none⟩
  | 'e' :: cs => (Exponent.read? cs).map fun x => ⟨negative, whole, fraction, some x⟩
  | _ => none

/-- The numeral that a text is, apart from its sign. A point stands between digits. -/
def readDigits? (negative : Bool) (cs : List Char) : Option Numeral :=
  let whole := cs.takeWhile Char.isDigit
  if whole = [] then none else
    match cs.dropWhile Char.isDigit with
    | '.' :: ds =>
      let fraction := ds.takeWhile Char.isDigit
      if fraction = [] then none
      else readEnd? negative whole fraction (ds.dropWhile Char.isDigit)
    | rest => readEnd? negative whole [] rest

/-- **The numeral that a text is.** -/
def read? (text : String) : Option Numeral :=
  match text.toList with
  | '-' :: cs => readDigits? true cs
  | cs => readDigits? false cs

/-- The integer that an exponent writes. -/
def Exponent.value (x : Exponent) : Int :=
  if x.negative then -(digitsValue x.digits : Int) else digitsValue x.digits

/-- The decimal that a numeral writes, without its sign. -/
def decimal (n : Numeral) : Decimal :=
  ⟨digitsValue (n.whole ++ n.fraction), n.exponent.elim 0 Exponent.value - n.fraction.length⟩

/-! ## Forms -/

/-- Positional form: every digit in its place. -/
def Positional (n : Numeral) : Prop := n.exponent = none

/-- Exponent form of a decimal: its first digit before the point, its other digits behind, and the
place of the first digit in at least two digits behind a sign. -/
structure Scientific (n : Numeral) (d : Decimal) : Prop where
  whole : n.whole = d.digits.take 1
  fraction : n.fraction = d.digits.drop 1
  exponent : ∃ x, n.exponent = some x ∧ x.value = d.order ∧ 2 ≤ x.digits.length

theorem Scientific.not_positional {n : Numeral} {d : Decimal} (h : n.Scientific d) :
    ¬ n.Positional := by
  obtain ⟨x, hx, -⟩ := h.exponent
  rw [Positional, hx]
  exact Option.some_ne_none x

/-! ## What is written is read -/

theorem readDigits?_pointed {negative : Bool} {whole fraction rest : List Char}
    (h : Digital whole fraction) (hrest : ∀ c ∈ rest.head?, c.isDigit = false ∧ c ≠ '.') :
    readDigits? negative (pointed whole fraction ++ rest) =
      readEnd? negative whole fraction rest := by
  have hend : ∀ c ∈ rest.head?, c.isDigit = false := fun c hc => (hrest c hc).1
  unfold readDigits?
  dsimp only
  cases fraction with
  | nil =>
    rw [pointed, takeWhile_run h.whole hend, dropWhile_run h.whole hend, if_neg h.whole_ne_nil]
    split
    · exact absurd rfl (hrest '.' rfl).2
    · rfl
  | cons f fs =>
    have hpoint : ∀ c ∈ ('.' :: (f :: fs ++ rest)).head?, c.isDigit = false := by
      rintro _ ⟨⟩
      rfl
    rw [pointed, List.append_assoc, List.cons_append, takeWhile_run h.whole hpoint,
      dropWhile_run h.whole hpoint, if_neg h.whole_ne_nil]
    simp only
    rw [takeWhile_run h.fraction hend, dropWhile_run h.fraction hend,
      if_neg (List.cons_ne_nil f fs)]

theorem head?_pointed {whole fraction : List Char} (h : Digital whole fraction) (rest : List Char) :
    ∀ c ∈ (pointed whole fraction ++ rest).head?, c.isDigit := by
  intro c hc
  obtain ⟨d, ds, hwhole⟩ := List.exists_cons_of_ne_nil h.whole_ne_nil
  have hd : d.isDigit := h.whole d (by rw [hwhole]; exact List.mem_cons_self)
  rw [hwhole] at hc
  cases fraction <;> cases hc <;> exact hd

theorem read?_minus {text : String} {cs : List Char} (h : text.toList = '-' :: cs) :
    read? text = readDigits? true cs := by
  unfold read?
  rw [h]
  rfl

theorem read?_digit {text : String} (h : ∀ c ∈ text.toList.head?, c.isDigit) :
    read? text = readDigits? false text.toList := by
  unfold read?
  split
  · rename_i cs hcs
    rw [hcs] at h
    exact absurd (h '-' rfl) (by decide)
  · rfl

/-! ## Layouts -/

/-- The digits of an exponent, with zeros in front if they are fewer than two. -/
def padded (k : Nat) : List Char :=
  List.replicate (2 - (Nat.toDigits 10 k).length) '0' ++ Nat.toDigits 10 k

theorem digitsValue_padded (k : Nat) : digitsValue (padded k) = k := by
  have hvalue := Decimal.digitsValue_digits ⟨k, 0⟩
  rw [padded, digitsValue_append, digitsValue_zeros, Nat.mul_zero, Nat.zero_add]
  exact hvalue

theorem isDigit_of_mem_padded {k : Nat} {c : Char} (h : c ∈ padded k) : c.isDigit := by
  rcases List.mem_append.mp h with hc | hc
  · rw [List.eq_of_mem_replicate hc]
    rfl
  · exact Nat.isDigit_of_mem_toDigits (by decide) (by decide) hc

theorem two_le_length_padded (k : Nat) : 2 ≤ (padded k).length := by
  rw [padded, List.length_append, List.length_replicate]
  omega

theorem exponentText_toList (e : Int) :
    (Decimal.exponentText e).toList = (if e < 0 then '-' else '+') :: padded e.natAbs := by
  unfold Decimal.exponentText
  dsimp only
  rw [String.toList_append, String.toList_ofList]
  split_ifs <;> rfl

theorem Exponent.read?_padded {sign : Char} (h : sign = '+' ∨ sign = '-') (k : Nat) :
    Exponent.read? (sign :: padded k) = some ⟨sign == '-', padded k⟩ := by
  have hsign : (sign == '+' || sign == '-') = true := by
    rcases h with rfl | rfl <;> rfl
  have hne : (padded k).isEmpty = false := by
    have hlength := two_le_length_padded k
    rw [List.isEmpty_eq_false_iff_exists_mem]
    exact List.exists_mem_of_length_pos (by omega)
  have hall : (padded k).all Char.isDigit = true :=
    List.all_eq_true.mpr fun c => isDigit_of_mem_padded
  rw [Exponent.read?, hsign, hne, hall]
  rfl

/-- **An exponent is written with its sign and in at least two digits.** -/
theorem read?_exponentText (e : Int) :
    ∃ x, Exponent.read? (Decimal.exponentText e).toList = some x ∧ x.value = e ∧
      2 ≤ x.digits.length := by
  rw [exponentText_toList]
  split_ifs with he
  · refine ⟨_, Exponent.read?_padded (Or.inr rfl) _, ?_, two_le_length_padded _⟩
    show -(digitsValue (padded e.natAbs) : Int) = e
    rw [digitsValue_padded]
    omega
  · refine ⟨_, Exponent.read?_padded (Or.inl rfl) _, ?_, two_le_length_padded _⟩
    show (digitsValue (padded e.natAbs) : Int) = e
    rw [digitsValue_padded]
    omega

theorem exponential_toList (d : Decimal) :
    d.exponential.toList = pointed (d.digits.take 1) (d.digits.drop 1) ++
      'e' :: (Decimal.exponentText d.order).toList := by
  rw [Decimal.exponential, String.toList_append, String.toList_append, d.mantissa_toList,
    List.append_assoc]
  rfl

/-- **The positional layout of a decimal reads as it.** -/
theorem readDigits?_plain (negative : Bool) (d : Decimal) :
    ∃ n, readDigits? negative d.plain.toList = some n ∧ n.negative = negative ∧
      n.decimal.value = d.value ∧ n.Positional := by
  obtain ⟨whole, fraction, hplain, hdigits, hvalue⟩ := d.plain_toList
  refine ⟨⟨negative, whole, fraction, none⟩, ?_, rfl, ?_, rfl⟩
  · rw [hplain, ← List.append_nil (pointed whole fraction), readDigits?_pointed hdigits (by simp)]
    rfl
  · rw [← hvalue]
    show Decimal.value ⟨digitsValue (whole ++ fraction), 0 - (fraction.length : Int)⟩ = _
    rw [zero_sub]
    rfl

/-- **The exponent layout of a decimal reads as it.** -/
theorem readDigits?_exponential (negative : Bool) (d : Decimal) :
    ∃ n, readDigits? negative d.exponential.toList = some n ∧ n.negative = negative ∧
      n.decimal.value = d.value ∧ n.Scientific d := by
  obtain ⟨x, hread, hvalue, hlength⟩ := read?_exponentText d.order
  refine ⟨⟨negative, d.digits.take 1, d.digits.drop 1, some x⟩, ?_, rfl, ?_,
    ⟨rfl, rfl, x, rfl, hvalue, hlength⟩⟩
  · rw [exponential_toList, readDigits?_pointed (d.digital_cut one_ne_zero) (by rintro _ ⟨⟩; decide)]
    show (Exponent.read? (Decimal.exponentText d.order).toList).map _ = _
    rw [hread]
    rfl
  · have hpos := d.length_digits_pos
    have hdecimal :
        (⟨negative, d.digits.take 1, d.digits.drop 1, some x⟩ : Numeral).decimal = d := by
      unfold decimal
      rw [List.take_append_drop, Decimal.digitsValue_digits, List.length_drop, Option.elim_some,
        hvalue, Decimal.order]
      congr 1
      omega
    rw [hdecimal]

theorem head?_plain (d : Decimal) : ∀ c ∈ d.plain.toList.head?, c.isDigit := by
  obtain ⟨whole, fraction, hplain, hdigits, -⟩ := d.plain_toList
  rw [hplain, ← List.append_nil (pointed whole fraction)]
  exact head?_pointed hdigits []

theorem head?_exponential (d : Decimal) : ∀ c ∈ d.exponential.toList.head?, c.isDigit := by
  rw [exponential_toList]
  exact head?_pointed (d.digital_cut one_ne_zero) _

end Numeral

namespace Number

open Numeral

theorem head?_valueLayout (d : Decimal) : ∀ c ∈ (valueLayout d).toList.head?, c.isDigit := by
  unfold valueLayout
  split_ifs
  · exact head?_plain d
  · exact head?_exponential d

/-- The layout of a computed number reads as its decimal, in the form that its order decides. -/
theorem readDigits?_valueLayout (negative : Bool) (d : Decimal) :
    ∃ n, readDigits? negative (valueLayout d).toList = some n ∧ n.negative = negative ∧
      n.decimal.value = d.value ∧ (n.Scientific d ↔ d.order < -4 ∨ 16 ≤ d.order) ∧
      (n.Positional ↔ -4 ≤ d.order ∧ d.order < 16) := by
  unfold valueLayout
  split_ifs with horder
  · obtain ⟨n, hread, hnegative, hvalue, hpositional⟩ := readDigits?_plain negative d
    have hnot : ¬ (d.order < -4 ∨ 16 ≤ d.order) := by omega
    refine ⟨n, hread, hnegative, hvalue, ?_, iff_of_true hpositional horder⟩
    exact iff_of_false (fun h => h.not_positional hpositional) hnot
  · obtain ⟨n, hread, hnegative, hvalue, hscientific⟩ := readDigits?_exponential negative d
    have hout : d.order < -4 ∨ 16 ≤ d.order := by omega
    exact ⟨n, hread, hnegative, hvalue, iff_of_true hscientific hout,
      iff_of_false hscientific.not_positional horder⟩

theorem text_toList {x : Number} (hx : x.isFinite) :
    x.text.toList = (if x.negative then ['-'] else []) ++ (valueLayout x.shortest).toList := by
  rw [text_eq, render_of_isFinite hx, String.toList_append]
  split_ifs <;> rfl

/-- **The text of a finite number reads as its shortest decimal.** -/
theorem read?_text {x : Number} (hx : x.isFinite) :
    ∃ n, Numeral.read? x.text = some n ∧ n.negative = x.negative ∧
      n.decimal.value = x.shortest.value ∧
      (n.Scientific x.shortest ↔ x.shortest.order < -4 ∨ 16 ≤ x.shortest.order) ∧
      (n.Positional ↔ -4 ≤ x.shortest.order ∧ x.shortest.order < 16) := by
  obtain ⟨n, hread, hn⟩ := readDigits?_valueLayout x.negative x.shortest
  refine ⟨n, ?_, hn⟩
  have htext := text_toList hx
  cases hnegative : x.negative with
  | true =>
    rw [hnegative] at htext hread
    exact (read?_minus htext).trans hread
  | false =>
    rw [hnegative] at htext hread
    replace htext : x.text.toList = (valueLayout x.shortest).toList := htext
    have hhead := head?_valueLayout x.shortest
    rw [← htext] at hread hhead
    exact (read?_digit hhead).trans hread

theorem eq_of_abs_eq {x y : Number} (habs : x.abs = y.abs) (hnegative : x.negative = y.negative) :
    x = y := by
  have hmagnitude : x.bits.toNat % 2 ^ 63 = y.bits.toNat % 2 ^ 63 := by
    rw [← magnitude_eq_mod, ← magnitude_eq_mod, ← magnitude_abs, habs, magnitude_abs]
  have hsign : 2 ^ 63 ≤ x.bits.toNat ↔ 2 ^ 63 ≤ y.bits.toNat := by
    rw [← negative_iff, ← negative_iff, hnegative]
  have hx := x.bits.toNat_lt
  have hy := y.bits.toNat_lt
  exact eq_of_toNat_bits (by omega)

/-- **The text of a finite number keeps its value**: it is written in exponent form just when the
first digit of its shortest decimal lies below the fourth place behind the point or above the
sixteenth before it, both forms read as that decimal with the sign of the number, and no other
finite number has the same text. -/
theorem text_keeps_value {x : Number} (hx : x.isFinite) :
    x.shortest.ShortestFor x ∧
      (∃ n, Numeral.read? (Value.number x).text = some n ∧ n.negative = x.negative ∧
        n.decimal.value = x.shortest.value ∧
        (n.Scientific x.shortest ↔ x.shortest.order < -4 ∨ 16 ≤ x.shortest.order) ∧
        (n.Positional ↔ -4 ≤ x.shortest.order ∧ x.shortest.order < 16)) ∧
      ∀ y : Number, y.isFinite → (Value.number y).text = (Value.number x).text → y = x := by
  refine ⟨shortestFor_shortest hx, read?_text hx, fun y hy htext => ?_⟩
  obtain ⟨n, hn, hsign, hvalue, -⟩ := read?_text hx
  obtain ⟨m, hm, hsign', hvalue', -⟩ := read?_text hy
  have hsame : m = n := by
    rw [← Option.some_inj, ← hm, ← hn]
    exact congrArg Numeral.read? htext
  subst hsame
  have hnumber := Decimal.toNumber_eq_of_value_eq (hvalue'.symm.trans hvalue)
  rw [shortest_toNumber hy, shortest_toNumber hx] at hnumber
  exact eq_of_abs_eq hnumber (hsign'.symm.trans hsign)

theorem text_keeps_value_tenMillionth :
    (⟨0xbe7ad7f29abcaf48⟩ : Number).isFinite ∧
      (⟨1, -7⟩ : Decimal).ShortestFor ⟨0xbe7ad7f29abcaf48⟩ ∧
      (∃ n, Numeral.read? "-1e-07" = some n ∧ n.negative ∧
        n.decimal.value = (⟨1, -7⟩ : Decimal).value ∧ n.Scientific ⟨1, -7⟩ ∧ ¬ n.Positional) ∧
      ∀ y : Number, y.isFinite → (Value.number y).text = "-1e-07" → y = ⟨0xbe7ad7f29abcaf48⟩ := by
  have hfinite : (⟨0xbe7ad7f29abcaf48⟩ : Number).isFinite := by decide
  have hshortest : (⟨0xbe7ad7f29abcaf48⟩ : Number).shortest = ⟨1, -7⟩ := by decide +kernel
  have htext : (Value.number ⟨0xbe7ad7f29abcaf48⟩).text = "-1e-07" := by decide +kernel
  have horder : (⟨1, -7⟩ : Decimal).order = -7 := by decide +kernel
  obtain ⟨hfewest, ⟨n, hread, hsign, hvalue, hscientific, hpositional⟩, hunique⟩ :=
    text_keeps_value hfinite
  rw [hshortest, horder] at hscientific hpositional
  rw [hshortest] at hfewest hvalue
  rw [htext] at hread hunique
  refine ⟨hfinite, hfewest, ⟨n, hread, ?_, hvalue, ?_, ?_⟩, hunique⟩
  · rw [hsign]
    decide
  · exact hscientific.mpr (by decide)
  · rw [hpositional]
    decide

end Number

end Scriptlet
