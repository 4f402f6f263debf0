import Scriptlet.Number.Basic

/-!
# Decimals

A `Decimal` is `coefficient * 10 ^ exponent`. Number literals are read as decimals and rounded
once, and a number is written as the decimal with the fewest digits that reads back as it.

* `Decimal.toNumber`: the number nearest to a decimal.
* `Number.shortest`: **the decimal with the fewest digits that reads back**, of two the nearer one,
  and the upper one when the number lies halfway between them.
* `Decimal.plain`, `Decimal.scientific`: the positional and the exponent layout.
* `Number.text`: the text of a computed number. The exponent layout decides which of the two it is.
-/

namespace Scriptlet

/-- `coefficient * 10 ^ exponent`. -/
structure Decimal where
  coefficient : Nat
  exponent : Int
deriving DecidableEq, Inhabited

/-- The natural number that a list of digits writes. -/
def digitsValue (digits : List Char) : Nat :=
  digits.foldl (fun n c => 10 * n + (c.toNat - '0'.toNat)) 0

/-- Whether a text has a minus in front, and what stands behind its sign if it has one. -/
def cutSign : List Char → Bool × List Char
  | '-' :: cs => (true, cs)
  | '+' :: cs => (false, cs)
  | cs => (false, cs)

/-- The integer of 32 bits that a text writes: digits, perhaps with a sign before them. -/
def readInt? (cs : List Char) : Option Int :=
  let (negative, digits) := cutSign cs
  let i : Int := if negative then -(digitsValue digits) else digitsValue digits
  if digits ≠ [] ∧ digits.all Char.isDigit ∧ -0x80000000 ≤ i ∧ i < 0x80000000 then some i
  else none

/-- The parts of a text before and behind the first `separator`. -/
def splitOnce? (separator : Char) (cs : List Char) : Option (List Char × List Char) :=
  match cs.dropWhile (· != separator) with
  | [] => none
  | _ :: behind => some (cs.takeWhile (· != separator), behind)

/-- The powers of ten. -/
def tenTo (k : Nat) : Nat := Nat.pow 10 k

namespace Decimal

/-- The decimal written by the digits before and after a point. -/
def ofDigits (whole fraction : List Char) : Decimal :=
  ⟨digitsValue (whole ++ fraction), -(fraction.length : Int)⟩

/-- The number nearest to a decimal. -/
def toNumber (d : Decimal) : Number :=
  .ofRatio (d.coefficient * tenTo d.exponent.toNat) (tenTo (-d.exponent).toNat)

def digits (d : Decimal) : List Char := Nat.toDigits 10 d.coefficient

/-- The power of ten that the first digit counts. -/
def order (d : Decimal) : Int := d.exponent + d.digits.length - 1

/-- Positional layout: no exponent, and a point only before a digit. -/
def plain (d : Decimal) : String :=
  let places := (-d.exponent).toNat
  let whole := d.digits.length - places
  if places = 0 then .ofList (d.digits ++ List.replicate d.exponent.toNat '0')
  else if whole = 0 then
    "0." ++ .ofList (List.replicate (places - d.digits.length) '0' ++ d.digits)
  else .ofList (d.digits.take whole) ++ "." ++ .ofList (d.digits.drop whole)

/-- The digits of the exponent layout, one of them before the point. -/
def mantissa (d : Decimal) : String :=
  let point := if d.digits.length = 1 then "" else "."
  .ofList (d.digits.take 1) ++ point ++ .ofList (d.digits.drop 1)

/-- Exponent layout: one digit before the point, and the exponent as an integer. -/
def scientific (d : Decimal) : String := d.mantissa ++ "e" ++ toString d.order

/-- An exponent with its sign and in at least two digits. -/
def exponentText (e : Int) : String :=
  let digits := Nat.toDigits 10 e.natAbs
  (if e < 0 then "-" else "+") ++ .ofList (List.replicate (2 - digits.length) '0' ++ digits)

end Decimal

namespace Number

/-! ## Shortest decimals -/

/-- The power of ten that the first digit of `num / den` counts. -/
def leadingPlace (num den : Nat) : Int :=
  if den ≤ num then ((Nat.toDigits 10 (num / den)).length : Int) - 1
  else -((Nat.toDigits 10 ((den - 1) / num)).length : Int)

/-- The multiple of `10 ^ place` next to the magnitude of a finite number that reads back as it.
Of the two neighbours the nearer is tried first, and the upper one when both are equally near. -/
def onGrid? (x : Number) (place : Int) : Option Decimal :=
  let top := x.ratio.1 * tenTo (-place).toNat
  let bottom := x.ratio.2 * tenTo place.toNat
  let low : Decimal := ⟨top / bottom, place⟩
  let high : Decimal := ⟨top / bottom + 1, place⟩
  let neighbours := if bottom ≤ 2 * (top % bottom) then [high, low] else [low, high]
  neighbours.find? fun d => d.toNumber == x.abs

/-- All digits of the magnitude of a finite number. -/
def expansion (x : Number) : Decimal :=
  ⟨x.ratio.1 * Nat.pow 5 (-x.exponent).toNat, min x.exponent 0⟩

/-- **The shortest decimal of a finite number's magnitude**: grids are tried from the coarsest,
one place above the first digit, to that of seventeen digits, which always has a hit. -/
def shortest (x : Number) : Decimal :=
  if x.significand = 0 then ⟨0, 0⟩ else
    let lead := leadingPlace x.ratio.1 x.ratio.2
    let hit := (List.range 18).findSome? fun (n : Nat) => x.onGrid? (lead + 1 - n)
    hit.getD x.expansion

/-! ## Text -/

/-- The text of a number, given the layout of its decimal. -/
def render (layout : Decimal → String) (x : Number) : String :=
  if x.isNaN then "NaN"
  else (if x.negative then "-" else "") ++ if x.isFinite then layout x.shortest else "inf"

/-- The text of a number with every digit in its place. -/
def plainText : Number → String := render Decimal.plain

/-- The text of a number with an exponent. -/
def scientificText : Number → String := render Decimal.scientific

/-- **The text of a number that a program computed.** The exponent is read back from the exponent
layout: from `-4` up to below `16` the positional layout is taken instead, and otherwise the
exponent is written with its sign and in two digits. A text without exponent stays as it is. -/
def text (x : Number) : String :=
  match splitOnce? 'e' x.scientificText.toList with
  | none => x.plainText
  | some (mantissa, exponent) =>
    match readInt? exponent with
    | none => x.plainText
    | some e =>
      if -4 ≤ e ∧ e < 16 then x.plainText
      else .ofList mantissa ++ "e" ++ Decimal.exponentText e

end Number

end Scriptlet
