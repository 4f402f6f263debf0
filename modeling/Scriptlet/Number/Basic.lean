/-!
# Numbers

The numbers of the language are IEEE-754 doubles. A `Number` is the 64 bits of one, so that two
numbers are equal as values of the type exactly when they are the same bit pattern; the equality
of the language is `Number.equals`, under which the two zeros agree and a NaN agrees with nothing.

* `Number.significand`, `Number.exponent`: a finite number is `± significand * 2 ^ exponent`.
* `Number.ofRatio`: the number nearest to a quotient of naturals, a half going to the even
  significand.
* `Number.toInt`, `Number.ofInt?`: the checked conversions. An integer is **countable** when its
  magnitude is at most `2 ^ 53 - 1`; both conversions are exact on the countable integers and fail
  elsewhere.
-/

namespace Scriptlet

/-- A double-precision number, given by its 64 bits. -/
structure Number where
  bits : UInt64
deriving DecidableEq, Inhabited

namespace Number

/-! ## Fields -/

/-- The sign bit. -/
def negative (x : Number) : Bool := 0x8000000000000000 ≤ x.bits

/-- All bits but the sign, which order the magnitudes. -/
def magnitude (x : Number) : Nat := (x.bits % 0x8000000000000000).toNat

/-- The eleven exponent bits. -/
def biased (x : Number) : Nat := (x.bits / 0x10000000000000 % 0x800).toNat

/-- The 52 fraction bits. -/
def fraction (x : Number) : Nat := (x.bits % 0x10000000000000).toNat

def isFinite (x : Number) : Bool := x.biased != 2047

def isNaN (x : Number) : Bool := x.biased == 2047 && x.fraction != 0

/-- The integer significand: the leading bit is implied unless the exponent bits are all zero. -/
def significand (x : Number) : Nat :=
  if x.biased = 0 then x.fraction else 0x10000000000000 + x.fraction

/-- The power of two that the significand counts. -/
def exponent (x : Number) : Int := max x.biased 1 - 1075

/-- The magnitude of a finite number as a quotient of naturals. -/
def ratio (x : Number) : Nat × Nat :=
  (x.significand <<< x.exponent.toNat, 1 <<< (-x.exponent).toNat)

/-- The same magnitude without its sign. -/
def abs (x : Number) : Number := ⟨x.bits % 0x8000000000000000⟩

/-! ## Constants -/

def zero : Number := ⟨0⟩

def nan : Number := ⟨0x7ff8000000000000⟩

/-- The bit pattern of positive infinity, above those of all finite magnitudes. -/
def infinityBits : Nat := 0x7ff0000000000000

/-! ## Rounding -/

/-- The integer nearest to `num / den`, a half going to the even neighbour. -/
def roundDiv (num den : Nat) : Nat :=
  let q := num / den
  let r := num % den
  if den < 2 * r ∨ (2 * r = den ∧ q % 2 = 1) then q + 1 else q

/-- The weight of the last bit kept of `num / den`: the least power of two of which the quotient
is less than `2 ^ 53` multiples, but not below that of the least subnormal number. -/
def unitExponent (num den : Nat) : Int :=
  let e := (num.log2 : Int) - den.log2 - 53
  let fits := num <<< (-e).toNat < den <<< (53 + e.toNat)
  max (if fits then e else e + 1) (-1074)

/-- The magnitude bits of the number nearest to `num / den`. A significand that rounds up to
`2 ^ 53` carries into the exponent bits, and all that lies beyond the finite numbers is infinity. -/
def nearestBits (num den : Nat) : Nat :=
  if num = 0 then 0 else
    let e := unitExponent num den
    let m := roundDiv (num <<< (-e).toNat) (den <<< e.toNat)
    min (((e + 1074).toNat <<< 52) + m) infinityBits

/-- **The number nearest to a quotient of naturals.** -/
def ofRatio (num den : Nat) : Number := ⟨.ofNat (nearestBits num den)⟩

/-! ## Arithmetic -/

def toFloat (x : Number) : Float := .ofBits x.bits

def ofFloat (x : Float) : Number := ⟨x.toBits⟩

def add (x y : Number) : Number := ofFloat (x.toFloat + y.toFloat)

def sub (x y : Number) : Number := ofFloat (x.toFloat - y.toFloat)

def mul (x y : Number) : Number := ofFloat (x.toFloat * y.toFloat)

def div (x y : Number) : Number := ofFloat (x.toFloat / y.toFloat)

/-- The number with the other sign. -/
def neg (x : Number) : Number := ⟨x.bits + 0x8000000000000000⟩

instance : Add Number := ⟨add⟩
instance : Sub Number := ⟨sub⟩
instance : Mul Number := ⟨mul⟩
instance : Div Number := ⟨div⟩
instance : Neg Number := ⟨neg⟩

/-! ## Comparison -/

/-- The place of a number on the line; the two zeros share theirs. -/
def rank (x : Number) : Int := if x.negative then -(x.magnitude : Int) else x.magnitude

/-- Numeric equality. -/
def equals (x y : Number) : Bool := !x.isNaN && !y.isNaN && x.rank == y.rank

/-- Numeric order; a NaN is neither below nor above anything. -/
def less (x y : Number) : Bool := !x.isNaN && !y.isNaN && decide (x.rank < y.rank)

def atMost (x y : Number) : Bool := !x.isNaN && !y.isNaN && decide (x.rank ≤ y.rank)

/-! ## Integers -/

/-- The largest countable integer, `2 ^ 53 - 1`. -/
def countLimit : Nat := 9007199254740991

/-- Why a number cannot be counted with. -/
inductive CountFault where
  | notFinite
  | tooLarge
  | notInteger
deriving DecidableEq, Repr

/-- The integer that a number is, if it is countable. -/
def toInt (x : Number) : Except CountFault Int :=
  let (num, den) := x.ratio
  if !x.isFinite then .error .notFinite
  else if countLimit * den < num then .error .tooLarge
  else if num % den ≠ 0 then .error .notInteger
  else .ok (if x.negative then -((num / den : Nat) : Int) else (num / den : Nat))

/-- The number nearest to an integer. -/
def ofInt (i : Int) : Number :=
  let x := ofRatio i.natAbs 1
  if i < 0 then -x else x

/-- The number that an integer is, if it is countable. -/
def ofInt? (i : Int) : Option Number :=
  if i.natAbs ≤ countLimit then some (ofInt i) else none

end Number

end Scriptlet
