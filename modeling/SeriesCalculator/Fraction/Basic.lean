import SeriesCalculator.Binary.Integer
import SeriesCalculator.Decimal.Text
import SeriesCalculator.Fraction.Reduction

/-!
# Fractions of 32-bit integers

A fraction is reduced when it is made and carries its sign in the numerator. The denominator zero
stands for an undefined fraction: it is never reduced, raises no error and goes through every
operation. Products and sums wrap at thirty-two bits. The magnitude `2 ^ 31` exists with a minus sign
only; a reduced denominator of that size cannot be positive, so such a fraction stays as it was given.
Equality is equality of the two numbers.
-/

namespace SeriesCalculator

/-- A numerator over a denominator; the denominator zero makes it undefined. -/
structure Fraction where
  num : Int32
  den : Int32
  deriving DecidableEq

namespace Fraction

/-- The largest 32-bit integer. -/
def largest : Int := Int32.maxValue.toInt

/-- The least 32-bit integer. -/
def least : Int := Int32.minValue.toInt

/-- The undefined fraction. -/
def undefined : Fraction := { num := 1, den := 0 }

/-- The fraction with the largest value. -/
def maximum : Fraction := { num := Int32.maxValue, den := 1 }

/-- The least positive fraction, the reciprocal of the largest one. -/
def minimum : Fraction := { num := 1, den := Int32.maxValue }

/-- A whole number over one. -/
def ofInt32 (n : Int32) : Fraction := { num := n, den := 1 }

instance : Zero Fraction where
  zero := ofInt32 0

instance : One Fraction where
  one := ofInt32 1

/-- Tells whether the denominator is zero. -/
def isUndefined (f : Fraction) : Bool :=
  f.den == 0

/-- Tells whether the fraction is defined and has the value zero. -/
def isZero (f : Fraction) : Bool :=
  f.num == 0 && f.den != 0

/-- The reduced fraction `num / den`. Zero over anything is zero over one. -/
def reduced (num den : Int32) : Fraction :=
  if den = 0 then { num, den }
  else if num = 0 then { num, den := 1 }
  else
    let terms := lowestTerms num.toInt.natAbs den.toInt.natAbs
    if largest < terms.2 then { num, den }
    else
      let magnitude := Int32.ofNat terms.1
      let negative := decide (num < 0) != decide (den < 0)
      { num := if negative then -magnitude else magnitude, den := Int32.ofNat terms.2 }

/-- Swaps numerator and denominator. -/
def reciprocal (f : Fraction) : Fraction :=
  reduced f.den f.num

instance : Add Fraction where
  add f g := reduced (f.num * g.den + f.den * g.num) (f.den * g.den)

instance : Sub Fraction where
  sub f g := reduced (f.num * g.den - g.num * f.den) (f.den * g.den)

instance : Mul Fraction where
  mul f g := reduced (f.num * g.num) (f.den * g.den)

/-- Division by an undefined fraction is undefined, whatever is divided. -/
instance : Div Fraction where
  div f g := if g.isUndefined then undefined else f * g.reciprocal

instance : Neg Fraction where
  neg f := reduced (-f.num) f.den

/-- Two fractions compare as the numerator of their difference compares with zero. -/
instance : Ord Fraction where
  compare f g := compare (f - g).num 0

/-- The quotient as a double, if the fraction is defined. -/
def toFloat? (f : Fraction) : Option Float :=
  if f.isUndefined then none
  else some (Binary.ofInt f.num.toInt / Binary.ofInt f.den.toInt)

/-- The fraction that the written form of a double stands for: a power of ten with as many zeros as
there are digits after the point is the denominator, and the nearest whole number of such parts is the
numerator. Both stop at the ends of the 32-bit range, each on its own. -/
def ofFloat (x : Float) : Fraction :=
  let den : Int := min (Decimal.powerOfTen (Decimal.fractionDigits x)) largest
  let num := Binary.nearestWithin least largest (x * Binary.ofInt den)
  reduced (Int32.ofInt num) (Int32.ofInt den)

/-- The written form, always with both numbers. -/
def text (f : Fraction) : String :=
  "(" ++ toString f.num.toInt ++ " / " ++ toString f.den.toInt ++ ")"

end Fraction

end SeriesCalculator
