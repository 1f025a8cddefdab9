import SeriesCalculator.Binary.Integer

/-!
# Whole powers of doubles

A whole power is repeated multiplication from one upward. Two shortcuts keep it from running on: a
base of magnitude one is answered at once, and a product that has become zero, infinite or not a
number is kept, with a change of sign for every negative factor that is still to come. A negative
exponent takes the reciprocal of the power.
-/

namespace SeriesCalculator.Series

/-- The magnitude of a double. Negative zero passes for nonnegative and keeps its sign. -/
def magnitude (x : Float) : Float :=
  if x ≥ 0.0 then x else -x

/-- The distance between one and the next double. -/
def epsilon : Float := Float.ofBits 0x3cb0000000000000

/-- Tells whether a double is an integer up to `epsilon`. -/
def isWhole (x : Float) : Bool :=
  x.isFinite && magnitude (x - Binary.ofInt (Binary.nearest x)) ≤ epsilon

/-- Multiplies `product` by `x` another `left` times. -/
def repeatedProduct (x : Float) : Nat → Float → Float
  | 0, product => product
  | left + 1, product =>
    if product == 0.0 || !product.isFinite then
      if x < 0.0 && (left + 1) % 2 == 1 then -product else product
    else repeatedProduct x left (product * x)

/-- The `n`-th power. -/
def power (x : Float) (n : Nat) : Float :=
  if magnitude x == 1.0 then
    if x < 0.0 && n % 2 == 1 then -1.0 else 1.0
  else repeatedProduct x n 1.0

/-- The largest number of factors; larger exponents count as this one. -/
def maxFactors : Nat := UInt64.size - 1

/-- The power with an integer exponent. -/
def integerPower (x : Float) (p : Int) : Float :=
  if p < 0 then 1.0 / power x (min p.natAbs maxFactors) else power x (min p.toNat maxFactors)

end SeriesCalculator.Series
