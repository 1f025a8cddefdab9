import SeriesCalculator.Decimal.Text
import SeriesCalculator.Series.Exponential

/-!
# The logarithm

Below two the logarithm is the series in `x - 1`. From two upward the argument is first divided by
the power of ten with as many zeros as it has digits before the point, and that many logarithms of ten
are added. One and ten have fixed answers; the answer at one is Euler's number.
-/

namespace SeriesCalculator.Series

/-- The answer at ten. -/
def logarithmOfTen : Float := 2.30258509299

/-- The answer at one. -/
def logarithmOfOne : Float := euler

/-- Adds `(-1) ^ (k + 1) * y ^ k / k` for `left` values of `k` from `k` upward to `sum`. -/
def logarithmSeries (y : Float) : (left k : Nat) → (sum : Float) → Float
  | 0, _, sum => sum
  | left + 1, k, sum =>
    let term := power (-1.0) (k + 1) * power y k / Binary.ofNat k
    logarithmSeries y left (k + 1) (sum + term)

/-- The logarithm of an argument below two. -/
def logarithmBelowTwo (x : Float) (terms : Nat) : Float :=
  if x == 1.0 then logarithmOfOne
  else logarithmSeries (x - 1.0) (terms - 2) 2 (x - 1.0)

/-- The argument divided by ten to the number of its digits before the point. The division is made in
two steps where that power of ten is beyond the largest double. -/
def scaleDown (x : Float) (digits : Nat) : Float :=
  let scale := power 10.0 digits
  if scale.isFinite then x / scale else x / 10.0 / power 10.0 (digits - 1)

/-- The logarithm with a series of the given length. -/
def logarithm (x : Float) (terms : Nat) : Except DomainFault Float :=
  requireTerms terms <|
    if x.isNaN || x ≤ 0.0 then .error (.logarithmNotPositive x)
    else if x.isInf then .error .logarithmInfinite
    else if x == 10.0 then .ok logarithmOfTen
    else if x < 2.0 then .ok (logarithmBelowTwo x terms)
    else
      let digits := Decimal.wholeDigits x
      let scaled := scaleDown x digits
      .ok (logarithmBelowTwo scaled terms + Binary.ofNat digits * logarithmOfTen)

end SeriesCalculator.Series
