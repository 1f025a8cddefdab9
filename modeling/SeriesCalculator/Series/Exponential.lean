import SeriesCalculator.Series.Basic
import SeriesCalculator.Series.Power

/-!
# The exponential

A whole argument gives a whole power of Euler's number; any other one gives the sum of `x ^ k / k!`
over a fixed number of terms.
-/

namespace SeriesCalculator.Series

/-- Euler's number. -/
def euler : Float := Float.ofBits 0x4005bf0a8b145769

/-- The sum of `x ^ k / k!` for `left` values of `k` from `k` upward, added to `sum`. -/
def exponentialSeries (x : Float) : (left k : Nat) → (sum : Float) → Float
  | 0, _, sum => sum
  | left + 1, k, sum =>
    exponentialSeries x left (k + 1) (sum + power x k / Binary.ofNat (factorial k))

/-- The exponential with a series of the given number of terms. -/
def exponential (x : Float) (terms : Nat) : Except DomainFault Float :=
  requireTerms terms <|
    if isWhole x then .ok (integerPower euler (Binary.nearest x))
    else .ok (exponentialSeries x terms 0 0.0)

end SeriesCalculator.Series
