import SeriesCalculator.Fraction.Basic
import SeriesCalculator.Settings
import SeriesCalculator.Series.Logarithm

/-!
# Roots and powers

A root is the exponential of the logarithm divided by the index. A power whose exponent is no integer
is the root of a whole power, for the fraction that the written form of the exponent stands for. The
exponential in a root and the logarithm in a power have the default lengths, whatever the settings say.
-/

namespace SeriesCalculator.Series

/-- The root of the given index. The first power and the root of one need no series. -/
def root (x index : Float) (terms : Nat) : Except DomainFault Float :=
  requireTerms terms <|
    if index == 0.0 then .error .rootIndexZero
    else if index == 1.0 || x == 1.0 then .ok x
    else do exponential ((← logarithm x terms) / index) Settings.default.exponentialTerms

/-- The power with any finite exponent. -/
def pow (x exponent : Float) : Except DomainFault Float :=
  if !exponent.isFinite then .error (.exponentNotFinite exponent)
  else if isWhole exponent then .ok (integerPower x (Binary.nearest exponent))
  else
    let fraction := Fraction.ofFloat exponent
    root (integerPower x fraction.num.toInt) (Binary.ofInt fraction.den.toInt)
      Settings.default.logarithmTerms

end SeriesCalculator.Series
