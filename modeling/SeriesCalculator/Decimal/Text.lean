import SeriesCalculator.Decimal.Shortest

/-!
# The text of a double

A double is written as the shortest decimal number that reads back, in positional form with its sign
in front, also that of a negative zero. What is not a number has no sign. The same form answers how
many digits stand before and after the point, and a run of digits is read as the nearest double.
-/

namespace SeriesCalculator.Decimal

/-- The positional form of the magnitude of a finite double. -/
def positionalOf (x : Float) : Positional :=
  (shortest (Binary.decode x)).positional

/-- The written form of a double. -/
def text (x : Float) : String :=
  if x.isNaN then "NaN"
  else
    let magnitude := if x.isFinite then String.ofList (positionalOf x).chars else "inf"
    if (Binary.decode x).negative then "-" ++ magnitude else magnitude

/-- The number of digits before the point of a finite double. -/
def wholeDigits (x : Float) : Nat :=
  (positionalOf x).whole.length

/-- The number of digits after the point; none are written for a double that is not finite. -/
def fractionDigits (x : Float) : Nat :=
  if x.isFinite then (positionalOf x).fraction.length else 0

/-- The double nearest to the number that a run of decimal digits stands for. -/
def ofDigits (digits : List Char) : Float :=
  Binary.ofNat (Nat.ofDigitChars 10 digits 0)

end SeriesCalculator.Decimal
