/-!
# Decimal numbers and their positional form

A decimal number is `digits * 10 ^ exponent`. Its positional form writes every place out: the digits
before the point, at least one, and the digits after it, none for a whole number. There is no form
with an exponent, so the number of digits on either side of the point is a property of the number.
-/

namespace SeriesCalculator

/-- The nonnegative number `digits * 10 ^ exponent`. -/
structure Decimal where
  digits : Nat
  exponent : Int
  deriving DecidableEq

namespace Decimal

/-- The digits before and after the point. -/
structure Positional where
  whole : List Char
  fraction : List Char
  deriving DecidableEq

/-- The number that is written as a one and `n` zeros. -/
def powerOfTen (n : Nat) : Nat := Nat.pow 10 n

/-- Writes every place of a decimal number. A negative exponent is the number of places after the
point, so the digits behind it are padded with zeros from the left to that number. -/
def positional (d : Decimal) : Positional :=
  let places := (-d.exponent).toNat
  { whole := Nat.toDigits 10 (d.digits * powerOfTen d.exponent.toNat / powerOfTen places)
    fraction :=
      if places = 0 then []
      else (Nat.toDigits 10 (d.digits % powerOfTen places)).leftpad places '0' }

namespace Positional

/-- A whole number is written without a point. -/
def chars (p : Positional) : List Char :=
  if p.fraction = [] then p.whole else p.whole ++ '.' :: p.fraction

end Positional

end Decimal

end SeriesCalculator
