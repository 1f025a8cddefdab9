import SeriesCalculator.Binary.Basic

/-!
# Whole parts of doubles

The integer nearest to a double (a half goes away from zero), the same clamped to a range, and the
whole part toward zero. They are computed on the exact binary value, so they answer for doubles of
every size.
-/

namespace SeriesCalculator.Binary

/-- The magnitude `mantissa * 2 ^ exponent` rounded to a natural number, a half upward. -/
def Decoded.nearestMagnitude (d : Decoded) : Nat :=
  if 0 ≤ d.exponent then d.mantissa <<< d.exponent.toNat
  else
    let unit := 1 <<< (-d.exponent).toNat
    (2 * d.mantissa + unit) / (2 * unit)

/-- The whole part of the magnitude `mantissa * 2 ^ exponent`. -/
def Decoded.wholeMagnitude (d : Decoded) : Nat :=
  if 0 ≤ d.exponent then d.mantissa <<< d.exponent.toNat
  else d.mantissa >>> (-d.exponent).toNat

/-- Gives a magnitude the sign of a double. -/
def Decoded.signed (d : Decoded) (magnitude : Nat) : Int :=
  if d.negative then -magnitude else magnitude

/-- The integer nearest to a finite double; a half goes away from zero. -/
def nearest (x : Float) : Int :=
  let d := decode x
  d.signed d.nearestMagnitude

/-- The integer nearest to a double, clamped to `[low, high]`. Infinities go to the bounds, and what
is not a number goes to zero. -/
def nearestWithin (low high : Int) (x : Float) : Int :=
  if x.isNaN then 0
  else if x.isFinite then max low (min high (nearest x))
  else if x < 0.0 then low
  else high

/-- The whole part of a double, toward zero. A double that is whole already is its own whole part,
and so is one that is not finite. -/
def truncate (x : Float) : Float :=
  let d := decode x
  if !x.isFinite || 0 ≤ d.exponent then x
  else
    let whole := ofNat d.wholeMagnitude
    if d.negative then -whole else whole

end SeriesCalculator.Binary
