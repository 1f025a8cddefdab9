import SeriesCalculator.Series.Power

/-!
# Scalars

The sine and the quadrature formula use four operations, an order, whole powers, truncation and the
constant `π`, and nothing else. They are stated for every number type that has these, so one definition
serves doubles and exact rational numbers.
-/

namespace SeriesCalculator

/-- The operations on numbers that the numeric methods use. -/
class Scalar (α : Type) extends Add α, Sub α, Mul α, Div α, Neg α, LE α where
  /-- The order is decided by a test. -/
  decidableLE (x y : α) : Decidable (x ≤ y)
  /-- The number nearest to a natural number. -/
  ofNat (n : Nat) : α
  /-- The whole power. -/
  power (x : α) (n : Nat) : α
  /-- The whole part, toward zero. -/
  truncate (x : α) : α
  /-- Half the circumference of the unit circle, as near as the type gets. -/
  pi : α
  /-- Tells whether a value is a number with a place on the line. -/
  isFinite (x : α) : Bool

namespace Scalar

instance {α : Type} [Scalar α] (x y : α) : Decidable (x ≤ y) :=
  decidableLE x y

/-- A quarter turn. -/
def quarterTurn {α : Type} [Scalar α] : α := pi / ofNat 2

/-- A full turn. -/
def fullTurn {α : Type} [Scalar α] : α := ofNat 2 * pi

end Scalar

/-- Doubles, with the powers that take shortcuts. -/
instance : Scalar Float where
  decidableLE x y := inferInstanceAs (Decidable (x ≤ y))
  ofNat := Binary.ofNat
  power := Series.power
  truncate := Binary.truncate
  pi := Float.ofBits 0x400921fb54442d18
  isFinite := Float.isFinite

/-- Rational numbers, with exact operations. The constant is the value of the double nearest to `π`. -/
instance : Scalar Rat where
  decidableLE x y := inferInstanceAs (Decidable (x ≤ y))
  ofNat n := n
  power x n := x ^ n
  truncate x := x.num.tdiv x.den
  pi := 884279719003555 / 281474976710656
  isFinite _ := true

end SeriesCalculator
