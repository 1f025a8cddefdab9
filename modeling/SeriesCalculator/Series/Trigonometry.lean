import SeriesCalculator.Error
import SeriesCalculator.Series.Sine

/-!
# Trigonometric functions of doubles

The sine and the cosine, and the four functions that are quotients of them. A quotient is refused where
its denominator is exactly zero; no interval around such an angle is.
-/

namespace SeriesCalculator.Series

/-- The fault of a double's angle as a domain fault. -/
def AngleFault.toDomainFault : AngleFault Float → DomainFault
  | .notFinite angle => .angleNotFinite angle
  | .notReduced angle => .angleNotReduced angle

/-- The sine. -/
def sine (angle : Float) : Except DomainFault Float :=
  (angleSine angle).mapError AngleFault.toDomainFault

/-- The cosine. -/
def cosine (angle : Float) : Except DomainFault Float :=
  (angleCosine angle).mapError AngleFault.toDomainFault

/-- The tangent: sine over cosine. -/
def tangent (angle : Float) : Except DomainFault Float := do
  let c ← cosine angle
  if c == 0.0 then throw (.tangentPole angle) else return (← sine angle) / c

/-- The secant: one over the cosine. -/
def secant (angle : Float) : Except DomainFault Float := do
  let c ← cosine angle
  if c == 0.0 then throw (.secantPole angle) else return 1.0 / c

/-- The cosecant: one over the sine. -/
def cosecant (angle : Float) : Except DomainFault Float := do
  let s ← sine angle
  if s == 0.0 then throw (.cosecantPole angle) else return 1.0 / s

/-- The cotangent: one over the tangent. -/
def cotangent (angle : Float) : Except DomainFault Float := do
  let t ← tangent angle
  if t == 0.0 then throw (.cotangentPole angle) else return 1.0 / t

end SeriesCalculator.Series
