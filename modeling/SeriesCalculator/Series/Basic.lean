import SeriesCalculator.Error

/-!
# What the series share

A series is summed over a fixed number of terms, which is not adapted to the argument. A sum of no terms
is refused before the argument is looked at. The terms are divided by factorials, which are exact
products of the numbers from one to `n`; the factorial of a negative integer is refused.
-/

namespace SeriesCalculator.Series

/-- Goes on with `answer` if a series has at least one term. -/
def requireTerms {α : Type} (terms : Nat) (answer : Except DomainFault α) : Except DomainFault α :=
  if terms < 1 then .error (.tooFewTerms terms) else answer

/-- The product of the numbers from one to `n`. -/
def factorial : Nat → Nat
  | 0 => 1
  | n + 1 => (n + 1) * factorial n

/-- The factorial of an integer, which must not be negative. -/
def factorial? : Int → Except DomainFault Nat
  | .ofNat n => .ok (factorial n)
  | n@(.negSucc _) => .error (.factorialNegative n)

end SeriesCalculator.Series
