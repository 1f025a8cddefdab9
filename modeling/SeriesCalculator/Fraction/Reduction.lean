/-!
# Reduction by trial division

A pair of magnitudes is reduced by trying the divisors two, three and so on. A divisor of both is
divided out and the trial starts again at two; it ends when the divisor passes one of the magnitudes
or one of them is one. No common divisor is left then, so the answer is the pair in lowest terms. The
number of trials is part of the cost of a fraction and is not shortened.
-/

namespace SeriesCalculator.Fraction

/-- The condition under which a divisor is tried. -/
abbrev Tries (divisor a b : Nat) : Prop :=
  divisor ≤ a ∧ divisor ≤ b ∧ a ≠ 1 ∧ b ≠ 1

/-- Divides common divisors out of `a` and `b`, from `divisor` upward and from two again after each
success. A success makes `a` smaller, and a failure brings the divisor closer to `a`. -/
def divideOut (divisor a b : Nat) (two_le : 2 ≤ divisor) : Nat × Nat :=
  if _tries : Tries divisor a b then
    if a % divisor = 0 ∧ b % divisor = 0 then
      divideOut 2 (a / divisor) (b / divisor) (Nat.le_refl 2)
    else divideOut (divisor + 1) a b (Nat.le_succ_of_le two_le)
  else (a, b)
termination_by (a, a + 1 - divisor)
decreasing_by
  · exact Prod.Lex.left _ _ (Nat.div_lt_self (by omega) two_le)
  · exact Prod.Lex.right _ (by omega)

/-- The lowest terms of a pair of magnitudes. -/
def lowestTerms (a b : Nat) : Nat × Nat :=
  divideOut 2 a b (Nat.le_refl 2)

end SeriesCalculator.Fraction
