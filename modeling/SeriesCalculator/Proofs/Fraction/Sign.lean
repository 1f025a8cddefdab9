import Mathlib.Algebra.Order.Ring.Rat
import Mathlib.Data.Int.Cast.Lemmas
import SeriesCalculator.Proofs.Fraction.LowestTerms

/-!
# The value of a reduced fraction

Reduction keeps the value of a fraction, with one exception. The least integer over a negative odd
number is a positive fraction whose numerator is `2 ^ 31`, which has no word; what is stored is the
least integer over the positive number. So the sign is lost (`LosesSign`). A denominator of `2 ^ 31`
has no word either, but there the fraction is left as it is given and nothing is lost.

Since what is stored is the form of its own value (`ofRat_value_ofRat`), equality of reduced
fractions is equality of their values.
-/

namespace SeriesCalculator.Fraction

/-- The value is positive and its numerator in lowest terms is `2 ^ 31`. -/
def LosesSign (num den : Int32) : Prop :=
  num = Int32.minValue ∧ den < 0 ∧ Odd den.toInt

instance (num den : Int32) : Decidable (LosesSign num den) :=
  inferInstanceAs (Decidable (_ ∧ _ ∧ _))

section

variable {q : ℚ}

/-- A common factor two is not left, so the numerator fits under this denominator. -/
theorem num_ne_of_den (den : q.den = 2 ^ 31) : q.num.natAbs ≠ 2 ^ 31 := by
  intro num
  have coprime := q.reduced
  rw [num, den] at coprime
  exact absurd coprime (by decide)

theorem value_ofRat (num_le : q.num.natAbs ≤ 2 ^ 31) (den_le : q.den ≤ 2 ^ 31) :
    value (ofRat q) = if q.num = 2 ^ 31 then -q else q := by
  by_cases den : q.den = 2 ^ 31
  · have fits : Fits (-q.num) := by
      have := num_ne_of_den den
      rw [fits_iff]
      omega
    have num : q.num ≠ 2 ^ 31 := by
      have := num_ne_of_den den
      omega
    rw [if_neg num, ofRat, if_pos den, value, toInt_ofInt_of_fits fits, Int32.toInt_minValue]
    conv_rhs => rw [← Rat.num_div_den q, den]
    push_cast
    rw [neg_div_neg_eq]
  · rw [value, den_ofRat den_le den]
    split
    · rename_i num
      have stored : (ofRat q).num.toInt = -2 ^ 31 := by
        rw [ofRat, if_neg den, num]
        exact (by decide : (Int32.ofInt (2 ^ 31)).toInt = -2 ^ 31)
      conv_rhs => rw [← Rat.num_div_den q, num]
      rw [stored]
      push_cast
      rw [neg_div]
    · rename_i num
      have fits : Fits q.num := by
        rw [fits_iff]
        omega
      rw [num_ofRat fits den]
      exact Rat.num_div_den q

theorem ofRat_value_ofRat (num_le : q.num.natAbs ≤ 2 ^ 31) (den_le : q.den ≤ 2 ^ 31) :
    ofRat (value (ofRat q)) = ofRat q := by
  rw [value_ofRat num_le den_le]
  split
  · rename_i num
    have den : q.den ≠ 2 ^ 31 := by
      intro den
      have := num_ne_of_den den
      omega
    rw [ofRat, ofRat, Rat.neg_den, Rat.neg_num, if_neg den, if_neg den, num]
    rfl
  · rfl

end

section

variable {a b c e : Int32}

theorem value_reduced (nonzero : b ≠ 0) :
    value (reduced a b) =
      if LosesSign a b then -value { num := a, den := b } else value { num := a, den := b } := by
  rw [reduced_eq nonzero, value_ofRat (natAbs_num_value_le nonzero) (den_value_le nonzero)]
  exact if_congr (num_value_eq_iff nonzero) rfl rfl

theorem reduced_eq_reduced_iff (nonzeroB : b ≠ 0) (nonzeroE : e ≠ 0) :
    reduced a b = reduced c e ↔ value (reduced a b) = value (reduced c e) := by
  constructor
  · intro same
    rw [same]
  · intro same
    rw [reduced_eq nonzeroB, reduced_eq nonzeroE] at same ⊢
    rw [← ofRat_value_ofRat (natAbs_num_value_le nonzeroB) (den_value_le nonzeroB), same,
      ofRat_value_ofRat (natAbs_num_value_le nonzeroE) (den_value_le nonzeroE)]

theorem den_reduced_ne_zero (nonzero : b ≠ 0) : (reduced a b).den ≠ 0 := by
  intro zero
  have den := natAbs_den_ofRat (den_value_le (a := a) nonzero)
  rw [← reduced_eq nonzero, zero] at den
  exact Rat.den_nz _ den.symm

/-- Two values with a factor between them, without division. -/
theorem value_eq_mul_iff {f g : Fraction} (hf : f.den ≠ 0) (hg : g.den ≠ 0) (k : ℤ) :
    value f = k * value g ↔
      f.num.toInt * g.den.toInt = k * (g.num.toInt * f.den.toInt) := by
  have hf' : (f.den.toInt : ℚ) ≠ 0 := Int.cast_ne_zero.mpr (toInt_ne_zero hf)
  have hg' : (g.den.toInt : ℚ) ≠ 0 := Int.cast_ne_zero.mpr (toInt_ne_zero hg)
  rw [value, value, ← mul_div_assoc, div_eq_div_iff hf' hg', mul_assoc]
  exact_mod_cast Iff.rfl

theorem eq_reduced_iff (nonzeroB : b ≠ 0) (nonzeroE : e ≠ 0) :
    reduced a b = reduced c e ↔
      if LosesSign a b ↔ LosesSign c e then a.toInt * e.toInt = c.toInt * b.toInt
      else a.toInt * e.toInt = -(c.toInt * b.toInt) := by
  let f : Fraction := { num := a, den := b }
  let g : Fraction := { num := c, den := e }
  have equal : value f = value g ↔ a.toInt * e.toInt = c.toInt * b.toInt := by
    simpa using value_eq_mul_iff (f := f) (g := g) nonzeroB nonzeroE 1
  have opposite : value f = -value g ↔ a.toInt * e.toInt = -(c.toInt * b.toInt) := by
    simpa using value_eq_mul_iff (f := f) (g := g) nonzeroB nonzeroE (-1)
  rw [reduced_eq_reduced_iff nonzeroB nonzeroE, value_reduced nonzeroB, value_reduced nonzeroE]
  by_cases lost : LosesSign a b <;> by_cases lost' : LosesSign c e
  · simpa only [lost, lost', if_true, neg_inj] using equal
  · simpa only [lost, lost', if_true, iff_false, not_true, if_false, neg_eq_iff_eq_neg]
      using opposite
  · simpa only [lost, lost', if_true, iff_true, if_false] using opposite
  · simpa only [lost, lost', if_true, if_false] using equal

theorem mul_eq_mul_reduced_iff (nonzero : b ≠ 0) :
    (reduced a b).num.toInt * b.toInt = a.toInt * (reduced a b).den.toInt ↔ ¬ LosesSign a b := by
  let f : Fraction := { num := a, den := b }
  have kept : value (reduced a b) = value f ↔
      (reduced a b).num.toInt * b.toInt = a.toInt * (reduced a b).den.toInt := by
    simpa using value_eq_mul_iff (g := f) (den_reduced_ne_zero nonzero) nonzero 1
  rw [← kept, value_reduced nonzero]
  by_cases lost : LosesSign a b
  · have num : (value f).num = 2 ^ 31 := (num_value_eq_iff nonzero).mpr lost
    have opposite : -value f ≠ value f := by
      intro same
      have := congrArg Rat.num same
      rw [Rat.neg_num, num] at this
      exact absurd this (by decide)
    rw [if_pos lost]
    exact iff_of_false opposite (not_not.mpr lost)
  · rw [if_neg lost]
    exact iff_of_true rfl lost

/-- The value of a reduced fraction is the one that is given unless its sign is lost, and then it is
not. Reduced fractions are equal exactly if the values given are equal, and where one of the two
signs is lost, exactly if the values are opposite. -/
theorem reduced_keeps_value_iff (nonzero : b ≠ 0) :
    (reduced a b).den ≠ 0 ∧
    ((reduced a b).num.toInt * b.toInt = a.toInt * (reduced a b).den.toInt ↔ ¬ LosesSign a b) ∧
    ∀ c e : Int32, e ≠ 0 →
      (reduced a b = reduced c e ↔
        if LosesSign a b ↔ LosesSign c e then a.toInt * e.toInt = c.toInt * b.toInt
        else a.toInt * e.toInt = -(c.toInt * b.toInt)) :=
  ⟨den_reduced_ne_zero nonzero, mul_eq_mul_reduced_iff nonzero,
    fun _ _ nonzeroE => eq_reduced_iff nonzero nonzeroE⟩

/-- The least integer over six keeps its value, and it equals the half of itself over three. -/
theorem reduced_keeps_value_iff_least :
    let f := reduced Int32.minValue 6
    f.num.toInt * (6 : Int32).toInt = Int32.minValue.toInt * f.den.toInt ∧
      f = reduced (-1073741824) 3 := by
  obtain ⟨-, value, equal⟩ :=
    reduced_keeps_value_iff (a := Int32.minValue) (b := 6) (by decide)
  have kept : ¬ LosesSign Int32.minValue 6 := by decide
  refine ⟨value.mpr kept, (equal (-1073741824) 3 (by decide)).mpr ?_⟩
  decide

/-- The least integer over minus one is stored as the least integer over one. The two values are
opposite. -/
theorem reduced_loses_sign :
    let f := reduced Int32.minValue (-1)
    f = { num := Int32.minValue, den := 1 } ∧ f = reduced Int32.minValue 1 ∧
      f.num.toInt * (-1 : Int32).toInt ≠ Int32.minValue.toInt * f.den.toInt ∧
      Int32.minValue.toInt * (1 : Int32).toInt ≠ Int32.minValue.toInt * (-1 : Int32).toInt := by
  have stored : reduced Int32.minValue (-1) = { num := Int32.minValue, den := 1 } := by
    rw [reduced, lowestTerms_eq (by decide) (by decide)]
    decide +kernel
  have same : reduced Int32.minValue (-1) = reduced Int32.minValue 1 :=
    (eq_reduced_iff (by decide) (by decide)).mpr (by decide)
  have lost : LosesSign Int32.minValue (-1) := by decide
  refine ⟨stored, same, ?_, by decide⟩
  exact (mul_eq_mul_reduced_iff (by decide)).not.mpr (not_not.mpr lost)

end

end SeriesCalculator.Fraction
