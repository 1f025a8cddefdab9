import SeriesCalculator.Proofs.Fraction.Arithmetic

/-!
# How far the order of fractions is an order

Two fractions compare as the numerator of their difference compares with zero, and this numerator
wraps. What a comparison means depends therefore on the exact difference of the cross products, the
numerator over the integers. The comparison is an equality if this number is a multiple of `2 ^ 32`,
and equality of reduced fractions is that it is zero. Exchanging the two sides reverses the
comparison unless the wrapped numerator is the least integer, which is its own negation
(`compare_swap_iff`).

Where the difference fits, the two denominators are positive, and their product has not become
negative, the comparison is the one of the values (`Comparable.compare_eq`); among such comparisons
the order is transitive.
-/

namespace SeriesCalculator.Fraction

/-- A fraction with a value, as it comes out of a reduction. -/
def IsReduced (f : Fraction) : Prop := ∃ num den : Int32, den ≠ 0 ∧ f = reduced num den

/-- The difference of the cross products, over the integers. -/
abbrev crossDifference (x y : Fraction) : ℤ := Operation.sub.numerator x y

section

variable {a b : Int32}

theorem ofInt_eq_zero_iff (n : ℤ) : Int32.ofInt n = 0 ↔ (2 ^ 32 : ℤ) ∣ n := by
  rw [← Int32.toInt_inj, Int32.toInt_ofInt, Int32.toInt_zero, ← Int.dvd_iff_bmod_eq_zero]
  rfl

theorem ofInt_eq_minValue_iff (n : ℤ) :
    Int32.ofInt n = Int32.minValue ↔ n % 2 ^ 32 = 2 ^ 31 := by
  rw [← Int32.toInt_inj, Int32.toInt_ofInt, Int32.toInt_minValue, Int.bmod_def,
    show (Int32.size : ℤ) = 2 ^ 32 from rfl]
  split <;> omega

theorem toInt_neg_of_ne (notLeast : a ≠ Int32.minValue) : (-a).toInt = -a.toInt := by
  have fits : Fits (-a.toInt) := by
    have low := a.le_toInt
    have high := a.toInt_lt
    have other := Int32.toInt_inj.not.mpr notLeast
    rw [Int32.toInt_minValue] at other
    rw [fits_iff]
    omega
  rw [← toInt_ofInt_of_fits fits, Int32.ofInt_neg, Int32.ofInt_toInt]

/-- Comparison with zero is reversed by a change of the sign, if there is one. -/
theorem compare_neg_zero (notLeast : a ≠ Int32.minValue) :
    compare (-a) 0 = (compare a 0).swap := by
  rw [compare_toInt, compare_toInt, toInt_neg_of_ne notLeast, Int32.toInt_zero,
    Std.OrientedOrd.eq_swap (a := a.toInt), Ordering.swap_swap, ← cmp_eq_compare, ← cmp_eq_compare,
    ← cmp_sub_zero 0, Int.zero_sub]

theorem natAbs_num_reduced_le (a b : Int32) :
    (reduced a b).num.toInt.natAbs ≤ a.toInt.natAbs := by
  by_cases undefined : b = 0
  · rw [reduced, if_pos undefined]
  · rw [reduced_eq undefined, natAbs_num_ofRat (natAbs_num_value_le undefined),
      natAbs_num_value undefined]
    exact Nat.div_le_self _ _

theorem num_reduced_eq_zero_iff : (reduced a b).num = 0 ↔ a = 0 := by
  constructor
  · intro stored
    by_cases undefined : b = 0
    · rwa [reduced, if_pos undefined] at stored
    · have magnitude := natAbs_num_value (a := a) undefined
      have num := natAbs_num_ofRat (natAbs_num_value_le (a := a) undefined)
      rw [← reduced_eq undefined, stored, magnitude, Int32.toInt_zero] at num
      by_contra nonzero
      have pos := Int.natAbs_pos.mpr (toInt_ne_zero nonzero)
      exact absurd num.symm (Nat.ne_of_gt (Nat.div_gcd_pos_of_pos_left _ pos))
  · rintro rfl
    have le := natAbs_num_reduced_le 0 b
    rw [← Int32.toInt_inj, Int32.toInt_zero]
    exact Int.natAbs_eq_zero.mp (Nat.le_zero.mp le)

/-- The least numerator comes from the least numerator only. -/
theorem num_reduced_ne_minValue (notLeast : a ≠ Int32.minValue) :
    (reduced a b).num ≠ Int32.minValue := by
  intro least
  have le := natAbs_num_reduced_le a b
  rw [least, Int32.toInt_minValue] at le
  exact notLeast (natAbs_toInt_eq_iff.mp (Nat.le_antisymm (natAbs_toInt_le a) le))

/-- An odd number over the least integer is left as it is. -/
theorem reduced_minValue (odd : Odd a.toInt) :
    reduced a Int32.minValue = { num := a, den := Int32.minValue } := by
  have nonzero : Int32.minValue ≠ 0 := by decide
  rw [reduced_eq nonzero, ofRat, if_pos ((den_value_eq_iff nonzero).mpr ⟨rfl, odd⟩),
    ofInt_neg_num_value odd]

/-- The scan sees magnitudes only, so that a change of the sign goes through it. -/
theorem num_reduced_neg (notLeast : a ≠ Int32.minValue) :
    (reduced (-a) b).num = -(reduced a b).num := by
  by_cases undefined : b = 0
  · rw [reduced, reduced, if_pos undefined, if_pos undefined]
  by_cases zero : a = 0
  · rw [zero, Int32.neg_zero, num_reduced_eq_zero_iff.mpr rfl, Int32.neg_zero]
  have zero' : -a ≠ 0 := Int32.neg_ne_zero.mpr zero
  have opposite := toInt_neg_of_ne notLeast
  have magnitude : (-a).toInt.natAbs = a.toInt.natAbs := by rw [opposite, Int.natAbs_neg]
  have sign : decide (-a < 0) = !decide (a < 0) := by
    have := toInt_ne_zero zero
    simp only [Int32.lt_iff_toInt_lt, opposite, Int32.toInt_zero]
    rw [← decide_not, decide_eq_decide]
    omega
  simp only [reduced, if_neg undefined, if_neg zero, if_neg zero', magnitude, sign]
  split
  · rfl
  · cases decide (a < 0) <;> cases decide (b < 0) <;> simp

end

section

variable {x y z : Fraction}

theorem ofInt_crossDifference (x y : Fraction) :
    Int32.ofInt (crossDifference x y) = x.num * y.den - y.num * x.den := by
  simp only [Operation.numerator, Int32.ofInt_sub, Int32.ofInt_mul, Int32.ofInt_toInt]

/-- The comparison is the sign of a stored numerator. -/
theorem compare_eq_compare_num (x y : Fraction) :
    compare x y =
      compare (reduced (Int32.ofInt (crossDifference x y)) (x.den * y.den)).num 0 := by
  rw [ofInt_crossDifference]
  rfl

theorem compare_eq_eq_iff (x y : Fraction) :
    compare x y = .eq ↔ (2 ^ 32 : ℤ) ∣ crossDifference x y := by
  rw [compare_eq_compare_num, Std.compare_eq_iff_eq, num_reduced_eq_zero_iff, ofInt_eq_zero_iff]

/-- The two comparisons of a pair look at opposite numerators over one denominator. -/
theorem compare_comm (x y : Fraction) :
    compare y x =
      compare (reduced (-Int32.ofInt (crossDifference x y)) (x.den * y.den)).num 0 := by
  have opposite : crossDifference y x = -crossDifference x y := by
    simp only [Operation.numerator, Int.neg_sub]
  rw [compare_eq_compare_num, opposite, Int32.ofInt_neg, Int32.mul_comm]

theorem compare_swap_iff (x y : Fraction) :
    compare y x = (compare x y).swap ↔ crossDifference x y % 2 ^ 32 ≠ 2 ^ 31 := by
  rw [ne_eq, ← ofInt_eq_minValue_iff, compare_comm, compare_eq_compare_num]
  generalize Int32.ofInt (crossDifference x y) = difference
  constructor
  · rintro reversed rfl
    have nonzero : compare (reduced Int32.minValue (x.den * y.den)).num 0 ≠ .eq := by
      rw [ne_eq, Std.compare_eq_iff_eq, num_reduced_eq_zero_iff]
      decide
    rw [show -Int32.minValue = Int32.minValue from rfl] at reversed
    generalize compare (reduced Int32.minValue (x.den * y.den)).num 0 = order at *
    cases order with
    | eq => exact nonzero rfl
    | _ => cases reversed
  · intro notLeast
    rw [num_reduced_neg notLeast, compare_neg_zero (num_reduced_ne_minValue notLeast)]

theorem eq_iff_crossDifference (hx : IsReduced x) (hy : IsReduced y) :
    x = y ↔ crossDifference x y = 0 := by
  obtain ⟨a, b, nonzeroB, rfl⟩ := hx
  obtain ⟨c, e, nonzeroE, rfl⟩ := hy
  have cross := value_eq_mul_iff (den_reduced_ne_zero (a := a) nonzeroB)
    (den_reduced_ne_zero (a := c) nonzeroE) 1
  rw [Int.cast_one, one_mul, Int.one_mul] at cross
  rw [reduced_eq_reduced_iff nonzeroB nonzeroE, cross]
  exact Int.sub_eq_zero.symm

/-- The pairs of which the comparison does not run out of the words. -/
structure Comparable (x y : Fraction) : Prop where
  left_pos : 0 < x.den.toInt
  right_pos : 0 < y.den.toInt
  difference : Fits (crossDifference x y)
  denominator : 0 ≤ (x.den * y.den).toInt

theorem Comparable.compare_eq (h : Comparable x y) : compare x y = compare (value x) (value y) := by
  rw [Fraction.compare_eq h.difference h.denominator, compare_numerator h.left_pos h.right_pos]

theorem Comparable.trans (hxy : Comparable x y) (hyz : Comparable y z) (hxz : Comparable x z)
    (first : compare x y = .lt) (second : compare y z = .lt) : compare x z = .lt := by
  rw [hxy.compare_eq, compare_lt_iff_lt] at first
  rw [hyz.compare_eq, compare_lt_iff_lt] at second
  rw [hxz.compare_eq, compare_lt_iff_lt]
  exact lt_trans first second

/-- The other way round a comparison is reversed unless the wrapped difference of the cross products
is the least integer. It is an equality if the difference is a multiple of `2 ^ 32`, and the
fractions are equal if it is zero. Among pairs that can be compared within the words the order is
transitive. -/
theorem order_laws (hx : IsReduced x) (hy : IsReduced y) :
    (compare y x = (compare x y).swap ↔ crossDifference x y % 2 ^ 32 ≠ 2 ^ 31) ∧
    (compare x y = .eq ↔ (2 ^ 32 : ℤ) ∣ crossDifference x y) ∧
    (x = y ↔ crossDifference x y = 0) ∧
    ∀ z, Comparable x y → Comparable y z → Comparable x z →
      compare x y = .lt → compare y z = .lt → compare x z = .lt :=
  ⟨compare_swap_iff x y, compare_eq_eq_iff x y, eq_iff_crossDifference hx hy,
    fun _ hxy hyz hxz first second => hxy.trans hyz hxz first second⟩

/-- A third lies between a quarter and a half. -/
theorem order_laws_third :
    let quarter : Fraction := { num := 1, den := 4 }
    let third : Fraction := { num := 1, den := 3 }
    let half : Fraction := { num := 1, den := 2 }
    IsReduced quarter ∧ IsReduced third ∧
      Comparable quarter third ∧ Comparable third half ∧ Comparable quarter half ∧
      compare quarter third = .lt ∧ compare third half = .lt ∧ compare quarter half = .lt := by
  intro quarter third half
  have lowest : InLowestTerms quarter := ⟨by decide, by decide⟩
  have lowest' : InLowestTerms third := ⟨by decide, by decide⟩
  have reducedQuarter : IsReduced quarter := ⟨1, 4, by decide, lowest.reduced_eq.symm⟩
  have reducedThird : IsReduced third := ⟨1, 3, by decide, lowest'.reduced_eq.symm⟩
  have first : Comparable quarter third := ⟨by decide, by decide, by decide, by decide⟩
  have second : Comparable third half := ⟨by decide, by decide, by decide, by decide⟩
  have both : Comparable quarter half := ⟨by decide, by decide, by decide, by decide⟩
  have below : compare quarter third = .lt := (compare_of_nonneg (by decide)).trans (by decide)
  have above : compare third half = .lt := (compare_of_nonneg (by decide)).trans (by decide)
  obtain ⟨-, -, -, trans⟩ := order_laws reducedQuarter reducedThird
  exact ⟨reducedQuarter, reducedThird, first, second, both, below, above,
    trans half first second both below above⟩

/-- The least integer is below zero and zero is below the least integer. Two different fractions
compare as equal where the difference of their cross products is `2 ^ 32`. The least integer and one
is below zero and zero is below the largest integer, but the first is above the last. The same
happens where nothing wraps but a denominator is negative, and where only the product of the
denominators wraps. -/
theorem order_unlawful :
    (let x := reduced Int32.minValue 1
      let y := reduced 0 1
      compare x y = .lt ∧ compare y x = .lt) ∧
    (let x := reduced 65536 65535
      let y := reduced 65536 131071
      compare x y = .eq ∧ x ≠ y) ∧
    (let x := reduced (-2147483647) 1
      let y := reduced 0 1
      let z := reduced 2147483647 1
      compare x y = .lt ∧ compare y z = .lt ∧ compare x z = .gt) ∧
    (let x := reduced 0 1
      let y := reduced 1 1
      let z := reduced (-1) Int32.minValue
      compare x y = .lt ∧ compare y z = .lt ∧ compare x z = .gt) ∧
    (let x := reduced 1 46341
      let y := reduced 1 30894
      let z := reduced 2 46341
      compare x y = .lt ∧ compare y z = .lt ∧ compare x z = .gt) := by
  have stored (a b : Int32) (lowest : InLowestTerms { num := a, den := b }) :
      reduced a b = { num := a, den := b } := lowest.reduced_eq
  have wrapped :
      compare ({ num := 1, den := 46341 } : Fraction) { num := 2, den := 46341 } = .gt := by
    rw [compare_eq_compare_num, reduced, lowestTerms_eq (by decide) (by decide)]
    decide +kernel
  have underLeast (a : Int32) (odd : Odd a.toInt) :
      compare (reduced a Int32.minValue).num 0 = compare a 0 := by
    rw [reduced_minValue odd]
  rw [stored Int32.minValue 1 ⟨by decide, by decide⟩, stored 0 1 ⟨by decide, by decide⟩,
    stored 65536 65535 ⟨by decide, by decide⟩, stored 65536 131071 ⟨by decide, by decide⟩,
    stored (-2147483647) 1 ⟨by decide, by decide⟩, stored 2147483647 1 ⟨by decide, by decide⟩,
    stored 1 1 ⟨by decide, by decide⟩, reduced_minValue (by decide),
    stored 1 46341 ⟨by decide, by decide⟩, stored 1 30894 ⟨by decide, by decide⟩,
    stored 2 46341 ⟨by decide, by decide⟩]
  have nonneg (x y : Fraction) (o : Ordering) (h : 0 ≤ (x.den * y.den).toInt)
      (sign : compare (Int32.ofInt (crossDifference x y)) 0 = o) : compare x y = o :=
    (compare_of_nonneg h).trans sign
  refine ⟨⟨?_, ?_⟩, ⟨(compare_eq_eq_iff _ _).mpr (by decide), by decide⟩, ⟨?_, ?_, ?_⟩,
    ⟨?_, ?_, ?_⟩, ⟨?_, ?_, wrapped⟩⟩
  iterate 6 exact nonneg _ _ _ (by decide) (by decide)
  · exact (underLeast (-2147483647) (by decide)).trans (by decide)
  · exact (underLeast 1 (by decide)).trans (by decide)
  · exact nonneg _ _ _ (by decide) (by decide)
  · exact nonneg _ _ _ (by decide) (by decide)

end

end SeriesCalculator.Fraction
