import Mathlib.Algebra.Order.Field.Rat
import Mathlib.Algebra.Order.Ring.Cast
import SeriesCalculator.Proofs.Fraction.Sign

/-!
# Arithmetic is exact within the words

An operation forms a numerator and a denominator from products, sums and differences of words and
reduces the result (`Operation.apply_eq`). If none of the integers that it forms leaves the words,
then the two are what they would be over the integers, and reduction keeps their quotient unless the
denominator is negative and odd. A product of positive denominators is not negative. A reciprocal
can have a negative denominator, but only `-2 ^ 31`, and then the product is even: so division is
exact as well (`Operation.value_apply`).

The order is the sign of a difference. It is exact already if the difference itself is inside of the
words and the product of the denominators, wrapped or not, is not negative (`compare_eq`).
-/

namespace SeriesCalculator.Fraction

/-- No common divisor, and the sign is in the numerator. -/
structure InLowestTerms (f : Fraction) : Prop where
  coprime : f.num.toInt.gcd f.den.toInt = 1
  den_pos : 0 < f.den.toInt

section

variable {a b : Int32} {x y : Fraction}

theorem ne_zero_of_toInt {w : Int32} (nonzero : w.toInt ≠ 0) : w ≠ 0 := by
  rintro rfl
  exact nonzero Int32.toInt_zero

theorem InLowestTerms.den_ne_zero (h : InLowestTerms x) : x.den ≠ 0 :=
  ne_zero_of_toInt (Int.ne_of_gt h.den_pos)

theorem coprime_reduced (nonzero : b ≠ 0) :
    (reduced a b).num.toInt.gcd (reduced a b).den.toInt = 1 := by
  rw [reduced_eq nonzero, Int.gcd, natAbs_num_ofRat (natAbs_num_value_le nonzero),
    natAbs_den_ofRat (den_value_le nonzero)]
  exact (value _).reduced

/-- A negative denominator is stored only where there is no positive word. -/
theorem den_reduced_cases (nonzero : b ≠ 0) :
    0 < (reduced a b).den.toInt ∨ (reduced a b).den = Int32.minValue := by
  rw [reduced_eq nonzero]
  by_cases den : (value { num := a, den := b }).den = 2 ^ 31
  · rw [ofRat, if_pos den]
    exact .inr rfl
  · rw [den_ofRat (den_value_le nonzero) den]
    exact .inl (Int.natCast_pos.mpr (Rat.den_pos _))

theorem den_reduced_pos (pos : 0 < b.toInt) : 0 < (reduced a b).den.toInt := by
  have nonzero := ne_zero_of_toInt (Int.ne_of_gt pos)
  have den : (value { num := a, den := b }).den ≠ 2 ^ 31 := by
    rw [ne_eq, den_value_eq_iff nonzero]
    rintro ⟨rfl, -⟩
    exact absurd pos (by decide)
  rw [reduced_eq nonzero, den_ofRat (den_value_le nonzero) den]
  exact Int.natCast_pos.mpr (Rat.den_pos _)

theorem not_losesSign_of_nonneg (nonneg : 0 ≤ b.toInt) : ¬ LosesSign a b := by
  rintro ⟨-, negative, -⟩
  rw [Int32.lt_iff_toInt_lt, Int32.toInt_zero] at negative
  exact absurd negative (Int.not_lt.mpr nonneg)

/-- A quotient of integers that fit is kept, unless the denominator is negative and odd. -/
theorem value_reduced_ofInt {n d : ℤ} (fitsN : Fits n) (fitsD : Fits d) (nonzero : d ≠ 0)
    (sign : Odd d → 0 < d) : value (reduced (Int32.ofInt n) (Int32.ofInt d)) = n / d := by
  have num := toInt_ofInt_of_fits fitsN
  have den := toInt_ofInt_of_fits fitsD
  have kept : ¬ LosesSign (Int32.ofInt n) (Int32.ofInt d) := by
    intro loses
    have odd : Odd d := den ▸ loses.2.2
    refine not_losesSign_of_nonneg ?_ loses
    rw [den]
    exact Int.le_of_lt (sign odd)
  have word : Int32.ofInt d ≠ 0 := ne_zero_of_toInt (by rwa [den])
  rw [value_reduced word, if_neg kept, value, num, den]

/-- The reciprocal has the inverse value, also where its denominator has no positive word. -/
theorem value_reciprocal (hy : InLowestTerms y) (nonzero : y.num ≠ 0) :
    value y.reciprocal = (value y)⁻¹ := by
  have kept : ¬ LosesSign y.den y.num := by
    rintro ⟨least, -, -⟩
    have pos := hy.den_pos
    rw [least] at pos
    exact absurd pos (by decide)
  rw [reciprocal, value_reduced nonzero, if_neg kept, value, value, inv_div]

end

/-- An operation on two fractions. -/
inductive Operation
  | add
  | sub
  | mul
  | div
  deriving DecidableEq

namespace Operation

/-- The operation on stored fractions. -/
def apply : Operation → Fraction → Fraction → Fraction
  | .add, x, y => x + y
  | .sub, x, y => x - y
  | .mul, x, y => x * y
  | .div, x, y => x / y

/-- The operation on rational numbers. -/
def exact : Operation → ℚ → ℚ → ℚ
  | .add, p, q => p + q
  | .sub, p, q => p - q
  | .mul, p, q => p * q
  | .div, p, q => p / q

/-- The products that an operation forms, as integers. A division forms those with the reciprocal
of a divisor, if this has a value. -/
def products : Operation → Fraction → Fraction → List ℤ
  | .add, x, y | .sub, x, y =>
      [x.num.toInt * y.den.toInt, y.num.toInt * x.den.toInt, x.den.toInt * y.den.toInt]
  | .mul, x, y => [x.num.toInt * y.num.toInt, x.den.toInt * y.den.toInt]
  | .div, x, y =>
      if y.isUndefined then []
      else [x.num.toInt * y.reciprocal.num.toInt, x.den.toInt * y.reciprocal.den.toInt]

/-- The numerator before it is reduced, as an integer: for two of the operations a sum or a
difference of products. -/
def numerator : Operation → Fraction → Fraction → ℤ
  | .add, x, y => x.num.toInt * y.den.toInt + x.den.toInt * y.num.toInt
  | .sub, x, y => x.num.toInt * y.den.toInt - y.num.toInt * x.den.toInt
  | .mul, x, y => x.num.toInt * y.num.toInt
  | .div, x, y => x.num.toInt * y.reciprocal.num.toInt

/-- The denominator before it is reduced, as an integer. -/
def denominator : Operation → Fraction → Fraction → ℤ
  | .add, x, y | .sub, x, y | .mul, x, y => x.den.toInt * y.den.toInt
  | .div, x, y => x.den.toInt * y.reciprocal.den.toInt

/-- No product, sum or difference that the operation forms leaves the words. -/
structure Inside (op : Operation) (x y : Fraction) : Prop where
  products : ∀ n ∈ op.products x y, Fits n
  numerator : Fits (op.numerator x y)

variable {op : Operation} {x y : Fraction}

/-- The numerator and the denominator wrap at the end at the latest, so they may wrap there only. -/
theorem apply_eq (defined : op = .div → y.den ≠ 0) :
    op.apply x y =
      reduced (Int32.ofInt (op.numerator x y)) (Int32.ofInt (op.denominator x y)) := by
  cases op with
  | add =>
      simp only [numerator, denominator, Int32.ofInt_add, Int32.ofInt_mul, Int32.ofInt_toInt]
      rfl
  | sub =>
      simp only [numerator, denominator, Int32.ofInt_sub, Int32.ofInt_mul, Int32.ofInt_toInt]
      rfl
  | mul =>
      simp only [numerator, denominator, Int32.ofInt_mul, Int32.ofInt_toInt]
      rfl
  | div =>
      have divides : ¬ y.isUndefined = true := by simpa [isUndefined] using defined rfl
      simp only [numerator, denominator, Int32.ofInt_mul, Int32.ofInt_toInt]
      exact if_neg divides

theorem denominator_mem_products (defined : op = .div → y.den ≠ 0) :
    op.denominator x y ∈ op.products x y := by
  cases op with
  | div =>
      have divides : ¬ y.isUndefined = true := by simpa [isUndefined] using defined rfl
      simp [denominator, products, divides]
  | _ => simp [denominator, products]

/-- A product of denominators is not zero. -/
theorem denominator_ne_zero (hx : x.den ≠ 0) (hy : y.den ≠ 0) (divisor : op = .div → y.num ≠ 0) :
    op.denominator x y ≠ 0 := by
  cases op with
  | div =>
      exact Int.mul_ne_zero (toInt_ne_zero hx)
        (toInt_ne_zero (den_reduced_ne_zero (divisor rfl)))
  | _ => exact Int.mul_ne_zero (toInt_ne_zero hx) (toInt_ne_zero hy)

/-- A product of denominators is negative only if one of them is `-2 ^ 31`. -/
theorem denominator_pos_of_odd (hx : InLowestTerms x) (hy : InLowestTerms y)
    (divisor : op = .div → y.num ≠ 0) (odd : Odd (op.denominator x y)) :
    0 < op.denominator x y := by
  cases op with
  | div =>
      rcases den_reduced_cases (a := y.den) (divisor rfl) with pos | least
      · exact Int.mul_pos hx.den_pos pos
      · have even : ¬ Odd (Int32.minValue.toInt) := by decide
        have den : y.reciprocal.den = Int32.minValue := least
        rw [denominator, den] at odd
        exact absurd (Int.odd_mul.mp odd).2 even
  | _ => exact Int.mul_pos hx.den_pos hy.den_pos

theorem numerator_div_denominator (hx : InLowestTerms x) (hy : InLowestTerms y)
    (divisor : op = .div → y.num ≠ 0) :
    (op.numerator x y : ℚ) / op.denominator x y = op.exact (value x) (value y) := by
  have denX : (x.den.toInt : ℚ) ≠ 0 := Int.cast_ne_zero.mpr (Int.ne_of_gt hx.den_pos)
  have denY : (y.den.toInt : ℚ) ≠ 0 := Int.cast_ne_zero.mpr (Int.ne_of_gt hy.den_pos)
  cases op with
  | add =>
      simp only [numerator, denominator, exact, value, Int.cast_add, Int.cast_mul]
      rw [div_add_div _ _ denX denY]
  | sub =>
      simp only [numerator, denominator, exact, value, Int.cast_sub, Int.cast_mul]
      rw [div_sub_div _ _ denX denY, mul_comm (y.num.toInt : ℚ)]
  | mul =>
      simp only [numerator, denominator, exact, value, Int.cast_mul]
      rw [div_mul_div_comm]
  | div =>
      have inverse := value_reciprocal hy (divisor rfl)
      simp only [numerator, denominator, exact, Int.cast_mul]
      rw [div_eq_mul_inv (value x), ← inverse, value, value, div_mul_div_comm]

/-- An operation inside of the words is the operation on rational numbers. -/
theorem value_apply (hx : InLowestTerms x) (hy : InLowestTerms y)
    (divisor : op = .div → y.num ≠ 0) (inside : op.Inside x y) :
    value (op.apply x y) = op.exact (value x) (value y) := by
  have defined : op = .div → y.den ≠ 0 := fun _ => hy.den_ne_zero
  rw [apply_eq defined, ← numerator_div_denominator hx hy divisor]
  exact value_reduced_ofInt inside.numerator
    (inside.products _ (denominator_mem_products defined))
    (denominator_ne_zero hx.den_ne_zero hy.den_ne_zero divisor)
    (denominator_pos_of_odd hx hy divisor)

end Operation

section

variable {x y : Fraction}

theorem compare_toInt (a b : Int32) : compare a b = compare a.toInt b.toInt := by
  change compareOfLessAndEq _ _ = compareOfLessAndEq _ _
  simp only [compareOfLessAndEq, Int32.lt_iff_toInt_lt, Int32.toInt_inj]

theorem compare_mul_pos {m k : ℤ} (pos : 0 < k) : compare (m * k) 0 = compare m 0 := by
  rw [← cmp_eq_compare, ← cmp_eq_compare, ← Int.zero_mul k, cmp_mul_pos_right pos, Int.zero_mul]

/-- Over a denominator that is not negative, reduction keeps the sign. -/
theorem compare_num_reduced {a b : Int32} (nonneg : 0 ≤ b.toInt) :
    compare (reduced a b).num 0 = compare a 0 := by
  by_cases zero : b = 0
  · rw [reduced, if_pos zero]
  · have pos : 0 < b.toInt := lt_of_le_of_ne nonneg (Ne.symm (toInt_ne_zero zero))
    have cross := (mul_eq_mul_reduced_iff (a := a) zero).mpr (not_losesSign_of_nonneg nonneg)
    rw [compare_toInt, compare_toInt, Int32.toInt_zero, ← compare_mul_pos pos, cross,
      compare_mul_pos (den_reduced_pos pos)]

/-- The comparison looks at the numerator of the difference, which may wrap, and at the product of
the denominators only for its sign. -/
theorem compare_of_nonneg (nonneg : 0 ≤ (x.den * y.den).toInt) :
    compare x y = compare (Int32.ofInt (Operation.sub.numerator x y)) 0 := by
  simp only [Operation.numerator, Int32.ofInt_sub, Int32.ofInt_mul, Int32.ofInt_toInt]
  exact compare_num_reduced nonneg

theorem compare_eq (fits : Fits (Operation.sub.numerator x y))
    (nonneg : 0 ≤ (x.den * y.den).toInt) :
    compare x y = compare (Operation.sub.numerator x y) 0 := by
  rw [compare_of_nonneg nonneg, compare_toInt, toInt_ofInt_of_fits fits, Int32.toInt_zero]

theorem compare_numerator (posX : 0 < x.den.toInt) (posY : 0 < y.den.toInt) :
    compare (Operation.sub.numerator x y) 0 = compare (value x) (value y) := by
  have posX' : (0 : ℚ) < x.den.toInt := Int.cast_pos.mpr posX
  have posY' : (0 : ℚ) < y.den.toInt := Int.cast_pos.mpr posY
  have scaledX : value x * (x.den.toInt * y.den.toInt) = (x.num.toInt * y.den.toInt : ℤ) := by
    rw [value, ← mul_assoc, div_mul_cancel₀ _ (ne_of_gt posX'), Int.cast_mul]
  have scaledY : value y * (x.den.toInt * y.den.toInt) = (y.num.toInt * x.den.toInt : ℤ) := by
    rw [value, mul_comm (x.den.toInt : ℚ), ← mul_assoc, div_mul_cancel₀ _ (ne_of_gt posY'),
      Int.cast_mul]
  rw [← cmp_eq_compare, ← cmp_eq_compare, Operation.numerator, cmp_sub_zero,
    ← cmp_mul_pos_right (mul_pos posX' posY'), scaledX, scaledY]
  exact (Int.cast_strictMono.cmp_map_eq _ _).symm

theorem InLowestTerms.eq_iff_value_eq (hx : InLowestTerms x) (hy : InLowestTerms y) :
    x = y ↔ value x = value y := by
  constructor
  · intro same
    rw [same]
  · intro same
    obtain ⟨num, den⟩ := Rat.div_int_inj hx.den_pos hy.den_pos hx.coprime hy.coprime same
    cases x
    cases y
    exact congrArg₂ Fraction.mk (Int32.toInt_inj.mp num) (Int32.toInt_inj.mp den)

/-- A fraction in lowest terms is left as it is. -/
theorem InLowestTerms.reduced_eq (h : InLowestTerms x) : reduced x.num x.den = x := by
  have lowest : InLowestTerms (reduced x.num x.den) :=
    ⟨coprime_reduced h.den_ne_zero, den_reduced_pos h.den_pos⟩
  have kept : ¬ LosesSign x.num x.den := by
    rintro ⟨-, negative, -⟩
    rw [Int32.lt_iff_toInt_lt, Int32.toInt_zero] at negative
    exact absurd negative (Int.not_lt.mpr (Int.le_of_lt h.den_pos))
  rw [lowest.eq_iff_value_eq h, value_reduced h.den_ne_zero, if_neg kept]

theorem compare_of_inside (hx : InLowestTerms x) (hy : InLowestTerms y)
    (inside : Operation.sub.Inside x y) : compare x y = compare (value x) (value y) := by
  have fits : Fits (x.den.toInt * y.den.toInt) :=
    inside.products _ (Operation.denominator_mem_products (fun h => by cases h))
  have product : (x.den * y.den).toInt = x.den.toInt * y.den.toInt := by
    rw [← toInt_ofInt_of_fits fits, Int32.ofInt_mul, Int32.ofInt_toInt, Int32.ofInt_toInt]
  have nonneg : 0 ≤ (x.den * y.den).toInt := by
    rw [product]
    exact Int.le_of_lt (Int.mul_pos hx.den_pos hy.den_pos)
  rw [compare_eq inside.numerator nonneg, compare_numerator hx.den_pos hy.den_pos]

/-- As long as nothing that an operation forms leaves the words, its result has a value, is reduced
and has the value of the operation on rational numbers. A comparison whose difference is formed like
this is the comparison of the values, and only equal fractions compare as equal. -/
theorem operations_exact (hx : InLowestTerms x) (hy : InLowestTerms y) :
    (∀ op : Operation, (op = .div → y.num ≠ 0) → op.Inside x y →
      (op.apply x y).isUndefined = false ∧
      (op.apply x y).num.toInt.gcd (op.apply x y).den.toInt = 1 ∧
      value (op.apply x y) = op.exact (value x) (value y)) ∧
    (Operation.sub.Inside x y →
      compare x y = compare (value x) (value y) ∧ (compare x y = .eq ↔ x = y)) := by
  constructor
  · intro op divisor inside
    have defined : op = .div → y.den ≠ 0 := fun _ => hy.den_ne_zero
    have nonzero : Int32.ofInt (op.denominator x y) ≠ 0 := by
      have fits := inside.products _ (Operation.denominator_mem_products defined)
      refine ne_zero_of_toInt ?_
      rw [toInt_ofInt_of_fits fits]
      exact Operation.denominator_ne_zero hx.den_ne_zero hy.den_ne_zero divisor
    refine ⟨?_, ?_, Operation.value_apply hx hy divisor inside⟩
    · rw [Operation.apply_eq defined]
      exact beq_eq_false_iff_ne.mpr (den_reduced_ne_zero nonzero)
    · rw [Operation.apply_eq defined]
      exact coprime_reduced nonzero
  · intro inside
    have order := compare_of_inside hx hy inside
    rw [order, compare_eq_iff_eq, hx.eq_iff_value_eq hy]
    exact ⟨rfl, Iff.rfl⟩

/-- Three divided by the least integer has a denominator without a positive word. The least integer
is below zero by the largest difference that fits. -/
theorem operations_exact_least :
    let least : Fraction := { num := Int32.minValue, den := 1 }
    let three : Fraction := { num := 3, den := 1 }
    let zero : Fraction := { num := 0, den := 1 }
    InLowestTerms least ∧ InLowestTerms three ∧ InLowestTerms zero ∧
      Operation.div.Inside three least ∧ value (three / least) = value three / value least ∧
      Operation.sub.Inside least zero ∧
      compare least zero = compare (value least) (value zero) := by
  intro least three zero
  have lowest : InLowestTerms least := ⟨by decide, by decide⟩
  have lowestThree : InLowestTerms three := ⟨by decide, by decide⟩
  have lowestZero : InLowestTerms zero := ⟨by decide, by decide⟩
  have reciprocal : least.reciprocal = { num := 1, den := Int32.minValue } := by
    rw [Fraction.reciprocal, reduced, lowestTerms_eq (by decide) (by decide)]
    decide +kernel
  have division : Operation.div.Inside three least := by
    constructor
    · rw [Operation.products, reciprocal]
      decide
    · rw [Operation.numerator, reciprocal]
      decide
  have difference : Operation.sub.Inside least zero := ⟨by decide, by decide⟩
  have quotient := (operations_exact lowestThree lowest).1 .div (fun _ => by decide) division
  have order := (operations_exact lowest lowestZero).2 difference
  exact ⟨lowest, lowestThree, lowestZero, division, quotient.2.2, difference, order.1⟩

end

end SeriesCalculator.Fraction
