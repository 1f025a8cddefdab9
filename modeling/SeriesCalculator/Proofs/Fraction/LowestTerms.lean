import Mathlib.Data.Nat.Prime.Basic
import Mathlib.Data.Rat.Lemmas
import SeriesCalculator.Fraction.Basic
import SeriesCalculator.Proofs.Fraction.Scan

/-!
# The reduced fraction of a rational number

The value of a fraction is a rational number, and a rational number has one form in lowest terms
with a positive denominator. `ofRat` writes this form in thirty-two bits, except that a denominator
of `2 ^ 31`, for which there is no positive word, is written with the signs of both numbers changed.
A reduced fraction depends on its value only, and it is this form of the value (`reduced_eq`).

The numbers of the form are never larger than those that were given. So only `2 ^ 31` can be outside
of the words: as the denominator it needs the least integer over an odd number, and as the numerator
the least integer over a negative odd one.
-/

namespace SeriesCalculator.Fraction

/-- The integers of thirty-two bits. -/
def Fits (n : ℤ) : Prop := least ≤ n ∧ n ≤ largest

instance (n : ℤ) : Decidable (Fits n) :=
  inferInstanceAs (Decidable (_ ∧ _))

theorem fits_iff {n : ℤ} : Fits n ↔ -2 ^ 31 ≤ n ∧ n < 2 ^ 31 := by
  rw [Fits, least, largest, Int32.toInt_minValue, Int32.toInt_maxValue]
  omega

theorem toInt_ofInt_of_fits {n : ℤ} (fits : Fits n) : (Int32.ofInt n).toInt = n :=
  Int32.toInt_ofInt_of_le (fits_iff.mp fits).1 (fits_iff.mp fits).2

theorem natAbs_toInt_le (x : Int32) : x.toInt.natAbs ≤ 2 ^ 31 := by
  have := x.le_toInt
  have := x.toInt_lt
  omega

theorem toInt_ne_zero {x : Int32} (nonzero : x ≠ 0) : x.toInt ≠ 0 :=
  fun zero => nonzero (Int32.toInt_inj.mp zero)

/-- A fraction as a rational number. -/
def value (f : Fraction) : ℚ := f.num.toInt / f.den.toInt

/-- The form of a rational number in lowest terms. Where the denominator has no positive word, both
numbers have the other sign. -/
def ofRat (q : ℚ) : Fraction :=
  if q.den = 2 ^ 31 then { num := Int32.ofInt (-q.num), den := Int32.minValue }
  else { num := Int32.ofInt q.num, den := Int32.ofNat q.den }

theorem sign_mul_eq {m n : ℤ} (nonzero : n ≠ 0) :
    n.sign * m = if decide (m < 0) != decide (n < 0) then -(m.natAbs : ℤ) else m.natAbs := by
  rcases Int.lt_or_gt_of_ne nonzero with negative | positive
  · rw [Int.sign_eq_neg_one_of_neg negative, decide_eq_true negative]
    by_cases h : m < 0
    · rw [decide_eq_true h, if_neg (by decide)]
      omega
    · rw [decide_eq_false h, if_pos (by decide)]
      omega
  · rw [Int.sign_eq_one_of_pos positive, decide_eq_false (Int.not_lt.mpr (Int.le_of_lt positive))]
    by_cases h : m < 0
    · rw [decide_eq_true h, if_pos (by decide)]
      omega
    · rw [decide_eq_false h, if_neg (by decide)]
      omega

section

variable {a b : Int32}

theorem value_mk (a b : Int32) : value { num := a, den := b } = Rat.divInt a.toInt b.toInt :=
  (Rat.divInt_eq_div _ _).symm

theorem value_zero_left (b : Int32) : value { num := 0, den := b } = 0 := by
  rw [value, Int32.toInt_zero, Int.cast_zero, zero_div]

theorem den_value (nonzero : b ≠ 0) :
    (value { num := a, den := b }).den =
      b.toInt.natAbs / Nat.gcd a.toInt.natAbs b.toInt.natAbs := by
  rw [value_mk, Rat.den_divInt, if_neg (toInt_ne_zero nonzero), Int.gcd_comm]
  rfl

/-- The numerator has the sign of the quotient. -/
theorem num_value (nonzero : b ≠ 0) :
    (value { num := a, den := b }).num =
      let magnitude := a.toInt.natAbs / Nat.gcd a.toInt.natAbs b.toInt.natAbs
      if decide (a < 0) != decide (b < 0) then -(magnitude : ℤ) else magnitude := by
  have dvd : (Nat.gcd a.toInt.natAbs b.toInt.natAbs : ℤ) ∣ a.toInt.natAbs :=
    Int.natCast_dvd_natCast.mpr (Nat.gcd_dvd_left _ _)
  have gcd : (b.toInt.gcd a.toInt : ℤ) = Nat.gcd a.toInt.natAbs b.toInt.natAbs := by
    rw [Int.gcd_comm]
    rfl
  have negative (x : Int32) : (x < 0) ↔ x.toInt < 0 := Int32.lt_iff_toInt_lt
  rw [value_mk, Rat.num_divInt, gcd, sign_mul_eq (toInt_ne_zero nonzero)]
  simp only [negative]
  split
  · rw [Int.neg_ediv_of_dvd dvd, Int.natCast_div]
  · rw [Int.natCast_div]

theorem natAbs_num_value (nonzero : b ≠ 0) :
    (value { num := a, den := b }).num.natAbs =
      a.toInt.natAbs / Nat.gcd a.toInt.natAbs b.toInt.natAbs := by
  rw [num_value nonzero]
  dsimp only
  split
  · rw [Int.natAbs_neg, Int.natAbs_natCast]
  · rw [Int.natAbs_natCast]

/-- The numbers of the value are not larger than those given. -/
theorem natAbs_num_value_le (nonzero : b ≠ 0) :
    (value { num := a, den := b }).num.natAbs ≤ 2 ^ 31 := by
  rw [natAbs_num_value nonzero]
  exact Nat.le_trans (Nat.div_le_self _ _) (natAbs_toInt_le a)

theorem den_value_le (nonzero : b ≠ 0) : (value { num := a, den := b }).den ≤ 2 ^ 31 := by
  rw [den_value nonzero]
  exact Nat.le_trans (Nat.div_le_self _ _) (natAbs_toInt_le b)

/-- Only the magnitude `2 ^ 31` itself leads to it, and only against an odd one. -/
theorem div_gcd_eq_iff {m n : ℕ} (le : m ≤ 2 ^ 31) :
    m / m.gcd n = 2 ^ 31 ↔ m = 2 ^ 31 ∧ Odd n := by
  constructor
  · intro whole
    obtain rfl : m = 2 ^ 31 := Nat.le_antisymm le (whole ▸ Nat.div_le_self _ _)
    have one : (2 ^ 31).Coprime n := (Nat.div_eq_self.mp whole).resolve_left (by decide)
    exact ⟨rfl, Nat.coprime_two_left.mp (Nat.Coprime.coprime_dvd_left (by decide) one)⟩
  · rintro ⟨rfl, odd⟩
    have one : (2 ^ 31).Coprime n := (Nat.coprime_two_left.mpr odd).pow_left 31
    rw [one.gcd_eq_one, Nat.div_one]

theorem natAbs_toInt_eq_iff {x : Int32} : x.toInt.natAbs = 2 ^ 31 ↔ x = Int32.minValue := by
  rw [← Int32.toInt_inj, Int32.toInt_minValue]
  have := x.toInt_lt
  omega

/-- The denominator has no positive word exactly if the least integer stands under an odd number. -/
theorem den_value_eq_iff (nonzero : b ≠ 0) :
    (value { num := a, den := b }).den = 2 ^ 31 ↔ b = Int32.minValue ∧ Odd a.toInt := by
  rw [den_value nonzero, Nat.gcd_comm, div_gcd_eq_iff (natAbs_toInt_le b), natAbs_toInt_eq_iff,
    Int.natAbs_odd]

/-- The numerator has no word exactly if the least integer stands over a negative odd number. -/
theorem num_value_eq_iff (nonzero : b ≠ 0) :
    (value { num := a, den := b }).num = 2 ^ 31 ↔
      a = Int32.minValue ∧ b < 0 ∧ Odd b.toInt := by
  have magnitude := natAbs_num_value (a := a) nonzero
  have largest := div_gcd_eq_iff (n := b.toInt.natAbs) (natAbs_toInt_le a)
  rw [natAbs_toInt_eq_iff, Int.natAbs_odd, ← magnitude] at largest
  have sign := num_value (a := a) nonzero
  rw [← magnitude] at sign
  constructor
  · intro num
    obtain ⟨rfl, odd⟩ := largest.mp (by rw [num]; decide)
    refine ⟨rfl, ?_, odd⟩
    by_contra positive
    simp only [num, positive] at sign
    exact absurd sign (by decide)
  · rintro ⟨rfl, negative, odd⟩
    have whole := largest.mpr ⟨rfl, odd⟩
    simp only [whole, negative] at sign
    exact sign

theorem largest_lt_iff {d : ℕ} (le : d ≤ 2 ^ 31) : largest < d ↔ d = 2 ^ 31 := by
  rw [largest, Int32.toInt_maxValue]
  omega

/-- Under the least integer an odd number is left alone, and the value has the other signs. -/
theorem ofInt_neg_num_value (odd : Odd a.toInt) :
    Int32.ofInt (-(value { num := a, den := Int32.minValue }).num) = a := by
  have coprime : Nat.gcd a.toInt.natAbs Int32.minValue.toInt.natAbs = 1 :=
    (Nat.coprime_two_right.mpr (Int.natAbs_odd.mpr odd)).pow_right 31
  have num : (value { num := a, den := Int32.minValue }).num = -a.toInt := by
    rw [num_value (by decide), coprime]
    have negative : (a < 0) ↔ a.toInt < 0 := Int32.lt_iff_toInt_lt
    have least : Int32.minValue < 0 := by decide
    by_cases h : a.toInt < 0 <;> simp [negative, least, h] <;> omega
  rw [num, Int.neg_neg, Int32.ofInt_toInt]

/-- A reduced fraction is the form of its value in lowest terms. -/
theorem reduced_eq (nonzero : b ≠ 0) : reduced a b = ofRat (value { num := a, den := b }) := by
  rw [reduced, if_neg nonzero]
  by_cases zero : a = 0
  · rw [if_pos zero, zero, value_zero_left]
    rfl
  have posA := Int.natAbs_pos.mpr (toInt_ne_zero zero)
  have posB := Int.natAbs_pos.mpr (toInt_ne_zero nonzero)
  have num := num_value (a := a) nonzero
  rw [if_neg zero, lowestTerms_eq posA posB, ofRat]
  simp only [← den_value nonzero, largest_lt_iff (den_value_le nonzero)]
  split
  · rename_i whole
    obtain ⟨rfl, odd⟩ := (den_value_eq_iff nonzero).mp whole
    rw [ofInt_neg_num_value odd]
  · rw [num]
    dsimp only
    split
    · rw [Int32.ofInt_neg, Int32.ofInt_eq_ofNat]
    · rw [Int32.ofInt_eq_ofNat]

end

theorem natAbs_toInt_ofInt {n : ℤ} (le : n.natAbs ≤ 2 ^ 31) :
    (Int32.ofInt n).toInt.natAbs = n.natAbs := by
  by_cases greatest : n = 2 ^ 31
  · rw [greatest]
    decide
  · rw [toInt_ofInt_of_fits (fits_iff.mpr (by omega))]

section

variable {q : ℚ}

theorem num_ofRat (fits : Fits q.num) (den : q.den ≠ 2 ^ 31) : (ofRat q).num.toInt = q.num := by
  rw [ofRat, if_neg den]
  exact toInt_ofInt_of_fits fits

theorem den_ofRat (le : q.den ≤ 2 ^ 31) (den : q.den ≠ 2 ^ 31) : (ofRat q).den.toInt = q.den := by
  rw [ofRat, if_neg den]
  exact Int32.toInt_ofNat_of_lt (Nat.lt_of_le_of_ne le den)

theorem natAbs_num_ofRat (le : q.num.natAbs ≤ 2 ^ 31) :
    (ofRat q).num.toInt.natAbs = q.num.natAbs := by
  rw [ofRat]
  split
  · rw [← Int.natAbs_neg] at le
    rw [natAbs_toInt_ofInt le, Int.natAbs_neg]
  · exact natAbs_toInt_ofInt le

theorem natAbs_den_ofRat (le : q.den ≤ 2 ^ 31) : (ofRat q).den.toInt.natAbs = q.den := by
  by_cases den : q.den = 2 ^ 31
  · rw [ofRat, if_pos den, den]
    exact natAbs_toInt_eq_iff.mpr rfl
  · rw [den_ofRat le den, Int.natAbs_natCast]

end

/-- No common divisor is left. The trials come to an end, within the range of the words, with both
magnitudes divided by their greatest common divisor. What is stored is the value in lowest terms if
its numbers fit. A denominator of `2 ^ 31` arises only under an odd numerator, and then the fraction
is stored as it is given. -/
theorem reduced_lowest_terms {a b : Int32} (nonzero : b ≠ 0) :
    (reduced a b).num.toInt.gcd (reduced a b).den.toInt = 1 ∧
    let m := a.toInt.natAbs
    let n := b.toInt.natAbs
    let q := value { num := a, den := b }
    (∃ trials last, Iterates Scan.step trials (Scan.start m n) last ∧ last.step = none ∧
      lowestTerms m n = (last.a, last.b)) ∧
    (∀ trials s, Iterates Scan.step trials (Scan.start m n) s →
      trials ≤ 2 * min m n ∧ s.Within (2 ^ 31)) ∧
    (a ≠ 0 → lowestTerms m n = (m / m.gcd n, n / m.gcd n)) ∧
    (Fits q.num → Fits q.den →
      (reduced a b).num.toInt = q.num ∧ (reduced a b).den.toInt = q.den) ∧
    (q.den = 2 ^ 31 ↔ b = Int32.minValue ∧ Odd a.toInt) ∧
    (q.den = 2 ^ 31 → reduced a b = { num := a, den := b }) := by
  refine ⟨?_, ?_⟩
  · rw [reduced_eq nonzero, Int.gcd, natAbs_num_ofRat (natAbs_num_value_le nonzero),
      natAbs_den_ofRat (den_value_le nonzero)]
    exact (value _).reduced
  intro m n q
  refine ⟨Scan.exists_end m n, ?_, ?_, ?_, den_value_eq_iff nonzero, ?_⟩
  · intro trials s run
    exact ⟨Scan.trials_le run,
      Scan.within_of_iterates (natAbs_toInt_le a) (natAbs_toInt_le b) run⟩
  · intro nonzeroA
    exact lowestTerms_eq (Int.natAbs_pos.mpr (toInt_ne_zero nonzeroA))
      (Int.natAbs_pos.mpr (toInt_ne_zero nonzero))
  · intro fitsNum fitsDen
    have den : q.den ≠ 2 ^ 31 := by
      have := (fits_iff.mp fitsDen).2
      omega
    rw [reduced_eq nonzero]
    exact ⟨num_ofRat fitsNum den, den_ofRat (den_value_le nonzero) den⟩
  · intro den
    obtain ⟨rfl, odd⟩ := (den_value_eq_iff nonzero).mp den
    rw [reduced_eq nonzero, ofRat, if_pos den, ofInt_neg_num_value odd]

/-- A common factor two brings the least integer back into the range of denominators, and the sign
goes to the numerator. -/
theorem reduced_lowest_terms_least :
    Int32.minValue ≠ 0 ∧ (reduced 6 Int32.minValue).num.toInt = -3 ∧
      (reduced 6 Int32.minValue).den.toInt = 2 ^ 30 := by
  have nonzero : Int32.minValue ≠ 0 := by decide
  have num : (value { num := 6, den := Int32.minValue }).num = -3 := by
    rw [num_value nonzero]
    decide +kernel
  have den : (value { num := 6, den := Int32.minValue }).den = 2 ^ 30 := by
    rw [den_value nonzero]
    decide +kernel
  obtain ⟨-, -, -, -, stored, -⟩ := reduced_lowest_terms (a := 6) nonzero
  rw [num, den] at stored
  obtain ⟨numStored, denStored⟩ := stored (fits_iff.mpr (by decide)) (fits_iff.mpr (by decide))
  exact ⟨nonzero, numStored, denStored⟩

end SeriesCalculator.Fraction
