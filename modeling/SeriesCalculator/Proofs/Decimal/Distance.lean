import SeriesCalculator.Decimal.Text
import SeriesCalculator.Proofs.Binary.Whole
import SeriesCalculator.Proofs.Decimal.Shortest

/-!
# How far the shortest decimal number is from its double

A hit on a grid is off from the double by at most half a last place (`abs_toRat_shortest_sub_le`),
and for a double with a last place that is not too far below the units the last grid that is tried is
always hit. So the digits before the point count the decimal places of the double, but for this
distance (`wholeDigits_bounds`): a double just below a power of ten may be written as this power.
-/

namespace SeriesCalculator.Decimal

open Binary (Decoded)

/-- The rational number that a decimal number stands for. -/
def toRat (d : Decimal) : ℚ := d.digits * 10 ^ d.exponent

namespace Neighbourhood

variable {n : Neighbourhood} {digits : ℕ} {k : ℤ}

theorem Contains.bounds (h : n.Contains digits k) :
    (n.low : ℚ) ≤ digits * 10 ^ k * n.scale ∧ (digits * 10 ^ k * n.scale : ℚ) ≤ n.high := by
  have pos : (0 : ℚ) < powerOfTen (-k).toNat := mod_cast powerOfTen_pos _
  have low : (n.low * powerOfTen (-k).toNat : ℚ) ≤ digits * (n.scale * powerOfTen k.toNat) :=
    mod_cast (within_iff.mp h.1).1
  have high : (digits * (n.scale * powerOfTen k.toNat) : ℚ) ≤ n.high * powerOfTen (-k).toNat :=
    mod_cast (within_iff.mp h.2).1
  rw [cast_step, ← mul_assoc, ← mul_assoc, mul_le_mul_iff_left₀ pos] at low high
  exact ⟨low, high⟩

variable {d : Decoded}

/-- What is in the neighbourhood of a double is at most half a last place away from it. -/
theorem Contains.abs_sub_le (pos : d.mantissa ≠ 0) (h : (ofDecoded d).Contains digits k) :
    |(digits * 10 ^ k - d.mantissa * 2 ^ d.exponent : ℚ)| ≤ 2 ^ (d.exponent - 1) := by
  have scale : (0 : ℚ) < (ofDecoded d).scale := mod_cast (proper_ofDecoded pos).scale_pos
  have quarters := Binary.quartersBelow_le d
  obtain ⟨low, high⟩ := h.bounds
  have least : ((4 * d.mantissa - 2) * 2 ^ (d.exponent - 2).toNat : ℚ) ≤ (ofDecoded d).low := by
    have four : 2 ≤ 4 * d.mantissa := by omega
    rw [ofDecoded_low, show (4 * d.mantissa - 2 : ℚ) = (4 * d.mantissa - 2 : ℕ) by
      push_cast [four]; ring]
    exact_mod_cast Nat.mul_le_mul_right _ (by omega)
  have places : (2 : ℚ) ^ d.exponent = 4 * 2 ^ (d.exponent - 2) := by
    rw [show d.exponent = d.exponent - 2 + 2 by ring, zpow_add₀ two_ne_zero]
    norm_num
    ring
  have half : (2 : ℚ) ^ (d.exponent - 1) = 2 * 2 ^ (d.exponent - 2) := by
    rw [show d.exponent - 1 = d.exponent - 2 + 1 by ring, zpow_add_one₀ two_ne_zero]
    ring
  rw [ofDecoded_high] at high
  push_cast at high
  rw [cast_quarter, ← mul_assoc] at least high
  rw [places, half, abs_le]
  have low := le_of_mul_le_mul_right (least.trans low) scale
  have high := le_of_mul_le_mul_right high scale
  constructor <;> linarith

end Neighbourhood

open Neighbourhood in
/-- The shortest decimal number is at most half a last place away. -/
theorem abs_toRat_shortest_sub_le {d : Decoded} (normal : 2 ^ 52 ≤ d.mantissa)
    (canonical : d.Canonical) (least : -53 ≤ d.exponent) :
    |(shortest d).toRat - d.mantissa * 2 ^ d.exponent| ≤ 2 ^ (d.exponent - 1) := by
  have pos : d.mantissa ≠ 0 := by omega
  have proper := proper_ofDecoded pos
  obtain ⟨digits, skipped, -, found, answer⟩ :=
    coarsest_spec (show 19 < gridCount by decide) (exists_onLast normal canonical least)
  rw [shortest, if_neg pos, answer]
  exact (nearestOnGrid?_eq_some proper found).abs_sub_le pos

theorem toRat_mul_places (d : Decimal) :
    d.toRat * powerOfTen (-d.exponent).toNat = (d.digits * powerOfTen d.exponent.toNat : ℕ) := by
  rw [toRat, Nat.cast_mul, cast_powerOfTen, cast_powerOfTen, mul_assoc,
    zpow_mul_pow_toNat_neg (by norm_num)]

/-- The number of digits before the point counts the decimal places. -/
theorem length_whole_bounds {d : Decimal} (one : 1 ≤ d.toRat) :
    0 < d.positional.whole.length ∧
      (10 : ℚ) ^ (d.positional.whole.length - 1) ≤ d.toRat ∧
      d.toRat < 10 ^ d.positional.whole.length := by
  have places_pos := Neighbourhood.powerOfTen_pos (-d.exponent).toNat
  have unit : (0 : ℚ) < powerOfTen (-d.exponent).toNat := mod_cast places_pos
  have shifted := d.toRat_mul_places
  have whole : d.positional.whole = Nat.toDigits 10
      (d.digits * powerOfTen d.exponent.toNat / powerOfTen (-d.exponent).toNat) := rfl
  rw [whole]
  generalize d.digits * powerOfTen d.exponent.toNat = num at *
  generalize powerOfTen (-d.exponent).toNat = places at *
  have pos : 0 < (Nat.toDigits 10 (num / places)).length := Nat.length_toDigits_pos
  have le_iff {length : ℕ} (nonempty : 0 < length) :=
    Nat.length_toDigits_le_iff (n := num / places) (show 1 < 10 by decide) nonempty
  generalize (Nat.toDigits 10 (num / places)).length = length at *
  refine ⟨pos, ?_, ?_⟩
  · refine le_of_mul_le_mul_right ?_ unit
    rw [shifted]
    rcases Nat.eq_zero_or_pos (length - 1) with single | more
    · rw [single, pow_zero, ← shifted]
      exact mul_le_mul_of_nonneg_right one unit.le
    · have le : 10 ^ (length - 1) ≤ num / places := by
        have := (le_iff more).not.mp (by omega)
        omega
      exact_mod_cast (Nat.le_div_iff_mul_le places_pos).mp le
  · refine lt_of_mul_lt_mul_right ?_ unit.le
    rw [shifted]
    exact_mod_cast (Nat.div_lt_iff_lt_mul places_pos).mp ((le_iff pos).mp le_rfl)

open Binary in
/-- The shortest decimal number of a double from two upward. -/
theorem abs_toRat_shortest_decode_sub_le {x : Float} (finite : x.isFinite = true)
    (two : 2 ≤ value x) : |(shortest (decode x)).toRat - value x| ≤ value x / 2 ^ 53 := by
  have canonical := canonical_decode finite
  have less : value x < 2 ^ 53 * 2 ^ (decode x).exponent :=
    (le_abs_self _).trans_lt canonical.abs_value_lt
  have positive : (decode x).negative = false := by
    rw [← Bool.not_eq_true, Decoded.negative_iff_value_neg (two_pos.trans_le two).ne', not_lt]
    exact two_pos.le.trans two
  have magnitude : value x = (decode x).mantissa * 2 ^ (decode x).exponent := by
    rw [value, Decoded.value_eq, positive, signFactor, if_neg Bool.false_ne_true, one_mul]
  have least : -53 < (decode x).exponent := by
    rw [← zpow_lt_zpow_iff_right₀ (one_lt_two (α := ℚ))]
    norm_num at less ⊢
    linarith
  have normal : 2 ^ 52 ≤ (decode x).mantissa := canonical.normal (by omega)
  have long : (2 ^ 52 : ℚ) ≤ (decode x).mantissa := mod_cast normal
  calc |(shortest (decode x)).toRat - value x|
      ≤ 2 ^ ((decode x).exponent - 1) := by
        rw [magnitude]
        exact abs_toRat_shortest_sub_le normal canonical least.le
    _ = 2 ^ 52 * 2 ^ (decode x).exponent / 2 ^ 53 := by
        rw [zpow_sub_one₀ two_ne_zero]
        ring
    _ ≤ value x / 2 ^ 53 := by
        rw [magnitude]
        gcongr

open Binary in
/-- The digits before the point count the decimal places of a double, but for the distance of its
shortest decimal number. -/
theorem wholeDigits_bounds {x : Float} (finite : x.isFinite = true) (two : 2 ≤ value x) :
    0 < wholeDigits x ∧ (10 : ℚ) ^ (wholeDigits x - 1) ≤ value x * (1 + 1 / 2 ^ 53) ∧
      value x * (1 - 1 / 2 ^ 53) < 10 ^ wholeDigits x := by
  obtain ⟨near_low, near_high⟩ := abs_le.mp (abs_toRat_shortest_decode_sub_le finite two)
  obtain ⟨pos, low, high⟩ := length_whole_bounds (show 1 ≤ (shortest (decode x)).toRat by linarith)
  refine ⟨pos, low.trans ?_, lt_of_le_of_lt ?_ high⟩ <;> linarith

end SeriesCalculator.Decimal
