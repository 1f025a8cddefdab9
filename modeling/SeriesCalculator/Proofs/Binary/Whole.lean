import SeriesCalculator.Proofs.Binary.Product
import SeriesCalculator.Proofs.Binary.Rounding
import SeriesCalculator.Proofs.Binary.Sign

/-!
# Whole numbers and doubles

A natural number of at most fifty-three bits is a double itself (`value_ofNat`). The other way round
a double differs from the integer nearest to it by at most one half (`abs_nearest_sub_le`). Moving
this integer into a range makes the difference no larger, unless the double lies farther than this
from the range (`abs_clamp_sub_le`). A double of any size whose value is an integer is the double of
this integer (`ofInt_eq_of_value_eq`), and the double nearest to a natural number of any size is
natural if it is finite (`isNatural_ofNat`).
-/

namespace SeriesCalculator.Binary

variable {n : Nat}

/-- The decoded double of a natural number that fits into a mantissa. -/
def Decoded.ofShortNat (n : Nat) : Decoded :=
  if n = 0 then { negative := false, mantissa := 0, exponent := leastExponent }
  else
    { negative := false
      mantissa := n * 2 ^ (52 - n.log2)
      exponent := n.log2 - 52 }

theorem canonical_ofShortNat (less : n < 2 ^ 53) : (Decoded.ofShortNat n).Canonical := by
  have log := log2_le_of_lt less
  rw [Decoded.ofShortNat]
  split
  · exact canonical_zero false
  · rename_i pos
    obtain ⟨low, high⟩ := mantissa_bounds pos log
    exact ⟨high, by simp only; omega, by simp only; omega, fun _ => low⟩

theorem ofNat_eq_toFloat (less : n < 2 ^ 53) : ofNat n = (Decoded.ofShortNat n).toFloat := by
  have log := log2_le_of_lt less
  rw [ofNat, Decoded.toFloat]
  congr 2
  by_cases zero : n = 0
  · subst zero
    rfl
  · rw [Decoded.ofShortNat, if_neg zero, bitsOfNat_of_log2_le zero log, Decoded.bits]
    simp only [Bool.false_eq_true, if_false]
    omega

theorem value_ofShortNat (less : n < 2 ^ 53) : (Decoded.ofShortNat n).value = n := by
  have log := log2_le_of_lt less
  rw [Decoded.value_eq, Decoded.ofShortNat]
  split
  · rename_i zero
    simp [zero]
  · have place : (n.log2 : Int) - 52 = -(52 - n.log2 : Nat) := by omega
    simp [place, signFactor]

/-- A natural number that fits into a mantissa is a double. -/
theorem value_ofNat (less : n < 2 ^ 53) : (ofNat n).isFinite = true ∧ value (ofNat n) = n := by
  have canonical := canonical_ofShortNat less
  rw [ofNat_eq_toFloat less, canonical.value_toFloat]
  exact ⟨canonical.isFinite_toFloat, value_ofShortNat less⟩

theorem value_ofInt {k : Int} (nonneg : 0 ≤ k) (less : k < 2 ^ 53) :
    (ofInt k).isFinite = true ∧ value (ofInt k) = k := by
  lift k to Nat using nonneg
  exact value_ofNat (by omega)

variable {d : Decoded} {x : Float}

theorem Decoded.signed_eq (d : Decoded) (magnitude : Nat) :
    (d.signed magnitude : ℚ) = signFactor d.negative * magnitude := by
  cases negative : d.negative <;> simp [Decoded.signed, signFactor, negative]

/-- A rounded quotient by twice the unit, in the numerators. -/
theorem nearest_quotient_bounds (m : Nat) {unit : Nat} (pos : 0 < unit) :
    2 * ((2 * m + unit) / (2 * unit) * unit) ≤ 2 * m + unit ∧
      2 * m ≤ 2 * ((2 * m + unit) / (2 * unit) * unit) + unit := by
  have split := Nat.div_add_mod (2 * m + unit) (2 * unit)
  have rest := Nat.mod_lt (2 * m + unit) (Nat.mul_pos two_pos pos)
  rw [Nat.mul_assoc, Nat.mul_comm unit] at split
  omega

theorem abs_nearestMagnitude_sub_le (d : Decoded) :
    |(d.nearestMagnitude : ℚ) - d.mantissa * 2 ^ d.exponent| ≤ 1 / 2 := by
  rw [Decoded.nearestMagnitude]
  split
  · rename_i whole
    have place : d.exponent = d.exponent.toNat := (Int.toNat_of_nonneg whole).symm
    have same : ((d.mantissa <<< d.exponent.toNat : Nat) : ℚ) = d.mantissa * 2 ^ d.exponent := by
      rw [Nat.shiftLeft_eq, place, zpow_natCast]
      push_cast
      rfl
    rw [same]
    norm_num
  · rename_i notWhole
    have place : d.exponent = -((-d.exponent).toNat : Int) := by omega
    rw [Nat.one_shiftLeft]
    generalize (-d.exponent).toNat = shift at *
    obtain ⟨low, high⟩ := nearest_quotient_bounds d.mantissa (Nat.two_pow_pos shift)
    generalize (2 * d.mantissa + 2 ^ shift) / (2 * 2 ^ shift) = quotient at *
    have low : (2 * (quotient * 2 ^ shift) : ℚ) ≤ 2 * d.mantissa + 2 ^ shift := mod_cast low
    have high : (2 * d.mantissa : ℚ) ≤ 2 * (quotient * 2 ^ shift) + 2 ^ shift := mod_cast high
    have pos : (0 : ℚ) < 2 ^ shift := by positivity
    have error : |(quotient * 2 ^ shift - d.mantissa : ℚ)| ≤ 2 ^ shift / 2 :=
      abs_le.mpr ⟨by linarith, by linarith⟩
    rw [place, zpow_neg, zpow_natCast, ← div_eq_mul_inv, sub_div' pos.ne', abs_div, abs_of_pos pos,
      div_le_iff₀ pos]
    linarith

/-- The nearest integer is off by at most one half. -/
theorem abs_nearest_sub_le (x : Float) : |(nearest x : ℚ) - value x| ≤ 1 / 2 := by
  rw [nearest, value, Decoded.value_eq, Decoded.signed_eq, ← mul_sub, abs_mul, abs_signFactor,
    one_mul]
  exact abs_nearestMagnitude_sub_le (decode x)

theorem Decoded.isNat_of_value_eq {d : Decoded} {n : ℕ} (positive : d.negative = false)
    (whole : d.value = n) : d.IsNat n := by
  rw [Decoded.value_eq, positive, signFactor, if_neg Bool.false_ne_true, one_mul] at whole
  rw [Decoded.IsNat]
  rcases le_or_gt 0 d.exponent with nonneg | negative
  · obtain ⟨shift, exponent⟩ := Int.eq_ofNat_of_zero_le nonneg
    rw [exponent, zpow_natCast] at whole
    rw [exponent, Int.toNat_natCast, Int.toNat_neg_natCast, pow_zero, mul_one]
    exact_mod_cast whole
  · obtain ⟨shift, exponent⟩ := Int.exists_eq_neg_ofNat (le_of_lt negative)
    rw [exponent, zpow_neg, zpow_natCast, ← div_eq_mul_inv, div_eq_iff (by positivity)] at whole
    rw [exponent, Int.neg_neg, Int.toNat_natCast, Int.toNat_neg_natCast, pow_zero, mul_one]
    exact_mod_cast whole

theorem Decoded.IsNat.roundsTo {d : Decoded} {n : ℕ} (whole : d.IsNat n) : RoundsTo n d := by
  have unit := Nat.two_pow_pos d.exponent.toNat
  have quarters : 0 < quartersBelow d := by
    unfold quartersBelow
    split <;> decide
  have below := Nat.mul_pos quarters unit
  rw [Decoded.IsNat] at whole
  constructor <;> omega

theorem ofNat_eq_of_value_eq {n : ℕ} (finite : x.isFinite = true)
    (positive : (decode x).negative = false) (pos : n ≠ 0) (whole : value x = n) : ofNat n = x := by
  have isNat := Decoded.isNat_of_value_eq positive whole
  refine ofNat_eq_of_roundsTo ⟨finite, positive, n, isNat⟩ ?_ isNat.roundsTo
  intro zero
  rw [Decoded.IsNat, zero, Nat.zero_mul] at isNat
  exact (Nat.mul_pos (Nat.pos_of_ne_zero pos) (Nat.two_pow_pos _)).ne isNat

/-- A value that is not zero tells the sign. -/
theorem Decoded.negative_iff_value_neg {d : Decoded} (nonzero : d.value ≠ 0) :
    d.negative = true ↔ d.value < 0 := by
  have magnitude : (0 : ℚ) ≤ d.mantissa * 2 ^ d.exponent := by positivity
  have signed := d.value_eq
  cases negative : d.negative with
  | true =>
      rw [negative, signFactor, if_pos rfl] at signed
      exact iff_of_true rfl (lt_of_le_of_ne (by linarith) nonzero)
  | false =>
      rw [negative, signFactor, if_neg Bool.false_ne_true] at signed
      exact iff_of_false Bool.false_ne_true (by linarith)

theorem ofInt_eq_of_value_eq {m : ℤ} (finite : x.isFinite = true) (nonzero : m ≠ 0)
    (whole : value x = m) : ofInt m = x := by
  have sign : (decode x).negative = true ↔ m < 0 := by
    rw [← Int.cast_lt_zero (R := ℚ), ← whole]
    exact Decoded.negative_iff_value_neg (whole.trans_ne (Int.cast_ne_zero.mpr nonzero))
  cases m with
  | ofNat n =>
      refine ofNat_eq_of_value_eq finite ?_ (by simpa using nonzero) (by simpa using whole)
      rw [← Bool.not_eq_true, sign]
      exact Int.not_lt.mpr (Int.natCast_nonneg n)
  | negSucc n =>
      have opposite : value (-x) = (n + 1 : ℕ) := by
        rw [value_neg finite, whole, Int.cast_negSucc, neg_neg]
      have positive : (decode (-x)).negative = false := by
        rw [decode_neg finite, Decoded.opposite, sign.mpr (Int.negSucc_lt_zero n)]
        rfl
      rw [ofInt, ofNat_eq_of_value_eq (isFinite_neg finite) positive n.succ_ne_zero opposite,
        float_neg_neg]

/-- A finite double without a sign is natural if its last place is not below the units. -/
theorem isNatural_of_bits (finite : x.isFinite = true) (large : 1075 * 2 ^ 52 ≤ x.toBits.toNat)
    (unsigned : x.toBits.toNat < 2 ^ 63) : IsNatural x := by
  have field : x.toBits.toNat >>> 52 % 2048 ≠ 0 := by
    rw [Nat.shiftRight_eq_div_pow]
    omega
  have sign : (x.toBits.toNat >>> 63 == 1) = false := by
    rw [Nat.shiftRight_eq_div_pow, beq_eq_false_iff_ne]
    omega
  have decoded := decode_of_field_ne field
  have exponent : 0 ≤ (decode x).exponent := by
    rw [decoded, Nat.shiftRight_eq_div_pow]
    simp only
    omega
  refine ⟨finite, by rw [decoded, sign], (decode x).mantissa * 2 ^ (decode x).exponent.toNat, ?_⟩
  rw [Decoded.IsNat, Int.toNat_of_nonpos (Int.neg_nonpos_of_nonneg exponent), Nat.pow_zero,
    Nat.mul_one]

theorem bitsOfNat_le (n : Nat) : bitsOfNat n ≤ infinityBits := by
  rw [bitsOfNat]
  split
  · exact Nat.zero_le _
  · exact Nat.min_le_right _ _

/-- A number that is longer than a mantissa has a last place above the units. -/
theorem le_bitsOfNat (long : 52 < n.log2) : 1075 * 2 ^ 52 ≤ bitsOfNat n := by
  have pos : n ≠ 0 := by
    rintro rfl
    simp at long
  simp only [bitsOfNat, if_neg pos, storedBits, if_neg (Nat.not_le.mpr long), infinityBits_eq,
    Nat.shiftLeft_eq]
  omega

theorem bitsOfNat_lt_of_isFinite (finite : (ofNat n).isFinite = true) :
    bitsOfNat n < infinityBits := by
  refine Nat.lt_of_le_of_ne (bitsOfNat_le n) ?_
  intro infinite
  rw [ofNat, infinite] at finite
  exact absurd finite (by decide +kernel)

theorem isNatural_ofNat_of_lt (less : n < 2 ^ 53) : IsNatural (ofNat n) := by
  obtain ⟨finite, same⟩ := value_ofNat less
  have positive : (decode (ofNat n)).negative = false := by
    rw [ofNat_eq_toFloat less, (canonical_ofShortNat less).decode_toFloat, Decoded.ofShortNat]
    split <;> rfl
  exact ⟨finite, positive, n, Decoded.isNat_of_value_eq positive same⟩

/-- The double nearest to a natural number is natural, unless it is infinite. -/
theorem isNatural_ofNat (finite : (ofNat n).isFinite = true) : IsNatural (ofNat n) := by
  rcases Nat.lt_or_ge 52 n.log2 with long | short
  · have large := le_bitsOfNat long
    have less := bitsOfNat_lt_of_isFinite finite
    rw [infinityBits_eq] at less
    have fits : bitsOfNat n < 2 ^ 64 := by omega
    have word : (UInt64.ofNat (bitsOfNat n)).toNat = bitsOfNat n := UInt64.toNat_ofNat_of_lt' fits
    have bits : (ofNat n).toBits.toNat = bitsOfNat n := by
      rw [ofNat, toBits_ofBits, word]
      rw [word, Nat.shiftRight_eq_div_pow]
      omega
    exact isNatural_of_bits finite (by omega) (by omega)
  · have power : 2 ^ (n.log2 + 1) ≤ 2 ^ 53 := Nat.pow_le_pow_right two_pos (by omega)
    exact isNatural_ofNat_of_lt (Nat.lt_of_lt_of_le Nat.lt_log2_self power)

/-- An integer that is moved into a range stays within an error of a value that lies within this
error of the range. -/
theorem abs_clamp_sub_le {low high m : Int} {w error : ℚ} (range : low ≤ high)
    (near : |(m : ℚ) - w| ≤ error) (below : low - error ≤ w) (above : w ≤ high + error) :
    |((max low (min high m) : Int) : ℚ) - w| ≤ error := by
  obtain ⟨near_low, near_high⟩ := abs_le.mp near
  rcases lt_or_ge m low with less | ge
  · have less : (m : ℚ) < low := mod_cast less
    rw [show max low (min high m) = low by omega]
    exact abs_le.mpr ⟨by linarith, by linarith⟩
  · rcases lt_or_ge high m with greater | le
    · have greater : (high : ℚ) < m := mod_cast greater
      rw [show max low (min high m) = high by omega]
      exact abs_le.mpr ⟨by linarith, by linarith⟩
    · rw [show max low (min high m) = m by omega]
      exact near

theorem nearestWithin_of_isFinite (low high : Int) (finite : x.isFinite = true) :
    nearestWithin low high x = max low (min high (nearest x)) := by
  rw [nearestWithin, isNaN_eq_false finite, finite]
  rfl

/-- The answer is in the range, whatever the double is. -/
theorem nearestWithin_mem {low high : Int} (x : Float) (low_le : low ≤ 0) (le_high : 0 ≤ high) :
    low ≤ nearestWithin low high x ∧ nearestWithin low high x ≤ high := by
  rw [nearestWithin]
  split
  · exact ⟨low_le, le_high⟩
  · split
    · omega
    · split <;> omega

end SeriesCalculator.Binary
