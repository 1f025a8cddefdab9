import SeriesCalculator.Proofs.Binary.Bits

/-!
# Rounding to the nearest double

`bitsOfNat` gives the bits of the nearest double. Between the midpoints to its two neighbours a
double is the nearest one to every number, and so it is at the midpoints if its mantissa is even.
Below a power of two the neighbour is only half as far away: a number there is rounded in the next
lower binade, and the carry leads back to the power of two.
-/

namespace SeriesCalculator.Binary

/-- A quotient is rounded to the number that it differs from by at most one half. From an even
number it may differ by just one half. -/
theorem shiftToNearestEven_eq {n shift q : Nat} (low : 2 * q * 2 ^ shift ≤ 2 * n + 2 ^ shift)
    (high : 2 * n ≤ (2 * q + 1) * 2 ^ shift)
    (tie : 2 * q * 2 ^ shift = 2 * n + 2 ^ shift ∨ 2 * n = (2 * q + 1) * 2 ^ shift → q % 2 = 0) :
    shiftToNearestEven n shift = q := by
  have pos : 0 < 2 ^ shift := Nat.two_pow_pos shift
  have split := Nat.div_add_mod n (2 ^ shift)
  have small := Nat.mod_lt n pos
  simp only [shiftToNearestEven, Nat.shiftRight_eq_div_pow, Nat.one_shiftLeft]
  generalize n / 2 ^ shift = k at *
  generalize n % 2 ^ shift = r at *
  generalize 2 ^ shift = unit at *
  subst split
  -- the quotient is `q`, or the number before it
  have le : k ≤ q := by
    by_contra! less
    nlinarith
  have ge : q ≤ k + 1 := by
    by_contra! less
    nlinarith
  obtain rfl | rfl : q = k ∨ q = k + 1 := by omega
  · split <;> grind
  · split <;> grind

theorem infinityBits_eq : infinityBits = 2047 * 2 ^ 52 := by
  rw [infinityBits, storedBits, Nat.shiftLeft_eq]

/-- A number that fits into a mantissa is moved up to its leading bit. -/
theorem mantissa_bounds {n : Nat} (pos : n ≠ 0) (le : n.log2 ≤ 52) :
    2 ^ 52 ≤ n * 2 ^ (52 - n.log2) ∧ n * 2 ^ (52 - n.log2) < 2 ^ 53 := by
  constructor
  · calc 2 ^ 52 = 2 ^ n.log2 * 2 ^ (52 - n.log2) := by
          rw [← Nat.pow_add]
          congr 1
          omega
      _ ≤ n * 2 ^ (52 - n.log2) := Nat.mul_le_mul_right _ (Nat.log2_self_le pos)
  · calc n * 2 ^ (52 - n.log2) < 2 ^ (n.log2 + 1) * 2 ^ (52 - n.log2) :=
          Nat.mul_lt_mul_of_pos_right Nat.lt_log2_self (Nat.two_pow_pos _)
      _ = 2 ^ 53 := by
          rw [← Nat.pow_add]
          congr 1
          omega

/-- A number that fits into a mantissa keeps all its bits. -/
theorem bitsOfNat_of_log2_le {n : Nat} (pos : n ≠ 0) (le : n.log2 ≤ 52) :
    bitsOfNat n = (n.log2 + 1022) * 2 ^ 52 + n * 2 ^ (52 - n.log2) := by
  obtain ⟨-, bound⟩ := mantissa_bounds pos le
  simp only [bitsOfNat, if_neg pos, storedBits, if_pos le, infinityBits_eq, Nat.shiftLeft_eq]
  omega

/-- A longer number is rounded, unless the rounded number is too large for a double. -/
theorem bitsOfNat_of_lt_log2 {n q : Nat} (lt : 52 < n.log2)
    (rounded : shiftToNearestEven n (n.log2 - 52) = q)
    (inside : (n.log2 + 1022) * 2 ^ 52 + q ≤ 2047 * 2 ^ 52) :
    bitsOfNat n = (n.log2 + 1022) * 2 ^ 52 + q := by
  have pos : n ≠ 0 := by
    rintro rfl
    simp at lt
  have not_le : ¬ n.log2 ≤ 52 := Nat.not_le.mpr lt
  simp only [bitsOfNat, if_neg pos, storedBits, if_neg not_le, rounded, infinityBits_eq,
    Nat.shiftLeft_eq]
  omega

/-- The distance from a double to the lower end of what is rounded to it, in quarters of its last
place. -/
def quartersBelow (d : Decoded) : Nat :=
  if d.mantissa = leadingBit ∧ leastExponent < d.exponent then 1 else 2

/-- A number in the interval of what is rounded to a double. The ends belong to it if the mantissa
is even. -/
structure RoundsTo (n : Nat) (d : Decoded) : Prop where
  low : 4 * (d.mantissa * 2 ^ d.exponent.toNat) ≤
    4 * (n * 2 ^ (-d.exponent).toNat) + quartersBelow d * 2 ^ d.exponent.toNat
  high : 4 * (n * 2 ^ (-d.exponent).toNat) ≤
    4 * (d.mantissa * 2 ^ d.exponent.toNat) + 2 * 2 ^ d.exponent.toNat
  tie : 4 * (d.mantissa * 2 ^ d.exponent.toNat) =
      4 * (n * 2 ^ (-d.exponent).toNat) + quartersBelow d * 2 ^ d.exponent.toNat ∨
    4 * (n * 2 ^ (-d.exponent).toNat) =
      4 * (d.mantissa * 2 ^ d.exponent.toNat) + 2 * 2 ^ d.exponent.toNat →
    d.mantissa % 2 = 0

/-- The magnitude of a decoded double is this number. -/
def Decoded.IsNat (d : Decoded) (n : Nat) : Prop :=
  d.mantissa * 2 ^ d.exponent.toNat = n * 2 ^ (-d.exponent).toNat

instance (d : Decoded) (n : Nat) : Decidable (d.IsNat n) :=
  inferInstanceAs (Decidable (_ = _))

/-- A double without a sign, not even that of a negative zero, that is a whole number. -/
structure IsNatural (x : Float) : Prop where
  finite : x.isFinite = true
  positive : (decode x).negative = false
  whole : ∃ n, (decode x).IsNat n

variable {d : Decoded} {n k : Nat}

/-- The last place of a whole double that is not zero is at most as far below the units as a
mantissa is long. -/
theorem Decoded.IsNat.le_exponent (whole : d.IsNat n) (pos : d.mantissa ≠ 0)
    (less : d.mantissa < 2 ^ 53) : -52 ≤ d.exponent := by
  by_contra! low
  obtain ⟨shift, exponent⟩ : ∃ shift : Nat, d.exponent = -shift := ⟨(-d.exponent).toNat, by omega⟩
  have far : 53 ≤ shift := by omega
  rw [Decoded.IsNat, exponent, Int.neg_neg, Int.toNat_natCast, Int.toNat_neg_natCast,
    Nat.pow_zero, Nat.mul_one] at whole
  have n_pos : 0 < n := by
    refine Nat.pos_of_ne_zero ?_
    rintro rfl
    rw [Nat.zero_mul] at whole
    exact pos whole
  have multiple : 2 ^ shift ≤ n * 2 ^ shift := Nat.le_mul_of_pos_left _ n_pos
  have : 2 ^ 53 ≤ 2 ^ shift := Nat.pow_le_pow_right (by decide) far
  omega

/-- A whole double that is not zero has a leading bit. -/
theorem Decoded.IsNat.normal (whole : d.IsNat n) (pos : d.mantissa ≠ 0) (canonical : d.Canonical) :
    2 ^ 52 ≤ d.mantissa := by
  have := whole.le_exponent pos canonical.mantissa_lt
  exact canonical.normal (by omega)

theorem quartersBelow_le (d : Decoded) : quartersBelow d ≤ 2 := by
  unfold quartersBelow
  split <;> decide

/-- If the last place is not above the units, then the only whole number that is rounded to a
whole double is this double. -/
theorem RoundsTo.eq_of_exponent_le (h : RoundsTo k d) (whole : d.IsNat n) (le : d.exponent ≤ 0) :
    k = n := by
  obtain ⟨low, high, -⟩ := h
  have quarters := quartersBelow_le d
  have pos := Nat.two_pow_pos (-d.exponent).toNat
  rw [Decoded.IsNat] at whole
  rw [whole, Int.toNat_eq_zero.mpr le, Nat.pow_zero] at low high
  rcases Nat.lt_trichotomy k n with less | rfl | greater
  · have := Nat.mul_le_mul_right (2 ^ (-d.exponent).toNat) less
    rw [Nat.succ_mul] at this
    omega
  · rfl
  · have := Nat.mul_le_mul_right (2 ^ (-d.exponent).toNat) greater
    rw [Nat.succ_mul] at this
    omega

theorem bitsOfNat_of_exponent_le (normal : 2 ^ 52 ≤ d.mantissa) (less : d.mantissa < 2 ^ 53)
    (whole : d.IsNat n) (le : d.exponent ≤ 0) :
    bitsOfNat n = (d.exponent + 1074).toNat * 2 ^ 52 + d.mantissa := by
  have least := whole.le_exponent (by omega) less
  rw [Decoded.IsNat, Int.toNat_eq_zero.mpr le, Nat.pow_zero, Nat.mul_one] at whole
  obtain ⟨shift, exponent⟩ : ∃ shift : Nat, d.exponent = -shift := ⟨(-d.exponent).toNat, by omega⟩
  rw [exponent, Int.neg_neg, Int.toNat_natCast] at whole
  have n_pos : n ≠ 0 := by
    rintro rfl
    omega
  have order : n.log2 = 52 - shift := by
    rw [Nat.log2_eq_iff n_pos]
    constructor
    · refine Nat.le_of_mul_le_mul_right (?_ : _ * 2 ^ shift ≤ _) (Nat.two_pow_pos shift)
      rw [← Nat.pow_add, ← whole, show 52 - shift + shift = 52 by omega]
      exact normal
    · refine Nat.lt_of_mul_lt_mul_right (?_ : _ * 2 ^ shift < _)
      rw [← Nat.pow_add, ← whole, show 52 - shift + 1 + shift = 53 by omega]
      exact less
  rw [bitsOfNat_of_log2_le n_pos (by omega), order, whole, exponent,
    show 52 - (52 - shift) = shift by omega,
    show (-(shift : Int) + 1074).toNat = 52 - shift + 1022 by omega]

/-- In the binade of the double the number is rounded to the mantissa. -/
theorem RoundsTo.shiftToNearestEven_eq {e : Nat} (h : RoundsTo k d) (exponent : d.exponent = e)
    (even : quartersBelow d = 1 → d.mantissa % 2 = 0) : shiftToNearestEven k e = d.mantissa := by
  obtain ⟨low, high, tie⟩ := h
  simp only [exponent, Int.toNat_natCast, Int.toNat_neg_natCast, Nat.pow_zero, Nat.mul_one]
    at low high tie
  have quarters : quartersBelow d = 1 ∨ quartersBelow d = 2 := by
    unfold quartersBelow
    split <;> simp
  apply Binary.shiftToNearestEven_eq
  · rw [Nat.mul_assoc]
    rcases quarters with one | two
    · rw [one] at low
      omega
    · rw [two] at low
      omega
  · rw [Nat.add_mul, Nat.mul_assoc]
    omega
  · rw [Nat.add_mul, Nat.mul_assoc]
    rcases quarters with one | two
    · exact fun _ => even one
    · rw [two] at tie
      exact fun half => tie (by omega)

/-- Just below a power of two the number is rounded up to this power in the next lower binade. -/
theorem RoundsTo.shiftToNearestEven_below {e : Nat} (h : RoundsTo k d)
    (exponent : d.exponent = e + 1) (least : d.mantissa = 2 ^ 52) (one : quartersBelow d = 1)
    (less : k < 2 ^ (53 + e)) : shiftToNearestEven k e = 2 ^ 53 := by
  obtain ⟨low, -, -⟩ := h
  have up : (d.exponent).toNat = e + 1 := by omega
  have down : (-d.exponent).toNat = 0 := by omega
  rw [up, down, least, one, Nat.pow_succ] at low
  rw [Nat.pow_add] at less
  apply Binary.shiftToNearestEven_eq <;> omega

/-- If the last place is above the units, a number is rounded to a double from its own binade or
from the one below. -/
theorem bitsOfNat_of_pos_exponent (canonical : d.Canonical) (h : RoundsTo k d)
    (pos : 0 < d.exponent) :
    bitsOfNat k = (d.exponent + 1074).toNat * 2 ^ 52 + d.mantissa := by
  obtain ⟨e, exponent⟩ : ∃ e : Nat, d.exponent = e + 1 := ⟨(d.exponent - 1).toNat, by omega⟩
  have normal := canonical.normal (by omega)
  have less := canonical.mantissa_lt
  have exponent_le := canonical.exponent_le
  have up : d.exponent.toNat = e + 1 := by omega
  have down : (-d.exponent).toNat = 0 := by omega
  have power : 2 ^ (53 + e) = 2 ^ 52 * 2 ^ (e + 1) := by
    rw [← Nat.pow_add]
    congr 1
    omega
  have power_succ : 2 ^ (53 + e + 1) = 2 ^ 53 * 2 ^ (e + 1) := by
    rw [← Nat.pow_add]
    congr 1
  have unit := Nat.two_pow_pos (e + 1)
  have top : (d.mantissa + 1) * 2 ^ (e + 1) ≤ 2 ^ 53 * 2 ^ (e + 1) := Nat.mul_le_mul_right _ less
  rw [Nat.succ_mul] at top
  have low := h.low
  have high := h.high
  rw [up, down, Nat.pow_zero, Nat.mul_one] at low high
  have first : quartersBelow d = 1 → d.mantissa = 2 ^ 52 := by
    unfold quartersBelow
    split
    · rename_i first
      exact fun _ => first.1.trans leadingBit_eq
    · simp
  by_cases same : 2 ^ (53 + e) ≤ k
  · have order : k.log2 = 53 + e := (Nat.log2_eq_iff (by omega)).mpr ⟨same, by omega⟩
    have rounded : shiftToNearestEven k (k.log2 - 52) = d.mantissa := by
      rw [order, show 53 + e - 52 = e + 1 by omega]
      apply h.shiftToNearestEven_eq exponent
      intro one
      rw [first one]
      decide
    rw [bitsOfNat_of_lt_log2 (by omega) rounded (by omega), order]
    omega
  · -- all numbers in the lower binade are out of reach but for the least mantissa
    have least : d.mantissa = 2 ^ 52 := by
      by_contra! other
      have := Nat.mul_le_mul_right (2 ^ (e + 1)) (show 2 ^ 52 + 1 ≤ d.mantissa by omega)
      have := Nat.mul_le_mul_right (2 ^ (e + 1)) (quartersBelow_le d)
      rw [Nat.succ_mul] at *
      omega
    have one : quartersBelow d = 1 := by
      rw [quartersBelow, if_pos ⟨least.trans leadingBit_eq.symm, by rw [leastExponent]; omega⟩]
    rw [least, one] at low
    have e_pos : 0 < e := by
      refine Nat.pos_of_ne_zero ?_
      rintro rfl
      omega
    have order : k.log2 = 52 + e := by
      have lower : 2 ^ (52 + e) = 2 ^ 52 * 2 ^ e := Nat.pow_add 2 52 e
      have twice : 2 ^ (e + 1) = 2 ^ e * 2 := Nat.pow_succ 2 e
      rw [show 53 + e = 52 + e + 1 by omega] at same
      exact (Nat.log2_eq_iff (by omega)).mpr ⟨by omega, by omega⟩
    have rounded : shiftToNearestEven k (k.log2 - 52) = 2 ^ 53 := by
      rw [order, Nat.add_sub_cancel_left]
      exact h.shiftToNearestEven_below exponent least one (by omega)
    rw [bitsOfNat_of_lt_log2 (by omega) rounded (by omega), order]
    omega

variable {x : Float}

theorem ofNat_zero_of_mantissa (h : IsNatural x) (zero : (decode x).mantissa = 0) :
    ofNat 0 = x := by
  have canonical := canonical_decode h.finite
  have exponent : (decode x).exponent = -1074 := by
    have le : (decode x).exponent ≤ -1074 := by
      by_contra! above
      have := canonical.normal above
      omega
    exact Int.le_antisymm le canonical.least_le
  have bits : x.toBits.toNat = 0 := by
    rw [toBits_eq_of_decode h.positive, exponent, zero]
    rfl
  rw [ofNat, show bitsOfNat 0 = x.toBits.toNat by rw [bits]; rfl, UInt64.ofNat_toNat,
    Float.ofBits_toBits]

/-- A whole number in the interval of a whole double is read as this double. -/
theorem ofNat_eq_of_roundsTo (natural : IsNatural x) (pos : (decode x).mantissa ≠ 0)
    (h : RoundsTo k (decode x)) : ofNat k = x := by
  obtain ⟨n, whole⟩ := natural.whole
  have canonical := canonical_decode natural.finite
  have bits : bitsOfNat k = x.toBits.toNat := by
    rw [toBits_eq_of_decode natural.positive]
    rcases Int.lt_or_le 0 (decode x).exponent with above | le
    · exact bitsOfNat_of_pos_exponent canonical h above
    · rw [h.eq_of_exponent_le whole le]
      exact bitsOfNat_of_exponent_le (whole.normal pos canonical) canonical.mantissa_lt whole le
  rw [ofNat, bits, UInt64.ofNat_toNat, Float.ofBits_toBits]

end SeriesCalculator.Binary
