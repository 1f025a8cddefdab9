import SeriesCalculator.Proofs.Binary.Shift
import SeriesCalculator.Proofs.Binary.Sign

/-!
# The rounded product of two doubles

A product is formed exactly and then rounded to the last place that a double has. The error of a
product is at most half a unit in the last place, as long as it is not rounded beyond the largest
double (`value_mul`). A product beyond the last power of two is infinite (`isFinite_mul_of_large`).
-/

namespace SeriesCalculator.Binary

open Float.Model Float.Model.UnpackedFloat

variable {n m : Nat}

/-- The exponent of the last place that a double keeps of `mantissa * 2 ^ exponent`. -/
def lastPlace (mantissa : Nat) (exponent : Int) : Int :=
  max (mantissa.log2 + exponent - storedBits) leastExponent

/-- The number of places that are dropped below the last one. -/
def droppedPlaces (mantissa : Nat) (exponent : Int) : Nat :=
  (lastPlace mantissa exponent - exponent).toNat

/-- No digit of `mantissa * 2 ^ exponent` is missing down to the last place. -/
def Precise (mantissa : Nat) (exponent : Int) : Prop :=
  mantissa ≠ 0 ∧ (storedBits ≤ mantissa.log2 ∨ exponent ≤ leastExponent)

/-- A mantissa of fifty-three bits, or the next power of two, which is carried to the exponent. -/
def Decoded.carried (negative : Bool) (mantissa : Nat) (exponent : Int) : Decoded :=
  if mantissa < 2 ^ 53 then { negative, mantissa, exponent }
  else { negative, mantissa := 2 ^ 52, exponent := exponent + 1 }

/-- The double nearest to `± mantissa * 2 ^ exponent`. -/
def Decoded.rounded (negative : Bool) (mantissa : Nat) (exponent : Int) : Decoded :=
  carried negative (shiftToNearestEven mantissa (droppedPlaces mantissa exponent))
    (lastPlace mantissa exponent)

variable {e : Int} {negative : Bool}

theorem leastExponent_le_lastPlace (m : Nat) (e : Int) : -1074 ≤ lastPlace m e := le_max_right _ _

theorem log2_le_droppedPlaces (m : Nat) (e : Int) : m.log2 ≤ 52 + droppedPlaces m e := by
  simp only [droppedPlaces, lastPlace, storedBits, leastExponent]
  omega

theorem quotient_le (m : Nat) (e : Int) :
    shiftToNearestEven m (droppedPlaces m e) ≤ 2 ^ 53 := by
  have log := log2_le_droppedPlaces m e
  have less : m < 2 ^ droppedPlaces m e * 2 ^ 53 := by
    rw [← Nat.pow_add]
    exact Nat.lt_of_lt_of_le Nat.lt_log2_self (Nat.pow_le_pow_right (by decide) (by omega))
  exact (shiftToNearestEven_le _ _).trans (Nat.div_lt_of_lt_mul less)

theorem targetExponent_eq (m : Nat) (e : Int) :
    Format.binary64.targetExponent (totalExponent m e) = lastPlace m e := by
  simp only [Format.targetExponent, totalExponent, Format.mantissaBits, Format.minExponent,
    lastPlace, storedBits, leastExponent]
  omega

theorem log2_le_of_lt (less : n < 2 ^ 53) : n.log2 ≤ 52 := by
  by_cases zero : n = 0
  · simp [zero]
  · have := (Nat.log2_lt zero).mpr less
    omega

theorem canonical_carried (least : -1074 ≤ e) (greatest : e ≤ 970)
    (normal : -1074 < e → 2 ^ 52 ≤ n) : (Decoded.carried negative n e).Canonical := by
  rw [Decoded.carried]
  split
  · rename_i small
    exact ⟨small, least, Int.le_add_one greatest, normal⟩
  · have short : 2 ^ 52 < 2 ^ 53 := by decide
    exact ⟨short, Int.le_add_one least, Int.add_le_add_right greatest 1, fun _ => Nat.le_refl _⟩

/-- The second shift of a rounding only takes up a carry. -/
theorem unpacked_carried (le : n ≤ 2 ^ 53) (least : -1074 ≤ e) :
    (Decoded.carried negative n e).unpacked =
      if zero : n / 2 ^ droppedPlaces n e = 0 then .zero (signOf negative)
      else .finite (signOf negative) (n / 2 ^ droppedPlaces n e) (e + droppedPlaces n e)
        (Nat.pos_of_ne_zero zero) := by
  generalize shifted : droppedPlaces n e = shift
  simp only [droppedPlaces, lastPlace, storedBits, leastExponent] at shifted
  by_cases small : n < 2 ^ 53
  · have := log2_le_of_lt small
    obtain rfl : shift = 0 := by omega
    rw [Decoded.carried, if_pos small]
    simp [Decoded.unpacked]
  · obtain rfl : n = 2 ^ 53 := by omega
    rw [Nat.log2_two_pow] at shifted
    obtain rfl : shift = 1 := by omega
    rfl

/-- What is rounded down to the last place is the double, up to a carry. -/
theorem roundWithAccuracy_eq_carried {accuracy : Accuracy} {rounded : Nat}
    (place : lastPlace m e = e + droppedPlaces m e) (le : rounded ≤ 2 ^ 53)
    (mantissa : (ExtendedMantissa.ofMantissaAndAccuracy m accuracy >>>
      droppedPlaces m e).roundedMantissa = rounded) :
    roundWithAccuracy .binary64 (signOf negative) m e accuracy =
      (Decoded.carried negative rounded (lastPlace m e)).unpacked := by
  have dropped : (lastPlace m e - e).toNat = droppedPlaces m e := rfl
  simp only [roundWithAccuracy, shiftToTargetExponent, shiftToExponent, targetExponent_eq, dropped,
    ← place, mantissa, (isShifted_shiftRight _ _).mantissa]
  exact (unpacked_carried le (leastExponent_le_lastPlace m e)).symm

namespace Precise

variable (precise : Precise m e)

include precise

theorem lastPlace_eq : lastPlace m e = e + droppedPlaces m e := by
  have bits := precise.2
  simp only [droppedPlaces, lastPlace, storedBits, leastExponent] at *
  omega

theorem log2_eq (above : lastPlace m e ≠ -1074) : m.log2 = 52 + droppedPlaces m e := by
  have bits := precise.2
  simp only [droppedPlaces, lastPlace, storedBits, leastExponent] at *
  omega

theorem le_quotient (above : lastPlace m e ≠ -1074) :
    2 ^ 52 ≤ shiftToNearestEven m (droppedPlaces m e) := by
  have le : 2 ^ 52 * 2 ^ droppedPlaces m e ≤ m := by
    rw [← Nat.pow_add, ← precise.log2_eq above]
    exact Nat.log2_self_le precise.1
  calc 2 ^ 52 ≤ m / 2 ^ droppedPlaces m e := (Nat.le_div_iff_mul_le (Nat.two_pow_pos _)).mpr le
    _ ≤ shiftToNearestEven m (droppedPlaces m e) := div_le_shiftToNearestEven _ _

/-- Rounding in the unpacked form. -/
theorem roundWithAccuracy_eq :
    roundWithAccuracy .binary64 (signOf negative) m e .exact =
      (Decoded.rounded negative m e).unpacked :=
  roundWithAccuracy_eq_carried precise.lastPlace_eq (quotient_le m e)
    (isShifted_shiftRight m _).roundedMantissa_eq

end Precise

/-- Plus or minus one. -/
def signFactor (negative : Bool) : ℚ := if negative then -1 else 1

theorem abs_signFactor (negative : Bool) : |signFactor negative| = 1 := by
  cases negative <;> simp [signFactor]

theorem Decoded.value_eq (d : Decoded) :
    d.value = signFactor d.negative * (d.mantissa * 2 ^ d.exponent) := by
  obtain ⟨negative, mantissa, exponent⟩ := d
  cases negative <;> simp [Decoded.value, Decoded.signed, signFactor]

theorem Decoded.Canonical.abs_value_lt {d : Decoded} (canonical : d.Canonical) :
    |d.value| < 2 ^ 53 * 2 ^ d.exponent := by
  have less : (d.mantissa : ℚ) < 2 ^ 53 := mod_cast canonical.mantissa_lt
  have nonneg : (0 : ℚ) ≤ d.mantissa * 2 ^ d.exponent := by positivity
  rw [Decoded.value_eq, abs_mul, abs_signFactor, one_mul, abs_of_nonneg nonneg]
  gcongr

theorem value_carried (le : n ≤ 2 ^ 53) :
    (Decoded.carried negative n e).value = signFactor negative * (n * 2 ^ e) := by
  rw [Decoded.value_eq, Decoded.carried]
  split
  · rfl
  · obtain rfl : n = 2 ^ 53 := by omega
    simp only [zpow_add_one₀ (two_ne_zero (α := ℚ))]
    push_cast
    ring

/-- The last place is that of the leading digits, or the last one of all. -/
theorem two_zpow_lastPlace_le (pos : m ≠ 0) (e : Int) :
    (2 : ℚ) ^ lastPlace m e ≤ max ((m : ℚ) * 2 ^ e / 2 ^ 52) (1 / 2 ^ 1074) := by
  have log : (2 : ℚ) ^ m.log2 ≤ m := mod_cast Nat.log2_self_le pos
  rw [lastPlace, storedBits, leastExponent]
  rcases max_choice (m.log2 + e - (52 : Nat)) (-1074) with leading | least
  · rw [leading, zpow_sub₀ two_ne_zero, zpow_add₀ two_ne_zero, zpow_natCast, zpow_natCast]
    exact le_max_of_le_left (by gcongr)
  · rw [least]
    exact le_max_of_le_right (by norm_num [zpow_neg])

/-- Rounding is off by at most half a unit in the last place. -/
theorem Precise.abs_quotient_sub_le (precise : Precise m e) :
    |(shiftToNearestEven m (droppedPlaces m e) * 2 ^ lastPlace m e - m * 2 ^ e : ℚ)| ≤
      2 ^ lastPlace m e / 2 := by
  have quotient := abs_shiftToNearestEven_sub_le m (droppedPlaces m e)
  have scale : (2 : ℚ) ^ lastPlace m e = 2 ^ droppedPlaces m e * 2 ^ e := by
    rw [precise.lastPlace_eq, zpow_add₀ two_ne_zero, zpow_natCast, mul_comm]
  have pos : (0 : ℚ) < 2 ^ e := by positivity
  generalize droppedPlaces m e = shift at *
  calc |(shiftToNearestEven m shift * 2 ^ lastPlace m e - m * 2 ^ e : ℚ)|
      = |(shiftToNearestEven m shift * 2 ^ shift - m : ℚ)| * 2 ^ e := by
        rw [scale, ← abs_of_pos pos, ← abs_mul, abs_of_pos pos]
        ring_nf
    _ ≤ 2 ^ shift / 2 * 2 ^ e := by gcongr
    _ = 2 ^ lastPlace m e / 2 := by rw [scale]; ring

theorem Precise.abs_value_rounded_sub_le (precise : Precise m e) :
    |(Decoded.rounded negative m e).value - signFactor negative * (m * 2 ^ e)| ≤
      max ((m : ℚ) * 2 ^ e / 2 ^ 53) (1 / 2 ^ 1075) := by
  have unit := two_zpow_lastPlace_le precise.1 e
  rw [Decoded.rounded, value_carried (quotient_le m e), ← mul_sub, abs_mul, abs_signFactor,
    one_mul]
  calc |(shiftToNearestEven m (droppedPlaces m e) * 2 ^ lastPlace m e - m * 2 ^ e : ℚ)|
      ≤ 2 ^ lastPlace m e / 2 := precise.abs_quotient_sub_le
    _ ≤ max ((m : ℚ) * 2 ^ e / 2 ^ 52) (1 / 2 ^ 1074) / 2 := by gcongr
    _ = max ((m : ℚ) * 2 ^ e / 2 ^ 53) (1 / 2 ^ 1075) := by
        rw [← max_div_div_right (by norm_num), div_div, div_div, ← pow_succ, ← pow_succ]

/-- A value below a power of two has its last place fifty-three places below this power, or lower. -/
theorem lastPlace_le {order : Nat} (pos : m ≠ 0) (small : (m : ℚ) * 2 ^ e < 2 ^ order) :
    lastPlace m e ≤ order - 53 := by
  have log : (2 : ℚ) ^ m.log2 ≤ m := mod_cast Nat.log2_self_le pos
  have power : (2 : ℚ) ^ (m.log2 + e) < 2 ^ (order : Int) := by
    rw [zpow_add₀ two_ne_zero, zpow_natCast, zpow_natCast]
    calc (2 : ℚ) ^ m.log2 * 2 ^ e ≤ m * 2 ^ e := by gcongr
      _ < 2 ^ order := small
  have := (zpow_lt_zpow_iff_right₀ (one_lt_two (α := ℚ))).mp power
  simp only [lastPlace, storedBits, leastExponent]
  omega

theorem two_pow_le_sub : (2 : ℚ) ^ 1023 ≤ 2 ^ 1024 - 2 ^ 970 := by
  have double : (2 : ℚ) ^ 1024 = 2 * 2 ^ 1023 := pow_succ' 2 1023
  have less : (2 : ℚ) ^ 970 ≤ 2 ^ 1023 := pow_le_pow_right₀ one_le_two (by decide)
  rw [double]
  generalize (2 : ℚ) ^ 1023 = unit at *
  generalize (2 : ℚ) ^ 970 = part at *
  linarith

/-- A value that is nearer to the largest double than to the power of two behind it is rounded to a
double. -/
theorem Precise.canonical_rounded (precise : Precise m e)
    (small : (m : ℚ) * 2 ^ e < 2 ^ 1024 - 2 ^ 970) : (Decoded.rounded negative m e).Canonical := by
  have pos : (0 : ℚ) < 2 ^ 970 := by positivity
  have place := lastPlace_le precise.1 (small.trans (sub_lt_self _ pos))
  push_cast at place
  have least := leastExponent_le_lastPlace m e
  have normal : -1074 < lastPlace m e → 2 ^ 52 ≤ shiftToNearestEven m (droppedPlaces m e) :=
    fun above => precise.le_quotient above.ne'
  rcases Int.lt_or_eq_of_le place with le | last
  · exact canonical_carried least (Int.le_of_lt_add_one le) normal
  · have last : lastPlace m e = 971 := last
    have half : (2 : ℚ) ^ (971 : Int) = 2 * 2 ^ 970 := (zpow_ofNat 2 971).trans (pow_succ' 2 970)
    have beyond : (2 : ℚ) ^ 1024 = 2 ^ 53 * (2 * 2 ^ 970) := by
      rw [← pow_succ', ← pow_add]
    obtain ⟨-, error⟩ := abs_le.mp precise.abs_quotient_sub_le
    rw [last, half] at error
    rw [beyond] at small
    generalize (2 : ℚ) ^ 970 = unit at pos small error
    have short : (shiftToNearestEven m (droppedPlaces m e) : ℚ) < 2 ^ 53 :=
      lt_of_mul_lt_mul_right (a := 2 * unit) (by linarith) (by linarith)
    have short : shiftToNearestEven m (droppedPlaces m e) < 2 ^ 53 := mod_cast short
    rw [Decoded.rounded, Decoded.carried, if_pos short, last]
    exact ⟨short, show (-1074 : Int) ≤ 971 by decide, le_rfl, fun _ => normal (by omega)⟩

/-- The double nearest to the product of two doubles. -/
def Decoded.product (d₁ d₂ : Decoded) : Decoded :=
  let negative := d₁.negative != d₂.negative
  if d₁.mantissa * d₂.mantissa = 0 then { negative, mantissa := 0, exponent := leastExponent }
  else rounded negative (d₁.mantissa * d₂.mantissa) (d₁.exponent + d₂.exponent)

variable {d₁ d₂ : Decoded} {x y : Float}

theorem signOf_mul (s t : Bool) : signOf s * signOf t = signOf (s != t) := by
  cases s <;> cases t <;> rfl

theorem signFactor_mul (s t : Bool) : signFactor s * signFactor t = signFactor (s != t) := by
  cases s <;> cases t <;> simp [signFactor]

theorem Decoded.value_mul_value (d₁ d₂ : Decoded) :
    d₁.value * d₂.value = signFactor (d₁.negative != d₂.negative) *
      ((d₁.mantissa * d₂.mantissa : Nat) * 2 ^ (d₁.exponent + d₂.exponent)) := by
  rw [Decoded.value_eq, Decoded.value_eq, ← signFactor_mul, zpow_add₀ two_ne_zero]
  push_cast
  ring

/-- A product of two normal mantissas is long enough, and so is that with one normal mantissa. The
product of two others lies far below the last place. -/
theorem precise_product (canonical₁ : d₁.Canonical) (canonical₂ : d₂.Canonical)
    (pos : d₁.mantissa * d₂.mantissa ≠ 0) :
    Precise (d₁.mantissa * d₂.mantissa) (d₁.exponent + d₂.exponent) := by
  refine ⟨pos, ?_⟩
  rw [storedBits, leastExponent]
  have pos₁ := Nat.pos_of_ne_zero (left_ne_zero_of_mul pos)
  have pos₂ := Nat.pos_of_ne_zero (right_ne_zero_of_mul pos)
  have long (le : 2 ^ 52 ≤ d₁.mantissa * d₂.mantissa) : 52 ≤ (d₁.mantissa * d₂.mantissa).log2 :=
    (Nat.le_log2 pos).mpr le
  rcases canonical₁.least_le.eq_or_lt with least₁ | above₁
  · rcases canonical₂.least_le.eq_or_lt with least₂ | above₂
    · exact .inr (by omega)
    · exact .inl (long ((canonical₂.normal above₂).trans (Nat.le_mul_of_pos_left _ pos₁)))
  · exact .inl (long ((canonical₁.normal above₁).trans (Nat.le_mul_of_pos_right _ pos₂)))

theorem mul_unpacked (canonical₁ : d₁.Canonical) (canonical₂ : d₂.Canonical) :
    UnpackedFloat.mul .binary64 d₁.unpacked d₂.unpacked = (d₁.product d₂).unpacked := by
  by_cases zero : d₁.mantissa * d₂.mantissa = 0
  · have signs := signOf_mul d₁.negative d₂.negative
    rw [Decoded.product, if_pos zero]
    simp only [Decoded.unpacked, ← signs]
    rcases Nat.mul_eq_zero.mp zero with zero₁ | zero₂
    · rw [dif_pos zero₁]
      split <;> rfl
    · rw [dif_pos zero₂]
      split <;> rfl
  · have precise := precise_product canonical₁ canonical₂ zero
    rw [Decoded.product, if_neg zero, ← precise.roundWithAccuracy_eq, ← signOf_mul,
      Decoded.unpacked, Decoded.unpacked, dif_neg (left_ne_zero_of_mul zero),
      dif_neg (right_ne_zero_of_mul zero)]
    rfl

theorem canonical_product (canonical₁ : d₁.Canonical) (canonical₂ : d₂.Canonical)
    (small : |d₁.value * d₂.value| < 2 ^ 1024 - 2 ^ 970) : (d₁.product d₂).Canonical := by
  by_cases zero : d₁.mantissa * d₂.mantissa = 0
  · rw [Decoded.product, if_pos zero]
    exact canonical_zero _
  · rw [Decoded.product, if_neg zero]
    apply (precise_product canonical₁ canonical₂ zero).canonical_rounded
    rw [Decoded.value_mul_value, abs_mul, abs_signFactor, one_mul] at small
    exact lt_of_abs_lt small

theorem abs_value_product_sub_le (canonical₁ : d₁.Canonical) (canonical₂ : d₂.Canonical) :
    |(d₁.product d₂).value - d₁.value * d₂.value| ≤
      max (|d₁.value * d₂.value| / 2 ^ 53) (1 / 2 ^ 1075) := by
  rw [Decoded.value_mul_value, abs_mul, abs_signFactor, one_mul]
  by_cases zero : d₁.mantissa * d₂.mantissa = 0
  · rw [Decoded.product, if_pos zero, zero, Decoded.value_eq]
    simp
  · have nonneg : (0 : ℚ) ≤
        (d₁.mantissa * d₂.mantissa : Nat) * 2 ^ (d₁.exponent + d₂.exponent) := by positivity
    rw [Decoded.product, if_neg zero, abs_of_nonneg nonneg]
    exact (precise_product canonical₁ canonical₂ zero).abs_value_rounded_sub_le

theorem mul_eq_toFloat (finite₁ : x.isFinite = true) (finite₂ : y.isFinite = true)
    (canonical : ((decode x).product (decode y)).Canonical) :
    x * y = ((decode x).product (decode y)).toFloat := by
  have model : (x * y).toModel = ((decode x).product (decode y)).toFloat.toModel := by
    change Float.Model.pack (UnpackedFloat.mul .binary64 x.toModel.unpack y.toModel.unpack) = _
    rw [unpack_toModel finite₁, unpack_toModel finite₂,
      mul_unpacked (canonical_decode finite₁) (canonical_decode finite₂), canonical.pack_unpacked]
  exact congrArg Float.ofModel model

/-- The product of two doubles, if it is not rounded beyond the largest double, is off from the exact
product by at most half a unit in the last place. -/
theorem value_mul (finite₁ : x.isFinite = true) (finite₂ : y.isFinite = true)
    (small : |value x * value y| < 2 ^ 1024 - 2 ^ 970) :
    (x * y).isFinite = true ∧
      |value (x * y) - value x * value y| ≤ max (|value x * value y| / 2 ^ 53) (1 / 2 ^ 1075) := by
  have canonical₁ := canonical_decode finite₁
  have canonical₂ := canonical_decode finite₂
  have canonical := canonical_product canonical₁ canonical₂ small
  rw [mul_eq_toFloat finite₁ finite₂ canonical]
  refine ⟨canonical.isFinite_toFloat, ?_⟩
  rw [canonical.value_toFloat]
  exact abs_value_product_sub_le canonical₁ canonical₂

/-- What is rounded beyond the largest double is packed as infinity. -/
theorem pack_finite_of_large {s : Sign} {pos : 0 < m} (large : 972 ≤ e) :
    Float.Model.pack (.finite s m e pos) = Float.Model.pack (.infinity s) := by
  have full : 2 ^ 11 ≤ (e + 1023 + 52).toNat + 1 := by omega
  have packed : UnpackedFloat.pack .binary64 (.finite s m e pos) =
      UnpackedFloat.pack .binary64 (.infinity s) := if_pos full
  simp only [Float.Model.pack, packed]

/-- A value from a power of two upward has its last place fifty-two places below this power, or
higher. -/
theorem le_lastPlace {order : Nat} (large : 2 ^ order ≤ (m : ℚ) * 2 ^ e) :
    order - 52 ≤ lastPlace m e := by
  have log : (m : ℚ) < 2 ^ (m.log2 + 1) := mod_cast Nat.lt_log2_self
  have power : (2 : ℚ) ^ (order : Int) < 2 ^ ((m.log2 + 1 : Nat) + e) := by
    rw [zpow_add₀ two_ne_zero, zpow_natCast, zpow_natCast]
    calc (2 : ℚ) ^ order ≤ m * 2 ^ e := large
      _ < 2 ^ (m.log2 + 1) * 2 ^ e := by gcongr
  have := (zpow_lt_zpow_iff_right₀ (one_lt_two (α := ℚ))).mp power
  simp only [lastPlace, storedBits, leastExponent]
  omega

theorem Precise.exists_unpacked_rounded (precise : Precise m e)
    (large : 2 ^ 1024 ≤ (m : ℚ) * 2 ^ e) : ∃ (rounded : Nat) (place : Int) (pos : 0 < rounded),
      972 ≤ place ∧ (Decoded.rounded negative m e).unpacked =
        .finite (signOf negative) rounded place pos := by
  have place : ((1024 : Nat) : Int) - 52 ≤ lastPlace m e := le_lastPlace large
  push_cast at place
  have normal := precise.le_quotient (by omega)
  rw [Decoded.rounded, Decoded.carried]
  split
  · have pos : shiftToNearestEven m (droppedPlaces m e) ≠ 0 := by omega
    exact ⟨_, _, Nat.pos_of_ne_zero pos, place, dif_neg pos⟩
  · have pos : 2 ^ 52 ≠ 0 := by decide
    exact ⟨_, _, Nat.pos_of_ne_zero pos, Int.le_add_one place, dif_neg pos⟩

/-- A product that is too large for a double is infinite. -/
theorem isFinite_mul_of_large (finite₁ : x.isFinite = true) (finite₂ : y.isFinite = true)
    (large : 2 ^ 1024 ≤ |value x * value y|) : (x * y).isFinite = false := by
  have canonical₁ := canonical_decode finite₁
  have canonical₂ := canonical_decode finite₂
  have nonneg : (0 : ℚ) ≤ ((decode x).mantissa * (decode y).mantissa : Nat) *
      2 ^ ((decode x).exponent + (decode y).exponent) := by positivity
  rw [value, value, Decoded.value_mul_value, abs_mul, abs_signFactor, one_mul, abs_of_nonneg nonneg]
    at large
  have nonzero : (decode x).mantissa * (decode y).mantissa ≠ 0 := by
    intro zero
    rw [zero, Nat.cast_zero, zero_mul] at large
    exact (show (0 : ℚ) < 2 ^ 1024 by positivity).not_ge large
  obtain ⟨rounded, place, pos, far, unpacked⟩ :=
    (precise_product canonical₁ canonical₂ nonzero).exists_unpacked_rounded large
  rw [mul_eq_pack, unpack_toModel finite₁, unpack_toModel finite₂,
    mul_unpacked canonical₁ canonical₂, Decoded.product, if_neg nonzero, unpacked,
    pack_finite_of_large far]
  cases signOf _ <;> rfl

end SeriesCalculator.Binary
