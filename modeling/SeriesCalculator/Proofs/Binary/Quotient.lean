import SeriesCalculator.Proofs.Binary.Comparison

/-!
# The rounded quotient of two doubles

A quotient is formed with as many places as are needed, and what the division leaves is kept in the
round bit and the sticky bit. So a quotient in a binade is a whole number of last places of this
binade, and it is off from the exact quotient by at most half of such a place (`value_div`). Rounding
does not make a quotient one: only a double that is divided by itself gives one
(`value_div_eq_one_iff`).
-/

namespace SeriesCalculator.Binary

open Float.Model Float.Model.UnpackedFloat

variable {negative : Bool} {m num den : Nat} {e t : Int} {drop : Nat}

/-- A quotient with at least fifty-three bits is rounded to a mantissa. -/
theorem exists_roundWithAccuracy_eq (negative : Bool) (low : den * 2 ^ (52 + drop) ≤ num)
    (high : num < den * 2 ^ (53 + drop)) (least : -1074 ≤ t + drop) :
    ∃ rounded : Nat, 2 ^ 52 ≤ rounded ∧ rounded ≤ 2 ^ 53 ∧
      2 * num ≤ 2 * (rounded * (den * 2 ^ drop)) + den * 2 ^ drop ∧
      2 * (rounded * (den * 2 ^ drop)) ≤ 2 * num + den * 2 ^ drop ∧
      roundWithAccuracy .binary64 (signOf negative) (num / den) t
          (accuracyOfFraction (num % den) den) =
        (Decoded.carried negative rounded (t + drop)).unpacked := by
  have pos : 0 < den := by
    refine Nat.pos_of_ne_zero ?_
    rintro rfl
    simp at high
  have order : (num / den).log2 = 52 + drop := by
    refine (Nat.log2_eq_iff ?_).mpr ⟨?_, ?_⟩
    · exact (Nat.div_pos (le_trans (Nat.le_mul_of_pos_right _ (Nat.two_pow_pos _)) low) pos).ne'
    · exact (Nat.le_div_iff_mul_le pos).mpr (by rwa [Nat.mul_comm])
    · exact Nat.div_lt_of_lt_mul (by rwa [Nat.add_right_comm])
  have place : lastPlace (num / den) t = t + drop := by
    simp only [lastPlace, order, storedBits, leastExponent]
    omega
  have dropped : droppedPlaces (num / den) t = drop := by
    rw [droppedPlaces, place]
    omega
  have unit := Nat.mul_pos pos (Nat.two_pow_pos drop)
  have bounds :=
    ((isQuotient_accuracyOfFraction num pos).shiftRight pos drop).roundedMantissa_bounds unit
  rw [Nat.pow_add, Nat.mul_left_comm] at low high
  generalize rounded :
    (ExtendedMantissa.ofMantissaAndAccuracy (num / den) _ >>> drop).roundedMantissa = r at bounds
  have r_le : r ≤ 2 ^ 53 := by
    by_contra! more
    have := Nat.mul_le_mul_right (den * 2 ^ drop) more
    rw [Nat.succ_mul] at this
    omega
  have le_r : 2 ^ 52 ≤ r := by
    by_contra! less
    have := Nat.mul_le_mul_right (den * 2 ^ drop) less
    rw [Nat.succ_mul] at this
    omega
  refine ⟨r, le_r, r_le, bounds.1, bounds.2, ?_⟩
  rw [roundWithAccuracy_eq_carried (by rw [place, dropped]) r_le (by rw [dropped, rounded]), place]

variable {d₁ d₂ : Decoded} {x y : Float} {k : Int}

theorem signOf_div (s t : Bool) : signOf s / signOf t = signOf (s != t) := by
  cases s <;> cases t <;> rfl

/-- The numerator is lifted until the quotient has enough places. -/
theorem exists_divCore_eq (m₁ : Nat) (e₁ : Int) (m₂ : Nat) (e₂ : Int) :
    ∃ lift : Nat, divCore .binary64 m₁ e₁ m₂ e₂ =
        (m₁ * 2 ^ lift / m₂, e₁ - e₂ - lift, accuracyOfFraction (m₁ * 2 ^ lift % m₂) m₂) ∧
      e₁ - e₂ - lift ≤ max (m₁.log2 + e₁ - (m₂.log2 + e₂) - 53) (-1074) := by
  have target : Format.binary64.targetExponent (totalExponent m₁ e₁ - totalExponent m₂ e₂) =
      max (m₁.log2 + e₁ - (m₂.log2 + e₂) - 53) (-1074) := by
    simp only [Format.targetExponent, totalExponent, Format.mantissaBits, Format.minExponent]
    omega
  have fine (place : Int) : min (e₁ - e₂) place = e₁ - e₂ - (e₁ - e₂ - place).toNat := by omega
  have lift (place : Int) : (e₁ - e₂ - min (e₁ - e₂) place).toNat = (e₁ - e₂ - place).toNat := by
    omega
  simp only [divCore, target, Nat.shiftLeft_eq, lift]
  exact ⟨_, by rw [fine], by omega⟩

theorem two_zpow_lt_quotient (nonzero₁ : d₁.mantissa ≠ 0) (nonzero₂ : d₂.mantissa ≠ 0) :
    (2 : ℚ) ^ (d₁.mantissa.log2 + d₁.exponent - (d₂.mantissa.log2 + d₂.exponent) - 1) <
      d₁.mantissa * 2 ^ d₁.exponent / (d₂.mantissa * 2 ^ d₂.exponent) := by
  have low : (2 : ℚ) ^ d₁.mantissa.log2 ≤ d₁.mantissa := mod_cast Nat.log2_self_le nonzero₁
  have high : (d₂.mantissa : ℚ) < 2 ^ (d₂.mantissa.log2 + 1) := mod_cast Nat.lt_log2_self
  rw [lt_div_iff₀ (by positivity)]
  calc (2 : ℚ) ^ (d₁.mantissa.log2 + d₁.exponent - (d₂.mantissa.log2 + d₂.exponent) - 1) *
        (d₂.mantissa * 2 ^ d₂.exponent)
      < 2 ^ (d₁.mantissa.log2 + d₁.exponent - (d₂.mantissa.log2 + d₂.exponent) - 1) *
        (2 ^ (d₂.mantissa.log2 + 1) * 2 ^ d₂.exponent) := by gcongr
    _ = 2 ^ d₁.mantissa.log2 * 2 ^ d₁.exponent := by
        rw [← zpow_natCast, ← zpow_natCast, ← zpow_add₀ two_ne_zero, ← zpow_add₀ two_ne_zero,
          ← zpow_add₀ two_ne_zero]
        congr 1
        push_cast
        ring
    _ ≤ d₁.mantissa * 2 ^ d₁.exponent := by gcongr

/-- A quotient of a binade that has no least exponent is rounded to the places of this binade. -/
theorem exists_div_unpacked (nonzero₁ : d₁.mantissa ≠ 0) (nonzero₂ : d₂.mantissa ≠ 0)
    (least : -1022 ≤ k)
    (low : 2 ^ k ≤ (d₁.mantissa * 2 ^ d₁.exponent / (d₂.mantissa * 2 ^ d₂.exponent) : ℚ))
    (high : (d₁.mantissa * 2 ^ d₁.exponent / (d₂.mantissa * 2 ^ d₂.exponent) : ℚ) < 2 ^ (k + 1)) :
    ∃ rounded : Nat, 2 ^ 52 ≤ rounded ∧ rounded ≤ 2 ^ 53 ∧
      |(rounded * 2 ^ (k - 52) -
        d₁.mantissa * 2 ^ d₁.exponent / (d₂.mantissa * 2 ^ d₂.exponent) : ℚ)| ≤ 2 ^ (k - 53) ∧
      div .binary64 d₁.unpacked d₂.unpacked =
        (Decoded.carried (d₁.negative != d₂.negative) rounded (k - 52)).unpacked := by
  obtain ⟨lift, core, le⟩ := exists_divCore_eq d₁.mantissa d₁.exponent d₂.mantissa d₂.exponent
  have order := (two_zpow_lt_quotient nonzero₁ nonzero₂).trans high
  rw [zpow_lt_zpow_iff_right₀ one_lt_two] at order
  have pos : (0 : ℚ) < d₂.mantissa := by positivity
  generalize place : d₁.exponent - d₂.exponent - (lift : Int) = t at core le
  obtain ⟨drop, exponent⟩ : ∃ drop : Nat, k - 52 = t + drop := ⟨(k - 52 - t).toNat, by omega⟩
  have quotient : (d₁.mantissa * 2 ^ d₁.exponent / (d₂.mantissa * 2 ^ d₂.exponent) : ℚ) =
      (d₁.mantissa * 2 ^ lift : ℕ) / d₂.mantissa * 2 ^ t := by
    rw [← place, zpow_sub₀ two_ne_zero, zpow_sub₀ two_ne_zero, zpow_natCast]
    push_cast
    field_simp
  rw [quotient] at low high ⊢
  generalize d₁.mantissa * 2 ^ lift = num at *
  have scale (n : ℕ) : (2 : ℚ) ^ (n + (k - 52)) = 2 ^ (n + drop) * 2 ^ t := by
    rw [exponent, zpow_add₀ two_ne_zero, zpow_add₀ two_ne_zero, zpow_natCast, zpow_natCast,
      pow_add]
    ring
  rw [show k = (52 : ℕ) + (k - 52) by omega, scale, mul_le_mul_iff_left₀ (by positivity),
    le_div_iff₀ pos] at low
  rw [show k + 1 = (53 : ℕ) + (k - 52) by omega, scale, mul_lt_mul_iff_left₀ (by positivity),
    div_lt_iff₀ pos] at high
  obtain ⟨rounded, le_rounded, rounded_le, below, above, round⟩ :=
    exists_roundWithAccuracy_eq (d₁.negative != d₂.negative)
      (show d₂.mantissa * 2 ^ (52 + drop) ≤ num by rw [mul_comm]; exact_mod_cast low)
      (show num < d₂.mantissa * 2 ^ (53 + drop) by rw [mul_comm]; exact_mod_cast high)
      (show -1074 ≤ t + drop by omega)
  refine ⟨rounded, le_rounded, rounded_le, ?_, ?_⟩
  · have below : (2 * num : ℚ) ≤
        2 * (rounded * (d₂.mantissa * 2 ^ drop)) + d₂.mantissa * 2 ^ drop := mod_cast below
    have above : (2 * (rounded * (d₂.mantissa * 2 ^ drop)) : ℚ) ≤
        2 * num + d₂.mantissa * 2 ^ drop := mod_cast above
    have error : |(rounded * 2 ^ drop - num / d₂.mantissa : ℚ)| ≤ 2 ^ drop / 2 := by
      rw [sub_div' pos.ne', abs_div, abs_of_pos pos, div_le_iff₀ pos, abs_le]
      constructor <;> linarith
    have unit : (0 : ℚ) < 2 ^ t := by positivity
    have half : (2 : ℚ) ^ (k - 53) = 2 ^ drop / 2 * 2 ^ t := by
      rw [show k - 53 = drop + t - 1 by omega, zpow_sub_one₀ two_ne_zero,
        zpow_add₀ two_ne_zero, zpow_natCast]
      ring
    calc |(rounded * 2 ^ (k - 52) - num / d₂.mantissa * 2 ^ t : ℚ)|
        = |(rounded * 2 ^ drop - num / d₂.mantissa : ℚ)| * 2 ^ t := by
          rw [exponent, zpow_add₀ two_ne_zero, zpow_natCast, ← abs_of_pos unit, ← abs_mul,
            abs_of_pos unit]
          ring_nf
      _ ≤ 2 ^ drop / 2 * 2 ^ t := by gcongr
      _ = 2 ^ (k - 53) := half.symm
  · rw [Decoded.unpacked_of_ne_zero nonzero₁, Decoded.unpacked_of_ne_zero nonzero₂, exponent,
      ← round, ← signOf_div]
    simp only [UnpackedFloat.div, core]

theorem signFactor_div (s t : Bool) : signFactor s / signFactor t = signFactor (s != t) := by
  cases s <;> cases t <;> norm_num [signFactor]

theorem Decoded.value_div_value (d₁ d₂ : Decoded) :
    d₁.value / d₂.value = signFactor (d₁.negative != d₂.negative) *
      (d₁.mantissa * 2 ^ d₁.exponent / (d₂.mantissa * 2 ^ d₂.exponent)) := by
  rw [Decoded.value_eq, Decoded.value_eq, ← signFactor_div, mul_div_mul_comm]

/-- A quotient that is neither too large nor too small is off from the exact quotient by at most half
a last place of its binade, and it is a whole number of these places. -/
theorem value_div (finite₁ : x.isFinite = true) (finite₂ : y.isFinite = true)
    (least : -1022 ≤ k) (greatest : k ≤ 1022) (low : 2 ^ k ≤ |value x / value y|)
    (high : |value x / value y| < 2 ^ (k + 1)) :
    (x / y).isFinite = true ∧ |value (x / y) - value x / value y| ≤ 2 ^ (k - 53) ∧
      ∃ places : Nat, |value (x / y)| = places * 2 ^ (k - 52) := by
  have nonneg : (0 : ℚ) ≤ (decode x).mantissa * 2 ^ (decode x).exponent /
      ((decode y).mantissa * 2 ^ (decode y).exponent) := by positivity
  have pos := (zpow_pos two_pos k).trans_le low
  simp only [value, Decoded.value_div_value, abs_mul, abs_signFactor, one_mul,
    abs_of_nonneg nonneg] at low high pos
  have nonzero₁ : (decode x).mantissa ≠ 0 := by
    intro zero
    simp [zero] at pos
  have nonzero₂ : (decode y).mantissa ≠ 0 := by
    intro zero
    simp [zero] at pos
  obtain ⟨rounded, le_rounded, rounded_le, error, quotient⟩ :=
    exists_div_unpacked nonzero₁ nonzero₂ least low high
  have canonical : (Decoded.carried ((decode x).negative != (decode y).negative) rounded
      (k - 52)).Canonical :=
    canonical_carried (by omega) (by omega) fun _ => le_rounded
  have same : x / y = (Decoded.carried ((decode x).negative != (decode y).negative) rounded
      (k - 52)).toFloat := by
    rw [div_eq_pack, unpack_toModel finite₁, unpack_toModel finite₂, quotient,
      canonical.pack_unpacked]
  have rounded_nonneg : (0 : ℚ) ≤ rounded * 2 ^ (k - 52) := by positivity
  rw [same, canonical.value_toFloat, value_carried rounded_le]
  refine ⟨canonical.isFinite_toFloat, ?_, rounded, ?_⟩
  · rw [value, value, Decoded.value_div_value, ← mul_sub, abs_mul, abs_signFactor, one_mul]
    exact error
  · rw [abs_mul, abs_signFactor, one_mul, abs_of_nonneg rounded_nonneg]

section InRange

variable (finite₁ : x.isFinite = true) (finite₂ : y.isFinite = true)
  (low : 2 ^ (-1022 : Int) ≤ |value x / value y|) (high : |value x / value y| < 2 ^ (1023 : Int))

include finite₁ finite₂ low high

/-- The quotient is in a binade. -/
theorem exists_value_div : ∃ k : Int, 2 ^ k ≤ |value x / value y| ∧
    |value x / value y| < 2 ^ (k + 1) ∧ (x / y).isFinite = true ∧
    |value (x / y) - value x / value y| ≤ 2 ^ (k - 53) ∧
    ∃ places : Nat, |value (x / y)| = places * 2 ^ (k - 52) := by
  obtain ⟨k, le, lt⟩ := exists_mem_Ico_zpow (y := (2 : ℚ)) ((zpow_pos two_pos _).trans_le low)
    one_lt_two
  have least := (zpow_lt_zpow_iff_right₀ (one_lt_two (α := ℚ))).mp (low.trans_lt lt)
  have greatest := (zpow_lt_zpow_iff_right₀ (one_lt_two (α := ℚ))).mp (le.trans_lt high)
  exact ⟨k, le, lt, value_div finite₁ finite₂ (by omega) (by omega) le lt⟩

theorem abs_value_div_sub_le : (x / y).isFinite = true ∧
    |value (x / y) - value x / value y| ≤ |value x / value y| / 2 ^ 53 := by
  obtain ⟨k, le, -, finite, error, -⟩ := exists_value_div finite₁ finite₂ low high
  rw [zpow_sub₀ two_ne_zero] at error
  exact ⟨finite, error.trans (by gcongr; norm_num)⟩

end InRange

theorem Decoded.exists_value_eq {d : Decoded} {e : Int} (le : e ≤ d.exponent) :
    ∃ n : Int, d.value = n * 2 ^ e := by
  obtain ⟨shift, exponent⟩ := Int.le.dest le
  refine ⟨d.signed d.mantissa * 2 ^ shift, ?_⟩
  rw [Decoded.value, ← exponent, zpow_add₀ two_ne_zero, zpow_natCast]
  push_cast
  ring

/-- Two values that differ by less than a last place of either are the same. -/
theorem value_eq_of_abs_sub_lt (near₁ : |value x - value y| < 2 ^ (decode x).exponent)
    (near₂ : |value x - value y| < 2 ^ (decode y).exponent) : value x = value y := by
  obtain ⟨e, le₁, le₂, near⟩ : ∃ e, e ≤ (decode x).exponent ∧ e ≤ (decode y).exponent ∧
      |value x - value y| < 2 ^ e := by
    rcases le_total (decode x).exponent (decode y).exponent with le | le
    · exact ⟨_, le_rfl, le, near₁⟩
    · exact ⟨_, le, le_rfl, near₂⟩
  obtain ⟨m, left⟩ := Decoded.exists_value_eq le₁
  obtain ⟨n, right⟩ := Decoded.exists_value_eq le₂
  have unit : (0 : ℚ) < 2 ^ e := by positivity
  rw [value, value, left, right] at near ⊢
  rw [← sub_mul, abs_mul, abs_of_pos unit, mul_lt_iff_lt_one_left unit] at near
  have same : |m - n| < 1 := mod_cast near
  rw [Int.abs_lt_one_iff, sub_eq_zero] at same
  rw [same]

/-- Rounding does not make different doubles have the quotient one. -/
theorem value_div_eq_one_iff (finite₁ : x.isFinite = true) (finite₂ : y.isFinite = true)
    (low : 2 ^ (-1022 : Int) ≤ |value x / value y|)
    (high : |value x / value y| < 2 ^ (1023 : Int)) : value (x / y) = 1 ↔ x = y := by
  obtain ⟨k, le, lt, -, error, places, whole⟩ := exists_value_div finite₁ finite₂ low high
  have nonzero : value y ≠ 0 := by
    intro zero
    rw [zero, div_zero, abs_zero] at le
    exact (zpow_pos two_pos k).not_ge le
  rw [zpow_sub₀ two_ne_zero] at error whole
  constructor
  · intro one
    rw [one, abs_sub_comm] at error
    -- the quotient is not in a higher binade than one, so both differences are below a last place
    have below : (2 : ℚ) ^ k ≤ 1 := by
      by_contra! above
      have : (2 : ℚ) ^ (1 : Int) ≤ 2 ^ k :=
        zpow_le_zpow_right₀ one_le_two ((one_lt_zpow_iff_right₀ one_lt_two).mp above)
      have := abs_sub_abs_le_abs_sub (value x / value y) 1
      rw [abs_one] at this
      norm_num at *
      linarith
    have difference : |value x - value y| = |value x / value y - 1| * |value y| := by
      rw [← abs_mul, sub_mul, one_mul, div_mul_cancel₀ _ nonzero]
    have numerator : |value x| = |value x / value y| * |value y| := by
      rw [← abs_mul, div_mul_cancel₀ _ nonzero]
    have less₁ : |value x| < 2 ^ 53 * 2 ^ (decode x).exponent :=
      (canonical_decode finite₁).abs_value_lt
    have less₂ : |value y| < 2 ^ 53 * 2 ^ (decode y).exponent :=
      (canonical_decode finite₂).abs_value_lt
    refine eq_of_value_eq finite₁ finite₂ (value_eq_of_abs_sub_lt ?_ ?_) nonzero
    · calc |value x - value y| = |value x / value y - 1| * |value y| := difference
        _ ≤ |value x / value y| / 2 ^ 53 * |value y| := by
          gcongr
          exact error.trans (by gcongr; norm_num)
        _ = |value x| / 2 ^ 53 := by rw [numerator]; ring
        _ < 2 ^ (decode x).exponent := by rwa [div_lt_iff₀' (by norm_num)]
    · calc |value x - value y| = |value x / value y - 1| * |value y| := difference
        _ ≤ 1 / 2 ^ 53 * |value y| := by
          gcongr
          exact error.trans (by gcongr; norm_num)
        _ = |value y| / 2 ^ 53 := by ring
        _ < 2 ^ (decode y).exponent := by rwa [div_lt_iff₀' (by norm_num)]
  · rintro rfl
    rw [div_self nonzero] at le lt error
    rw [abs_one] at le lt
    have binade : k = 0 := by
      have := (zpow_le_one_iff_right₀ (one_lt_two (α := ℚ))).mp le
      have := (one_lt_zpow_iff_right₀ (one_lt_two (α := ℚ))).mp lt
      omega
    subst binade
    obtain ⟨near_low, near_high⟩ := abs_le.mp error
    norm_num at near_low near_high whole
    rw [abs_of_pos (by linarith)] at whole
    rw [whole] at near_low near_high ⊢
    have low : (2 ^ 53 - 1 : ℚ) ≤ 2 * places := by linarith
    have high : (2 * places : ℚ) ≤ 2 ^ 53 + 1 := by linarith
    have low : 2 ^ 53 ≤ 2 * places + 1 := by
      have : (2 ^ 53 : ℚ) ≤ 2 * places + 1 := by linarith
      exact_mod_cast this
    have high : 2 * places ≤ 2 ^ 53 + 1 := mod_cast high
    obtain rfl : places = 2 ^ 52 := by omega
    norm_num

theorem two_zpow_le {q : ℚ} (le : 1 / 20 ≤ q) : (2 : ℚ) ^ (-1022 : Int) ≤ q := by
  have := zpow_le_zpow_right₀ (one_le_two (α := ℚ)) (show (-1022 : Int) ≤ -5 by norm_num)
  exact this.trans (le_trans (by norm_num) le)

theorem div_bounds (finite₁ : x.isFinite = true) (finite₂ : y.isFinite = true)
    (pos : 0 < value y) (low : value y ≤ 20 * value x) (high : 2 * value x ≤ 3 * value y) :
    (x / y).isFinite = true ∧ 0 < value (x / y) ∧ value (x / y) < 2 ∧
      (value (x / y) = 1 ↔ x = y) := by
  have low : 1 / 20 ≤ value x / value y := by
    rw [le_div_iff₀ pos]
    linarith
  have high : value x / value y ≤ 3 / 2 := by
    rw [div_le_iff₀ pos]
    linarith
  have magnitude : |value x / value y| = value x / value y := abs_of_nonneg (by linarith)
  have greatest : (3 / 2 : ℚ) < 2 ^ (1023 : Int) := by
    have := zpow_le_zpow_right₀ (one_le_two (α := ℚ)) (show (1 : Int) ≤ 1023 by norm_num)
    exact lt_of_lt_of_le (by norm_num) this
  have least := (two_zpow_le low).trans_eq magnitude.symm
  have greatest := (magnitude.trans_le high).trans_lt greatest
  obtain ⟨finite, error⟩ := abs_value_div_sub_le finite₁ finite₂ least greatest
  obtain ⟨near_low, near_high⟩ := abs_le.mp error
  rw [magnitude] at near_low near_high
  exact ⟨finite, by linarith, by linarith, value_div_eq_one_iff finite₁ finite₂ least greatest⟩

theorem div_self_of_pos (finite : x.isFinite = true) (pos : 0 < value x) : x / x = 1.0 := by
  obtain ⟨finite_div, -, -, one⟩ := div_bounds finite finite pos (by linarith) (by linarith)
  exact eq_of_value_eq finite_div rfl ((one.mpr rfl).trans value_one.symm)
    (value_one.trans_ne one_ne_zero)

end SeriesCalculator.Binary
