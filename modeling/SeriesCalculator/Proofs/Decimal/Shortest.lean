import SeriesCalculator.Decimal.Shortest
import SeriesCalculator.Proofs.Binary.Rounding

/-!
# The search for the shortest decimal number

A hit on a grid is a multiple of its step inside the neighbourhood, and a grid is missed only if
none of its multiples is (`nearestOnGrid?_eq_some`, `exists_nearestOnGrid?`). The search
therefore ends on a grid that is at least as coarse as any given grid with a multiple inside, as
long as the given one is among those that are tried (`coarsest_spec`).

The last grid that is tried is finer than the neighbourhood (`exists_onLast`). For a whole double one
such grid has a whole step: if the first grid is at most `10 ^ 19`, then the grid of the units is
tried, and the double itself is on it.
-/

namespace SeriesCalculator.Decimal

open Binary (Decoded)

theorem cast_powerOfTen (k : ℕ) : (powerOfTen k : ℚ) = 10 ^ k := by
  rw [powerOfTen]
  exact Nat.cast_pow 10 k

/-- An integer exponent as two natural ones. -/
theorem zpow_mul_pow_toNat_neg {b : ℚ} (nonzero : b ≠ 0) (k : ℤ) :
    b ^ k * b ^ (-k).toNat = b ^ k.toNat := by
  rw [← zpow_natCast, ← zpow_natCast, ← zpow_add₀ nonzero]
  congr 1
  omega

namespace Neighbourhood

variable {n : Neighbourhood}

theorem within_iff {a b : Nat} : n.within a b = true ↔ a ≤ b ∧ (a = b → n.closed = true) := by
  unfold within
  split
  · rename_i closed
    simp [closed]
  · rename_i opened
    rw [Bool.not_eq_true] at opened
    simp only [opened, decide_eq_true_eq, Bool.false_eq_true, imp_false]
    omega

theorem within_of_lt {a b : Nat} (less : a < b) : n.within a b = true :=
  within_iff.mpr ⟨Nat.le_of_lt less, fun same => absurd same (Nat.ne_of_lt less)⟩

/-- The ends are on either side of the value. -/
structure Proper (n : Neighbourhood) : Prop where
  low_lt : n.low < n.value
  lt_high : n.value < n.high
  scale_pos : 0 < n.scale

theorem powerOfTen_pos (k : Nat) : 0 < powerOfTen k := Nat.pow_pos (by decide)

/-- The multiple `digits * 10 ^ k` is inside the neighbourhood. -/
def Contains (n : Neighbourhood) (digits : Nat) (k : Int) : Prop :=
  n.within (n.low * powerOfTen (-k).toNat) (digits * (n.scale * powerOfTen k.toNat)) = true ∧
    n.within (digits * (n.scale * powerOfTen k.toNat)) (n.high * powerOfTen (-k).toNat) = true

theorem nearestOnGrid?_eq_some (proper : n.Proper) {k : Int} {digits : Nat}
    (hit : n.nearestOnGrid? k = some digits) : n.Contains digits k := by
  have lift_pos := powerOfTen_pos (-k).toNat
  have step_pos : 0 < n.scale * powerOfTen k.toNat :=
    Nat.mul_pos proper.scale_pos (powerOfTen_pos _)
  simp only [nearestOnGrid?] at hit
  unfold Contains
  generalize powerOfTen (-k).toNat = lift at *
  generalize n.scale * powerOfTen k.toNat = step at *
  have low_lt : n.low * lift < n.value * lift := Nat.mul_lt_mul_of_pos_right proper.low_lt lift_pos
  have lt_high : n.value * lift < n.high * lift :=
    Nat.mul_lt_mul_of_pos_right proper.lt_high lift_pos
  have below_le : n.value * lift / step * step ≤ n.value * lift := Nat.div_mul_le_self _ _
  have lt_beyond : n.value * lift < (n.value * lift / step + 1) * step :=
    Nat.lt_mul_of_div_lt (Nat.lt_succ_self _) step_pos
  split at hit
  · rename_i up
    rw [Bool.and_eq_true] at up
    cases hit
    exact ⟨within_of_lt (by omega), up.1⟩
  · split at hit
    · rename_i down
      cases hit
      exact ⟨down, within_of_lt (by omega)⟩
    · cases hit

/-- A grid with a multiple strictly between the ends is hit. -/
theorem exists_nearestOnGrid? {k : Int} {multiple : Nat}
    (low : n.low * powerOfTen (-k).toNat < multiple * (n.scale * powerOfTen k.toNat))
    (high : multiple * (n.scale * powerOfTen k.toNat) < n.high * powerOfTen (-k).toNat) :
    ∃ digits, n.nearestOnGrid? k = some digits := by
  simp only [nearestOnGrid?]
  generalize powerOfTen (-k).toNat = lift at *
  generalize n.scale * powerOfTen k.toNat = step at *
  split
  · exact ⟨_, rfl⟩
  · rename_i notUp
    split
    · exact ⟨_, rfl⟩
    · rename_i notDown
      -- the multiple is on one of the two sides of the value
      rcases Nat.lt_or_ge (n.value * lift / step) multiple with above | below
      · have up : n.within ((n.value * lift / step + 1) * step) (n.high * lift) = true :=
          within_of_lt (Nat.lt_of_le_of_lt (Nat.mul_le_mul_right step above) high)
        exact absurd (by simp [up, notDown]) notUp
      · have down : n.within (n.low * lift) (n.value * lift / step * step) = true :=
          within_of_lt (Nat.lt_of_lt_of_le low (Nat.mul_le_mul_right step below))
        exact absurd down notDown

/-- A step of the grid, as a rational number. -/
theorem cast_step (n : Neighbourhood) (k : ℤ) :
    (n.scale * powerOfTen k.toNat : ℚ) = 10 ^ k * n.scale * powerOfTen (-k).toNat := by
  rw [cast_powerOfTen, cast_powerOfTen, ← zpow_mul_pow_toNat_neg (by norm_num) k]
  ring

/-- A grid that is finer than the upper half of the neighbourhood is hit. -/
theorem exists_of_step_lt {k : ℤ} (proper : n.Proper)
    (fine : (10 ^ k * n.scale : ℚ) < n.high - n.value) :
    ∃ digits, n.nearestOnGrid? k = some digits := by
  have pos : (0 : ℚ) < powerOfTen (-k).toNat := mod_cast powerOfTen_pos _
  have step : n.value * powerOfTen (-k).toNat + n.scale * powerOfTen k.toNat <
      n.high * powerOfTen (-k).toNat := by
    have := mul_lt_mul_of_pos_right fine pos
    rw [← cast_step, sub_mul, lt_sub_iff_add_lt'] at this
    exact_mod_cast this
  have step_pos : 0 < n.scale * powerOfTen k.toNat :=
    Nat.mul_pos proper.scale_pos (powerOfTen_pos _)
  have low := Nat.mul_lt_mul_of_pos_right proper.low_lt (powerOfTen_pos (-k).toNat)
  have below := Nat.div_mul_le_self (n.value * powerOfTen (-k).toNat) (n.scale * powerOfTen k.toNat)
  have above := Nat.lt_mul_of_div_lt (Nat.lt_succ_self (n.value * powerOfTen (-k).toNat /
    (n.scale * powerOfTen k.toNat))) step_pos
  refine exists_nearestOnGrid? (low.trans above) ?_
  rw [Nat.succ_mul]
  omega

/-- The search ends at the given grid or before it, if this one is hit and is tried. -/
theorem coarsest_spec {grids before : Nat} {k : Int} (tried : before < grids)
    (hit : ∃ digits, n.nearestOnGrid? (k - before) = some digits) :
    ∃ digits skipped, skipped ≤ before ∧ n.nearestOnGrid? (k - skipped) = some digits ∧
      n.coarsest grids k = { digits, exponent := k - skipped } := by
  induction grids generalizing before k with
  | zero => cases tried
  | succ grids ih =>
      rw [coarsest]
      cases here : n.nearestOnGrid? k with
      | some digits => exact ⟨digits, 0, Nat.zero_le _, by simpa using here, by simp⟩
      | none =>
          cases before with
          | zero =>
              obtain ⟨digits, found⟩ := hit
              simp [here] at found
          | succ before =>
              have next : k - (before + 1 : Nat) = k - 1 - before := by omega
              rw [next] at hit
              obtain ⟨digits, skipped, le, found, answer⟩ := ih (Nat.lt_of_succ_lt_succ tried) hit
              have same : k - 1 - (skipped : Int) = k - (skipped + 1 : Nat) := by omega
              rw [same] at found answer
              exact ⟨digits, skipped + 1, Nat.succ_le_succ le, found, answer⟩

variable {d : Decoded}

theorem ofDecoded_low (d : Decoded) :
    (ofDecoded d).low = (4 * d.mantissa - Binary.quartersBelow d) * 2 ^ (d.exponent - 2).toNat :=
  Nat.shiftLeft_eq _ _

theorem ofDecoded_value (d : Decoded) :
    (ofDecoded d).value = 4 * d.mantissa * 2 ^ (d.exponent - 2).toNat :=
  Nat.shiftLeft_eq _ _

theorem ofDecoded_high (d : Decoded) :
    (ofDecoded d).high = (4 * d.mantissa + 2) * 2 ^ (d.exponent - 2).toNat :=
  Nat.shiftLeft_eq _ _

theorem ofDecoded_scale (d : Decoded) : (ofDecoded d).scale = 2 ^ (2 - d.exponent).toNat :=
  Nat.one_shiftLeft _

theorem proper_ofDecoded (pos : d.mantissa ≠ 0) : (ofDecoded d).Proper := by
  have quarters : 0 < Binary.quartersBelow d := by
    unfold Binary.quartersBelow
    split <;> decide
  have unit := Nat.two_pow_pos (d.exponent - 2).toNat
  refine ⟨?_, ?_, ?_⟩
  · rw [ofDecoded_low, ofDecoded_value]
    exact Nat.mul_lt_mul_of_pos_right (by omega) unit
  · rw [ofDecoded_value, ofDecoded_high]
    exact Nat.mul_lt_mul_of_pos_right (by omega) unit
  · rw [ofDecoded_scale]
    exact Nat.two_pow_pos _

/-- The quarters of the last place and the scale of the neighbourhood are one unit. -/
theorem compare_ofDecoded (d : Decoded) (quarters k : Nat) :
    (quarters * 2 ^ (d.exponent - 2).toNat ≤ k * (ofDecoded d).scale ↔
      quarters * 2 ^ d.exponent.toNat ≤ 4 * (k * 2 ^ (-d.exponent).toNat)) ∧
    (k * (ofDecoded d).scale ≤ quarters * 2 ^ (d.exponent - 2).toNat ↔
      4 * (k * 2 ^ (-d.exponent).toNat) ≤ quarters * 2 ^ d.exponent.toNat) := by
  have scales : (ofDecoded d).scale * 2 ^ d.exponent.toNat =
      4 * 2 ^ (-d.exponent).toNat * 2 ^ (d.exponent - 2).toNat := by
    rw [ofDecoded_scale, ← Nat.pow_add, show 4 = 2 ^ 2 by rfl, ← Nat.pow_add, ← Nat.pow_add]
    congr 1
    omega
  have unit_pos := Nat.two_pow_pos d.exponent.toNat
  have fine_pos := Nat.two_pow_pos (d.exponent - 2).toNat
  generalize 2 ^ d.exponent.toNat = unit at *
  generalize 2 ^ (d.exponent - 2).toNat = fine at *
  generalize 2 ^ (-d.exponent).toNat = whole at *
  have left : quarters * fine * unit = quarters * unit * fine := Nat.mul_right_comm ..
  have right : k * (ofDecoded d).scale * unit = 4 * (k * whole) * fine := by
    rw [Nat.mul_assoc, scales]
    grind
  constructor
  · rw [← Nat.mul_le_mul_right_iff unit_pos, left, right, Nat.mul_le_mul_right_iff fine_pos]
  · rw [← Nat.mul_le_mul_right_iff unit_pos, left, right, Nat.mul_le_mul_right_iff fine_pos]

/-- A multiple of a whole step in the neighbourhood of a double is rounded to the double. -/
theorem Contains.roundsTo {digits : Nat} {k : Int} (h : (ofDecoded d).Contains digits k)
    (whole : 0 ≤ k) : Binary.RoundsTo (digits * powerOfTen k.toNat) d := by
  obtain ⟨low, high⟩ := h
  have lift : powerOfTen (-k).toNat = 1 := by
    rw [Int.toNat_eq_zero.mpr (by omega)]
    rfl
  have multiple : digits * ((ofDecoded d).scale * powerOfTen k.toNat) =
      digits * powerOfTen k.toNat * (ofDecoded d).scale := by grind
  rw [lift, Nat.mul_one, multiple, within_iff] at low high
  rw [ofDecoded_low] at low
  rw [ofDecoded_high] at high
  generalize digits * powerOfTen k.toNat = number at *
  have even (closed : (ofDecoded d).closed = true) : d.mantissa % 2 = 0 := by
    simpa [ofDecoded] using closed
  have atLow := compare_ofDecoded d (4 * d.mantissa - Binary.quartersBelow d) number
  have atHigh := compare_ofDecoded d (4 * d.mantissa + 2) number
  have below : (4 * d.mantissa - Binary.quartersBelow d) * 2 ^ d.exponent.toNat =
      4 * (d.mantissa * 2 ^ d.exponent.toNat) - Binary.quartersBelow d * 2 ^ d.exponent.toNat := by
    rw [Nat.sub_mul, Nat.mul_assoc]
  have above : (4 * d.mantissa + 2) * 2 ^ d.exponent.toNat =
      4 * (d.mantissa * 2 ^ d.exponent.toNat) + 2 * 2 ^ d.exponent.toNat := by
    rw [Nat.add_mul, Nat.mul_assoc]
  rw [below] at atLow
  rw [above] at atHigh
  refine ⟨?_, atHigh.2.mp high.1, ?_⟩
  · have := atLow.1.mp low.1
    omega
  · rintro (least | greatest)
    · exact even (low.2 (Nat.le_antisymm low.1 (atLow.2.mpr (by omega))))
    · exact even (high.2 (Nat.le_antisymm high.1 (atHigh.1.mpr (by omega))))

/-- A quarter of the last place, over the scale. -/
theorem cast_quarter (d : Decoded) :
    (2 ^ (d.exponent - 2).toNat : ℚ) = 2 ^ (d.exponent - 2) * (ofDecoded d).scale := by
  have exponent : 2 - d.exponent = -(d.exponent - 2) := by ring
  rw [ofDecoded_scale, exponent, Nat.cast_pow, Nat.cast_two, zpow_mul_pow_toNat_neg two_ne_zero]

theorem high_sub_value_ofDecoded (d : Decoded) :
    ((ofDecoded d).high - (ofDecoded d).value : ℚ) =
      2 ^ (d.exponent - 1) * (ofDecoded d).scale := by
  rw [ofDecoded_high, ofDecoded_value]
  push_cast
  rw [cast_quarter, show d.exponent - 1 = d.exponent - 2 + 1 by ring, zpow_add_one₀ two_ne_zero]
  ring

/-- The bound on the binary order covers all finite doubles. -/
theorem powerOfTen_mul_lt : ∀ order < 1025,
    powerOfTen (order * 30103 / 100000) * 2 ^ 54 < 2 ^ order * powerOfTen 18 := by
  decide +kernel

/-- The last grid that is tried is finer than the upper half of the neighbourhood. -/
theorem step_lt_half (normal : 2 ^ 52 ≤ d.mantissa) (canonical : d.Canonical)
    (least : -53 ≤ d.exponent) : (10 : ℚ) ^ (gridAbove d - 19) < 2 ^ (d.exponent - 1) := by
  have log : d.mantissa.log2 = 52 :=
    (Nat.log2_eq_iff (by omega)).mpr ⟨normal, canonical.mantissa_lt⟩
  have most := canonical.exponent_le
  obtain ⟨order, exponent⟩ : ∃ order : ℕ, d.exponent = order - 53 :=
    ⟨(d.exponent + 53).toNat, by omega⟩
  have fine : (powerOfTen (order * 30103 / 100000) * 2 ^ 54 : ℚ) < 2 ^ order * powerOfTen 18 :=
    mod_cast powerOfTen_mul_lt order (by omega)
  have grid : gridAbove d - 19 = (order * 30103 / 100000 : ℕ) - (18 : ℕ) := by
    rw [gridAbove, log, exponent]
    omega
  have place : d.exponent - 1 = (order : ℤ) - (54 : ℕ) := by
    rw [exponent]
    ring
  rw [cast_powerOfTen, cast_powerOfTen] at fine
  rw [grid, place, zpow_sub₀ (by norm_num), zpow_sub₀ two_ne_zero, zpow_natCast, zpow_natCast,
    zpow_natCast, zpow_natCast, div_lt_div_iff₀ (by norm_num) (by norm_num)]
  exact fine

theorem exists_onLast (normal : 2 ^ 52 ≤ d.mantissa) (canonical : d.Canonical)
    (least : -53 ≤ d.exponent) :
    ∃ digits, (ofDecoded d).nearestOnGrid? (gridAbove d - (19 : ℕ)) = some digits := by
  have proper := proper_ofDecoded (show d.mantissa ≠ 0 by omega)
  have scale : (0 : ℚ) < (ofDecoded d).scale := mod_cast proper.scale_pos
  refine exists_of_step_lt proper ?_
  rw [high_sub_value_ofDecoded]
  exact mul_lt_mul_of_pos_right (step_lt_half normal canonical least) scale

variable {n : Nat}

/-- The grid of the units is hit, since the double is on it. -/
theorem exists_onUnits (pos : d.mantissa ≠ 0) (whole : d.IsNat n) :
    ∃ digits, (ofDecoded d).nearestOnGrid? 0 = some digits := by
  have proper := proper_ofDecoded pos
  have value : n * (ofDecoded d).scale = (ofDecoded d).value := by
    have exact := compare_ofDecoded d (4 * d.mantissa) n
    have same : 4 * d.mantissa * 2 ^ d.exponent.toNat = 4 * (n * 2 ^ (-d.exponent).toNat) := by
      rw [Nat.mul_assoc]
      exact congrArg (4 * ·) whole
    rw [same] at exact
    rw [ofDecoded_value]
    exact Nat.le_antisymm (exact.2.mpr (Nat.le_refl _)) (exact.1.mpr (Nat.le_refl _))
  have unit : powerOfTen 0 = 1 := rfl
  apply exists_nearestOnGrid?
  · show _ < n * _
    simpa [unit, value] using proper.low_lt
  · simpa [unit, value] using proper.lt_high

/-- The shortest decimal number of a whole double is whole, and it is rounded to the double. -/
theorem exists_shortest_eq (canonical : d.Canonical) (pos : d.mantissa ≠ 0) (whole : d.IsNat n) :
    ∃ digits k : Nat, shortest d = { digits, exponent := k } ∧
      Binary.RoundsTo (digits * powerOfTen k) d := by
  have normal := whole.normal pos canonical
  have least := whole.le_exponent pos canonical.mantissa_lt
  have log : d.mantissa.log2 = 52 :=
    (Nat.log2_eq_iff pos).mpr ⟨normal, canonical.mantissa_lt⟩
  have hit : ∃ before : Nat, before < gridCount ∧ 0 ≤ gridAbove d - before ∧
      ∃ digits, (ofDecoded d).nearestOnGrid? (gridAbove d - before) = some digits := by
    by_cases far : 19 < gridAbove d
    · exact ⟨19, by decide, by omega, exists_onLast normal canonical (by omega)⟩
    · have above : 0 ≤ gridAbove d := by
        rw [gridAbove, log]
        omega
      have units : gridAbove d - (gridAbove d).toNat = 0 := by omega
      rw [Int.not_lt] at far
      refine ⟨(gridAbove d).toNat, ?_, ?_, ?_⟩
      · rw [gridCount]
        omega
      · omega
      · rw [units]
        exact exists_onUnits pos whole
  obtain ⟨before, tried, nonneg, hit⟩ := hit
  obtain ⟨digits, skipped, le, found, answer⟩ := coarsest_spec tried hit
  have grid : ((gridAbove d - skipped).toNat : Int) = gridAbove d - skipped := by omega
  refine ⟨digits, (gridAbove d - skipped).toNat, ?_, ?_⟩
  · rw [shortest, if_neg pos, answer, grid]
  · exact (nearestOnGrid?_eq_some (proper_ofDecoded pos) found).roundsTo (by omega)

end Neighbourhood

end SeriesCalculator.Decimal
