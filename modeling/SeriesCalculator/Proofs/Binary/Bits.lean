import SeriesCalculator.Binary.Basic
import Mathlib

/-!
# The bits of a double

The bits of a finite double without a sign are determined by the mantissa and the exponent that
are read off them: the exponent, counted from the least one, stands above the mantissa, and the
leading bit of a normal mantissa is added to the exponent field (`toBits_eq_of_decode`). Only the
least exponent has mantissas without a leading bit (`canonical_decode`).
-/

namespace SeriesCalculator.Binary

open Float.Model.UnpackedFloat

theorem isNaN_eq_false {x : Float} (finite : x.isFinite = true) : x.isNaN = false := by
  rw [Float.isFinite, Float.Model.isFinite] at finite
  rw [Float.isNaN, Float.Model.isNaN]
  generalize x.toModel.unpack = value at *
  cases value with
  | notANumber => cases finite
  | _ => rfl

theorem isInf_eq_false {x : Float} (finite : x.isFinite = true) : x.isInf = false := by
  rw [Float.isFinite, Float.Model.isFinite] at finite
  rw [Float.isInf, Float.Model.isInf]
  generalize x.toModel.unpack = value at *
  cases value with
  | infinity => cases finite
  | _ => rfl

/-- The exponent field of a finite double is not full. -/
theorem field_ne_of_isFinite {x : Float} (finite : x.isFinite = true) :
    x.toBits.toNat >>> 52 % 2048 ≠ 2047 := by
  intro full
  have bits : (@unpackExponent .binary64 x.toModel.toBits.toBitVec).toNat =
      x.toBits.toNat >>> 52 % 2048 := by
    simp [unpackExponent, Float.toBits]
  have field : @unpackExponent .binary64 x.toModel.toBits.toBitVec = -1#11 :=
    BitVec.eq_of_toNat_eq (bits.trans full)
  have notFinite : x.toModel.unpack.isFinite = false := by
    rw [Float.Model.unpack, unpack]
    simp only [field]
    split
    · split <;> rfl
    · rename_i notFull
      exact (notFull trivial).elim
  rw [Float.isFinite, Float.Model.isFinite, notFinite] at finite
  cases finite

theorem leadingBit_eq : leadingBit = 2 ^ 52 := by
  rw [leadingBit, storedBits, Nat.one_shiftLeft]

/-- The mantissas and exponents of finite doubles. -/
structure Decoded.Canonical (d : Decoded) : Prop where
  mantissa_lt : d.mantissa < 2 ^ 53
  least_le : -1074 ≤ d.exponent
  exponent_le : d.exponent ≤ 971
  normal : -1074 < d.exponent → 2 ^ 52 ≤ d.mantissa

variable {x : Float}

theorem canonical_decode (finite : x.isFinite = true) : (decode x).Canonical := by
  have notFull := field_ne_of_isFinite finite
  have stored : x.toBits.toNat % 2 ^ 52 < 2 ^ 52 := Nat.mod_lt _ (by decide)
  have field : x.toBits.toNat >>> 52 % 2048 < 2048 := Nat.mod_lt _ (by decide)
  simp only [decode, leadingBit_eq, storedBits, leastExponent]
  split
  · exact ⟨by simp only; omega, by simp, by simp, by simp⟩
  · exact ⟨by simp only; omega, by simp only; omega, by simp only; omega, by simp only; omega⟩

theorem negative_decode (x : Float) : (decode x).negative = (x.toBits.toNat >>> 63 == 1) := by
  unfold decode
  dsimp only
  split <;> rfl

theorem toBits_eq_of_decode (positive : (decode x).negative = false) :
    x.toBits.toNat = ((decode x).exponent + 1074).toNat * 2 ^ 52 + (decode x).mantissa := by
  have bound := x.toBits.toNat_lt
  have unsigned : x.toBits.toNat >>> 63 ≠ 1 := by
    rw [negative_decode] at positive
    simpa using positive
  simp only [decode, leadingBit_eq, storedBits, leastExponent]
  simp only [Nat.shiftRight_eq_div_pow] at *
  split <;> simp only <;> omega

end SeriesCalculator.Binary
