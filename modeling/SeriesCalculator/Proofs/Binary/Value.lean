import SeriesCalculator.Binary.Integer
import SeriesCalculator.Proofs.Binary.Bits

/-!
# The exact value of a double

A finite double stands for the rational number `± mantissa * 2 ^ exponent` (`value`). The arithmetic
of doubles is defined on an unpacked form, and this form is what is decoded (`unpack_toModel`). The
other way round every sign, mantissa and exponent of the right shape is decoded from one double
(`decode_toFloat`), and packing leads to it (`pack_unpacked`). So a result that is computed in the
unpacked form can be read off in decoded form.
-/

namespace SeriesCalculator.Binary

open Float.Model Float.Model.UnpackedFloat

variable {x : Float} {d : Decoded}

/-- The rational number that a decoded double stands for. -/
def Decoded.value (d : Decoded) : ℚ := d.signed d.mantissa * 2 ^ d.exponent

/-- The rational number that a finite double stands for. -/
def value (x : Float) : ℚ := (decode x).value

theorem toNat_unpackExponent (b : UInt64) :
    (@unpackExponent .binary64 b.toBitVec).toNat = b.toNat >>> 52 % 2048 := by
  simp [unpackExponent]

theorem toNat_unpackMantissa (b : UInt64) :
    (@unpackMantissa .binary64 b.toBitVec).toNat = b.toNat % 2 ^ 52 := by
  simp [unpackMantissa]

theorem ofBitVec_unpackSign (b : UInt64) :
    Sign.ofBitVec (@unpackSign .binary64 b.toBitVec) =
      if b.toNat >>> 63 == 1 then .negative else .positive := by
  have sign : (@unpackSign .binary64 b.toBitVec).toNat = b.toNat >>> 63 := by
    have := b.toNat_lt
    simp only [unpackSign, BitVec.toNat_cast, BitVec.extractLsb_toNat, UInt64.toNat_toBitVec]
    omega
  rw [← sign]
  rcases BitVec.eq_zero_or_eq_one (@unpackSign .binary64 b.toBitVec) with zero | one
  · rw [zero]
    rfl
  · rw [one]
    rfl

theorem toNat_leading_append (v : BitVec 52) : (1#1 ++ v).toNat = 2 ^ 52 + v.toNat := by
  rw [BitVec.toNat_append, ← Nat.shiftLeft_add_eq_or_of_lt v.isLt]
  rfl

theorem unpackExponent_ne {b : UInt64} (notFull : b.toNat >>> 52 % 2048 ≠ 2047) :
    @unpackExponent .binary64 b.toBitVec ≠ -1#11 := by
  intro full
  rw [← toNat_unpackExponent, full] at notFull
  exact notFull rfl

theorem toBits_ofBits {b : UInt64} (notFull : b.toNat >>> 52 % 2048 ≠ 2047) :
    (Float.ofBits b).toBits = b := by
  have valid : Format.binary64.Valid b.toBitVec :=
    ⟨fun full => absurd full (unpackExponent_ne notFull)⟩
  change UInt64.ofBitVec
    (UnpackedFloat.pack .binary64 (UnpackedFloat.unpack .binary64 b.toBitVec)) = b
  rw [pack_unpack_of_valid valid (by decide)]

theorem pack_unpack (f : Float.Model) : Float.Model.pack f.unpack = f := by
  obtain ⟨word, valid⟩ := f
  have same : UnpackedFloat.pack .binary64 (UnpackedFloat.unpack .binary64 word.toBitVec) =
      word.toBitVec := pack_unpack_of_valid valid (by decide)
  simp only [Float.Model.pack, Float.Model.unpack, same]

/-- The sign in the unpacked form. -/
def signOf (negative : Bool) : Sign := if negative then .negative else .positive

/-- The unpacked form of a decoded double. -/
def Decoded.unpacked (d : Decoded) : UnpackedFloat :=
  if zero : d.mantissa = 0 then .zero (signOf d.negative)
  else .finite (signOf d.negative) d.mantissa d.exponent (Nat.pos_of_ne_zero zero)

theorem decode_of_field_eq (field : x.toBits.toNat >>> 52 % 2048 = 0) :
    decode x =
      { negative := x.toBits.toNat >>> 63 == 1
        mantissa := x.toBits.toNat % 2 ^ 52
        exponent := -1074 } := by
  simp only [decode, storedBits, leadingBit_eq, leastExponent, if_pos field]

theorem decode_of_field_ne (field : x.toBits.toNat >>> 52 % 2048 ≠ 0) :
    decode x =
      { negative := x.toBits.toNat >>> 63 == 1
        mantissa := 2 ^ 52 + x.toBits.toNat % 2 ^ 52
        exponent := (x.toBits.toNat >>> 52 % 2048 : Nat) - 1075 } := by
  simp only [decode, storedBits, leadingBit_eq, if_neg field]

theorem unpack_of_field_ne (notFull : x.toBits.toNat >>> 52 % 2048 ≠ 2047) :
    x.toModel.unpack = (decode x).unpacked := by
  have exponent := toNat_unpackExponent x.toBits
  have mantissa := toNat_unpackMantissa x.toBits
  have full := unpackExponent_ne notFull
  change UnpackedFloat.unpack .binary64 x.toBits.toBitVec = _
  rw [UnpackedFloat.unpack]
  dsimp only
  rw [if_neg full, ofBitVec_unpackSign]
  by_cases field : x.toBits.toNat >>> 52 % 2048 = 0
  · have zero : @unpackExponent .binary64 x.toBits.toBitVec = 0#11 :=
      BitVec.eq_of_toNat_eq (exponent.trans field)
    rw [if_pos zero, decode_of_field_eq field, Decoded.unpacked, signOf]
    simp only [← mantissa]
    split
    · rename_i empty
      rw [dif_pos (by rw [empty]; rfl)]
    · rename_i nonempty
      have pos : (@unpackMantissa .binary64 x.toBits.toBitVec).toNat ≠ 0 :=
        fun none => nonempty (BitVec.eq_of_toNat_eq none)
      rw [dif_neg pos, zero]
      rfl
  · have nonzero : @unpackExponent .binary64 x.toBits.toBitVec ≠ 0#11 := by
      intro zero
      rw [← exponent, zero] at field
      exact field rfl
    have leading := toNat_leading_append (@unpackMantissa .binary64 x.toBits.toBitVec)
    have pos : 2 ^ 52 + x.toBits.toNat % 2 ^ 52 ≠ 0 := by omega
    rw [mantissa] at leading
    rw [if_neg nonzero, decode_of_field_ne field, Decoded.unpacked, signOf, dif_neg pos]
    simp only [leading, exponent]
    rfl

theorem isFinite_of_field_ne (notFull : x.toBits.toNat >>> 52 % 2048 ≠ 2047) :
    x.isFinite = true := by
  rw [Float.isFinite, Float.Model.isFinite, unpack_of_field_ne notFull, Decoded.unpacked]
  split <;> rfl

/-- The arithmetic of doubles works on what is decoded. -/
theorem unpack_toModel (finite : x.isFinite = true) : x.toModel.unpack = (decode x).unpacked :=
  unpack_of_field_ne (field_ne_of_isFinite finite)

/-- The bits of a decoded double. -/
def Decoded.bits (d : Decoded) : Nat :=
  (if d.negative then 2 ^ 63 else 0) + (d.exponent + 1074).toNat * 2 ^ 52 + d.mantissa

/-- The double that is decoded like this. -/
def Decoded.toFloat (d : Decoded) : Float := Float.ofBits (UInt64.ofNat d.bits)

theorem canonical_zero (negative : Bool) :
    Decoded.Canonical { negative, mantissa := 0, exponent := leastExponent } := by
  constructor <;> simp [leastExponent]

namespace Decoded.Canonical

variable (canonical : d.Canonical)

include canonical

theorem bits_lt : d.bits < 2 ^ 64 := by
  obtain ⟨mantissa, least, greatest, -⟩ := canonical
  rw [Decoded.bits]
  split <;> omega

/-- The field is the exponent, counted from the least one, and one more with a leading bit. -/
theorem field_bits :
    d.bits >>> 52 % 2048 = (d.exponent + 1074).toNat + if 2 ^ 52 ≤ d.mantissa then 1 else 0 := by
  obtain ⟨mantissa, least, greatest, -⟩ := canonical
  rw [Decoded.bits, Nat.shiftRight_eq_div_pow]
  split <;> split <;> omega

theorem toNat_toBits_toFloat : d.toFloat.toBits.toNat = d.bits := by
  have small : (UInt64.ofNat d.bits).toNat = d.bits := UInt64.toNat_ofNat_of_lt' canonical.bits_lt
  have field := canonical.field_bits
  have least := canonical.least_le
  have greatest := canonical.exponent_le
  rw [Decoded.toFloat, toBits_ofBits, small]
  rw [small, field]
  split <;> omega

theorem isFinite_toFloat : d.toFloat.isFinite = true := by
  have field := canonical.field_bits
  have least := canonical.least_le
  have greatest := canonical.exponent_le
  apply isFinite_of_field_ne
  rw [canonical.toNat_toBits_toFloat, field]
  split <;> omega

theorem decode_toFloat : decode d.toFloat = d := by
  have word := canonical.toNat_toBits_toFloat
  have field := canonical.field_bits
  obtain ⟨mantissa, least, greatest, normal⟩ := canonical
  have sign : (d.bits >>> 63 == 1) = d.negative := by
    rw [Decoded.bits, Nat.shiftRight_eq_div_pow]
    cases d.negative <;> simp <;> omega
  have stored : d.bits % 2 ^ 52 = d.mantissa % 2 ^ 52 := by
    rw [Decoded.bits]
    split <;> omega
  rw [← word] at field
  by_cases small : d.mantissa < 2 ^ 52
  · rw [if_neg (by omega)] at field
    rw [decode_of_field_eq (by omega), word, sign, stored, Nat.mod_eq_of_lt small,
      show -1074 = d.exponent by omega]
  · rw [if_pos (by omega)] at field
    rw [decode_of_field_ne (by omega), field, word, sign, stored,
      show 2 ^ 52 + d.mantissa % 2 ^ 52 = d.mantissa by omega,
      show (((d.exponent + 1074).toNat + 1 : Nat) : Int) - 1075 = d.exponent by omega]

theorem value_toFloat : Binary.value d.toFloat = d.value := by
  rw [Binary.value, canonical.decode_toFloat]

/-- Packing the unpacked form of a canonical double gives this double. -/
theorem pack_unpacked : Float.Model.pack d.unpacked = d.toFloat.toModel := by
  have unpacked := unpack_toModel canonical.isFinite_toFloat
  rw [canonical.decode_toFloat] at unpacked
  rw [← unpacked, pack_unpack]

end Decoded.Canonical

end SeriesCalculator.Binary
