import SeriesCalculator.Proofs.Binary.Value

/-!
# Signs of products and quotients

Zeros and infinities have a sign as numbers do. Packing keeps it (`negative_ofModel_pack`), so a
product or a quotient is negative just if one of its two parts is, as long as it has a sign at all
(`negative_mul`, `negative_div`).
-/

namespace SeriesCalculator.Binary

open Float.Model Float.Model.UnpackedFloat

variable {x y : Float}

theorem mul_eq_pack (x y : Float) :
    x * y = .ofModel (.pack (mul .binary64 x.toModel.unpack y.toModel.unpack)) := rfl

theorem div_eq_pack (x y : Float) :
    x / y = .ofModel (.pack (div .binary64 x.toModel.unpack y.toModel.unpack)) := rfl

theorem neg_eq_pack (x : Float) : -x = .ofModel (.pack (neg x.toModel.unpack)) := rfl

theorem eq_pack (x : Float) : x = .ofModel (.pack x.toModel.unpack) := by
  rw [pack_unpack]

theorem eq_of_unpack_eq (same : x.toModel.unpack = y.toModel.unpack) : x = y := by
  rw [eq_pack x, same, ← eq_pack]

/-- Tells whether an unpacked double has a sign in front. What is not a number has none. -/
def isNegative : UnpackedFloat → Bool
  | .notANumber => false
  | .infinity s | .zero s | .finite s _ _ _ => s == .negative

theorem unpackSign_packComponents {spec : Format} {s : Sign} {e : BitVec spec.exponentBits}
    {m : BitVec spec.mantissaBitsWithoutImplicit} :
    unpackSign (packComponents spec s e m) = s.toBitVec := by
  ext i hi
  obtain rfl : i = 0 := by omega
  simp [unpackSign, packComponents, BitVec.getLsbD_append, BitVec.getElem_append]

theorem negative_of_packComponents {s : Sign} {e : BitVec 11} {m : BitVec 52}
    (bits : x.toBits.toBitVec = packComponents .binary64 s e m) :
    (decode x).negative = (s == .negative) := by
  have sign := ofBitVec_unpackSign x.toBits
  rw [bits, unpackSign_packComponents, ← negative_decode] at sign
  cases s <;> cases negative : (decode x).negative <;> simp_all [Sign.toBitVec, Sign.ofBitVec]

theorem negative_ofModel_pack (u : UnpackedFloat) :
    (decode (.ofModel (.pack u))).negative = isNegative u := by
  cases u with
  | notANumber => exact negative_of_packComponents (s := .positive) rfl
  | infinity s => exact negative_of_packComponents rfl
  | zero s => exact negative_of_packComponents rfl
  | finite s m e pos =>
      have bits : (Float.ofModel (.pack (.finite s m e pos))).toBits.toBitVec =
        UnpackedFloat.pack .binary64 (.finite s m e pos) := rfl
      rw [UnpackedFloat.pack] at bits
      dsimp only at bits
      split at bits
      · exact negative_of_packComponents bits
      · split at bits
        · exact negative_of_packComponents bits
        · exact negative_of_packComponents bits

theorem isNaN_ofModel_pack (u : UnpackedFloat) :
    (Float.ofModel (.pack u)).isNaN = u.isNaN := by
  have number {e : BitVec 11} {m : BitVec 52} {s : Sign} (field : e ≠ -1#11 ∨ m = 0#52) :
      (UnpackedFloat.unpack .binary64 (packComponents .binary64 s e m)).isNaN = false := by
    simp only [UnpackedFloat.unpack, unpackExponent_packComponents, unpackMantissa_packComponents]
    split_ifs <;> simp_all [UnpackedFloat.isNaN]
  change (UnpackedFloat.unpack .binary64 (UnpackedFloat.pack .binary64 u)).isNaN = _
  cases u with
  | notANumber => decide +kernel
  | infinity s => exact number (.inr rfl)
  | zero s => exact number (.inr rfl)
  | finite s m e pos =>
      rw [UnpackedFloat.pack]
      dsimp only
      split_ifs with large normal
      · exact number (.inr rfl)
      · refine number (.inl fun full => ?_)
        have field := congrArg BitVec.toNat full
        simp only [BitVec.toNat_ofNat, Nat.cast_ofNat] at field large
        change _ = 2047 at field
        omega
      · exact number (.inl (by decide))

/-- Zeros, infinities and what is not a number: what has no mantissa. -/
def isBare : UnpackedFloat → Bool
  | .finite .. => false
  | _ => true

theorem unpack_pack_of_isBare {u : UnpackedFloat} (bare : isBare u = true) :
    (Float.Model.pack u).unpack = u := by
  cases u with
  | notANumber => rfl
  | infinity s => cases s <;> rfl
  | zero s => cases s <;> rfl
  | finite s m e pos => cases bare

theorem isBare_neg (u : UnpackedFloat) : isBare (neg u) = isBare u := by
  cases u <;> rfl

/-- The double with the other sign. -/
def Decoded.opposite (d : Decoded) : Decoded := { d with negative := !d.negative }

theorem Decoded.Canonical.opposite {d : Decoded} (canonical : d.Canonical) :
    d.opposite.Canonical :=
  ⟨canonical.mantissa_lt, canonical.least_le, canonical.exponent_le, canonical.normal⟩

theorem Decoded.neg_unpacked (d : Decoded) : neg d.unpacked = d.opposite.unpacked := by
  have sign : -signOf d.negative = signOf !d.negative := by cases d.negative <;> rfl
  simp only [Decoded.unpacked, Decoded.opposite, ← sign]
  split <;> rfl

theorem neg_eq_toFloat (finite : x.isFinite = true) : -x = (decode x).opposite.toFloat := by
  rw [neg_eq_pack, unpack_toModel finite, Decoded.neg_unpacked,
    (canonical_decode finite).opposite.pack_unpacked]

theorem isFinite_neg (finite : x.isFinite = true) : (-x).isFinite = true := by
  rw [neg_eq_toFloat finite]
  exact (canonical_decode finite).opposite.isFinite_toFloat

theorem decode_neg (finite : x.isFinite = true) : decode (-x) = (decode x).opposite := by
  rw [neg_eq_toFloat finite, (canonical_decode finite).opposite.decode_toFloat]

theorem value_neg (finite : x.isFinite = true) : value (-x) = -value x := by
  rw [value, value, decode_neg finite, Decoded.value, Decoded.value, Decoded.opposite]
  cases negative : (decode x).negative <;> simp [Decoded.signed, negative]

theorem unpack_neg (x : Float) : (-x).toModel.unpack = neg x.toModel.unpack := by
  cases finite : x.isFinite with
  | true =>
      rw [unpack_toModel (isFinite_neg finite), decode_neg finite, unpack_toModel finite,
        Decoded.neg_unpacked]
  | false =>
      change x.toModel.unpack.isFinite = false at finite
      apply unpack_pack_of_isBare
      cases unpacked : x.toModel.unpack with
      | finite s m e pos => simp [unpacked, UnpackedFloat.isFinite] at finite
      | _ => rfl

theorem float_neg_neg (x : Float) : - -x = x := by
  apply eq_of_unpack_eq
  rw [unpack_neg, unpack_neg]
  cases x.toModel.unpack with
  | notANumber => rfl
  | infinity s => cases s <;> rfl
  | zero s => cases s <;> rfl
  | finite s m e pos => cases s <;> rfl

/-- A finite double taken from itself leaves positive zero. -/
theorem float_sub_self (finite : x.isFinite = true) : x - x = 0.0 := by
  have unpacked : sub .binary64 x.toModel.unpack x.toModel.unpack = .zero .positive := by
    change x.toModel.unpack.isFinite = true at finite
    generalize x.toModel.unpack = u at finite
    cases u with
    | notANumber => cases finite
    | infinity s => cases finite
    | zero s => cases s <;> rfl
    | finite s m e pos =>
        simp only [UnpackedFloat.sub, Int.sub_self, UnpackedFloat.normalize]
        rfl
  change Float.ofModel (.pack (sub .binary64 x.toModel.unpack x.toModel.unpack)) = _
  rw [unpacked]
  rfl

theorem isNegative_roundWithAccuracy (s : Sign) (m : Nat) (e : Int) (accuracy : Accuracy) :
    isNegative (roundWithAccuracy .binary64 s m e accuracy) = (s == .negative) := by
  rw [roundWithAccuracy]
  dsimp only
  split <;> rfl

theorem isNaN_roundWithAccuracy (s : Sign) (m : Nat) (e : Int) (accuracy : Accuracy) :
    (roundWithAccuracy .binary64 s m e accuracy).isNaN = false := by
  rw [roundWithAccuracy]
  dsimp only
  split <;> rfl

theorem beq_negative_mul (s t : Sign) :
    (s * t == .negative) = ((s == .negative) != (t == .negative)) := by
  cases s <;> cases t <;> rfl

theorem isNegative_mul : ∀ {u v : UnpackedFloat}, (mul .binary64 u v).isNaN = false →
    isNegative (mul .binary64 u v) = (isNegative u != isNegative v)
  | .infinity s, .infinity t, _
  | .infinity s, .finite t .., _
  | .finite s .., .infinity t, _
  | .zero s, .zero t, _
  | .zero s, .finite t .., _
  | .finite s .., .zero t, _ => beq_negative_mul s t
  | .finite s .., .finite t .., _ =>
    (isNegative_roundWithAccuracy _ _ _ _).trans (beq_negative_mul s t)

theorem beq_negative_div (s t : Sign) :
    (s / t == .negative) = ((s == .negative) != (t == .negative)) := by
  cases s <;> cases t <;> rfl

theorem isNegative_div : ∀ {u v : UnpackedFloat}, (div .binary64 u v).isNaN = false →
    isNegative (div .binary64 u v) = (isNegative u != isNegative v)
  | .infinity s, .zero t, _
  | .infinity s, .finite t .., _
  | .finite s .., .infinity t, _
  | .zero s, .infinity t, _
  | .zero s, .finite t .., _
  | .finite s .., .zero t, _ => beq_negative_div s t
  | .finite s .., .finite t .., _ =>
    (isNegative_roundWithAccuracy _ _ _ _).trans (beq_negative_div s t)

/-- A factor that is neither zero nor infinite makes no product meaningless. -/
theorem isNaN_mul_of_finite {s : Sign} {m : Nat} {e : Int} {pos : 0 < m}
    (factor : y.toModel.unpack = .finite s m e pos) : (x * y).isNaN = x.isNaN := by
  rw [mul_eq_pack, isNaN_ofModel_pack, factor]
  change _ = x.toModel.unpack.isNaN
  cases x.toModel.unpack with
  | finite t n f pos => exact isNaN_roundWithAccuracy _ _ _ _
  | _ => rfl

/-- A numerator that is neither zero nor infinite makes no quotient meaningless. -/
theorem isNaN_div_of_finite {s : Sign} {m : Nat} {e : Int} {pos : 0 < m}
    (numerator : x.toModel.unpack = .finite s m e pos) : (x / y).isNaN = y.isNaN := by
  rw [div_eq_pack, isNaN_ofModel_pack, numerator]
  change _ = y.toModel.unpack.isNaN
  cases y.toModel.unpack with
  | finite t n f pos => exact isNaN_roundWithAccuracy _ _ _ _
  | _ => rfl

theorem isNegative_unpack (x : Float) : isNegative x.toModel.unpack = (decode x).negative := by
  rw [← negative_ofModel_pack, ← eq_pack]

theorem negative_mul (number : (x * y).isNaN = false) :
    (decode (x * y)).negative = ((decode x).negative != (decode y).negative) := by
  rw [mul_eq_pack, isNaN_ofModel_pack] at number
  rw [mul_eq_pack, negative_ofModel_pack, isNegative_mul number, isNegative_unpack,
    isNegative_unpack]

theorem negative_div (number : (x / y).isNaN = false) :
    (decode (x / y)).negative = ((decode x).negative != (decode y).negative) := by
  rw [div_eq_pack, isNaN_ofModel_pack] at number
  rw [div_eq_pack, negative_ofModel_pack, isNegative_div number, isNegative_unpack,
    isNegative_unpack]

end SeriesCalculator.Binary
