/-!
# Doubles as exact binary numbers

A finite double is a sign, a whole mantissa and a binary exponent, all of them read off its sixty-four
bits. The other direction is the double nearest to a whole number: of two equally near ones the one
with an even mantissa, and infinity past the largest double. Both are stated in natural numbers, so
nothing about rounding is left to the machine.
-/

namespace SeriesCalculator.Binary

/-- The value `± mantissa * 2 ^ exponent` of a finite double. -/
structure Decoded where
  negative : Bool
  mantissa : Nat
  exponent : Int
  deriving DecidableEq

/-- The number of mantissa bits that are stored. -/
def storedBits : Nat := 52

/-- The exponent of a subnormal double, and of the smallest normal ones. -/
def leastExponent : Int := -1074

/-- The leading bit of a normal mantissa, which is not stored. -/
def leadingBit : Nat := 1 <<< storedBits

/-- The bits of positive infinity: the exponent field is full and the mantissa field is empty. -/
def infinityBits : Nat := 2047 <<< storedBits

/-- Reads sign, mantissa and exponent off the bits. An exponent field of zero marks a subnormal
double, whose leading mantissa bit is not implied. The answer means something for finite doubles only. -/
def decode (x : Float) : Decoded :=
  let bits := x.toBits.toNat
  let stored := bits % leadingBit
  let field := (bits >>> storedBits) % 2048
  let negative := bits >>> 63 == 1
  if field = 0 then
    { negative, mantissa := stored, exponent := leastExponent }
  else
    { negative, mantissa := leadingBit + stored, exponent := field - 1075 }

/-- The quotient `n / 2 ^ shift` rounded to a whole number, a tie to the even one. -/
def shiftToNearestEven (n shift : Nat) : Nat :=
  let quotient := n >>> shift
  let unit := 1 <<< shift
  let doubled := 2 * (n % unit)
  if unit < doubled ∨ (doubled = unit ∧ quotient % 2 = 1) then quotient + 1 else quotient

/-- The bits of the double nearest to `n`. When rounding carries the mantissa to the next power of
two, the sum moves the carry into the exponent field, which is the right double. -/
def bitsOfNat (n : Nat) : Nat :=
  if n = 0 then 0
  else
    let order := n.log2
    let mantissa :=
      if order ≤ storedBits then n <<< (storedBits - order)
      else shiftToNearestEven n (order - storedBits)
    min (((order + 1022) <<< storedBits) + mantissa) infinityBits

/-- The double nearest to a natural number. -/
def ofNat (n : Nat) : Float :=
  Float.ofBits (UInt64.ofNat (bitsOfNat n))

/-- The double nearest to an integer. -/
def ofInt : Int → Float
  | .ofNat n => ofNat n
  | .negSucc n => -ofNat (n + 1)

end SeriesCalculator.Binary
