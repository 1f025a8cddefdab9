import SeriesCalculator.Binary.Basic
import SeriesCalculator.Decimal.Basic

/-!
# The shortest decimal number that reads back

Every real number between the midpoints to a double's two neighbours reads back as that double; the
midpoints do too when its mantissa is even. Among the decimal numbers of that interval the ones with
the fewest digits lie on the coarsest grid `10 ^ k` that meets it, and of those on the grid only the
two next to the double can be the nearest. The search goes from a grid that is too coarse to finer
ones and takes the first hit; of two hits the nearer, and the larger of two equally near ones.
-/

namespace SeriesCalculator.Decimal

open Binary (Decoded)

/-- The numbers that read back as one double: from `low` to `high` around `value`, all of them over
the denominator `scale`. The ends belong to it when `closed` holds. -/
structure Neighbourhood where
  low : Nat
  value : Nat
  high : Nat
  scale : Nat
  closed : Bool

/-- The neighbourhood of a positive double, in quarters of its last place. Below a power of two the
next double is half as far away, unless both have the least exponent. -/
def Neighbourhood.ofDecoded (d : Decoded) : Neighbourhood :=
  let below := if d.mantissa = Binary.leadingBit ∧ Binary.leastExponent < d.exponent then 1 else 2
  let up := (d.exponent - 2).toNat
  { low := (4 * d.mantissa - below) <<< up
    value := (4 * d.mantissa) <<< up
    high := (4 * d.mantissa + 2) <<< up
    scale := 1 <<< (2 - d.exponent).toNat
    closed := d.mantissa % 2 == 0 }

namespace Neighbourhood

/-- Tells whether `a` is below `b`, or equal to it where the ends belong to the neighbourhood. -/
def within (n : Neighbourhood) (a b : Nat) : Bool :=
  if n.closed then a ≤ b else a < b

/-- The multiple of `10 ^ k` in the neighbourhood that is nearest to its value, if there is one, as a
multiple. -/
def nearestOnGrid? (n : Neighbourhood) (k : Int) : Option Nat :=
  let lift := powerOfTen (-k).toNat
  let step := n.scale * powerOfTen k.toNat
  let below := n.value * lift / step
  let beyond := n.value * lift % step
  let down := n.within (n.low * lift) (below * step)
  let up := n.within ((below + 1) * step) (n.high * lift)
  if up && (!down || step ≤ 2 * beyond) then some (below + 1)
  else if down then some below
  else none

/-- The first hit on the grids `10 ^ k`, `10 ^ (k - 1)` and so on. The count bounds the number of
grids; at its end the value is cut off to the grid that is reached. -/
def coarsest (n : Neighbourhood) : Nat → Int → Decimal
  | 0, k => { digits := n.value * powerOfTen (-k).toNat / (n.scale * powerOfTen k.toNat), exponent := k }
  | grids + 1, k =>
    match n.nearestOnGrid? k with
    | some digits => { digits, exponent := k }
    | none => n.coarsest grids (k - 1)

end Neighbourhood

/-- A power of ten above the double. It exceeds `2 ^ order` for the double's binary order plus one by
less than a factor of twenty, because `0.30103` is the decimal logarithm of two. -/
def gridAbove (d : Decoded) : Int :=
  (d.mantissa.log2 + d.exponent + 1) * 30103 / 100000 + 1

/-- The grids that are tried. Nineteen decimal places always separate neighbouring doubles. -/
def gridCount : Nat := 20

/-- The shortest decimal number that reads back as the magnitude of a double. -/
def shortest (d : Decoded) : Decimal :=
  if d.mantissa = 0 then { digits := 0, exponent := 0 }
  else (Neighbourhood.ofDecoded d).coarsest gridCount (gridAbove d)

end SeriesCalculator.Decimal
