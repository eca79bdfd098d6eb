/-!
# The shortest decimal of a double

A finite positive double is `mantissa · 2 ^ exponent`. The reals that round to it form an
interval around it, whose ends belong to it when the mantissa is even. The shortest decimal is
the first hit in that interval on the grids of one, two, up to seventeen significant digits; of
two hits on one grid the nearer is taken, and of two equally near ones the larger. Everything is
exact arithmetic on natural numbers.
-/
namespace RasterTile

/-- `digits · 10 ^ exponent`. -/
structure Decimal where
  digits : Nat
  exponent : Int
  deriving DecidableEq, Repr

namespace Decimal

/-- A positive finite double. It is the `least` of its binade when the double below it is only
half as far away as the one above. -/
structure Dyadic where
  mantissa : Nat
  exponent : Int
  least : Bool
  deriving DecidableEq, Repr

def Dyadic.ofBits (bits : UInt64) : Dyadic :=
  let fraction : Nat := bits.toNat % Nat.pow 2 52
  let field : Nat := bits.toNat / Nat.pow 2 52 % Nat.pow 2 11
  if field = 0 then ⟨fraction, -1074, false⟩
  else ⟨Nat.pow 2 52 + fraction, (field : Int) - 1075, fraction == 0 && 1 < field⟩

/-- The number of decimal digits of a natural number; one for zero. -/
def digitCount (n : Nat) : Nat := (Nat.toDigits 10 n).length

/-- The exponent of the leading decimal digit of `num / den`, for a positive fraction. -/
def leadingExponent (num den : Nat) : Int :=
  if den ≤ num then (digitCount (num / den) : Int) - 1
  else -(digitCount ((den - 1) / num) : Int)

/-- The fraction `4 · mantissa · 2 ^ (exponent - 2)` in units of `10 ^ place`: quarters of the
last binary place times the first factor are compared with units times the second. -/
def unitFactors (x : Dyadic) (place : Int) : Nat × Nat :=
  let twos := x.exponent - 2
  (Nat.pow 2 twos.toNat * Nat.pow 10 (-place).toNat,
    Nat.pow 10 place.toNat * Nat.pow 2 (-twos).toNat)

/-- Whether the scaled point lies in the interval of reals that round to `x`. -/
def Dyadic.covers (x : Dyadic) (quarter scaled : Nat) : Bool :=
  let low := (4 * x.mantissa - if x.least then 1 else 2) * quarter
  let high := (4 * x.mantissa + 2) * quarter
  if x.mantissa % 2 = 0 then low ≤ scaled && scaled ≤ high else low < scaled && scaled < high

/-- The neighbour of `x` on the grid of `10 ^ place` that rounds to `x`, if one does. -/
def Dyadic.onGrid (x : Dyadic) (place : Int) : Option Decimal :=
  let (quarter, unit) := unitFactors x place
  let exact := 4 * x.mantissa * quarter
  let below := exact / unit
  let above := below + 1
  match x.covers quarter (below * unit), x.covers quarter (above * unit) with
  | true, true =>
    if exact - below * unit < above * unit - exact then some ⟨below, place⟩ else some ⟨above, place⟩
  | true, false => some ⟨below, place⟩
  | false, true => some ⟨above, place⟩
  | false, false => none

/-- The shortest decimal that rounds to `x`. Seventeen digits always suffice. -/
def shortest (x : Dyadic) : Decimal :=
  let lead :=
    leadingExponent (x.mantissa * Nat.pow 2 x.exponent.toNat) (Nat.pow 2 (-x.exponent).toNat)
  ((List.range 17).findSome? fun (more : Nat) => x.onGrid (lead - more)).getD ⟨x.mantissa, 0⟩

end Decimal
end RasterTile
