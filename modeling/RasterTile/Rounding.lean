/-!
# Rounding

Two roundings of doubles: down to a whole number, and to the nearest single-precision number. The
latter works on bit patterns. Without its sign, a pattern is a natural number that grows with the
number it stands for, and its magnitude is that number in units of the smallest one of the format,
so that everything is arithmetic on natural numbers.
-/
namespace RasterTile.Rounding

/-- From here on every double is whole. -/
def wholeFrom : Float := 9007199254740992

/-- The largest whole number that is not above `x`; a NaN stays one. -/
def down (x : Float) : Float :=
  if 0 < x then if x < wholeFrom then x.toUInt64.toFloat else x
  else if x < 0 ∧ -wholeFrom < x then
    let w := (-x).toUInt64.toFloat
    if w == -x then x else -(w + 1)
  else x

/-- The quotient of `n` by `2 ^ k` to the nearest whole number, a half going to the even one. -/
def halfEven (n k : Nat) : Nat :=
  let quotient := n / Nat.pow 2 k
  let rest := n % Nat.pow 2 k
  if 2 * rest < Nat.pow 2 k ∨ 2 * rest = Nat.pow 2 k ∧ quotient % 2 = 0 then quotient
  else quotient + 1

def magnitude (width pattern : Nat) : Nat :=
  let fraction := pattern % Nat.pow 2 width
  match pattern / Nat.pow 2 width with
  | 0 => fraction
  | exponent + 1 => (Nat.pow 2 width + fraction) * Nat.pow 2 exponent

/-- The pattern with `width` fraction bits that is nearest to a magnitude given in units
`2 ^ scale` times as fine. -/
def pattern (width scale magnitude : Nat) : Nat :=
  let exponent := magnitude.log2 - width - scale
  exponent * Nat.pow 2 width + halfEven magnitude (exponent + scale)

/-- The smallest single is `2 ^ 925` times the smallest double. -/
def singleScale : Nat := 925

/-- The pattern of a double for the pattern of a single, both without sign. The largest exponent
stands for infinity and the NaNs, and is the largest again. -/
def widenPattern (p : Nat) : Nat :=
  if p / Nat.pow 2 23 = Nat.pow 2 8 - 1 then
    (Nat.pow 2 11 - 1) * Nat.pow 2 52 + p % Nat.pow 2 23 * Nat.pow 2 29
  else pattern 52 0 (magnitude 23 p * Nat.pow 2 singleScale)

def signed (negative : Bool) (p : Nat) : Float :=
  Float.ofBits (UInt64.ofNat (if negative then Nat.pow 2 63 + p else p))

def ofSingle (bits : BitVec 32) : Float :=
  signed (Nat.pow 2 31 ≤ bits.toNat) (widenPattern (bits.toNat % Nat.pow 2 31))

def singleInfinity : Nat := (Nat.pow 2 8 - 1) * Nat.pow 2 23

/-- The single nearest to a magnitude in units `2 ^ scale` times as fine as the smallest single;
infinity if all are too small. -/
def nearestSingle (negative : Bool) (scale magnitude : Nat) : Float :=
  signed negative (widenPattern (min (pattern 23 scale magnitude) singleInfinity))

/-- The nearest single, as a double. A NaN stays one. -/
def single (x : Float) : Float :=
  if x.isNaN then x
  else
    nearestSingle (Nat.pow 2 63 ≤ x.toBits.toNat) singleScale
      (magnitude 52 (x.toBits.toNat % Nat.pow 2 63))

/-- The single nearest to a whole number, as a double. -/
def singleOfInt (n : Int) : Float := nearestSingle (n < 0) 0 (n.natAbs * Nat.pow 2 149)

end RasterTile.Rounding
