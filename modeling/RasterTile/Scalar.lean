import RasterTile.Rounding

/-!
# Scalars

Curves, presets and colour matrices compute with scalars. Tiles are rendered with doubles; the
same formulas can be read over exact fractions, where nothing is rounded.
-/
namespace RasterTile

class Scalar (α : Type) extends Zero α, Add α, Sub α, Mul α, Div α where
  nat : Nat → α
  /-- The constant `digits / 10 ^ places`. -/
  decimal (digits places : Nat) : α
  less : α → α → Bool
  /-- The whole part of a positive value, at most `2 ^ 64 - 1`. -/
  whole : α → Nat
  /-- The value as a curve stores it, rounded to single precision. -/
  single : α → α

namespace Scalar

instance : Scalar Float where
  nat := Float.ofNat
  decimal digits places := Float.ofScientific digits true places
  less x y := decide (x < y)
  whole x := x.toUInt64.toNat
  single := Rounding.single

variable [Scalar α]

/-- Neither zero nor, for doubles, a NaN. -/
def isNonzero (x : α) : Bool := less x 0 || less 0 x

/-- The smaller of the two; the bound when `x` is a NaN. -/
def atMost (x bound : α) : α := if less x bound then x else bound

/-- The index of a table entry: the whole part of a positive value, cut off at the last entry, and
the first entry otherwise. -/
def index (last : Nat) (x : α) : Nat := if less 0 x then min (whole x) last else 0

theorem index_le (last : Nat) (x : α) : index last x ≤ last := by
  unfold index; split <;> omega

end Scalar
end RasterTile
