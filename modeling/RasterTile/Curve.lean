import RasterTile.Pixel
import RasterTile.Scalar

/-!
# Curves

A curve lists an output between 0 and 1 for every raw value below a pixel depth. A curve set
stretches the first three slots of a pixel, one curve each, and scales the outputs back to raw
values.
-/
namespace RasterTile

structure Curve (α : Type) where
  values : Array α
  deriving DecidableEq, Repr

namespace Curve

variable [Scalar α]

/-- The output for a raw value; values off either end take the output of that end, a NaN that of
the first entry, and an empty curve has the output zero. -/
def lookup (c : Curve α) (x : α) : α := c.values[Scalar.index (c.values.size - 1) x]?.getD 0

/-- The levels of one raw value: `low` below the window, `high` above it, linear inside. A window
without width has no slope. -/
def level (windowLow windowHigh low high : α) (x : α) : α :=
  let span := windowHigh - windowLow
  let step := if Scalar.less 0 span then (high - low) / span else 0
  if Scalar.less x windowLow then low
  else if Scalar.less windowHigh x then high
  else low + step * (x - windowLow)

/-- The curve of a pixel depth that maps the window `input` onto `output / depth`. -/
def ofLevels (depth : Nat) (input output : UInt32 × UInt32) : Curve α :=
  let number (n : Nat) : α := Scalar.nat n
  let level := level (number input.1.toNat) (number input.2.toNat)
    (number output.1.toNat / number depth) (number output.2.toNat / number depth)
  ⟨Array.ofFn fun i : Fin depth => Scalar.single (level (number i))⟩

@[simp] theorem size_ofLevels (depth : Nat) (input output : UInt32 × UInt32) :
    (ofLevels depth input output : Curve α).values.size = depth := by
  simp [ofLevels]

end Curve

/-- Curves for slots 0 to 2, and the raw value that the output 1 stands for. -/
structure CurveSet (α : Type) where
  curves : List (Curve α)
  top : α
  deriving Repr

namespace CurveSet

variable [Scalar α]

/-- The curves of a pixel depth, whose largest raw value is one less. -/
def ofDepth (curves : List (Curve α)) (depth : Nat) : CurveSet α := ⟨curves, Scalar.nat (depth - 1)⟩

/-- A slot without a curve is left alone, and so is every slot from 3 on. -/
def apply (s : CurveSet α) (pixel : List α) : List α :=
  Pixel.overwrite pixel
    (List.zipWith (fun c x => some (c.lookup x * s.top)) (s.curves.take 3) pixel)

end CurveSet
end RasterTile
