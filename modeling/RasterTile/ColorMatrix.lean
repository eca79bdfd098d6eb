import RasterTile.Scalar

/-!
# Brightness, contrast and saturation

The three settings make one affine matrix. Pixels are row vectors `[r, g, b, 1]` to the left of
the matrix, so a row holds what its component contributes to each output. Saturation is applied
first, then the contrast offset, then the brightness factor. Nothing is clamped here.
-/
namespace RasterTile

structure Row (α : Type) where
  red : α
  green : α
  blue : α
  one : α
  deriving DecidableEq, Repr

structure ColorMatrix (α : Type) where
  red : Row α
  green : Row α
  blue : Row α
  one : Row α
  deriving DecidableEq, Repr

/-- One is the identity for brightness and saturation, zero for contrast. Saturation zero leaves
luminance only. -/
structure ColorSettings (α : Type) where
  brightness : α
  contrast : α
  saturation : α
  deriving DecidableEq, Repr

namespace Row

variable [Scalar α]

def times (v : Row α) (m : ColorMatrix α) : Row α where
  red := v.red * m.red.red + v.green * m.green.red + v.blue * m.blue.red + v.one * m.one.red
  green := v.red * m.red.green + v.green * m.green.green + v.blue * m.blue.green + v.one * m.one.green
  blue := v.red * m.red.blue + v.green * m.green.blue + v.blue * m.blue.blue + v.one * m.one.blue
  one := v.red * m.red.one + v.green * m.green.one + v.blue * m.blue.one + v.one * m.one.one

def toList (v : Row α) : List α := [v.red, v.green, v.blue, v.one]

end Row

namespace ColorMatrix

variable [Scalar α]

def mul (m n : ColorMatrix α) : ColorMatrix α :=
  ⟨m.red.times n, m.green.times n, m.blue.times n, m.one.times n⟩

def identity : ColorMatrix α :=
  let i : α := Scalar.nat 1
  ⟨⟨i, 0, 0, 0⟩, ⟨0, i, 0, 0⟩, ⟨0, 0, i, 0⟩, ⟨0, 0, 0, i⟩⟩

/-- Multiplies every channel. -/
def brightness (b : α) : ColorMatrix α :=
  ⟨⟨b, 0, 0, 0⟩, ⟨0, b, 0, 0⟩, ⟨0, 0, b, 0⟩, ⟨0, 0, 0, Scalar.nat 1⟩⟩

/-- Adds to every channel. -/
def contrast (c : α) : ColorMatrix α :=
  let i : α := Scalar.nat 1
  ⟨⟨i, 0, 0, 0⟩, ⟨0, i, 0, 0⟩, ⟨0, 0, i, 0⟩, ⟨c, c, c, i⟩⟩

def redWeight : α := Scalar.decimal 3086 4
def greenWeight : α := Scalar.decimal 6094 4
def blueWeight : α := Scalar.decimal 82 3

/-- Blends every channel with the luminance. -/
def saturation (s : α) : ColorMatrix α :=
  let rest : α := Scalar.nat 1 - s
  let r := rest * redWeight
  let g := rest * greenWeight
  let b := rest * blueWeight
  ⟨⟨r + s, r, r, 0⟩, ⟨g, g + s, g, 0⟩, ⟨b, b, b + s, 0⟩, ⟨0, 0, 0, Scalar.nat 1⟩⟩

def ofSettings (c : ColorSettings α) : ColorMatrix α :=
  ((saturation c.saturation).mul (contrast c.contrast)).mul (brightness c.brightness)

/-- Transforms slots 0 to 2 of a pixel that has them. -/
def apply (m : ColorMatrix α) : List α → List α
  | r :: g :: b :: rest =>
    (r * m.red.red + g * m.green.red + b * m.blue.red + m.one.red) ::
    (r * m.red.green + g * m.green.green + b * m.blue.green + m.one.green) ::
    (r * m.red.blue + g * m.green.blue + b * m.blue.blue + m.one.blue) :: rest
  | short => short

def toLists (m : ColorMatrix α) : List (List α) := [m.red, m.green, m.blue, m.one].map Row.toList

end ColorMatrix

def ColorSettings.neutral [Scalar α] : ColorSettings α := ⟨Scalar.nat 1, 0, Scalar.nat 1⟩

end RasterTile
