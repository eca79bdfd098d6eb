import RasterTile.Band
import RasterTile.ColorMatrix
import RasterTile.Curve

/-!
# Presets

The built-in styles. Each reads the validity band and writes alpha from it: opaque, or half opaque
for `pending`, when the band is neither zero nor a NaN, and transparent otherwise. A configured
preset then applies its curves, scales slots 0 to 2 to the 8-bit range, and applies its colour
matrix; alpha is the preset's alone.
-/
namespace RasterTile

inductive Preset where
  | rgb | gray | pending | onlyRed | value
  deriving DecidableEq, Repr

namespace Preset

def all : List Preset := [.rgb, .gray, .pending, .onlyRed, .value]

def name : Preset → String
  | .rgb => "rgb"
  | .gray => "gray"
  | .pending => "pending"
  | .onlyRed => "onlyRed"
  | .value => "value"

def ofName? (text : String) : Option Preset := all.find? fun p => p.name == text

@[simp] theorem ofName?_name (p : Preset) : ofName? p.name = some p := by cases p <;> rfl

variable [Scalar α]

def color (p : Preset) (bands : BandMap) (pixel : List α) (x y z : α) : α × α × α :=
  match p with
  | .rgb => (bands.value pixel .red, bands.value pixel .green, bands.value pixel .blue)
  | .gray =>
    let mean := (x + y + z) / Scalar.nat 3
    (mean, mean, mean)
  | .pending =>
    let tint := Scalar.decimal 3 1 * x + Scalar.decimal 6 1 * y + Scalar.decimal 1 1 * z
    let v := Scalar.atMost (tint + Scalar.nat 100) (Scalar.nat 255)
    (v, v, v)
  | .onlyRed => (bands.value pixel .red, 0, 0)
  | .value => (x, x, x)

def opaqueAlpha : Preset → Nat
  | .pending => 128
  | _ => 255

def isValid (bands : BandMap) (pixel : List α) : Bool := Scalar.isNonzero (bands.value pixel .alpha)

/-- A pixel of fewer than four slots is left alone. -/
def apply (p : Preset) (bands : BandMap) : List α → List α
  | x :: y :: z :: a :: rest =>
    let pixel := x :: y :: z :: a :: rest
    let (r, g, b) := p.color bands pixel x y z
    r :: g :: b :: Scalar.nat (if isValid bands pixel then p.opaqueAlpha else 0) :: rest
  | short => short

end Preset

structure PresetOptions (α : Type) where
  /-- The number of raw values that a band tells apart. -/
  pixelDepth : Nat
  /-- Stretch curves for slots 0 to 2. -/
  curves : Option (List (Curve α))
  /-- The band order that letters are looked up in, instead of the tile's own. -/
  readBands : Option BandOrder
  color : Option (ColorSettings α)
  deriving DecidableEq, Repr

def defaultDepth : Nat := 256

def PresetOptions.default : PresetOptions α := ⟨defaultDepth, none, none, none⟩

structure ConfiguredPreset (α : Type) where
  preset : Preset
  readBands : Option BandMap
  curves : Option (CurveSet α)
  scale : α
  color : Option (ColorMatrix α)
  deriving Repr

namespace ConfiguredPreset

variable [Scalar α]

/-- A pixel depth of at least two leaves something to scale. -/
def configure? (preset : Preset) (options : PresetOptions α) : Option (ConfiguredPreset α) :=
  if options.pixelDepth < 2 then none
  else some {
    preset
    readBands := options.readBands.map BandOrder.map
    curves := options.curves.map fun curves => .ofDepth curves options.pixelDepth
    scale := Scalar.nat 255 / Scalar.nat (options.pixelDepth - 1)
    color := options.color.map .ofSettings }

def rescale (factor : α) (pixel : List α) : List α :=
  Pixel.overwrite pixel ((pixel.take 3).map fun x => some (x * factor))

def apply (c : ConfiguredPreset α) (bands : BandMap) (pixel : List α) : List α :=
  let painted := c.preset.apply (c.readBands.getD bands) pixel
  let stretched := c.curves.elim painted (·.apply painted)
  let scaled := rescale c.scale stretched
  c.color.elim scaled (·.apply scaled)

end ConfiguredPreset
end RasterTile
