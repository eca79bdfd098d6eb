import RasterTile.Style.LookupTable
import RasterTile.Style.Preset
import RasterTile.Style.Program

/-!
# Styles

A style description says what is wanted: a preset with options, the source of a program, or a
lookup table. Building it for a band map checks whatever can be checked without a pixel and gives
a style, which turns the band values of one pixel into colours.
-/
namespace RasterTile

/-- What a style is made from. Ranges may be left empty, to be filled in from a histogram. -/
inductive StyleSource where
  | preset (preset : Preset) (options : PresetOptions Float)
  | program (source : String) (ranges : List BandRange)
  | table (table : LookupTable) (ranges : List BandRange)
  deriving DecidableEq, Repr

inductive Style where
  | preset (style : ConfiguredPreset Float)
  | program (style : Program)
  | table (style : LookupTable.Bound)
  deriving Repr

namespace Preset

def named (name : String) : Except Error Preset :=
  match ofName? name with
  | some preset => .ok preset
  | none => .error (.unknownPreset name)

def configure (preset : Preset) (options : PresetOptions Float) :
    Except Error (ConfiguredPreset Float) :=
  match ConfiguredPreset.configure? preset options with
  | some style => .ok style
  | none => .error (.pixelDepth options.pixelDepth)

end Preset

namespace StyleSource

def default : StyleSource := .preset .rgb .default

def build (bands : BandMap) : StyleSource → Except Error Style
  | .preset p options => (p.configure options).map .preset
  | .program text ranges =>
    match Program.compile text ranges bands with
    | .ok compiled => .ok (.program compiled)
    | .error e => .error (.program e)
  | .table t ranges => (t.bind ranges bands).map .table

end StyleSource

namespace Style

/-- The pixel after the style. Only presets look at the band map again. -/
def apply (bands : BandMap) (pixel : List Float) : Style → List Float
  | .preset style => style.apply bands pixel
  | .program style => style.apply pixel
  | .table style => style.apply pixel

end Style
end RasterTile
