import RasterTile.Stretch
import RasterTile.Style

/-!
# Rendering parameters
-/
namespace RasterTile

structure RenderParams where
  bands : BandOrder
  style : StyleSource
  stretch : Option StretchSettings
  deriving DecidableEq, Repr

def RenderParams.default : RenderParams := ⟨.rgba, .default, none⟩

end RasterTile
