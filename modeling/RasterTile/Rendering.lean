import RasterTile.FileAccess
import RasterTile.RenderParams
import RasterTile.Viewport

/-!
# Rendering one file

An array file becomes a picture file. What is wrong with the tile, the style or the extents shows
before the output is touched; that a picture has no pixels shows only after the output was created.
-/
namespace RasterTile

namespace RenderParams

/-- The picture of an array file, whose path a message may name. -/
def picture (params : RenderParams) (path : RawText) (bytes : List UInt8) : Except Error Picture := do
  let tile ← Tile.decode bytes params.bands
  if tile.isBlank then throw (.emptyTile path.text)
  let style ← params.style.stretched [tile] params.stretch
  tile.render style

end RenderParams

variable {m : Type → Type} [Monad m] [FileAccess m]

def Picture.save (p : Picture) (path : RawText) : ExceptT Error m Unit := do
  p.checkBytes
  FileAccess.ensure .fileAccess (FileAccess.create path)
  FileAccess.ensure .pictureEncoding
    (if p.isEncodable then FileAccess.put path p else pure false)

def RenderParams.renderFile (params : RenderParams) (input output : RawText) :
    ExceptT Error m Unit := do
  let bytes ← FileAccess.demand .fileAccess (FileAccess.read input)
  (← params.picture input bytes).save output

end RasterTile
