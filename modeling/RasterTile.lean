import RasterTile.FileTree
import RasterTile.Main
import RasterTile.Proofs.ArrayFile.Acceptance
import RasterTile.Proofs.BandOrder
import RasterTile.Proofs.Batch.SingleFile
import RasterTile.Proofs.ColorMatrix
import RasterTile.Proofs.Histogram.Counting
import RasterTile.Proofs.Histogram.Merging
import RasterTile.Proofs.Histogram.Validity
import RasterTile.Proofs.Histogram.Viewport
import RasterTile.Proofs.Parameters
import RasterTile.Proofs.Picture.Surface
import RasterTile.Proofs.Program.Diagnosis
import RasterTile.Proofs.Program.Extension
import RasterTile.Proofs.Program.Scanning
import RasterTile.Proofs.RenderParams.RoundTrip
import RasterTile.Proofs.Stretch.Alignment
import RasterTile.Proofs.Stretch.Display
import RasterTile.Proofs.Stretch.Resolution
import RasterTile.Proofs.Stretch.Window
import RasterTile.Proofs.Style.InPlace
import RasterTile.Proofs.Style.Rearrangement
import RasterTile.Proofs.Style.Safety
import RasterTile.Proofs.Tile.ValidityBand
