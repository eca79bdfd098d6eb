import RasterTile.Picture
import RasterTile.Stretch

/-!
# Viewports

The tiles of a viewport share one stretch: their histograms are merged, and whatever a style
leaves open is filled in from the sum.
-/
namespace RasterTile

/-- The merged histogram of the tiles that are not blank, or nothing if all are. -/
def viewportHistogram (tiles : List Tile) (depth : Nat) : Except Error (Option Histogram) := do
  let single (t : Tile) : Except Error Histogram := Histogram.ofTile t depth t.bands none
  match tiles.filter (!·.isBlank) with
  | [] => return none
  | t :: ts =>
    let first ← single t
    return some (← ts.foldlM (fun h t => do h.merge (← single t)) first)

namespace StyleSource

def histogramDepth (s : StretchSettings) (source : StyleSource) : Nat :=
  s.pixelDepth.getD <| match source with
    | .preset _ options => options.pixelDepth
    | .program .. | .table .. => defaultDepth

/-- Fills in the curves or ranges that a style does not bring along. -/
def resolve (h : Histogram) (s : StretchSettings) : StyleSource → StyleSource
  | .preset p options =>
    .preset p
      (if options.curves.isNone then { options with curves := autoCurves h options.pixelDepth s }
       else options)
  | .program text ranges =>
    .program text (if ranges.isEmpty then h.ranges s.lowPercent s.highPercent else ranges)
  | .table t ranges =>
    .table t (if ranges.isEmpty then h.ranges s.lowPercent s.highPercent else ranges)

/-- The style of all tiles of a viewport, stretched if there is anything to count. -/
def stretched (tiles : List Tile) (source : StyleSource) (s : Option StretchSettings) :
    Except Error StyleSource :=
  match s with
  | none => .ok source
  | some s => do
    match ← viewportHistogram tiles (source.histogramDepth s) with
    | some h => return source.resolve h s
    | none => return source

end StyleSource
end RasterTile
