import RasterTile.Curve
import RasterTile.Histogram
import RasterTile.Rounding

/-!
# Stretch ranges from histograms

A band's low bound is the first bucket, counting up from zero, at which the running count exceeds
the floor of a percentage of all valid pixels; the high bound is found the same way counting down.
A percentage of `0.25` means a quarter of one percent.
-/
namespace RasterTile

/-- How much to clip at either end, in percent, and how many buckets to count with. -/
structure StretchSettings where
  lowPercent : Float
  highPercent : Float
  pixelDepth : Option Nat
  deriving DecidableEq, Repr

namespace Histogram

/-- The value of the first bucket at which the running count, which starts at `total`, exceeds the
threshold. Empty buckets are never it, and neither is one beyond 32 bits. -/
def firstCrossing (threshold : Float) (total : Nat) : List (Bucket × Nat) → Option UInt32
  | [] => none
  | (n, value) :: rest =>
    if n.val = 0 then firstCrossing threshold total rest
    else if threshold < Float.ofNat (total + n.val) then
      if value < UInt32.size then some (UInt32.ofNat value) else none
    else firstCrossing threshold (total + n.val) rest

def threshold (h : Histogram) (percent : Float) : Float :=
  Rounding.down (percent / 100 * Float.ofNat h.count.val)

def range (low high : Float) (buckets : Array Bucket) : BandRange :=
  let indexed := buckets.toList.zipIdx
  ⟨firstCrossing low 0 indexed, firstCrossing high 0 indexed.reverse⟩

/-- One range per band; without any valid pixel all are unavailable. -/
def ranges (h : Histogram) (lowPercent highPercent : Float) : List BandRange :=
  h.bands.map fun buckets =>
    if h.count.val = 0 then .unavailable
    else range (h.threshold lowPercent) (h.threshold highPercent) buckets

end Histogram

namespace BandRange

def mean (a b c : UInt32) : UInt32 := UInt32.ofNat ((a.toNat + b.toNat + c.toNat) / 3)

/-- The window that the first three ranges have on average. -/
def shared? : List BandRange → Option (UInt32 × UInt32)
  | a :: b :: c :: _ =>
    match a.bounds, b.bounds, c.bounds with
    | some (l₁, h₁), some (l₂, h₂), some (l₃, h₃) => some (mean l₁ l₂ l₃, mean h₁ h₂ h₃)
    | _, _, _ => none
  | _ => none

def average (ranges : List BandRange) : List BandRange :=
  let window := match shared? ranges with
    | some (low, high) => ⟨some low, some high⟩
    | none => unavailable
  List.replicate 3 window

end BandRange

/-- The curves that stretch the average window over the whole depth, if there is such a window. -/
def autoCurves (h : Histogram) (depth : Nat) (s : StretchSettings) : Option (List (Curve Float)) :=
  if depth < UInt32.size then
    (BandRange.average (h.ranges s.lowPercent s.highPercent)).mapM fun range =>
      range.bounds.map fun window => Curve.ofLevels depth window (0, UInt32.ofNat depth)
  else none

end RasterTile
