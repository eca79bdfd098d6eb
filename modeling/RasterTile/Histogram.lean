import RasterTile.BandRange
import RasterTile.Scalar
import RasterTile.Tile

/-!
# Histograms

For every band, how many valid pixels have each raw value below a pixel depth. Counters stop at
their largest value instead of wrapping. A pixel is valid when its last band is neither zero nor a
NaN; it counts even if none of its values falls into a bucket.
-/
namespace RasterTile

/-- A counter that stays at `limit` once it gets there. -/
structure Counter (limit : Nat) where
  val : Nat
  val_le : val ≤ limit
  deriving DecidableEq, Repr

namespace Counter

def zero : Counter limit := ⟨0, Nat.zero_le _⟩

def add (a b : Counter limit) : Counter limit := ⟨min (a.val + b.val) limit, Nat.min_le_right ..⟩

def succ (a : Counter limit) : Counter limit := ⟨min (a.val + 1) limit, Nat.min_le_right ..⟩

@[ext] theorem ext {a b : Counter limit} (h : a.val = b.val) : a = b := by
  cases a; cases b; simp_all

@[simp] theorem val_zero : (zero : Counter limit).val = 0 := rfl
@[simp] theorem val_add (a b : Counter limit) : (a.add b).val = min (a.val + b.val) limit := rfl
@[simp] theorem val_succ (a : Counter limit) : a.succ.val = min (a.val + 1) limit := rfl

end Counter

abbrev Bucket := Counter (UInt32.size - 1)

abbrev PixelTotal := Counter (UInt64.size - 1)

structure Histogram where
  bands : List (Array Bucket)
  count : PixelTotal
  deriving DecidableEq, Repr

namespace Histogram

def empty (bandCount depth : Nat) : Histogram :=
  ⟨List.replicate bandCount (Array.replicate depth .zero), .zero⟩

def bandCount (h : Histogram) : Nat := h.bands.length

/-- The number of buckets per band; zero if there is no band. -/
def depth (h : Histogram) : Nat := (h.bands.head?.map Array.size).getD 0

/-- Adds up bucket by bucket. Only histograms of one shape can be merged. -/
def merge (h other : Histogram) : Except Error Histogram :=
  if h.bandCount ≠ other.bandCount ∨ h.depth ≠ other.depth then
    .error (.mergeShape other.bandCount other.depth h.bandCount h.depth)
  else .ok {
    bands := List.zipWith (Array.zipWith Counter.add) h.bands other.bands
    count := h.count.add other.count }

/-- The bucket of a raw value: values that are not natural numbers have none. -/
def bucket? (v : Float) : Option Nat :=
  if 0 ≤ v ∧ v.toUInt64.toFloat == v then some v.toUInt64.toNat else none

/-- Counts one value; a value beyond the last bucket is dropped. -/
def countValue (buckets : Array Bucket) (v : Float) : Array Bucket :=
  match bucket? v with
  | some b => buckets.modify b Counter.succ
  | none => buckets

def countValues : List (Array Bucket) → List Float → List (Array Bucket)
  | [], _ => []
  | bands, [] => bands
  | b :: bands, v :: values => countValue b v :: countValues bands values

def record (h : Histogram) (pixel : List Float) : Histogram where
  bands := countValues h.bands pixel
  count := h.count.succ

/-- Counts a pixel if its last band marks it as valid. -/
def recordValid (h : Histogram) (pixel : List Float) : Histogram :=
  if pixel.getLast?.any Scalar.isNonzero then h.record pixel else h

/-- The histogram to start from: the accumulator, which must have the expected shape, or an empty
one. -/
def start (bandCount depth : Nat) : Option Histogram → Except Error Histogram
  | none => .ok (empty bandCount depth)
  | some h =>
    if h.bandCount ≠ bandCount ∨ h.depth ≠ depth then
      .error (.accumulatorShape h.bandCount h.depth bandCount depth)
    else .ok h

/-- Counts the valid pixels of a tile on top of an accumulator. -/
def ofTile (tile : Tile) (depth : Nat) (bands : BandOrder) (accumulator : Option Histogram) :
    Except Error Histogram := do
  if !tile.isBlank ∧ bands.length ≠ tile.bandCount then
    throw (.bandCount bands.length tile.bandCount)
  let h ← start bands.length depth accumulator
  return tile.visitPixels (fun h values _ => h.recordValid values) h

end Histogram
end RasterTile
