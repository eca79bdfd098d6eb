import RasterTile.Band
import RasterTile.BandRange
import RasterTile.Error
import RasterTile.Pixel
import RasterTile.Rounding
import RasterTile.Scalar

/-!
# Lookup tables

Red, green and blue are each scaled against the stretch range of their band and select an entry of
their own table. A table is bound to positions and ranges before any pixel is seen, so nothing can
be missing later.
-/
namespace RasterTile

structure LookupTable where
  red : Array Float
  green : Array Float
  blue : Array Float
  deriving DecidableEq, Repr

namespace LookupTable

/-- One output channel: the slot it reads, how a raw value becomes an index, and the entries. -/
structure Channel where
  position : Nat
  low : Float
  factor : Float
  entries : Array Float
  entries_ne : entries.size ≠ 0
  deriving DecidableEq, Repr

namespace Channel

/-- Entries per raw value. A window without width sends everything above its low end to the last
entry. -/
def factorOf (entries : Nat) (low high : UInt32) : Float :=
  if low.toFloat < high.toFloat then Float.ofNat entries / (high.toFloat - low.toFloat)
  else Float.ofBits 0x7ff0000000000000

/-- An empty table is reported first, then a missing band, then a missing range. -/
def bind (entries : Array Float) (band : Band) (ranges : List BandRange) (bands : BandMap) :
    Except Error Channel :=
  if h : entries.size = 0 then .error (.emptyTable band)
  else match bands.position? band with
    | none => .error (.missingBand band)
    | some position =>
      match ranges[position]?.bind BandRange.bounds with
      | none => .error (.rangeUnavailable band)
      | some (low, high) =>
        .ok ⟨position, low.toFloat, factorOf entries.size low high, entries, h⟩

def index (c : Channel) (raw : Float) : Nat :=
  Scalar.index (c.entries.size - 1) (Rounding.down (c.factor * (raw - c.low)))

theorem index_lt (c : Channel) (raw : Float) : c.index raw < c.entries.size := by
  have := Scalar.index_le (c.entries.size - 1) (Rounding.down (c.factor * (raw - c.low)))
  have := c.entries_ne
  unfold index; omega

def output (c : Channel) (pixel : List Float) : Float :=
  let raw := pixel[c.position]?.getD 0
  have := c.index_lt raw
  c.entries[c.index raw]

end Channel

structure Bound where
  red : Channel
  green : Channel
  blue : Channel
  deriving DecidableEq, Repr

/-- The first channel that cannot be bound is reported. -/
def bind (t : LookupTable) (ranges : List BandRange) (bands : BandMap) : Except Error Bound := do
  let red ← Channel.bind t.red .red ranges bands
  let green ← Channel.bind t.green .green ranges bands
  let blue ← Channel.bind t.blue .blue ranges bands
  return ⟨red, green, blue⟩

/-- All three outputs are read before any slot is written; a pixel of fewer than three slots is
left alone. -/
def Bound.apply (b : Bound) : List Float → List Float
  | x :: y :: z :: rest =>
    let pixel := x :: y :: z :: rest
    b.red.output pixel :: b.green.output pixel :: b.blue.output pixel :: rest
  | short => short

end LookupTable
end RasterTile
