/-!
# Stretch ranges

The window of raw values that a band is stretched over. A bound is missing when the band's
histogram holds too little to place it.
-/
namespace RasterTile

structure BandRange where
  low : Option UInt32
  high : Option UInt32
  deriving DecidableEq, Repr

namespace BandRange

def unavailable : BandRange := ⟨none, none⟩

def bounds (r : BandRange) : Option (UInt32 × UInt32) :=
  match r.low, r.high with
  | some low, some high => some (low, high)
  | _, _ => none

def isAvailable (r : BandRange) : Bool := r.bounds.isSome

theorem bounds_eq_some_iff {r : BandRange} {low high : UInt32} :
    r.bounds = some (low, high) ↔ r = ⟨some low, some high⟩ := by
  rcases r with ⟨_ | l, _ | h⟩ <;> simp [bounds]

end BandRange
end RasterTile
