import RasterTile.ArrayFile
import RasterTile.Pixel

/-!
# Tiles

A tile is a tensor together with the order of its bands. A blank tile has an order but no tensor,
and no pixels.
-/
namespace RasterTile

structure Tile where
  tensor : Option Tensor
  bands : BandOrder
  bands_eq : ∀ t ∈ tensor, t.bands = bands.length

namespace Tile

def ofTensor (t : Tensor) (bands : BandOrder) : Except Error Tile :=
  if h : t.bands = bands.length then .ok ⟨some t, bands, by simpa using h⟩
  else .error (.bandCount bands.length t.bands)

def blank (bands : BandOrder) : Tile := ⟨none, bands, by simp⟩

/-- The tile of a tensor, with a validity band if the order has none. -/
def withAlpha (t : Tensor) (bands : BandOrder) : Except Error Tile :=
  if .alpha ∈ bands then ofTensor t bands
  else if t.bands ≠ bands.length then .error (.bandCount bands.length t.bands)
  else do ofTensor (← t.withValidity) (bands ++ [.alpha])

def decode (bytes : List UInt8) (bands : BandOrder) : Except Error Tile :=
  match ArrayFile.decode bytes with
  | .error e => .error (.arrayFile e)
  | .ok none => .ok (blank bands)
  | .ok (some t) => withAlpha t bands

def isBlank (t : Tile) : Bool := t.tensor.isNone

def map (t : Tile) : BandMap := t.bands.map

def bandCount (t : Tile) : Nat := t.bands.length

def width (t : Tile) : Nat := t.tensor.elim 0 Tensor.width

def height (t : Tile) : Nat := t.tensor.elim 0 Tensor.height

def pixelCount (t : Tile) : Nat := t.tensor.elim 0 Tensor.pixelCount

/-- Fills slots, of which the first is that of band `b`, with the values of pixel `p`. A slot that no
band belongs to stays as it is. -/
def fill (t : Tensor) (p b : Nat) : List Float → List Float
  | [] => []
  | x :: slots =>
    (if b < t.bands then t.valueAt b p else x) :: fill t p (b + 1) slots

/-- Reads pixel `p` into the leading slots of `out`, or reports that there is no such pixel. -/
def readPixel (t : Tile) (p : Nat) (out : List Float) : Option (List Float) :=
  match t.tensor with
  | none => none
  | some tensor => if p < tensor.pixelCount then some (fill tensor p 0 out) else none

def bandSlots (t : Tile) : List Float := List.replicate t.bandCount 0

/-- The values of pixel `p` in band order, or nothing if there is no such pixel. -/
def pixel? (t : Tile) (p : Nat) : Option (List Float) := t.readPixel p t.bandSlots

def pixel (t : Tile) (p : Nat) : List Float := (t.pixel? p).getD []

/-- Hands the values and the index of as many pixels from `p` on to `visit`, one after the other. All
of them are read into the same slots. -/
def visitFrom (t : Tile) (visit : σ → List Float → Nat → σ) (p : Nat) :
    (count : Nat) → (slots : List Float) → σ → σ
  | 0, _, s => s
  | count + 1, slots, s =>
    let values := (t.readPixel p slots).getD slots
    visitFrom t visit (p + 1) count values (visit s values p)

/-- Every pixel in ascending order. -/
def visitPixels (t : Tile) (visit : σ → List Float → Nat → σ) (s : σ) : σ :=
  t.visitFrom visit 0 t.pixelCount t.bandSlots s

def pixels (t : Tile) : List (List Float) :=
  (t.visitPixels (fun seen values _ => values :: seen) []).reverse

end Tile
end RasterTile
