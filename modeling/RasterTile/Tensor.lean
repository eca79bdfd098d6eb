import RasterTile.Error

/-!
# Tensors

Samples of one element type in the shape `[bands, height, width]`, band by band and row by row
within a band. Sizes and places are words of 64 bits, so the number of samples is that of the shape only
as far as a word goes.
-/
namespace RasterTile

/-- What a word of 64 bits keeps of a sum or a product. -/
def wrap64 (n : Nat) : Nat := n % UInt64.size

theorem wrap64_lt (n : Nat) : wrap64 n < UInt64.size := Nat.mod_lt _ (by decide)

theorem wrap64_le (n : Nat) : wrap64 n ≤ n := Nat.mod_le ..

theorem wrap64_of_lt {n : Nat} (h : n < UInt64.size) : wrap64 n = n := Nat.mod_eq_of_lt h

structure Tensor where
  element : ElementType
  bands : Nat
  height : Nat
  width : Nat
  samples : Array (BitVec element.bits)
  size_eq : samples.size = wrap64 (bands * height * width)

namespace Tensor

def ofSamples (bands height width : Nat) (element : ElementType)
    (samples : Array (BitVec element.bits)) : Except Error Tensor :=
  let expected := wrap64 (bands * height * width)
  if h : samples.size = expected then .ok ⟨element, bands, height, width, samples, h⟩
  else .error (.sampleCount [bands, height, width] expected samples.size)

def shape (t : Tensor) : List Nat := [t.bands, t.height, t.width]

def pixelCount (t : Tensor) : Nat := wrap64 (t.height * t.width)

/-- A word counts all samples unless there are too many. -/
theorem size_of_lt (t : Tensor) (h : t.bands * t.height * t.width < UInt64.size) :
    t.samples.size = t.bands * t.height * t.width := t.size_eq.trans (wrap64_of_lt h)

def get? (t : Tensor) (i : Nat) : Option Float := t.samples[i]?.map t.element.value

/-- The value of band `b` at pixel `p`; zero if there is no sample at its place. -/
def valueAt (t : Tensor) (b p : Nat) : Float := (t.get? (wrap64 (b * t.pixelCount + p))).getD 0

def isMarked (t : Tensor) (p : Nat) : Bool :=
  (List.range t.bands).any fun b =>
    t.samples[b * t.pixelCount + p]?.any fun w => !t.element.isZero w

/-- The validity band: full scale where some band is not zero, and zero elsewhere. -/
def validity (t : Tensor) : Array (BitVec t.element.bits) :=
  Array.ofFn fun p : Fin t.pixelCount => if t.isMarked p then t.element.full else 0

/-- The largest number of places, extents of zero apart, that an array view may span. -/
def viewLimit : Nat := Nat.pow 2 63 - 1

/-- The product of the extents that are not zero. -/
def span (extents : List Nat) : Nat := (extents.filter (· ≠ 0)).foldl (· * ·) 1

def withValidity (t : Tensor) : Except Error Tensor :=
  if viewLimit < span [t.bands, t.pixelCount] then .error .viewTooLarge
  else ofSamples (t.bands + 1) t.height t.width t.element (t.samples ++ t.validity)

end Tensor
end RasterTile
