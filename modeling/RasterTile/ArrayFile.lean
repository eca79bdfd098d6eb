import RasterTile.ArrayFile.Header
import RasterTile.Tensor

/-!
# Array files

A file starts with six magic bytes and two version bytes; then come the length of the header, two
bytes long with the low byte first, the header itself, and the samples in little-endian order. A
file without any bytes stands for a blank tile.
-/
namespace RasterTile.ArrayFile

def magic : List UInt8 := [0x93, 0x4e, 0x55, 0x4d, 0x50, 0x59]

/-- Everything before the header. -/
def preambleSize : Nat := 10

/-- Samples start at a multiple of this offset. -/
def alignment : Nat := 64

def hasMagic (bytes : List UInt8) : Bool := magic.isPrefixOf bytes

def ofLittleEndian (bytes : List UInt8) : Nat := bytes.foldr (fun b n => n * 256 + b.toNat) 0

/-- The lowest `count` bytes of a number, the lowest first. -/
def littleEndian : (count n : Nat) → List UInt8
  | 0, _ => []
  | count + 1, n => UInt8.ofNat (n % 256) :: littleEndian count (n / 256)

/-- A product of factors, as long as it and every product before it fit 64 bits. -/
def product64? (n : Nat) : List Nat → Option Nat
  | [] => some n
  | d :: ds => if n * d < UInt64.size then product64? (n * d) ds else none

def sampleAt (element : ElementType) (body : Array UInt8) (i : Nat) : BitVec element.bits :=
  let start := i * element.size
  BitVec.ofNat _ (ofLittleEndian (body.extract start (start + element.size)).toList)

/-- The tensor of a shape whose samples fill the data section. -/
def readSamples (element : ElementType) (bands height width : Nat) (body : Array UInt8) : Tensor where
  element := element
  bands := bands
  height := height
  width := width
  samples := Array.ofFn fun i : Fin (wrap64 (bands * height * width)) => sampleAt element body i
  size_eq := by simp

/-- The shape that dimensions stand for; two of them are a single band. -/
def shape? : List Nat → Option (Nat × Nat × Nat)
  | [bands, height, width] => some (bands, height, width)
  | [height, width] => some (1, height, width)
  | _ => none

/-- The tensor in an array file, or nothing if the file is blank. -/
def decode (bytes : List UInt8) : Except Error (Option Tensor) := do
  if bytes.isEmpty then return none
  if !hasMagic bytes then throw .badMagic
  if bytes.length < preambleSize then throw (.truncated preambleSize bytes.length)
  let offset := preambleSize + ofLittleEndian ((bytes.drop 8).take 2)
  if bytes.length < offset then throw (.truncated offset bytes.length)
  let text := (bytes.take offset).drop preambleSize
  if !text.all (· < 128) then throw (.header .notAscii)
  let header ← Header.read (text.map fun b => Char.ofNat b.toNat)
  if header.columnMajor then throw .columnMajor
  let some (bands, height, width) := shape? header.dimensions
    | throw (.unsupportedShape header.dimensions)
  let some expected := product64? header.element.size [bands, height, width]
    | throw (.unsupportedShape [bands, height, width])
  let body := (bytes.drop offset).toArray
  if body.size ≠ expected then
    throw (.dataLength [bands, height, width] header.element expected body.size)
  return some (readSamples header.element bands height width body)

/-- The header text: padded with blanks so that the samples are aligned, and closed by a line
feed. -/
def headerText (t : Tensor) : List Char :=
  let dictionary := (Header.write t.element t.shape).toList
  let unpadded := preambleSize + dictionary.length + 1
  dictionary ++ List.replicate ((alignment - unpadded % alignment) % alignment) ' ' ++ ['\n']

def body (t : Tensor) : List UInt8 :=
  t.samples.toList.flatMap fun w => littleEndian t.element.size w.toNat

/-- The array file of a tensor, in format version 1.0. -/
def encode (t : Tensor) : List UInt8 :=
  let header := headerText t
  magic ++ [1, 0] ++ littleEndian 2 header.length ++ header.map (fun c => UInt8.ofNat c.toNat) ++ body t

end RasterTile.ArrayFile
