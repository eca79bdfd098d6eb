import RasterTile.Picture

/-!
# Pictures as PNG files

A file is a signature and three chunks: the header, the pixel rows and the end. The rows are kept
in a zlib stream of stored blocks, so a file is a little longer than its picture.
-/
namespace RasterTile.Picture

namespace Png

def word (n : UInt32) : List UInt8 :=
  [(n >>> 24).toUInt8, (n >>> 16).toUInt8, (n >>> 8).toUInt8, n.toUInt8]

def lowFirst (n : Nat) : List UInt8 := [UInt8.ofNat n, UInt8.ofNat (n / 256)]

def shift (c : UInt32) : UInt32 := if c &&& 1 = 1 then (c >>> 1) ^^^ 0xedb88320 else c >>> 1

def shifts : Nat → UInt32 → UInt32
  | 0, c => c
  | n + 1, c => shifts n (shift c)

def redundancy (bytes : List UInt8) : UInt32 :=
  bytes.foldl (fun c b => shifts 8 (c ^^^ b.toUInt32)) 0xffffffff ^^^ 0xffffffff

/-- The modulus of the checksum, the largest prime below `2 ^ 16`. -/
def checksumModulus : Nat := 65521

/-- The checksum of a zlib stream: a sum of the bytes and a sum of the partial sums. -/
def checksum (bytes : List UInt8) : UInt32 :=
  let (low, high) := bytes.foldl (fun (low, high) b =>
    let low := (low + b.toNat) % checksumModulus
    (low, (high + low) % checksumModulus)) (1, 0)
  UInt32.ofNat (high * 0x10000 + low)

def blockLimit : Nat := 0xffff

/-- A stored block: whether it is the last one, its length, the complement of that, its bytes. -/
def block (last : Bool) (bytes : List UInt8) : List UInt8 :=
  (if last then 1 else 0) ::
    (lowFirst bytes.length ++ lowFirst (blockLimit - bytes.length) ++ bytes)

/-- All blocks of a stream; every block but the last one is full. -/
def blocks (bytes : List UInt8) : List UInt8 :=
  if _h : bytes.length ≤ blockLimit then block true bytes
  else block false (bytes.take blockLimit) ++ blocks (bytes.drop blockLimit)
termination_by bytes.length
decreasing_by simp only [List.length_drop]; simp only [blockLimit] at *; omega

def stream (bytes : List UInt8) : List UInt8 :=
  [0x78, 0x01] ++ blocks bytes ++ word (checksum bytes)

/-- A chunk: the length of its data, its name, the data and the check. -/
def chunk (name : String) (data : List UInt8) : List UInt8 :=
  let named := name.toList.map (fun c => UInt8.ofNat c.toNat) ++ data
  word (UInt32.ofNat data.length) ++ named ++ word (redundancy named)

/-- Rows of `stride` bytes, each after a zero, which says that the row is not filtered. -/
def rows (stride : Nat) : Nat → List UInt8 → List UInt8
  | 0, _ => []
  | n + 1, bytes => 0 :: (bytes.take stride ++ rows stride n (bytes.drop stride))

/-- Eight bits per channel, colours with alpha, and no interlacing. -/
def header (width height : Nat) : List UInt8 :=
  word (UInt32.ofNat width) ++ word (UInt32.ofNat height) ++ [8, 6, 0, 0, 0]

def signature : List UInt8 := [0x89, 0x50, 0x4e, 0x47, 0x0d, 0x0a, 0x1a, 0x0a]

end Png

def png (p : Picture) : List UInt8 :=
  Png.signature ++ Png.chunk "IHDR" (Png.header p.width p.height) ++
    Png.chunk "IDAT" (Png.stream (Png.rows (p.width * 4) p.height p.rgba)) ++ Png.chunk "IEND" []

end RasterTile.Picture
