import RasterTile.Rounding

/-!
# Element types

A sample is kept as the bit pattern it was stored with, so that no payload is lost; its element
type says how wide the pattern is and which number it stands for.
-/
namespace RasterTile

inductive ElementType where
  | u8 | i8 | u16 | i16 | u32 | i32 | f32 | f64
  deriving DecidableEq, Repr

namespace ElementType

def all : List ElementType := [.u8, .i8, .u16, .i16, .u32, .i32, .f32, .f64]

def size : ElementType → Nat
  | .u8 | .i8 => 1
  | .u16 | .i16 => 2
  | .u32 | .i32 | .f32 => 4
  | .f64 => 8

def bits (t : ElementType) : Nat := 8 * t.size

/-- The type's tag in an array header: byte order, kind and size. -/
def tag : ElementType → String
  | .u8 => "|u1"
  | .i8 => "|i1"
  | .u16 => "<u2"
  | .i16 => "<i2"
  | .u32 => "<u4"
  | .i32 => "<i4"
  | .f32 => "<f4"
  | .f64 => "<f8"

/-- Only the exact tags are known. -/
def ofTag? (text : String) : Option ElementType := all.find? fun t => t.tag == text

@[simp] theorem ofTag?_tag (t : ElementType) : ofTag? t.tag = some t := by cases t <;> rfl

def name : ElementType → String
  | .u8 => "uint8"
  | .i8 => "int8"
  | .u16 => "uint16"
  | .i16 => "int16"
  | .u32 => "uint32"
  | .i32 => "int32"
  | .f32 => "float32"
  | .f64 => "float64"

/-- The short name: kind and number of bits. -/
def code : ElementType → String
  | .u8 => "u8"
  | .i8 => "i8"
  | .u16 => "u16"
  | .i16 => "i16"
  | .u32 => "u32"
  | .i32 => "i32"
  | .f32 => "f32"
  | .f64 => "f64"

def ofCode? (text : String) : Option ElementType := all.find? fun t => t.code == text

/-- Whether samples have a sign bit above a magnitude, so that zero has two patterns. -/
def isFloat : ElementType → Bool
  | .f32 | .f64 => true
  | _ => false

def value : (t : ElementType) → BitVec t.bits → Float
  | .u8, w | .u16, w | .u32, w => Float.ofNat w.toNat
  | .i8, w | .i16, w | .i32, w => Float.ofInt w.toInt
  | .f32, w => Rounding.ofSingle w
  | .f64, w => Float.ofBits w.toNat.toUInt64

/-- Whether the pattern stands for zero: every bit clear, the sign of a float apart. -/
def isZero (t : ElementType) (w : BitVec t.bits) : Bool :=
  if t.isFloat then w.toNat % Nat.pow 2 (t.bits - 1) == 0 else w.toNat == 0

/-- The pattern that marks a valid pixel: the largest integer of the type, and for floats, which
have no natural maximum, the 16-bit full scale 65535. -/
def full : (t : ElementType) → BitVec t.bits
  | .u8 => 0xff#8
  | .i8 => 0x7f#8
  | .u16 => 0xffff#16
  | .i16 => 0x7fff#16
  | .u32 => 0xffffffff#32
  | .i32 => 0x7fffffff#32
  | .f32 => 0x477fff00#32
  | .f64 => 0x40efffe000000000#64

end ElementType
end RasterTile
