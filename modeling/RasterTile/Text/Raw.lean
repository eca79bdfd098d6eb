/-!
# Raw text

What a file system keeps of a name or a path: bytes, which need not be the UTF-8 of a text. They can
always be shown as one. Where no character stands, the bytes that begin one and then break off are shown
as one replacement character, and so is a byte that begins none; different names may then look the same.
-/
namespace RasterTile

structure RawText where
  bytes : List UInt8
  deriving DecidableEq, Repr

namespace RawText

def ofText (s : String) : RawText := ⟨s.toByteArray.data.toList⟩

instance : Coe String RawText := ⟨ofText⟩

instance : LE RawText := ⟨fun a b => a.bytes ≤ b.bytes⟩

instance : DecidableLE RawText := fun a b => inferInstanceAs (Decidable (a.bytes ≤ b.bytes))

def slash : UInt8 := 0x2f

def dot : UInt8 := 0x2e

/-- A byte after the first one of a character. -/
def isContinuation (b : UInt8) : Bool := 0x80 ≤ b && b ≤ 0xbf

/-- Whether a byte can be the second one of a character of three or four bytes. -/
def canFollow (first second : UInt8) : Bool :=
  if first = 0xe0 then 0xa0 ≤ second && second ≤ 0xbf
  else if first = 0xed then 0x80 ≤ second && second ≤ 0x9f
  else if first = 0xf0 then 0x90 ≤ second && second ≤ 0xbf
  else if first = 0xf4 then 0x80 ≤ second && second ≤ 0x8f
  else 0xe1 ≤ first && first ≤ 0xf3 && isContinuation second

/-- How many bytes are shown as one replacement character, where no character stands. -/
def brokenLength : List UInt8 → Nat
  | first :: second :: rest =>
    if !canFollow first second then 1
    else if 0xf0 ≤ first && rest.head?.any isContinuation then 3
    else 2
  | _ => 1

/-- The characters of bytes, as many of which as `skip` says belong to the character before. -/
def chars : (skip : Nat) → List UInt8 → List Char
  | _, [] => []
  | skip + 1, _ :: rest => chars skip rest
  | 0, b :: rest =>
    match (b :: rest).toByteArray.utf8DecodeChar? 0 with
    | some c => c :: chars (c.utf8Size - 1) rest
    | none => '\ufffd' :: chars (brokenLength (b :: rest) - 1) rest

def text (r : RawText) : String := String.ofList (chars 0 r.bytes)

end RawText
end RasterTile
