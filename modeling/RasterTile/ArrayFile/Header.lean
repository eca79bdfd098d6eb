import RasterTile.ArrayFile.Error
import RasterTile.Decimal.Numeral

/-!
# The header of an array file

The header is a dictionary literal with the entries `descr`, `shape` and `fortran_order`. The
reader looks for these three keys only, in either kind of quotes, and takes the text that follows
the first place where a key stands.
-/
namespace RasterTile.ArrayFile

structure Header where
  element : ElementType
  dimensions : List Nat
  columnMajor : Bool
  deriving DecidableEq, Repr

namespace Header

/-- The text after the first `key` in these quotes, a colon, and the blanks around it. -/
def entryQuoted (quote : Char) (key text : List Char) : Option (List Char) := do
  let (_, rest) ← Text.cutAt (quote :: (key ++ [quote])) text
  let value ← Text.afterLead [':'] (Text.trimStart rest)
  some (Text.trimStart value)

/-- The text of an entry's value and all that follows it; single quotes are tried first. -/
def entry (key : String) (text : List Char) : Option (List Char) :=
  (entryQuoted '\'' key.toList text).or (entryQuoted '"' key.toList text)

/-- The text between quotes of one kind. -/
def unquote : List Char → Option (List Char)
  | [] => none
  | q :: rest =>
    if (q = '\'' ∨ q = '"') ∧ q ∈ rest then some (rest.takeWhile (· ≠ q)) else none

/-- The items of a list between parentheses; blank items count for nothing. -/
def items : List Char → Option (List (List Char))
  | '(' :: rest =>
    if ')' ∈ rest then
      some (((Text.splitOn ',' (rest.takeWhile (· ≠ ')'))).map Text.trim).filter (!·.isEmpty))
    else none
  | _ => none

def dimension (text : List Char) : Except Error Nat :=
  match Decimal.readWord? text with
  | some n => .ok n
  | none => .error (.header (.badDimension text))

/-- Whether a value's first four letters spell `true`, in any letter case. -/
def isTrue (value : List Char) : Bool := (value.take 4).map Char.toLower == "true".toList

def read (text : List Char) : Except Error Header := do
  let missing (key : String) : Error := .header (.missing key (Text.trim text))
  let some tag := (entry "descr" text).bind unquote | throw (missing "descr")
  let some element := ElementType.ofTag? (String.ofList tag)
    | throw (.unsupportedElementType (String.ofList tag))
  let some shape := entry "shape" text | throw (missing "shape")
  let some parts := items shape | throw (.header (.notTuple shape))
  let dimensions ← parts.mapM dimension
  return ⟨element, dimensions, (entry "fortran_order" text).any isTrue⟩

/-- The dictionary text for row-major samples of a shape. -/
def write (element : ElementType) (dimensions : List Nat) : String :=
  let shape := ", ".intercalate (dimensions.map toString)
  "\x7b'descr': '" ++ element.tag ++ "', 'fortran_order': False, 'shape': (" ++ shape ++ "), \x7d"

end Header
end RasterTile.ArrayFile
