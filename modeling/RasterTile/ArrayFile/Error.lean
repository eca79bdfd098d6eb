import RasterTile.ElementType
import RasterTile.Text.Quoted

/-!
# Why a buffer is not an array file
-/
namespace RasterTile.ArrayFile

inductive HeaderFault where
  | notAscii
  | missing (key : String) (header : List Char)
  | notTuple (text : List Char)
  | badDimension (text : List Char)
  deriving DecidableEq, Repr

inductive Error where
  | badMagic
  | truncated (needed actual : Nat)
  | header (fault : HeaderFault)
  | unsupportedElementType (tag : String)
  | unsupportedShape (dimensions : List Nat)
  | columnMajor
  | dataLength (shape : List Nat) (element : ElementType) (expected actual : Nat)
  deriving DecidableEq, Repr

def HeaderFault.message : HeaderFault → String
  | .notAscii => "header is not ASCII"
  | .missing key header => s!"no '{key}' in {Text.quoted header}"
  | .notTuple text => s!"shape is not a tuple: {Text.quoted text}"
  | .badDimension text => s!"bad shape dimension {Text.quoted text}"

def shapeText (dimensions : List Nat) : String := Text.bracketed (dimensions.map toString)

def Error.message : Error → String
  | .badMagic => "missing NPY magic prefix"
  | .truncated needed actual => s!"buffer truncated: need {needed} bytes, have {actual}"
  | .header fault => s!"malformed header: {fault.message}"
  | .unsupportedElementType tag => s!"unsupported element type: {tag}"
  | .unsupportedShape dimensions => s!"unsupported shape: {shapeText dimensions}"
  | .columnMajor => "fortran-ordered arrays are not supported"
  | .dataLength shape element expected actual =>
    s!"data section has {actual} bytes, shape {shapeText shape} of {element.name} needs {expected}"

end RasterTile.ArrayFile
