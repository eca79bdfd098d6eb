import RasterTile.ArrayFile.Error
import RasterTile.Band
import RasterTile.Style.Program.Error

/-!
# Errors

One cause per constructor. The wording is in `Error.message` alone, and `Error.kind` sorts causes
by what a caller can do about them.
-/
namespace RasterTile

inductive Error where
  | arrayFile (e : ArrayFile.Error)
  | program (e : Program.Error)
  | bandOrder (fault : BandOrder.Fault)
  | pixelDepth (depth : Nat)
  | emptyTable (band : Band)
  | missingBand (band : Band)
  | emptyTile (path : String)
  | pictureWidth (width : Nat)
  | pictureHeight (height : Nat)
  | bandCount (expected actual : Nat)
  | rangeUnavailable (band : Band)
  | unknownPreset (name : String)
  | sampleCount (shape : List Nat) (expected actual : Nat)
  | viewTooLarge
  | mergeShape (otherBands otherDepth bands depth : Nat)
  | accumulatorShape (bands depth expectedBands expectedDepth : Nat)
  | surfaceSize (width height surfaceWidth surfaceHeight : Nat)
  | surfaceBytes (bytes width height : Nat)
  | pictureBytes (bytes expected width height : Nat)
  | pictureBuffer (width height : Nat)
  | fileAccess
  | json
  | pictureEncoding
  deriving DecidableEq, Repr

inductive ErrorKind where
  | format | compile | invalidArgument | bandCountMismatch | rangeUnavailable | unknownPreset
  | processing | shape | io | json | image
  deriving DecidableEq, Repr

namespace Error

def kind : Error → ErrorKind
  | .arrayFile _ => .format
  | .program _ => .compile
  | .bandOrder _ | .pixelDepth _ | .emptyTable _ | .missingBand _ | .emptyTile _
  | .pictureWidth _ | .pictureHeight _ => .invalidArgument
  | .bandCount .. => .bandCountMismatch
  | .rangeUnavailable _ => .rangeUnavailable
  | .unknownPreset _ => .unknownPreset
  | .viewTooLarge => .shape
  | .sampleCount .. | .mergeShape .. | .accumulatorShape .. | .surfaceSize .. | .surfaceBytes ..
  | .pictureBytes .. | .pictureBuffer .. => .processing
  | .fileAccess => .io
  | .json => .json
  | .pictureEncoding => .image

def argument (name value : String) : String := s!"Invalid argument: {name}={value}"

def processing (text : String) : String := s!"Processing error: {text}"

def message : Error → String
  | .arrayFile e => s!"NPY format error: {e.message}"
  | .program e => s!"Style compile error: {e.message}"
  | .bandOrder (.notABand c) => argument "band" c.toString
  | .bandOrder (.noBands text) => argument "bands" text
  | .pixelDepth depth => argument "pixelDepth" (toString depth)
  | .emptyTable band => argument "lookupTable" s!"empty table for band '{band.letter}'"
  | .missingBand band => argument "bands" s!"no '{band.letter}' band"
  | .emptyTile path => argument "input" s!"{path} holds an empty tile"
  | .pictureWidth width => argument "width" (toString width)
  | .pictureHeight height => argument "height" (toString height)
  | .bandCount expected actual => s!"Band order has {expected} bands but the tile has {actual}"
  | .rangeUnavailable band => s!"No stretch range for band '{band.letter}'"
  | .unknownPreset name => s!"Unknown style preset: {name}"
  | .sampleCount shape expected actual =>
    processing s!"tensor shape {ArrayFile.shapeText shape} needs {expected} samples, got {actual}"
  | .viewTooLarge => "Array shape error: the view is too large"
  | .mergeShape otherBands otherDepth bands depth =>
    processing s!"cannot merge histogram of {otherBands}x{otherDepth} into {bands}x{depth}"
  | .accumulatorShape bands depth expectedBands expectedDepth =>
    processing s!"accumulator is {bands}x{depth}, expected {expectedBands}x{expectedDepth}"
  | .surfaceSize width height surfaceWidth surfaceHeight =>
    processing s!"tile is {width}x{height} but surface is {surfaceWidth}x{surfaceHeight}"
  | .surfaceBytes bytes width height =>
    processing s!"buffer of {bytes} bytes does not fit a {width}x{height} surface"
  | .pictureBytes bytes expected width height =>
    processing s!"RGBA buffer has {bytes} bytes, expected {expected} for {width}x{height}"
  | .pictureBuffer width height => processing s!"RGBA buffer does not match {width}x{height}"
  | .fileAccess => "I/O error: the file cannot be read or written"
  | .json => "Config error: not the expected JSON"
  | .pictureEncoding => "Image error: a picture needs a width and a height"

end Error
end RasterTile
