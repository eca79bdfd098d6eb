import RasterTile.Decimal.Layout
import RasterTile.Error

/-!
# Failures of a run

What can go wrong once the arguments are read: an argument is missing or out of range, the program
file is unreadable, or rendering fails.
-/
namespace RasterTile.CommandLine

inductive Requirement where
  | input | output | outputDirectory
  deriving DecidableEq, Repr

def Requirement.text : Requirement → String
  | .input => "--input or --input-dir"
  | .output => "--output"
  | .outputDirectory => "--output-dir"

inductive Failure where
  | missing (what : Requirement)
  | stretch (values : List Float)
  | pixelDepth (depth : Nat)
  | programFile
  | rendering (e : Error)
  deriving DecidableEq, Repr

def Failure.message : Failure → String
  | .missing what => s!"Missing required argument: {what.text}"
  | .stretch values =>
    let texts := Text.bracketed (values.map Decimal.Layout.quoted.write)
    s!"Stretch percentages must be finite and non-negative, got: {texts}"
  | .pixelDepth depth => s!"Pixel depth must be at least 2, got: {depth}"
  | .programFile => "I/O error: the program cannot be read"
  | .rendering e => e.message

end RasterTile.CommandLine
