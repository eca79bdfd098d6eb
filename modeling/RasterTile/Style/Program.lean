import RasterTile.Pixel
import RasterTile.Rounding
import RasterTile.Style.Program.Lexer
import RasterTile.Style.Program.Parser

/-!
# Style programs

A program is a list of bindings, one to a line:

    red_f := 255 / (vmax[bandmap.r] - vmin[bandmap.r])
    red   := (bands[bandmap.r] - vmin[bandmap.r]) * results.red_f
    green := 128
    blue  := results.red

Blank lines count for numbering only. A name may be bound again: references see the latest binding
on an earlier line, and the last binding of `red`, `green`, `blue` and `alpha` is what is written.
-/
namespace RasterTile

structure Binding where
  name : String
  code : Program.Code
  deriving DecidableEq, Repr

/-- Bindings in order, and the positions of the ones that are written to slots 0 to 3. -/
structure Program where
  bindings : List Binding
  red : Nat
  green : Nat
  blue : Nat
  alpha : Option Nat
  deriving DecidableEq, Repr

namespace Program

def bindLine (s : Scope) (text : List Char) : Except Fault Binding := do
  let some (left, body) := Text.cutAt [':', '='] text | throw .noBinding
  let name := Text.trim left
  if !isName name then throw (.badName name)
  let tokens ← tokenize body
  return ⟨String.ofList name, ← parse s tokens⟩

/-- Adds the bindings of the lines numbered from `number` to the ones already `made`. -/
def bindLines (ranges : List BandRange) (bands : BandMap) (number : Nat) (made : List Binding) :
    List (List Char) → Except Error (List Binding)
  | [] => .ok made
  | line :: lines =>
    let text := Text.trim line
    if text.isEmpty then bindLines ranges bands (number + 1) made lines
    else match bindLine ⟨ranges, bands, made.map Binding.name⟩ text with
      | .error fault => .error (.line number fault)
      | .ok binding => bindLines ranges bands (number + 1) (made ++ [binding]) lines

def required (names : List String) (output : Output) : Except Error Nat :=
  match Parser.lastIndex? output.name names with
  | some i => .ok i
  | none => .error (.missingBinding output)

/-- Every reference to a band, a range or a result is checked here, before any pixel is seen. -/
def compile (source : String) (ranges : List BandRange) (bands : BandMap) :
    Except Error Program := do
  let bindings ← bindLines ranges bands 1 [] (Text.splitOn '\n' source.toList)
  let names := bindings.map Binding.name
  return {
    bindings
    red := ← required names .red
    green := ← required names .green
    blue := ← required names .blue
    alpha := Parser.lastIndex? "alpha" names }

def names (p : Program) : List String := p.bindings.map Binding.name

def bindsAlpha (p : Program) : Bool := p.alpha.isSome

/-- The results of bindings in order, after those already `known`. -/
def evaluate (pixel known : List Float) : List Binding → List Float
  | [] => known
  | b :: rest => evaluate pixel (known ++ [b.code.eval pixel known]) rest

/-- The floors of the outputs go to slots 0 to 3; alpha stays when it is not bound. -/
def apply (p : Program) (pixel : List Float) : List Float :=
  let results := evaluate pixel [] p.bindings
  let written (i : Nat) : Option Float := results[i]?.map Rounding.down
  Pixel.overwrite pixel [written p.red, written p.green, written p.blue, p.alpha.bind written]

end Program
end RasterTile
