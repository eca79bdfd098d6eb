import RasterTile.Batch
import RasterTile.CommandLine.Arguments
import RasterTile.CommandLine.Failure
import RasterTile.RenderParams.Json

/-!
# Running a command line

Arguments override a configuration file, and what neither gives is left at its default. One file
is rendered, or all files of a directory; the latter prints a report.
-/
namespace RasterTile.CommandLine

/-- A share of the valid pixels is finite and not negative. -/
def isShare (x : Float) : Bool := x.isFinite && 0 ≤ x

/-- The stretch that percentages ask for. One percentage stands for both ends. -/
def stretchSettings (values : List Float) (depth : Option Nat) : Except Failure StretchSettings :=
  let ends := match values with
    | [low] => some (low, low)
    | [low, high] => some (low, high)
    | _ => none
  match ends with
  | some (low, high) =>
    if isShare low && isShare high then .ok ⟨low, high, depth⟩ else .error (.stretch values)
  | none => .error (.stretch values)

/-- A preset with another depth; other styles have none. -/
def withDepth (depth : Nat) : StyleSource → StyleSource
  | .preset p options => .preset p { options with pixelDepth := depth }
  | style => style

namespace Arguments

def adjust (a : Arguments) (p : RenderParams) : Except Failure RenderParams := do
  let style ← match a.pixelDepth with
    | none => pure p.style
    | some depth => if depth < 2 then throw (.pixelDepth depth) else pure (withDepth depth p.style)
  let stretch ← match a.stretch with
    | some values => some <$> stretchSettings values a.pixelDepth
    | none => pure (p.stretch.map fun s => { s with pixelDepth := a.pixelDepth <|> s.pixelDepth })
  return { p with style, stretch }

variable {m : Type → Type} [Monad m] [FileAccess m]

def configured (a : Arguments) : ExceptT Failure m RenderParams := do
  match a.config with
  | none => return .default
  | some path =>
    let text ← FileAccess.demand (.rendering .fileAccess) (FileAccess.readText path)
    (RenderParams.read text.toList).mapError Failure.rendering

def style? (a : Arguments) : ExceptT Failure m (Option StyleSource) := do
  match a.styleJson, a.program, a.preset with
  | some text, _, _ => return some (← (StyleSource.read text.toList).mapError Failure.rendering)
  | none, some path, _ =>
    return some (.program (← FileAccess.demand .programFile (FileAccess.readText path)) [])
  | none, none, some p => return some (.preset p .default)
  | none, none, none => return none

def parameters (a : Arguments) : ExceptT Failure m RenderParams := do
  let base ← a.configured
  let style ← a.style?
  a.adjust { base with bands := a.bands.getD base.bands, style := style.getD base.style }

end Arguments

def reportLine (r : BatchReport) : String :=
  s!"processed={r.processed} skipped={r.skipped} errors={r.errors}\n"

def require (what : Requirement) (x : Option String) : Except Failure String :=
  match x with
  | some text => .ok text
  | none => .error (.missing what)

variable {m : Type → Type} [Monad m] [FileAccess m]

def run (a : Arguments) : ExceptT Failure m String := do
  let params ← a.parameters
  match a.inputDirectory with
  | some input =>
    let output ← require .outputDirectory a.outputDirectory
    reportLine <$> ExceptT.adapt .rendering (params.renderDirectory input output a.continueOnError)
  | none =>
    let input ← require .input a.input
    let output ← require .output a.output
    ExceptT.adapt .rendering (params.renderFile input output)
    return ""

end RasterTile.CommandLine
