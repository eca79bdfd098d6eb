import RasterTile.Style.Program.Token

/-!
# Why a style program does not compile

A fault belongs to one line; an error names the line, or the output that no line binds.
-/
namespace RasterTile.Program

inductive Wanted where
  | closeParen
  | openBracket
  | closeBracket
  | dotAfter (word : String)
  | name
  deriving DecidableEq, Repr

inductive Table where
  | bands | low | high
  deriving DecidableEq, Repr

inductive Fault where
  | noBinding
  | badName (text : List Char)
  | badNumber (text : List Char)
  | badCharacter (c : Char)
  | expected (what : Wanted) (found : Option Token)
  | unexpected (found : Option Token)
  | trailing (found : Token)
  | unknownName (name : String)
  | unknownBand (name : String)
  | unknownResult (name : String)
  | nonConstantIndex
  | indexOutOfRange (table : Table) (index : Float)
  | rangeUnavailable (index : Nat)
  deriving DecidableEq, Repr

/-- The outputs that every program binds. -/
inductive Output where
  | red | green | blue
  deriving DecidableEq, Repr

inductive Error where
  | line (number : Nat) (fault : Fault)
  | missingBinding (output : Output)
  deriving DecidableEq, Repr

def Wanted.text : Wanted → String
  | .closeParen => "`)`"
  | .openBracket => "`[`"
  | .closeBracket => "`]`"
  | .dotAfter word => s!"`.` after `{word}`"
  | .name => "a name"

def Table.word : Table → String
  | .bands => "bands"
  | .low => "vmin"
  | .high => "vmax"

def Output.name : Output → String
  | .red => "red"
  | .green => "green"
  | .blue => "blue"

/-- A token as a message shows it, or the end of the line. -/
def found : Option Token → String
  | some t => t.shown
  | none => "end of line"

def Fault.message : Fault → String
  | .noBinding => "expected `name := expression`"
  | .badName text => s!"invalid binding name `{String.ofList text}`"
  | .badNumber text => s!"invalid number `{String.ofList text}`"
  | .badCharacter c => s!"unexpected character `{c}`"
  | .expected what token => s!"expected {what.text}, found {found token}"
  | .unexpected token => s!"unexpected {found token}"
  | .trailing token => s!"unexpected {token.shown} after expression"
  | .unknownName name => s!"unknown name `{name}`"
  | .unknownBand name => s!"band `{name}` is not in the band order"
  | .unknownResult name => s!"`results.{name}` is not bound on an earlier line"
  | .nonConstantIndex => "index does not reduce to a constant"
  | .indexOutOfRange table index =>
    s!"{table.word}[{Decimal.Layout.bare.write index}] is out of range"
  | .rangeUnavailable index => s!"stretch range {index} is unavailable"

def Error.message : Error → String
  | .line number fault => s!"line {number}: {fault.message}"
  | .missingBinding output => s!"program does not bind `{output.name}`"

end RasterTile.Program
