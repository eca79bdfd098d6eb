import RasterTile.Decimal.Numeral

/-!
# Keys

The words on a command line that are not values: settings, which take values, switches, which do
not, and requests for a text. A key has a long name, and some have a letter. A value may be
attached to its key: `--name=value`, `-xvalue` or `-x=value`.
-/
namespace RasterTile.CommandLine

inductive Setting where
  | input | inputDirectory | output | outputDirectory | bands | preset | program | styleJson
  | pixelDepth | config | stretch
  deriving DecidableEq, Repr

inductive Switch where
  | log | continueOnError
  deriving DecidableEq, Repr

inductive Notice where
  | help | version
  deriving DecidableEq, Repr

inductive Key where
  | setting (s : Setting)
  | switch (s : Switch)
  | notice (n : Notice)
  deriving DecidableEq, Repr

def Setting.capacity : Setting → Nat
  | .stretch => 2
  | _ => 1

namespace Key

def names : List (String × Key) :=
  [("input", .setting .input), ("input-dir", .setting .inputDirectory),
    ("output", .setting .output), ("output-dir", .setting .outputDirectory),
    ("bands", .setting .bands), ("preset", .setting .preset), ("program", .setting .program),
    ("style-json", .setting .styleJson), ("pixel-depth", .setting .pixelDepth),
    ("config", .setting .config), ("stretch", .setting .stretch), ("log", .switch .log),
    ("continue-on-error", .switch .continueOnError), ("help", .notice .help),
    ("version", .notice .version)]

def ofName? (name : List Char) : Option Key := names.lookup (String.ofList name)

def ofLetter? : Char → Option Key
  | 'i' => some (.setting .input)
  | 'o' => some (.setting .output)
  | 'h' => some (.notice .help)
  | 'V' => some (.notice .version)
  | _ => none

end Key

inductive Form where
  /-- Two hyphens and nothing else. -/
  | stop
  /-- Two hyphens, a name, and perhaps a value. -/
  | long (name : List Char) (value : Option (List Char))
  /-- A hyphen and at least one letter. -/
  | short (letter : Char) (rest : List Char)
  | plain
  deriving DecidableEq, Repr

def Form.of (word : List Char) : Form :=
  match word with
  | ['-', '-'] => .stop
  | '-' :: '-' :: text =>
    match Text.cutAt ['='] text with
    | some (name, value) => .long name (some value)
    | none => .long text none
  | '-' :: letter :: rest => .short letter rest
  | _ => .plain

/-- Whether text looks like a number without a sign: digits, perhaps a point with or without more
digits, and perhaps `e` with digits. -/
def isNumberShaped (cs : List Char) : Bool :=
  let whole := cs.takeWhile Char.isDigit
  let tail := match cs.drop whole.length with
    | '.' :: rest => rest.dropWhile Char.isDigit
    | rest => rest
  !whole.isEmpty && match tail with
    | [] => true
    | 'e' :: digits => Decimal.isDigits digits
    | _ => false

end RasterTile.CommandLine
