import RasterTile.Band
import RasterTile.CommandLine.Key
import RasterTile.Style.Preset

/-!
# Arguments

The words of a command line are read from left to right. A setting waits for its values: the next
word that is no key, or two for a stretch. Its values are checked when it is closed, which happens
at the latest when the next key or the end is reached; a notice counts only if all before it is
right. Settings that exclude each other are looked at last.
-/
namespace RasterTile.CommandLine

/-- Why there are no arguments: the words are refused, or they ask for a text. -/
inductive Halt where
  | misuse
  | notice (n : Notice)
  deriving DecidableEq, Repr

structure Arguments where
  input : Option String
  inputDirectory : Option String
  output : Option String
  outputDirectory : Option String
  bands : Option BandOrder
  preset : Option Preset
  program : Option String
  styleJson : Option String
  pixelDepth : Option Nat
  config : Option String
  stretch : Option (List Float)
  log : Bool
  continueOnError : Bool
  deriving DecidableEq, Repr

namespace Arguments

def empty : Arguments :=
  ⟨none, none, none, none, none, none, none, none, none, none, none, false, false⟩

/-- The value of a setting that takes one word and may be given once. -/
def once (given : Option α) (read : String → Option α) : List String → Option α
  | [word] => if given.isNone then read word else none
  | _ => none

def path? (word : String) : Option String := if word = "" then none else some word

/-- The percentages of a stretch; those of a repeated stretch follow the earlier ones. -/
def percentages? (given : Option (List Float)) (words : List String) : Option (List Float) :=
  if words.isEmpty then none else (words.mapM Decimal.read?).map (given.getD [] ++ ·)

def set? (a : Arguments) (s : Setting) (words : List String) : Option Arguments :=
  match s with
  | .input => (once a.input path? words).map fun v => { a with input := some v }
  | .inputDirectory =>
    (once a.inputDirectory path? words).map fun v => { a with inputDirectory := some v }
  | .output => (once a.output path? words).map fun v => { a with output := some v }
  | .outputDirectory =>
    (once a.outputDirectory path? words).map fun v => { a with outputDirectory := some v }
  | .bands =>
    (once a.bands (fun w => (BandOrder.parse w).toOption) words).map fun v =>
      { a with bands := some v }
  | .preset => (once a.preset Preset.ofName? words).map fun v => { a with preset := some v }
  | .program => (once a.program path? words).map fun v => { a with program := some v }
  | .styleJson => (once a.styleJson some words).map fun v => { a with styleJson := some v }
  | .pixelDepth =>
    (once a.pixelDepth (fun w => Decimal.readWord? w.toList) words).map fun v =>
      { a with pixelDepth := some v }
  | .config => (once a.config path? words).map fun v => { a with config := some v }
  | .stretch => (percentages? a.stretch words).map fun v => { a with stretch := some v }

def turnOn? (a : Arguments) : Switch → Option Arguments
  | .log => if a.log then none else some { a with log := true }
  | .continueOnError => if a.continueOnError then none else some { a with continueOnError := true }

def conflict (a : Arguments) : Bool :=
  (a.input.isSome && a.inputDirectory.isSome) || (a.preset.isSome && a.program.isSome) ||
    (a.preset.isSome && a.styleJson.isSome) || (a.program.isSome && a.styleJson.isSome)

end Arguments

/-- What has been read: finished arguments, and the setting that waits with its values so far. -/
structure Reading where
  arguments : Arguments
  waiting : Option (Setting × List String)
  deriving DecidableEq, Repr

namespace Reading

def orMisuse (x : Option α) : Except Halt α :=
  match x with
  | some a => .ok a
  | none => .error .misuse

def close (r : Reading) : Except Halt Arguments :=
  match r.waiting with
  | none => .ok r.arguments
  | some (s, words) => orMisuse (r.arguments.set? s words)

/-- A word that is no key is a value of the waiting setting. -/
def value (r : Reading) (word : String) : Except Halt Reading := do
  let (s, words) ← orMisuse r.waiting
  let next : Reading := { r with waiting := some (s, words ++ [word]) }
  if words.length + 1 < s.capacity then return next
  else return ⟨← next.close, none⟩

def key (r : Reading) (k : Key) (attached : Option String) : Except Halt Reading :=
  match k with
  | .setting s => do
    let a ← r.close
    match attached with
    | none => return ⟨a, some (s, [])⟩
    | some word => return ⟨← orMisuse (a.set? s [word]), none⟩
  | .switch s =>
    if attached.isSome then .error .misuse
    else do return ⟨← orMisuse ((← r.close).turnOn? s), none⟩
  | .notice n =>
    if attached.isSome then .error .misuse
    else do
      let _ ← r.close
      throw (.notice n)

/-- A stretch that waits for a value takes a negative number as one. -/
def takesNumber (r : Reading) : Bool := r.waiting.any fun (s, _) => s == .stretch

/-- Reads one word other than two hyphens alone. -/
def word (r : Reading) (text : String) : Except Halt Reading :=
  match Form.of text.toList with
  | .long name attached => do
    r.key (← orMisuse (Key.ofName? name)) (attached.map String.ofList)
  | .short letter rest =>
    if r.takesNumber && isNumberShaped (letter :: rest) then r.value text
    else do
      match ← orMisuse (Key.ofLetter? letter), rest with
      | .setting s, '=' :: attached => r.key (.setting s) (some (String.ofList attached))
      | .setting s, c :: attached => r.key (.setting s) (some (String.ofList (c :: attached)))
      | k, _ => r.key k none
  | .stop | .plain => r.value text

/-- Reads all words. Two hyphens alone end the keys, and there is nothing that could follow. -/
def words (r : Reading) : List String → Except Halt Arguments
  | [] => r.close
  | text :: rest =>
    if Form.of text.toList = .stop then
      if rest.isEmpty then r.close else .error .misuse
    else do (← r.word text).words rest

end Reading

def Arguments.ofWords (words : List String) : Except Halt Arguments := do
  let a ← Reading.words ⟨.empty, none⟩ words
  if a.conflict then throw .misuse else return a

end RasterTile.CommandLine
