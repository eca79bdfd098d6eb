import RasterTile.Style.Program.Error

/-!
# From a line to tokens

Blanks separate tokens and are dropped. A number swallows every digit and point that follows it,
a word every letter, digit and underscore; a point starts a number only before a digit.
-/
namespace RasterTile.Program

def isWordStart (c : Char) : Bool := c.isAlpha || c == '_'

def isWordPart (c : Char) : Bool := c.isAlphanum || c == '_'

def isNumberPart (c : Char) : Bool := c.isDigit || c == '.'

def startsNumber (c : Char) (rest : List Char) : Bool :=
  c.isDigit || (c == '.' && rest.head?.any Char.isDigit)

/-- A name: a letter or underscore, then letters, digits and underscores. -/
def isName : List Char → Bool
  | [] => false
  | c :: cs => isWordStart c && cs.all isWordPart

theorem length_dropWhile_lt (p : Char → Bool) (c : Char) (cs : List Char) :
    (cs.dropWhile p).length < (c :: cs).length :=
  Nat.lt_succ_of_le (List.dropWhile_sublist p).length_le

def tokenize : List Char → Except Fault (List Token)
  | [] => .ok []
  | c :: cs =>
    if Text.isBlank c then tokenize cs
    else match Token.ofSymbol? c with
      | some t => (tokenize cs).map (t :: ·)
      | none =>
        if startsNumber c cs then
          let text := c :: cs.takeWhile isNumberPart
          match Numeral.ofText? text with
          | some n => (tokenize (cs.dropWhile isNumberPart)).map (.number n :: ·)
          | none => .error (.badNumber text)
        else if c = '.' then (tokenize cs).map (.dot :: ·)
        else if isWordStart c then
          let name := String.ofList (c :: cs.takeWhile isWordPart)
          (tokenize (cs.dropWhile isWordPart)).map (.word name :: ·)
        else .error (.badCharacter c)
  termination_by cs => cs.length
  decreasing_by all_goals first | exact length_dropWhile_lt _ _ _ | simp

end RasterTile.Program
