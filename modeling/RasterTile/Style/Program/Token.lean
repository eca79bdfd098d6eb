import RasterTile.Decimal.Layout
import RasterTile.Decimal.Numeral

/-!
# Tokens of the style language

A token keeps the text it was written with, numerals included, so that the written forms of the
tokens of a line are the line without its blanks.
-/
namespace RasterTile.Program

inductive Operator where
  | add | sub | mul | div
  deriving DecidableEq, Repr

namespace Operator

def symbol : Operator → Char
  | .add => '+'
  | .sub => '-'
  | .mul => '*'
  | .div => '/'

def apply : Operator → Float → Float → Float
  | .add, l, r => l + r
  | .sub, l, r => l - r
  | .mul, l, r => l * r
  | .div, l, r => l / r

end Operator

inductive Token where
  | number (n : Numeral)
  | word (name : String)
  | op (o : Operator)
  | openParen
  | closeParen
  | openBracket
  | closeBracket
  | dot
  deriving DecidableEq, Repr

namespace Token

def text : Token → List Char
  | .number n => n.text
  | .word name => name.toList
  | .op o => [o.symbol]
  | .openParen => ['(']
  | .closeParen => [')']
  | .openBracket => ['[']
  | .closeBracket => [']']
  | .dot => ['.']

def shown : Token → String
  | .number n => s!"Number({Decimal.Layout.quoted.write n.value})"
  | .word name => s!"Ident(\"{name}\")"
  | .op o => s!"Op('{o.symbol}')"
  | .openParen => "LParen"
  | .closeParen => "RParen"
  | .openBracket => "LBracket"
  | .closeBracket => "RBracket"
  | .dot => "Dot"

/-- The tokens that are one character wherever they stand. -/
def ofSymbol? : Char → Option Token
  | '+' => some (.op .add)
  | '-' => some (.op .sub)
  | '*' => some (.op .mul)
  | '/' => some (.op .div)
  | '(' => some .openParen
  | ')' => some .closeParen
  | '[' => some .openBracket
  | ']' => some .closeBracket
  | _ => none

end Token
end RasterTile.Program
