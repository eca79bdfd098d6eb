import RasterTile.Text.Blank

/-!
# Reading decimal numerals

A numeral is digits with at most one point among them and at least one digit. Its value is the
double nearest to the number it denotes, ties going to the even mantissa.
-/
namespace RasterTile

namespace Decimal

def ofDigits (cs : List Char) : Nat := cs.foldl (fun n c => 10 * n + (c.toNat - '0'.toNat)) 0

/-- The double nearest to `digits · 10 ^ exponent`. Exponents so large or so small that the digits
no longer matter are cut down first. -/
def nearest (digits : List Char) (exponent : Int) : Float :=
  let floor : Int := -(400 + digits.length)
  let e := max floor (min exponent 400)
  Float.ofScientific (ofDigits digits) (e < 0) e.natAbs

end Decimal

/-- `whole`, `whole.` or `whole.fraction`, where one of the two may have no digits. -/
structure Numeral where
  whole : List Char
  fraction : Option (List Char)
  deriving DecidableEq, Repr

namespace Numeral

def text (n : Numeral) : List Char :=
  match n.fraction with
  | none => n.whole
  | some f => n.whole ++ '.' :: f

def ofText? (cs : List Char) : Option Numeral :=
  match Text.splitOn '.' cs with
  | [whole] => if whole.isEmpty then none else some ⟨whole, none⟩
  | [whole, fraction] =>
    if whole.isEmpty && fraction.isEmpty then none else some ⟨whole, some fraction⟩
  | _ => none

def value (n : Numeral) : Float :=
  let fraction := n.fraction.getD []
  Decimal.nearest (n.whole ++ fraction) (-fraction.length)

end Numeral

namespace Decimal

def splitSign : List Char → Bool × List Char
  | '-' :: cs => (true, cs)
  | '+' :: cs => (false, cs)
  | cs => (false, cs)

theorem length_splitSign_le (cs : List Char) : (splitSign cs).2.length ≤ cs.length := by
  unfold splitSign
  split <;> simp

def isDigits (cs : List Char) : Bool := !cs.isEmpty && cs.all Char.isDigit

def exponent? (cs : List Char) : Option Int :=
  let (negative, digits) := splitSign cs
  if isDigits digits then
    some (if negative then -(ofDigits digits : Int) else ofDigits digits)
  else none

/-- A numeral with an optional exponent, such as `12`, `.5`, `3.` or `1.5e-7`. -/
def unsigned? (cs : List Char) : Option Float := do
  let mantissa := cs.takeWhile fun c => c ≠ 'e' ∧ c ≠ 'E'
  let exponent ← match cs.drop mantissa.length with
    | [] => some 0
    | _ :: rest => exponent? rest
  if mantissa.all fun c => c.isDigit || c == '.' then
    let n ← Numeral.ofText? mantissa
    let fraction := n.fraction.getD []
    some (nearest (n.whole ++ fraction) (exponent - fraction.length))
  else none

/-- A signed number; `inf`, `infinity` and `nan` may be spelled in any letter case. -/
def read? (text : String) : Option Float :=
  let (negative, cs) := splitSign text.toList
  let magnitude :=
    match String.ofList (cs.map Char.toLower) with
    | "inf" | "infinity" => some (Float.ofBits 0x7ff0000000000000)
    | "nan" => some (Float.ofBits 0x7ff8000000000000)
    | _ => unsigned? cs
  magnitude.map fun x => if negative then -x else x

/-- A natural number below `2 ^ 64`: digits, with an optional `+` in front. -/
def readWord? (cs : List Char) : Option Nat :=
  let digits := match cs with
    | '+' :: rest => rest
    | all => all
  if isDigits digits && ofDigits digits < UInt64.size then some (ofDigits digits) else none

end Decimal
end RasterTile
