import RasterTile.Decimal.Numeral
import RasterTile.Json

/-!
# Number literals

A literal without fraction and exponent that fits 64 bits is a whole number. Any other is read in
two roundings: as many leading digits as fit 64 bits are taken as a whole number and rounded to a
double, which is then multiplied or divided by a power of ten. The result can differ in the last
place from the nearest double. A literal beyond the largest double denotes nothing.
-/
namespace RasterTile.Json

/-- The pieces of a literal: an exponent is a sign and digits. -/
structure Literal where
  negative : Bool
  whole : List Char
  fraction : List Char
  exponent : Option (Bool × List Char)
  isPlain : Bool
  deriving DecidableEq, Repr

namespace Literal

/-- Appends digits to a 64-bit number until one does not fit, and counts those left over. -/
def absorb (n : Nat) : List Char → Nat × Nat
  | [] => (n, 0)
  | d :: ds =>
    let next := 10 * n + (d.toNat - '0'.toNat)
    if next < UInt64.size then absorb next ds else (n, ds.length + 1)

def powerOfTen (e : Nat) : Float := Float.ofScientific 1 false e

/-- Division by `10 ^ e`, in steps of at most `10 ^ 308`. -/
def shrink (x : Float) (e : Nat) : Float :=
  if e ≤ 308 then x / powerOfTen e
  else if x == 0 then x
  else shrink (x / powerOfTen 308) (e - 308)
  termination_by e

/-- Multiplication by `10 ^ e`, which must stay finite. -/
def grow (x : Float) (e : Nat) : Option Float :=
  if e ≤ 308 then
    let y := x * powerOfTen e
    if y.isFinite then some y else none
  else if x == 0 then some x else none

def magnitude (l : Literal) : Option Float :=
  let (leading, skipped) := absorb 0 l.whole
  let (significand, unread) := absorb leading l.fraction
  let place : Int := (skipped : Int) - (l.fraction.length - unread : Nat)
  let x := Float.ofNat significand
  let scaled (e : Int) : Option Float := if 0 ≤ e then grow x e.toNat else some (shrink x (-e).toNat)
  match l.exponent with
  | none => scaled place
  | some (negative, digits) =>
    let e := Decimal.ofDigits digits
    if e < Nat.pow 2 31 then
      let total := place + (if negative then -(e : Int) else e)
      scaled (max (-0x80000000) (min total 0x7fffffff))
    else if significand = 0 ∨ negative then some 0
    else none

/-- The value of a literal. Minus zero is not a whole number. -/
def value (l : Literal) : Json :=
  let n := Decimal.ofDigits l.whole
  if l.isPlain ∧ !l.negative ∧ n < UInt64.size then .whole n
  else if l.isPlain ∧ l.negative ∧ 0 < n ∧ n ≤ Nat.pow 2 63 then .whole (-n)
  else match l.magnitude with
    | some x => .real (if l.negative then -x else x)
    | none => .unreadable

end Literal
end RasterTile.Json
