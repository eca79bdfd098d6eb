import RasterTile.Band
import RasterTile.BandRange
import RasterTile.Style.Program.Code
import RasterTile.Style.Program.Error

/-!
# The expression parser

    sum       = product (("+" | "-") product)*
    product   = factor (("*" | "/") factor)*
    factor    = number | "(" sum ")" | "-" factor | "+" factor | reference
    reference = "bands" index | "vmin" index | "vmax" index
              | "bandmap" "." name | "results" "." name
    index     = "[" sum "]"

Each function reads from the front of the tokens and hands back what it did not use. A reference
is checked and an operation folded as soon as it has been read, so the first fault from the left
is the one reported. Everything but raw values and earlier results is a constant, and an index
has to be one.
-/
namespace RasterTile.Program

structure Scope where
  ranges : List BandRange
  bands : BandMap
  /-- The names bound on earlier lines, in order. -/
  earlier : List String

/-- Code read from the front of a token list, and the tokens after it, of which there are fewer
than `bound`. -/
structure Parsed (bound : Nat) where
  code : Code
  rest : List Token
  fewer : rest.length < bound

namespace Parser

def lastIndex? (name : String) : List String → Option Nat
  | [] => none
  | n :: names =>
    match lastIndex? name names with
    | some i => some (i + 1)
    | none => if n = name then some 0 else none

def expect (token : Token) (what : Wanted) (ts : List Token) :
    Except Fault { rest : List Token // rest.length < ts.length } :=
  match ts with
  | [] => .error (.expected what none)
  | t :: rest => if t = token then .ok ⟨rest, by simp⟩ else .error (.expected what (some t))

def name (ts : List Token) : Except Fault (String × { rest : List Token // rest.length < ts.length }) :=
  match ts with
  | .word w :: rest => .ok (w, ⟨rest, by simp⟩)
  | t :: _ => .error (.expected .name (some t))
  | [] => .error (.expected .name none)

/-- The position that an index stands for: a constant whole number below `2 ^ 32`. -/
def position (table : Table) : Code → Except Fault Nat
  | .number v =>
    if 0 ≤ v ∧ v.toUInt64.toFloat == v ∧ v ≤ 4294967295 then .ok v.toUInt64.toNat
    else .error (.indexOutOfRange table v)
  | _ => .error .nonConstantIndex

def slot (s : Scope) (i : Nat) : Except Fault Code :=
  if i < s.bands.count then .ok (.slot i) else .error (.indexOutOfRange .bands (Float.ofNat i))

def rangeBound (s : Scope) (table : Table) (i : Nat) : Except Fault Code :=
  match s.ranges[i]? with
  | none => .error (.indexOutOfRange table (Float.ofNat i))
  | some range =>
    match range.bounds with
    | none => .error (.rangeUnavailable i)
    | some (low, high) => .ok (.number (if table = .low then low else high).toFloat)

def bandPosition (s : Scope) (name : String) : Except Fault Code :=
  match name.toList with
  | [c] =>
    match (Band.ofChar? c).bind s.bands.position? with
    | some i => .ok (.number (Float.ofNat i))
    | none => .error (.unknownBand name)
  | _ => .error (.unknownBand name)

def earlierResult (s : Scope) (name : String) : Except Fault Code :=
  match lastIndex? name s.earlier with
  | some i => .ok (.result i)
  | none => .error (.unknownResult name)

def select (s : Scope) : Table → Nat → Except Fault Code
  | .bands, i => slot s i
  | table, i => rangeBound s table i

mutual

def sum (s : Scope) (ts : List Token) : Except Fault (Parsed ts.length) := do
  let first ← product s ts
  have := first.fewer
  let all ← sumRest s first.code first.rest
  return ⟨all.code, all.rest, by have := all.fewer; omega⟩
  termination_by 4 * ts.length + 3

def sumRest (s : Scope) (left : Code) (ts : List Token) : Except Fault (Parsed (ts.length + 1)) :=
  match ts with
  | .op .add :: rest => do
    let right ← product s rest
    have := right.fewer
    let all ← sumRest s (.bin .add left right.code) right.rest
    return ⟨all.code, all.rest, by have := all.fewer; simp; omega⟩
  | .op .sub :: rest => do
    let right ← product s rest
    have := right.fewer
    let all ← sumRest s (.bin .sub left right.code) right.rest
    return ⟨all.code, all.rest, by have := all.fewer; simp; omega⟩
  | rest => return ⟨left, rest, by simp⟩
  termination_by 4 * ts.length

def product (s : Scope) (ts : List Token) : Except Fault (Parsed ts.length) := do
  let first ← factor s ts
  have := first.fewer
  let all ← productRest s first.code first.rest
  return ⟨all.code, all.rest, by have := all.fewer; omega⟩
  termination_by 4 * ts.length + 2

def productRest (s : Scope) (left : Code) (ts : List Token) :
    Except Fault (Parsed (ts.length + 1)) :=
  match ts with
  | .op .mul :: rest => do
    let right ← factor s rest
    have := right.fewer
    let all ← productRest s (.bin .mul left right.code) right.rest
    return ⟨all.code, all.rest, by have := all.fewer; simp; omega⟩
  | .op .div :: rest => do
    let right ← factor s rest
    have := right.fewer
    let all ← productRest s (.bin .div left right.code) right.rest
    return ⟨all.code, all.rest, by have := all.fewer; simp; omega⟩
  | rest => return ⟨left, rest, by simp⟩
  termination_by 4 * ts.length

def factor (s : Scope) (ts : List Token) : Except Fault (Parsed ts.length) :=
  match ts with
  | .number n :: rest => return ⟨.number n.value, rest, by simp⟩
  | .openParen :: rest => do
    let inner ← sum s rest
    let after ← expect .closeParen .closeParen inner.rest
    return ⟨inner.code, after, by have := inner.fewer; have := after.2; simp; omega⟩
  | .op .sub :: rest => do
    let inner ← factor s rest
    return ⟨.neg inner.code, inner.rest, by have := inner.fewer; simp; omega⟩
  | .op .add :: rest => do
    let inner ← factor s rest
    return ⟨inner.code, inner.rest, by have := inner.fewer; simp; omega⟩
  | .word w :: rest => do
    let inner ← reference s w rest
    return ⟨inner.code, inner.rest, by have := inner.fewer; simp; omega⟩
  | t :: _ => .error (.unexpected (some t))
  | [] => .error (.unexpected none)
  termination_by 4 * ts.length + 1

def reference (s : Scope) (word : String) (ts : List Token) :
    Except Fault (Parsed ts.length) :=
  match word with
  | "bands" => indexed s .bands ts
  | "vmin" => indexed s .low ts
  | "vmax" => indexed s .high ts
  | "bandmap" => do
    let rest ← expect .dot (.dotAfter "bandmap") ts
    let (w, rest') ← name rest
    let code ← bandPosition s w
    return ⟨code, rest', by have := rest.2; have := rest'.2; omega⟩
  | "results" => do
    let rest ← expect .dot (.dotAfter "results") ts
    let (w, rest') ← name rest
    let code ← earlierResult s w
    return ⟨code, rest', by have := rest.2; have := rest'.2; omega⟩
  | other => .error (.unknownName other)
  termination_by 4 * ts.length + 1

def indexed (s : Scope) (table : Table) (ts : List Token) : Except Fault (Parsed ts.length) := do
  let rest ← expect .openBracket .openBracket ts
  have := rest.2
  let inner ← sum s rest
  let after ← expect .closeBracket .closeBracket inner.rest
  let i ← position table inner.code
  let code ← select s table i
  return ⟨code, after, by have := inner.fewer; have := after.2; omega⟩
  termination_by 4 * ts.length

end

end Parser

/-- The code of a whole line's expression; nothing may follow it. -/
def parse (s : Scope) (ts : List Token) : Except Fault Code := do
  let all ← Parser.sum s ts
  match all.rest with
  | [] => return all.code
  | t :: _ => throw (.trailing t)

end RasterTile.Program
