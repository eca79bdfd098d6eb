import RasterTile.Rounding

/-!
# JSON values

A whole number is kept apart from one written with a fraction or an exponent: only the former can
be a count. An object keeps its fields in order, repeated ones included, so that whoever reads it
can refuse a repetition. Text can be well formed and still denote nothing: a number beyond the
largest double, or half of a surrogate pair. Such a value is `unreadable`, which is harmless as
long as nobody asks for it.
-/
namespace RasterTile

inductive Json where
  | null
  | bool (b : Bool)
  /-- From `-2 ^ 63` up to `2 ^ 64 - 1`. -/
  | whole (n : Int)
  | real (x : Float)
  | string (s : String)
  | array (items : List Json)
  | object (fields : List (String × Json))
  | unreadable
  deriving Repr

namespace Json

mutual

/-- Whether every value inside denotes something. -/
def isReadable : Json → Bool
  | .unreadable => false
  | .array items => areReadable items
  | .object fields => fieldsReadable fields
  | _ => true

def areReadable : List Json → Bool
  | [] => true
  | v :: vs => v.isReadable && areReadable vs

def fieldsReadable : List (String × Json) → Bool
  | [] => true
  | (_, v) :: fs => v.isReadable && fieldsReadable fs

end

mutual

def depth : Json → Nat
  | .array items => depthOfItems items + 1
  | .object fields => depthOfFields fields + 1
  | _ => 0

def depthOfItems : List Json → Nat
  | [] => 0
  | v :: vs => max v.depth (depthOfItems vs)

def depthOfFields : List (String × Json) → Nat
  | [] => 0
  | (_, v) :: fs => max v.depth (depthOfFields fs)

end

/-- The value of a field that may be absent, but not repeated. -/
def lookup (name : String) (fields : List (String × Json)) : Option (Option Json) :=
  match fields.filter (·.1 == name) with
  | [] => some none
  | [(_, v)] => some (some v)
  | _ => none

/-- The values of the named fields of an object; other fields do not matter. -/
def fields? (names : List String) : Json → Option (List (Option Json))
  | .object fields => names.mapM (lookup · fields)
  | _ => none

/-- The values of the named fields of a record, which may also be written as the list of its
leading fields in order. -/
def record? (names : List String) : Json → Option (List (Option Json))
  | .array items =>
    if items.length ≤ names.length then
      some (items.map some ++ List.replicate (names.length - items.length) none)
    else none
  | v => v.fields? names

def string? : Json → Option String
  | .string s => some s
  | _ => none

def array? : Json → Option (List Json)
  | .array items => some items
  | _ => none

def nat? (limit : Nat) : Json → Option Nat
  | .whole n => if 0 ≤ n ∧ n < limit then some n.toNat else none
  | _ => none

def float? : Json → Option Float
  | .whole n => some (Float.ofInt n)
  | .real x => some x
  | _ => none

/-- A number rounded to single precision, in one step. -/
def single? : Json → Option Float
  | .whole n => some (Rounding.singleOfInt n)
  | .real x => some (Rounding.single x)
  | _ => none

def nullable? (read : Json → Option α) : Json → Option (Option α)
  | .null => some none
  | v => (read v).map some

def optional? (read : Json → Option α) : Option Json → Option (Option α)
  | none => some none
  | some v => nullable? read v

def withDefault? (default : α) (read : Json → Option α) : Option Json → Option α
  | none => some default
  | some v => read v

def list? (read : Json → Option α) (v : Json) : Option (List α) := v.array?.bind (·.mapM read)

/-- A number as JSON; what JSON cannot write is null. -/
def ofFloat (x : Float) : Json := if x.isFinite then .real x else .null

def ofNat (n : Nat) : Json := .whole n

def ofList (write : α → Json) (xs : List α) : Json := .array (xs.map write)

def ofOption (write : α → Json) : Option α → Json
  | none => .null
  | some x => write x

end Json
end RasterTile
