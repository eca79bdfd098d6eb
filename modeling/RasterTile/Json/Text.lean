import RasterTile.Json.Number

/-!
# Reading JSON text

Each function reads from the front of the text and hands back the rest, which is shorter. What it
accepts is the grammar of JSON; whether a number or a string denotes anything is another matter,
and shows in the value.
-/
namespace RasterTile.Json

/-- A piece of a string: a character, or a 16-bit unit from an escape. -/
inductive Piece where
  | char (c : Char)
  | unit (n : Nat)
  deriving DecidableEq, Repr

/-- The text of a string, in which escaped surrogates have to come in pairs. -/
def Piece.decode : List Piece → Option (List Char)
  | [] => some []
  | .char c :: rest => (decode rest).map (c :: ·)
  | .unit n :: rest =>
    if n < 0xd800 ∨ 0xdfff < n then (decode rest).map (Char.ofNat n :: ·)
    else match rest with
      | .unit m :: rest' =>
        if n < 0xdc00 ∧ 0xdc00 ≤ m ∧ m ≤ 0xdfff then
          (decode rest').map (Char.ofNat (0x10000 + (n - 0xd800) * 0x400 + (m - 0xdc00)) :: ·)
        else none
      | _ => none

namespace Text

/-- The rest of a text of length `n` after something has been read from its front. -/
abbrev Rest (n : Nat) := { cs : List Char // cs.length < n }

def isSpace (c : Char) : Bool := c == ' ' || c == '\n' || c == '\t' || c == '\r'

def token : (cs : List Char) → Option (Char × Rest cs.length)
  | [] => none
  | c :: rest =>
    if isSpace c then (token rest).map fun (d, after) => (d, ⟨after, by have := after.2; simp; omega⟩)
    else some (c, ⟨rest, by simp⟩)

def hexDigit? (c : Char) : Option Nat :=
  if c.isDigit then some (c.toNat - '0'.toNat)
  else if 'a' ≤ c ∧ c ≤ 'f' then some (c.toNat - 'a'.toNat + 10)
  else if 'A' ≤ c ∧ c ≤ 'F' then some (c.toNat - 'A'.toNat + 10)
  else none

def unit? (a b c d : Char) : Option Nat := do
  return (((← hexDigit? a) * 16 + (← hexDigit? b)) * 16 + (← hexDigit? c)) * 16 + (← hexDigit? d)

def escape? : Char → Option Char
  | '"' => some '"'
  | '\\' => some '\\'
  | '/' => some '/'
  | 'b' => some '\x08'
  | 'f' => some '\x0c'
  | 'n' => some '\n'
  | 'r' => some '\r'
  | 't' => some '\t'
  | _ => none

/-- A string after its opening quote, in a text no longer than `n`. -/
def pieces (n : Nat) (done : List Piece) (cs : List Char) (h : cs.length ≤ n) :
    Option (List Piece × Rest n) :=
  match cs with
  | [] => none
  | '"' :: rest => some (done.reverse, ⟨rest, by simp at h; omega⟩)
  | '\\' :: 'u' :: a :: b :: c :: d :: rest =>
    match unit? a b c d with
    | some u => pieces n (.unit u :: done) rest (by simp at h; omega)
    | none => none
  | '\\' :: e :: rest =>
    match escape? e with
    | some c => pieces n (.char c :: done) rest (by simp at h; omega)
    | none => none
  | c :: rest =>
    if c.toNat < 0x20 ∨ c = '\\' then none
    else pieces n (.char c :: done) rest (by simp at h; omega)

def digits (cs : List Char) : Option (List Char × Rest cs.length) :=
  match cs with
  | [] => none
  | c :: rest =>
    if c.isDigit then
      some (c :: rest.takeWhile Char.isDigit, ⟨rest.dropWhile Char.isDigit,
        Nat.lt_succ_of_le (List.dropWhile_sublist _).length_le⟩)
    else none

def fraction (cs : List Char) : Option (List Char × { rest : List Char // rest.length ≤ cs.length }) :=
  match cs with
  | '.' :: rest => do
    let (ds, after) ← digits rest
    return (ds, ⟨after, by have := after.2; simp; omega⟩)
  | rest => some ([], ⟨rest, Nat.le_refl _⟩)

def exponent (cs : List Char) :
    Option (Option (Bool × List Char) × { rest : List Char // rest.length ≤ cs.length }) :=
  match cs with
  | c :: rest =>
    if c = 'e' ∨ c = 'E' then do
      let (ds, after) ← digits (Decimal.splitSign rest).2
      return (some ((Decimal.splitSign rest).1, ds), ⟨after, by
        have := after.2; have := Decimal.length_splitSign_le rest; simp; omega⟩)
    else some (none, ⟨c :: rest, Nat.le_refl _⟩)
  | [] => some (none, ⟨[], Nat.le_refl _⟩)

/-- A number without its sign. A leading zero stands alone. -/
def literal (negative : Bool) (cs : List Char) : Option (Json × Rest cs.length) := do
  let (ds, afterWhole) ← digits cs
  if ds.head? = some '0' ∧ 1 < ds.length then none
  let (frac, afterFraction) ← fraction afterWhole
  let (exp, rest) ← exponent afterFraction
  let l : Literal := ⟨negative, ds, frac, exp, frac.isEmpty && exp.isNone⟩
  return (l.value, ⟨rest, by have := afterWhole.2; have := afterFraction.2; have := rest.2; omega⟩)

def number (cs : List Char) : Option (Json × Rest cs.length) :=
  match cs with
  | '-' :: rest => do
    let (v, after) ← literal true rest
    return (v, ⟨after, by have := after.2; simp; omega⟩)
  | rest => literal false rest

/-- The value of a string; a text that denotes nothing is unreadable. -/
def stringValue (ps : List Piece) : Json :=
  match Piece.decode ps with
  | some s => .string (String.ofList s)
  | none => .unreadable

/-- An object is unreadable when one of its keys is. -/
def objectValue (fields : List (List Piece × Json)) : Json :=
  match fields.mapM fun (k, v) => (Piece.decode k).map fun s => (String.ofList s, v) with
  | some fs => .object fs
  | none => .unreadable

def keyword (v : Json) (letters cs : List Char) : Option (Json × { rest : List Char // rest.length ≤ cs.length }) :=
  match letters, cs with
  | [], rest => some (v, ⟨rest, Nat.le_refl _⟩)
  | l :: ls, c :: rest =>
    if l = c then
      (keyword v ls rest).map fun (w, after) => (w, ⟨after, by have := after.2; simp; omega⟩)
    else none
  | _ :: _, [] => none

mutual

def value (cs : List Char) : Option (Json × Rest cs.length) :=
  match token cs with
  | none => none
  | some (c, ⟨rest, h⟩) =>
    if c = '"' then
      (pieces _ [] rest (Nat.le_of_lt h)).map fun (ps, after) => (stringValue ps, after)
    else if c = '[' then
      match token rest with
      | some (']', ⟨after, h'⟩) => some (.array [], ⟨after, by omega⟩)
      | _ => (items cs.length [] rest (by omega)).map fun (vs, after) => (.array vs, after)
    else if c = '{' then
      match token rest with
      | some ('}', ⟨after, h'⟩) => some (.object [], ⟨after, by omega⟩)
      | _ => (members cs.length [] rest (by omega)).map fun (fs, after) => (objectValue fs, after)
    else
      let named (v : Json) (letters : List Char) : Option (Json × Rest cs.length) :=
        (keyword v letters rest).map fun (w, after) => (w, ⟨after, by have := after.2; omega⟩)
      match c with
      | 'n' => named .null ['u', 'l', 'l']
      | 't' => named (.bool true) ['r', 'u', 'e']
      | 'f' => named (.bool false) ['a', 'l', 's', 'e']
      | _ => (number (c :: rest)).map fun (v, after) =>
        (v, ⟨after, by have := after.2; simp at this; omega⟩)
  termination_by 2 * cs.length

/-- The items of an array from a value on, up to its closing bracket, in a text no longer
than `n`. -/
def items (n : Nat) (done : List Json) (cs : List Char) (h : cs.length ≤ n) :
    Option (List Json × Rest n) :=
  match value cs with
  | none => none
  | some (v, ⟨afterValue, hv⟩) =>
    match token afterValue with
    | some (']', ⟨rest, hr⟩) => some ((v :: done).reverse, ⟨rest, by omega⟩)
    | some (',', ⟨rest, hr⟩) => items n (v :: done) rest (by omega)
    | _ => none
  termination_by 2 * cs.length + 1

/-- The fields of an object from a key on, up to its closing brace, in a text no longer
than `n`. -/
def members (n : Nat) (done : List (List Piece × Json)) (cs : List Char) (h : cs.length ≤ n) :
    Option (List (List Piece × Json) × Rest n) :=
  match token cs with
  | some ('"', ⟨rest, hq⟩) =>
    match pieces _ [] rest (Nat.le_refl _) with
    | none => none
    | some (key, ⟨afterKey, hk⟩) =>
      match token afterKey with
      | some (':', ⟨afterColon, hc⟩) =>
        match value afterColon with
        | none => none
        | some (v, ⟨afterValue, hv⟩) =>
          match token afterValue with
          | some ('}', ⟨after, hn⟩) => some (((key, v) :: done).reverse, ⟨after, by omega⟩)
          | some (',', ⟨after, hn⟩) => members n ((key, v) :: done) after (by omega)
          | _ => none
      | _ => none
  | _ => none
  termination_by 2 * cs.length + 1

end

end Text

/-- The value of a whole text: one value, with blanks around it. -/
def parse (text : List Char) : Option Json := do
  let (v, rest) ← Text.value text
  if rest.1.all Text.isSpace then some v else none

end RasterTile.Json
