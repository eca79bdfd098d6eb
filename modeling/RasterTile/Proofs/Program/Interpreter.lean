import RasterTile.Proofs.Program.Grammar
import RasterTile.Style.Program

/-!
# What a program means

A program is read as a list of statements, each a name and an expression as it was written. They
are run in order against an environment of names: nothing is folded, names are looked up when they
are used, and a statement overwrites what its name stood for. The outputs are the floors of what
four of the names stand for at the end.
-/
namespace RasterTile.Program

structure Statement where
  name : String
  expr : Expr
  deriving DecidableEq, Repr

def Statement.IsLine (st : Statement) (text : List Char) : Prop :=
  ∃ left body tokens, Text.cutAt [':', '='] text = some (left, body) ∧
    isName (Text.trim left) = true ∧ String.ofList (Text.trim left) = st.name ∧
    tokenize body = .ok tokens ∧ Spells .sum tokens st.expr

def texts (lines : List (List Char)) : List (List Char) :=
  (lines.map Text.trim).filter fun text => !text.isEmpty

/-- The statements of a source text, one for each line that is not blank. -/
def Says (source : String) (sts : List Statement) : Prop :=
  List.Forall₂ Statement.IsLine sts (texts (Text.splitOn '\n' source.toList))

abbrev Environment := String → Option Float

namespace Environment

def empty : Environment := fun _ => none

def put (env : Environment) (name : String) (v : Float) : Environment :=
  fun n => if n = name then some v else env n

@[simp] theorem put_same (env : Environment) (name : String) (v : Float) :
    env.put name v name = some v := if_pos rfl

theorem put_other (env : Environment) {name n : String} (v : Float) (h : n ≠ name) :
    env.put name v n = env n := if_neg h

end Environment

structure Setting where
  ranges : List BandRange
  order : BandOrder
  pixel : List Float

namespace Setting

/-- The entry of a table at an index: a raw value, or a bound of a range. -/
def entry? (g : Setting) : Table → Nat → Option Float
  | .bands, i => g.pixel[i]?
  | .low, i => (g.ranges[i]?.bind BandRange.low).map UInt32.toFloat
  | .high, i => (g.ranges[i]?.bind BandRange.high).map UInt32.toFloat

def position? (g : Setting) (name : String) : Option Nat :=
  match name.toList with
  | [letter] => (Band.ofChar? letter).bind fun b => g.order.idxOf? b
  | _ => none

end Setting

/-- The value of an expression, if everything that it refers to is there. -/
def Expr.eval (g : Setting) (env : Environment) : Expr → Option Float
  | .number x => some x
  | .plus e => e.eval g env
  | .negate e => (e.eval g env).map (- ·)
  | .binary op l r => (l.eval g env).bind fun x => (r.eval g env).map fun y => op.apply x y
  | .select table e => (e.eval g env).bind fun v => g.entry? table v.toUInt64.toNat
  | .position name => (g.position? name).map Float.ofNat
  | .result name => env name

def run (g : Setting) (env : Environment) : List Statement → Option Environment
  | [] => some env
  | st :: sts => (st.expr.eval g env).bind fun v => run g (env.put st.name v) sts

/-- Floors of `red`, `green` and `blue`, and of `alpha` if there is one, in the first slots. -/
def outputs (pixel : List Float) (env : Environment) : Option (List Float) :=
  match env "red", env "green", env "blue" with
  | some r, some g, some b =>
    let colored := ((pixel.set 0 (Rounding.down r)).set 1 (Rounding.down g)).set 2 (Rounding.down b)
    some ((env "alpha").elim colored fun a => colored.set 3 (Rounding.down a))
  | _, _, _ => none

def interpret (g : Setting) (sts : List Statement) : Option (List Float) :=
  (run g .empty sts).bind (outputs g.pixel)

/-- A line makes one statement. -/
theorem Statement.IsLine.unique {st st' : Statement} {text : List Char} (h : st.IsLine text)
    (h' : st'.IsLine text) : st = st' := by
  obtain ⟨left, body, tokens, hcut, _, hname, htokens, hexpr⟩ := h
  obtain ⟨left', body', tokens', hcut', _, hname', htokens', hexpr'⟩ := h'
  rw [hcut, Option.some.injEq, Prod.mk.injEq] at hcut'
  obtain ⟨rfl, rfl⟩ := hcut'
  rw [htokens, Except.ok.injEq] at htokens'
  subst htokens'
  have he := hexpr.expr_unique hexpr'
  have hn := hname.symm.trans hname'
  cases st
  cases st'
  subst he hn
  rfl

/-- A source text says one thing. -/
theorem Says.unique {source : String} {sts sts' : List Statement} (h : Says source sts)
    (h' : Says source sts') : sts = sts' := by
  unfold Says at h h'
  generalize texts (Text.splitOn '\n' source.toList) = lines at h h'
  induction h generalizing sts' with
  | nil =>
    cases h'
    rfl
  | cons hst _ ih =>
    cases h' with
    | cons hst' hrest' => rw [hst.unique hst', ih hrest']

end RasterTile.Program
