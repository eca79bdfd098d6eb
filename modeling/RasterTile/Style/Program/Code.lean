import RasterTile.Style.Program.Token

/-!
# Compiled expressions

What is left of an expression once names are positions and constants are folded: numbers, raw
values by slot, and earlier results by position.
-/
namespace RasterTile.Program

inductive Code where
  | number (value : Float)
  | slot (index : Nat)
  | result (index : Nat)
  | negate (inner : Code)
  | binary (op : Operator) (left right : Code)
  deriving DecidableEq, Repr

namespace Code

/-- Negation, folded into a number. -/
def neg : Code → Code
  | .number x => .number (-x)
  | e => .negate e

/-- An operation, folded when both sides are numbers. -/
def bin (op : Operator) : Code → Code → Code
  | .number l, .number r => .number (op.apply l r)
  | l, r => .binary op l r

def eval (pixel results : List Float) : Code → Float
  | .number x => x
  | .slot i => pixel[i]?.getD 0
  | .result i => results[i]?.getD (Float.ofBits 0x7ff8000000000000)
  | .negate e => -(e.eval pixel results)
  | .binary op l r => op.apply (l.eval pixel results) (r.eval pixel results)

@[simp] theorem eval_neg (pixel results : List Float) (e : Code) :
    (neg e).eval pixel results = -(e.eval pixel results) := by
  cases e <;> rfl

@[simp] theorem eval_bin (pixel results : List Float) (op : Operator) (l r : Code) :
    (bin op l r).eval pixel results = op.apply (l.eval pixel results) (r.eval pixel results) := by
  cases l <;> cases r <;> rfl

end Code
end RasterTile.Program
