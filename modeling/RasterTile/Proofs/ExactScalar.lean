import Mathlib.Algebra.Order.Floor.Semiring
import Mathlib.Data.Rat.Floor
import Mathlib.Tactic.NormNum
import RasterTile.Scalar

/-!
# Arithmetic without rounding

The definitions that work on any scalars can be run on rational numbers. These have no largest value
and no smallest step, so nothing is rounded; infinities and a NaN are kept, since a band value may be
either, and they behave as those of doubles do. There is only one zero, and dividing by it is dividing
by a positive number too small to tell from it.
-/
namespace RasterTile

inductive Exact where
  | nan
  | infinite (negative : Bool)
  | rational (value : ℚ)
  deriving DecidableEq

namespace Exact

protected def add : Exact → Exact → Exact
  | .nan, _ | _, .nan => .nan
  | .rational p, .rational q => .rational (p + q)
  | .infinite s, .rational _ | .rational _, .infinite s => .infinite s
  | .infinite s, .infinite t => if s = t then .infinite s else .nan

protected def neg : Exact → Exact
  | .nan => .nan
  | .infinite s => .infinite !s
  | .rational q => .rational (-q)

protected def mul : Exact → Exact → Exact
  | .nan, _ | _, .nan => .nan
  | .rational p, .rational q => .rational (p * q)
  | .infinite s, .rational q | .rational q, .infinite s =>
    if q = 0 then .nan else .infinite (s ^^ decide (q < 0))
  | .infinite s, .infinite t => .infinite (s ^^ t)

protected def inverse : Exact → Exact
  | .nan => .nan
  | .infinite _ => .rational 0
  | .rational q => if q = 0 then .infinite false else .rational q⁻¹

protected def less : Exact → Exact → Bool
  | .nan, _ | _, .nan => false
  | .rational p, .rational q => decide (p < q)
  | .infinite s, .rational _ => s
  | .rational _, .infinite t => !t
  | .infinite s, .infinite t => s && !t

/-- The largest whole part that is told apart from larger ones. -/
def largestWhole : Nat := 2 ^ 64 - 1

protected def whole : Exact → Nat
  | .nan => 0
  | .infinite s => if s then 0 else largestWhole
  | .rational q => min ⌊q⌋₊ largestWhole

instance : Scalar Exact where
  zero := .rational 0
  add := Exact.add
  sub x y := x.add y.neg
  mul := Exact.mul
  div x y := x.mul y.inverse
  nat n := .rational n
  decimal digits places := .rational (digits / 10 ^ places)
  less := Exact.less
  whole := Exact.whole
  single x := x

variable {p q : ℚ} {x y : Exact} {n : Nat}

@[simp] theorem zero_eq : (0 : Exact) = .rational 0 := rfl

@[simp] theorem nat_eq : (Scalar.nat n : Exact) = .rational n := rfl

@[simp] theorem single_eq : Scalar.single x = x := rfl

@[simp] theorem rational_add : Exact.rational p + .rational q = .rational (p + q) := rfl

@[simp] theorem rational_sub : Exact.rational p - .rational q = .rational (p - q) :=
  congrArg Exact.rational (sub_eq_add_neg p q).symm

@[simp] theorem rational_mul : Exact.rational p * .rational q = .rational (p * q) := rfl

theorem rational_div (hq : q ≠ 0) : Exact.rational p / .rational q = .rational (p / q) := by
  have hinverse : (Exact.rational q).inverse = .rational q⁻¹ := if_neg hq
  calc Exact.rational p / .rational q
      = (Exact.rational p).mul (Exact.rational q).inverse := rfl
    _ = (Exact.rational p).mul (.rational q⁻¹) := by rw [hinverse]
    _ = .rational (p / q) := congrArg Exact.rational (div_eq_mul_inv p q).symm

@[simp] theorem less_rational : Scalar.less (Exact.rational p) (.rational q) = decide (p < q) := rfl

/-- A larger value has no smaller whole part. -/
theorem whole_mono (h : Scalar.less x y = true) : Scalar.whole x ≤ Scalar.whole y := by
  cases x with
  | nan => cases h
  | infinite s =>
    cases s with
    | true => exact Nat.zero_le _
    | false =>
      -- nothing is larger than the positive infinity
      cases y <;> cases h
  | rational p =>
    cases y with
    | nan => cases h
    | infinite t =>
      cases t with
      | true => cases h
      | false => exact min_le_right _ _
    | rational q =>
      have hlt : p < q := of_decide_eq_true h
      exact min_le_min_right _ (Nat.floor_le_floor hlt.le)

/-- What is larger than a positive value is positive. -/
theorem positive_of_less (hx : Scalar.less 0 x = true) (h : Scalar.less x y = true) :
    Scalar.less 0 y = true := by
  cases x with
  | nan => cases hx
  | infinite s =>
    cases s with
    | true => cases hx
    | false => cases y <;> cases h
  | rational p =>
    cases y with
    | nan => cases h
    | infinite t => exact h
    | rational q =>
      exact decide_eq_true ((of_decide_eq_true hx).trans (of_decide_eq_true h))

/-- The entry that a larger value takes from a table does not come before. -/
theorem index_mono (last : Nat) (h : Scalar.less x y = true) :
    Scalar.index last x ≤ Scalar.index last y := by
  unfold Scalar.index
  by_cases hx : Scalar.less 0 x = true
  · rw [if_pos hx, if_pos (positive_of_less hx h)]
    exact min_le_min_right _ (whole_mono h)
  · rw [if_neg hx]
    exact Nat.zero_le _

end Exact
end RasterTile
