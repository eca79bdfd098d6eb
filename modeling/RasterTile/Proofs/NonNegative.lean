import RasterTile.Rounding
import RasterTile.Proofs.ExtendedValue

/-!
# Doubles that are not negative

Rounding may turn a small number into zero and a large one into infinity, but it never changes a sign.
So scaling by a positive number and rounding down lead from doubles that are not negative to doubles
that are not negative. None of them is a NaN, and so none comes up on the way.
-/
namespace RasterTile.ExactValue

open Float.Model Float.Model.UnpackedFloat
open WholeNumber (parts whole)

/-- Parts that are at least zero. Either zero is. -/
inductive NonNegative : UnpackedFloat → Prop
  | zero (s : Sign) : NonNegative (.zero s)
  | infinity : NonNegative (.infinity .positive)
  | finite (m : Nat) (e : Int) (h : 0 < m) : NonNegative (.finite .positive m e h)

variable {u : UnpackedFloat} {x : Float} {n : Nat}

theorem nonneg_iff (x : Float) : 0 ≤ x ↔ NonNegative (parts x) := by
  rw [WholeNumber.le_iff, WholeNumber.parts_zero]
  generalize parts x = u
  constructor
  · intro hle
    cases u with
    | notANumber => cases hle
    | zero s => exact .zero s
    | infinity s =>
      cases s with
      | negative => cases hle
      | positive => exact .infinity
    | finite s m e h =>
      cases s with
      | negative => cases hle
      | positive => exact .finite m e h
  · intro h
    cases h <;> rfl

theorem not_lt_zero (hx : 0 ≤ x) : ¬ x < 0 := by
  rw [nonneg_iff] at hx
  rw [lt_iff, WholeNumber.parts_zero, Bool.not_eq_true]
  generalize parts x = u at hx
  cases hx <;> rfl

/-- A double that is not negative has a place, from zero on. -/
theorem extended?_of_nonneg (hx : 0 ≤ x) : ∃ a, extended? x = some a ∧ 0 ≤ a := by
  rw [nonneg_iff] at hx
  unfold extended?
  generalize parts x = u at hx
  cases hx with
  | zero s => exact ⟨_, rfl, le_rfl⟩
  | infinity => exact ⟨_, rfl, le_top⟩
  | finite m e h =>
    refine ⟨_, rfl, EReal.coe_nonneg.2 ?_⟩
    simp only [Sign.apply, Int.cast_natCast]
    positivity

/-! ## Rounding and packing -/

theorem NonNegative.unpack_packComponents {e : BitVec 11} {m : BitVec 52}
    (he : e = -1#11 → m = 0) :
    NonNegative (UnpackedFloat.unpack .binary64 (packComponents .binary64 .positive e m)) := by
  simp only [UnpackedFloat.unpack, unpackExponent_packComponents, unpackMantissa_packComponents,
    WholeNumber.unpackSign_packComponents]
  split_ifs with hspecial hmantissa hsmall hzero
  · exact .infinity
  · exact absurd (he hspecial) hmantissa
  · exact .zero _
  · exact .finite _ _ _
  · exact .finite _ _ _

/-- Packing and unpacking make nothing negative. -/
theorem NonNegative.unpack_pack (h : NonNegative u) :
    NonNegative (UnpackedFloat.unpack .binary64 (UnpackedFloat.pack .binary64 u)) := by
  cases h with
  | zero s =>
    have hzero : UnpackedFloat.unpack .binary64 (UnpackedFloat.pack .binary64 (.zero s)) =
        .zero s := by cases s <;> rfl
    rw [hzero]
    exact .zero s
  | infinity => exact unpack_packComponents fun _ => rfl
  | finite m e h =>
    simp only [UnpackedFloat.pack]
    split_ifs with hlarge hnormal
    · exact unpack_packComponents fun _ => rfl
    · -- the largest exponent is kept for infinities
      refine unpack_packComponents fun hspecial => ?_
      have hexponent := congrArg BitVec.toNat hspecial
      rw [BitVec.toNat_ofNat, Nat.mod_eq_of_lt (by omega)] at hexponent
      have hlargest : (-1#11).toNat = 2047 := rfl
      omega
    · exact unpack_packComponents fun hspecial => absurd hspecial (by decide)

theorem NonNegative.roundWithAccuracy (m : Nat) (e : Int) (acc : Accuracy) :
    NonNegative (UnpackedFloat.roundWithAccuracy .binary64 .positive m e acc) := by
  simp only [UnpackedFloat.roundWithAccuracy]
  split_ifs
  · exact .zero _
  · exact .finite _ _ _

theorem NonNegative.div (hu : NonNegative u) (m : Nat) (e : Int) (h : 0 < m) :
    NonNegative (UnpackedFloat.div .binary64 u (.finite .positive m e h)) := by
  cases hu with
  | zero s => exact .zero _
  | infinity => exact .infinity
  | finite m' e' h' => exact .roundWithAccuracy _ _ _

theorem NonNegative.mul (hu : NonNegative u) (m : Nat) (e : Int) (h : 0 < m) :
    NonNegative (UnpackedFloat.mul .binary64 u (.finite .positive m e h)) := by
  cases hu with
  | zero s => exact .zero _
  | infinity => exact .infinity
  | finite m' e' h' => exact .roundWithAccuracy _ _ _

/-! ## Arithmetic -/

theorem nonneg_whole (n : Nat) : 0 ≤ whole n := by
  rw [nonneg_iff]
  refine NonNegative.unpack_pack (u := UnpackedFloat.ofNat .binary64 n) ?_
  by_cases hn : n = 0
  · subst hn
    exact .zero _
  · rw [WholeNumber.ofNat_eq_round hn]
    exact .roundWithAccuracy _ _ _

theorem parts_ofNat (hpos : 0 < n) (hn : n < 2 ^ 53) :
    ∃ m e h, parts (Float.ofNat n) = .finite .positive m e h := by
  rw [ofNat_eq_whole hn, WholeNumber.parts_whole hpos.ne' hn]
  exact ⟨_, _, _, rfl⟩

theorem nonneg_div (hx : 0 ≤ x) (hpos : 0 < n) (hn : n < 2 ^ 53) : 0 ≤ x / Float.ofNat n := by
  obtain ⟨m, e, h, hdivisor⟩ := parts_ofNat hpos hn
  rw [nonneg_iff] at hx ⊢
  have hquotient : NonNegative (UnpackedFloat.div .binary64 (parts x) (parts (Float.ofNat n))) := by
    rw [hdivisor]
    exact hx.div m e h
  exact hquotient.unpack_pack

theorem nonneg_mul (hx : 0 ≤ x) (hpos : 0 < n) (hn : n < 2 ^ 53) : 0 ≤ x * Float.ofNat n := by
  obtain ⟨m, e, h, hfactor⟩ := parts_ofNat hpos hn
  rw [nonneg_iff] at hx ⊢
  have hproduct : NonNegative (UnpackedFloat.mul .binary64 (parts x) (parts (Float.ofNat n))) := by
    rw [hfactor]
    exact hx.mul m e h
  exact hproduct.unpack_pack

/-- The floor of what is not negative is not negative. -/
theorem nonneg_down (hx : 0 ≤ x) : 0 ≤ Rounding.down x := by
  unfold Rounding.down
  split_ifs with hpos hsmall
  · exact nonneg_whole _
  · exact hx
  · exact absurd ‹x < 0 ∧ _›.1 (not_lt_zero hx)
  · exact hx

end RasterTile.ExactValue
