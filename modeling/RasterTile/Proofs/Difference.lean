import RasterTile.Proofs.BitPattern
import RasterTile.Proofs.ExtendedValue

/-!
# The sign of a difference

The difference of two doubles is rounded, but not to zero: whatever two numbers differ by, it is at least
the smallest double. So a difference is positive if the first number is larger, and infinities and NaNs
follow suit as long as the second number is finite.
-/
namespace RasterTile.ExactValue

open Float.Model Float.Model.UnpackedFloat
open WholeNumber (parts whole)

inductive Signed (s : Sign) : UnpackedFloat → Prop
  | infinity : Signed s (.infinity s)
  | finite (m : Nat) (e : Int) (h : 0 < m) : Signed s (.finite s m e h)

variable {x y : Float} {s : Sign} {m : Nat} {e : Int}

theorem zero_lt_iff_signed (s : Sign) (u : UnpackedFloat) :
    UnpackedFloat.lt (.zero s) u = true ↔ Signed .positive u := by
  constructor
  · intro hlt
    cases u with
    | notANumber => cases hlt
    | zero s => cases hlt
    | infinity s =>
      cases s with
      | negative => cases hlt
      | positive => exact .infinity
    | finite s m e h =>
      cases s with
      | negative => cases hlt
      | positive => exact .finite m e h
  · intro h
    cases h <;> rfl

theorem pos_iff (x : Float) : 0 < x ↔ Signed .positive (parts x) := by
  rw [lt_iff, WholeNumber.parts_zero, zero_lt_iff_signed]

/-! ## Rounding keeps signs -/

/-- The most that is shifted out of a mantissa leaves 53 bits. -/
theorem shifted_bounds (hm : 0 < m) (he : -1074 ≤ e) :
    0 < m / 2 ^ (Format.binary64.targetExponent (totalExponent m e) - e).toNat ∧
      m / 2 ^ (Format.binary64.targetExponent (totalExponent m e) - e).toNat < 2 ^ 53 := by
  have hlow := Nat.log2_self_le hm.ne'
  have hhigh := Nat.lt_log2_self (n := m)
  have htarget : (Format.binary64.targetExponent (totalExponent m e) - e).toNat = m.log2 - 52 := by
    rw [WholeNumber.targetExponent_eq]
    omega
  rw [htarget]
  constructor
  · refine Nat.div_pos ((Nat.pow_le_pow_right (by decide) (by omega)).trans hlow) (by positivity)
  · rw [Nat.div_lt_iff_lt_mul (by positivity), ← Nat.pow_add]
    exact hhigh.trans_le (Nat.pow_le_pow_right (by decide) (by omega))

theorem roundWithAccuracy_bounds (s : Sign) (hm : 0 < m) (he : -1074 ≤ e) :
    ∃ m' e' h, roundWithAccuracy .binary64 s m e .exact = .finite s m' e' h ∧ m' < 2 ^ 53 ∧
      -1074 ≤ e' := by
  obtain ⟨hpos, -⟩ := shifted_bounds hm he
  generalize hk : (Format.binary64.targetExponent (totalExponent m e) - e).toNat = k at hpos
  have hfirst : shiftToTargetExponent .binary64 m e .exact =
      (Nat.repeat ExtendedMantissa.shiftRightOne k ⟨m, false, false⟩, e + k) := by
    simp only [shiftToTargetExponent, shiftToExponent, hk]
    rfl
  have hrounded : 0 < roundOff k m := hpos.trans_le (roundOff_bounds k m).1
  obtain ⟨hpos', hlt'⟩ := shifted_bounds (e := e + k) hrounded (by omega)
  generalize hj : (Format.binary64.targetExponent (totalExponent (roundOff k m) (e + k)) -
    (e + k)).toNat = j at hpos' hlt'
  have hsecond : shiftToTargetExponent .binary64 (roundOff k m) (e + k) .exact =
      (Nat.repeat ExtendedMantissa.shiftRightOne j ⟨roundOff k m, false, false⟩, e + k + j) := by
    simp only [shiftToTargetExponent, shiftToExponent, hj]
    rfl
  have hfold : (Nat.repeat ExtendedMantissa.shiftRightOne k ⟨m, false, false⟩).roundedMantissa =
      roundOff k m := rfl
  refine ⟨roundOff k m / 2 ^ j, e + k + j, hpos', ?_, hlt', by omega⟩
  have hmantissa := WholeNumber.mantissa_repeat ⟨roundOff k m, false, false⟩ j
  simp only [roundWithAccuracy, hfirst, hfold, hsecond, hmantissa, dif_neg hpos'.ne']

/-- Rounding a number that is not zero never gives zero. -/
theorem round_bounds (s : Sign) (hm : 0 < m) (he : -1074 ≤ e) :
    ∃ m' e' h, UnpackedFloat.round .binary64 s m e = .finite s m' e' h ∧ m' < 2 ^ 53 ∧
      -1074 ≤ e' := by
  have hpos : 0 < m <<< (e - Format.binary64.targetExponent (totalExponent m e)).toNat := by
    rw [Nat.shiftLeft_eq]
    positivity
  refine roundWithAccuracy_bounds s hpos ?_
  rw [WholeNumber.targetExponent_eq]
  omega

/-- Parts with at most 53 bits and at least the least exponent are not packed into a zero. -/
theorem signed_unpack_pack (h : 0 < m) (hm : m < 2 ^ 53) (he : -1074 ≤ e) :
    Signed s (UnpackedFloat.unpack .binary64 (UnpackedFloat.pack .binary64 (.finite s m e h))) := by
  by_cases hlarge : 971 < e
  · rw [unpack_pack_overflow hlarge]
    exact .infinity
  · by_cases hnormal : 2 ^ 52 ≤ m
    · rw [WholeNumber.unpack_pack_normal h (log2_of_normal hnormal hm) ⟨he, not_lt.1 hlarge⟩]
      exact .finite m e h
    · rw [unpack_pack_subnormal h (not_le.1 hnormal) (not_lt.1 hlarge)]
      exact .finite m _ h

/-- Packing and unpacking keep what is positive positive. -/
theorem signed_pack_iff {u : UnpackedFloat} (h : Encoded u) :
    Signed .positive (UnpackedFloat.unpack .binary64 (UnpackedFloat.pack .binary64 u)) ↔
      Signed .positive u := by
  rw [h.unpack_pack]

/-- A sum is positive as a double if it is positive. -/
theorem signed_normalize_iff {n : Int} (he : -1074 ≤ e) :
    Signed .positive (UnpackedFloat.unpack .binary64
      (UnpackedFloat.pack .binary64 (UnpackedFloat.normalize .binary64 n e .positive))) ↔ 0 < n := by
  rcases lt_trichotomy n 0 with hn | rfl | hn
  · obtain ⟨m', e', h', hround, hm', he'⟩ :=
      round_bounds .negative (m := (-n).toNat) (by omega) he
    have hsigned := signed_unpack_pack (s := .negative) h' hm' he'
    rw [UnpackedFloat.normalize, Int.compare_eq_lt.2 hn]
    simp only [hround]
    generalize UnpackedFloat.unpack .binary64 _ = u at hsigned
    constructor
    · intro hpos
      cases hsigned <;> cases hpos
    · omega
  · have hzero : UnpackedFloat.normalize .binary64 0 e .positive = .zero .positive := by
      rw [UnpackedFloat.normalize, Int.compare_eq_eq.2 rfl]
    rw [hzero]
    exact (signed_pack_iff (.zero _)).trans (iff_of_false (by rintro ⟨⟩) (lt_irrefl 0))
  · obtain ⟨m', e', h', hround, hm', he'⟩ :=
      round_bounds .positive (m := n.toNat) (by omega) he
    rw [UnpackedFloat.normalize, Int.compare_eq_gt.2 hn]
    simp only [hround, hn, iff_true]
    exact signed_unpack_pack h' hm' he'

/-! ## Differences -/

/-- Zeros put after a mantissa, the exponent being lowered, do not change the number. -/
theorem shifted_value (s : Sign) {e' : Int} (he : e' ≤ e) :
    ((s.apply (m <<< (e - e').toNat : Nat) : ℤ) : ℝ) * 2 ^ e' = (s.apply m : ℤ) * 2 ^ e := by
  have hpower : (2 : ℝ) ^ (e - e').toNat * 2 ^ e' = 2 ^ e := by
    rw [← zpow_natCast, ← zpow_add₀ (by norm_num)]
    congr 1
    omega
  rw [Nat.shiftLeft_eq, ← hpower]
  cases s <;> simp only [Sign.apply] <;> push_cast <;> ring

/-- A double minus a finite one is positive if it is the larger one. -/
theorem pos_sub_iff {q : ℚ} (hy : value? y = some q) : 0 < x - y ↔ y < x := by
  rw [pos_iff, lt_iff]
  change Signed .positive (UnpackedFloat.unpack .binary64 (UnpackedFloat.pack .binary64
    (UnpackedFloat.sub .binary64 (parts x) (parts y)))) ↔ _
  have hx := encoded_parts x
  have hneg := (encoded_parts y).neg
  unfold value? at hy
  cases hyp : parts y with
  | notANumber => simp [hyp] at hy
  | infinity s' => simp [hyp] at hy
  | zero s' =>
    rw [zero_lt_iff_signed]
    cases hxp : parts x with
    | zero s =>
      have hzero : Encoded (UnpackedFloat.sub .binary64 (.zero s) (.zero s')) := by
        cases s <;> cases s' <;> exact .zero _
      refine (signed_pack_iff hzero).trans ?_
      cases s <;> cases s' <;> exact iff_of_false (by rintro ⟨⟩) (by rintro ⟨⟩)
    | _ =>
      rw [hxp] at hx
      exact signed_pack_iff hx
  | finite s' m' e' h' =>
    cases hxp : parts x with
    | notANumber => exact (signed_pack_iff .notANumber).trans (iff_of_false (by rintro ⟨⟩) (by rintro ⟨⟩))
    | infinity s =>
      refine (signed_pack_iff (.infinity s)).trans ?_
      cases s with
      | negative => exact iff_of_false (by rintro ⟨⟩) (by rintro ⟨⟩)
      | positive => exact iff_of_true .infinity rfl
    | zero s =>
      rw [hyp] at hneg
      refine (signed_pack_iff hneg).trans ?_
      cases s' with
      | negative => exact iff_of_true (.finite ..) rfl
      | positive => exact iff_of_false (by rintro ⟨⟩) (by rintro ⟨⟩)
    | finite s m e h =>
      have hc := canonical_of_parts hxp
      have hc' := canonical_of_parts hyp
      have hleast : -1074 ≤ min e e' := le_min hc.least_le hc'.least_le
      rw [lt_finite_iff s' s hc' hc, ← shifted_value s' (min_le_right e e'),
        ← shifted_value s (min_le_left e e')]
      refine (signed_normalize_iff hleast).trans ?_
      rw [mul_lt_mul_iff_left₀ (by positivity), Int.cast_lt, Int.sub_pos]

/-! ## Scaling by infinity -/

def infinite : Float := Float.ofBits 0x7ff0000000000000

theorem parts_infinite : parts infinite = .infinity .positive := by rfl

/-- Infinity times a positive double is infinity; times any other, it is negative or a NaN. -/
theorem infinite_mul (x : Float) :
    value? (infinite * x) = none ∧ (0 < infinite * x ↔ 0 < x) := by
  have hproduct : parts (infinite * x) = UnpackedFloat.unpack .binary64 (UnpackedFloat.pack .binary64
      (UnpackedFloat.mul .binary64 (.infinity .positive) (parts x))) := by
    rw [← parts_infinite]
    rfl
  rw [value?, pos_iff, pos_iff]
  cases hx : parts x with
  | notANumber | zero s =>
    have hnan : parts (infinite * x) = .notANumber := by
      rw [hproduct, hx]
      exact Encoded.notANumber.unpack_pack
    rw [hnan]
    exact ⟨rfl, iff_of_false (by rintro ⟨⟩) (by rintro ⟨⟩)⟩
  | infinity s | finite s m e h =>
    have hsign : parts (infinite * x) = .infinity s := by
      rw [hproduct, hx]
      cases s with
      | negative => exact (Encoded.infinity .negative).unpack_pack
      | positive => exact (Encoded.infinity .positive).unpack_pack
    rw [hsign]
    cases s with
    | negative => exact ⟨rfl, iff_of_false (by rintro ⟨⟩) (by rintro ⟨⟩)⟩
    | positive => exact ⟨rfl, iff_of_true .infinity (by constructor)⟩

/-- Truncating positive infinity gives the largest 64-bit number. -/
theorem toNat_toUInt64_of_none (hx : value? x = none) (hpos : 0 < x) :
    x.toUInt64.toNat = 2 ^ 64 - 1 := by
  rw [pos_iff] at hpos
  unfold value? at hx
  rw [WholeNumber.toNat_toUInt64]
  generalize parts x = u at hx hpos
  cases hpos with
  | infinity => rfl
  | finite m e h => cases hx

/-- A double that is neither a NaN nor at most zero is positive. -/
theorem pos_iff_not (x : Float) : 0 < x ↔ ¬ (x.isNaN = true ∨ x ≤ 0) := by
  have hnan : x.isNaN = UnpackedFloat.isNaN (parts x) := rfl
  rw [pos_iff, hnan, WholeNumber.le_iff, WholeNumber.parts_zero]
  cases parts x with
  | notANumber => exact iff_of_false nofun fun h => h (.inl rfl)
  | zero s => exact iff_of_false nofun fun h => h (.inr rfl)
  | infinity s | finite s m e h =>
    cases s with
    | negative => exact iff_of_false nofun fun h => h (.inr rfl)
    | positive => exact iff_of_true (by constructor) (by rintro (h | h) <;> cases h)

end RasterTile.ExactValue
