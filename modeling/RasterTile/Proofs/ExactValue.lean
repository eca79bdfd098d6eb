import RasterTile.Scalar
import RasterTile.Proofs.WholeNumber

/-!
# The exact value of a double

A finite double stands for a rational number; infinities and NaNs stand for none. A double whose
value is a natural number below `2 ^ 64` is what that number converts to, and it truncates to it.
-/
namespace RasterTile.ExactValue

open Float.Model Float.Model.UnpackedFloat
open WholeNumber (parts whole)

def value? (x : Float) : Option ℚ :=
  match parts x with
  | .notANumber | .infinity _ => none
  | .zero _ => some 0
  | .finite s m e _ => some ((s.apply m : ℤ) * 2 ^ e)

/-! ## Parts -/

/-- Only doubles with the least exponent have fewer than 53 bits. -/
theorem normal_or_least {x : Float} {s : Sign} {m : Nat} {e : Int} {h : 0 < m}
    (hx : parts x = .finite s m e h) : 2 ^ 52 ≤ m ∨ e = -1074 := by
  simp only [parts, Float.Model.unpack, UnpackedFloat.unpack] at hx
  split at hx
  · split at hx <;> simp at hx
  · split at hx
    · rename_i hleast
      split at hx
      · simp at hx
      · simp only [UnpackedFloat.finite.injEq] at hx
        obtain ⟨-, -, rfl⟩ := hx
        refine Or.inr ?_
        rw [hleast]
        rfl
    · simp only [UnpackedFloat.finite.injEq] at hx
      obtain ⟨-, rfl, -⟩ := hx
      refine Or.inl ?_
      rw [BitVec.toNat_append, ← Nat.shiftLeft_add_eq_or_of_lt (BitVec.isLt _), Nat.shiftLeft_eq]
      change 2 ^ 52 ≤ 1 * 2 ^ 52 + _
      omega

theorem log2_of_normal {m : Nat} (hlow : 2 ^ 52 ≤ m) (hhigh : m < 2 ^ 53) : m.log2 = 52 :=
  (Nat.log2_eq_iff (by omega)).2 ⟨hlow, hhigh⟩

theorem roundToInt_natCast (s : Sign) (m k : Nat) :
    roundToInt s m (k : Int) = s.apply ((m * 2 ^ k : Nat) : Int) := by
  have hk : ((k : Int) - 0).toNat = k := by omega
  have hdone : (0 - ((k : Int) - (k : Int))).toNat = 0 := by omega
  simp only [roundToInt, decreaseExponent, shiftToExponent, hk, hdone, Nat.shiftLeft_eq]
  rfl

/-- Shifting out zeros is exact. -/
theorem repeat_shiftRightOne (m k : Nat) :
    Nat.repeat ExtendedMantissa.shiftRightOne k ⟨m * 2 ^ k, false, false⟩ = ⟨m, false, false⟩ := by
  induction k generalizing m with
  | zero => simp [Nat.repeat]
  | succ k ih =>
    have hdouble : m * 2 ^ (k + 1) = (m * 2) * 2 ^ k := by ring
    rw [Nat.repeat, hdouble, ih]
    simp [ExtendedMantissa.shiftRightOne]

theorem log2_mul_two_pow {m : Nat} (hm : m ≠ 0) (k : Nat) : (m * 2 ^ k).log2 = m.log2 + k := by
  rw [← Nat.shiftLeft_eq, WholeNumber.log2_shiftLeft hm]

/-- A mantissa of 53 bits with zeros after it is rounded to itself. -/
theorem roundWithAccuracy_shifted {m : Nat} (hm : m.log2 = 52) (hpos : 0 < m) (k : Nat) {e : Int}
    (he : -1074 ≤ e + k) :
    roundWithAccuracy .binary64 .positive (m * 2 ^ k) e .exact =
      .finite .positive m (e + k) hpos := by
  have hne : m ≠ 0 := Nat.pos_iff_ne_zero.1 hpos
  have ht : Format.binary64.targetExponent (totalExponent (m * 2 ^ k) e) = e + k := by
    rw [WholeNumber.targetExponent_eq, log2_mul_two_pow hne, hm]
    omega
  have ht' : Format.binary64.targetExponent (totalExponent m (e + k)) = e + k := by
    rw [WholeNumber.targetExponent_eq, hm]
    omega
  have hk : (e + (k : Int) - e).toNat = k := by omega
  have hshift : shiftToExponent (m * 2 ^ k) e .exact (e + k) = (⟨m, false, false⟩, e + k) := by
    simp only [shiftToExponent, hk]
    exact congrArg (·, e + (k : Int)) (repeat_shiftRightOne m k)
  have hstay : shiftToExponent m (e + k) .exact (e + k) = (⟨m, false, false⟩, e + k) := by
    simp only [shiftToExponent, Int.sub_self, Int.toNat_zero, Int.natCast_zero, Int.add_zero]
    rfl
  simp only [roundWithAccuracy, shiftToTargetExponent, ht, hshift,
    ExtendedMantissa.roundedMantissa, ExtendedMantissa.accuracy, Accuracy.roundToNearestEven, ht',
    hstay, dif_neg hne]

theorem round_shifted {m : Nat} (hm : m.log2 = 52) (hpos : 0 < m) (k : Nat) {e : Int}
    (he : -1074 ≤ e + k) :
    UnpackedFloat.round .binary64 .positive (m * 2 ^ k) e = .finite .positive m (e + k) hpos := by
  have ht : Format.binary64.targetExponent (totalExponent (m * 2 ^ k) e) = e + k := by
    rw [WholeNumber.targetExponent_eq, log2_mul_two_pow (Nat.pos_iff_ne_zero.1 hpos), hm]
    omega
  have hd : decreaseExponent (m * 2 ^ k) e (e + k) = (m * 2 ^ k, e) := by
    simp [decreaseExponent]
  simp only [UnpackedFloat.round, ht, hd, roundWithAccuracy_shifted hm hpos k he]

/-- A natural number of 53 bits and some zeros is a double. -/
theorem parts_whole_shifted {m : Nat} (hm : m.log2 = 52) (hpos : 0 < m) {k : Nat} (hk : k ≤ 971) :
    parts (whole (m * 2 ^ k)) = .finite .positive m k hpos := by
  have hne : m * 2 ^ k ≠ 0 := by positivity
  change UnpackedFloat.unpack .binary64
    (UnpackedFloat.pack .binary64 (UnpackedFloat.ofNat .binary64 (m * 2 ^ k))) = _
  rw [WholeNumber.ofNat_eq_round hne, round_shifted hm hpos k (by omega)]
  simp only [Int.zero_add]
  exact WholeNumber.unpack_pack_normal hpos hm ⟨by omega, by omega⟩

/-! ## Literals -/

theorem parts_one :
    parts Float.exactlyRepresentablePowersOfTen[0] = .finite .positive (2 ^ 52) (-52) (by decide) := by
  rfl

/-- The double of a literal is read as a multiple of one, which is exact below `2 ^ 53`. -/
theorem ofNat_eq_whole {n : Nat} (hn : n < 2 ^ 53) : Float.ofNat n = whole n := by
  have hliteral : n < 2 ^ 53 ∧ 0 ≤ 22 := ⟨hn, by decide⟩
  have hword : n.toUInt64.toNat = n := by
    have hfits : n < 2 ^ 64 := by omega
    simpa using hfits
  change Float.ofScientific n false 0 = _
  rw [Float.ofScientific, dif_pos hliteral]
  change Float.ofModel (Float.Model.pack (UnpackedFloat.mul .binary64
    (parts (whole n.toUInt64.toNat)) (parts Float.exactlyRepresentablePowersOfTen[0]))) =
    Float.ofModel (Float.Model.pack (UnpackedFloat.ofNat .binary64 n))
  rw [hword, parts_one]
  by_cases hzero : n = 0
  · subst hzero
    rfl
  · have hlog : n.log2 ≤ 52 := Nat.lt_succ_iff.1 ((Nat.log2_lt hzero).2 hn)
    have hmantissa : (n <<< (52 - n.log2)).log2 = 52 := by
      rw [WholeNumber.log2_shiftLeft hzero]
      omega
    have hpos : 0 < n <<< (52 - n.log2) := by
      rw [Nat.shiftLeft_eq]
      positivity
    -- the product has 52 zeros more, and as many less in the exponent
    have hproduct := roundWithAccuracy_shifted hmantissa hpos 52
      (e := -((52 - n.log2 : Nat) : Int) + -52) (by omega)
    have hexponent : -((52 - n.log2 : Nat) : Int) + -52 + (52 : Nat) = -((52 - n.log2 : Nat) : Int) := by
      omega
    rw [WholeNumber.parts_whole hzero hn, WholeNumber.ofNat_eq_round hzero,
      WholeNumber.round_whole hzero hn]
    simp only [hexponent] at hproduct
    exact congrArg (fun u => Float.ofModel (Float.Model.pack u)) hproduct

/-! ## Whole values -/

variable {x : Float} {m n : Nat} {e : Int} {hm : 0 < m}

/-- A whole value is the mantissa followed by zeros, or the mantissa without zeros at its end. -/
theorem value_eq_natCast_iff :
    ((m : ℤ) : ℚ) * 2 ^ e = (n : ℚ) ↔ m * 2 ^ e.toNat = n * 2 ^ (-e).toNat := by
  have hsplit : (2 : ℚ) ^ e * 2 ^ (-e).toNat = 2 ^ e.toNat := by
    rw [← zpow_natCast, ← zpow_natCast, ← zpow_add₀ (by norm_num)]
    congr 1
    omega
  have hpos : (2 : ℚ) ^ (-e).toNat ≠ 0 := by positivity
  rw [← mul_left_inj' hpos, mul_assoc, hsplit]
  norm_cast

/-- A power of two below another. -/
theorem exponent_lt {k j c : Nat} (hc : 0 < c) (h : c * 2 ^ k < 2 ^ j) : k < j :=
  (Nat.pow_lt_pow_iff_right (by decide : 1 < 2)).1
    (lt_of_le_of_lt (Nat.le_mul_of_pos_left _ hc) h)

/-- A double with a whole value below `2 ^ 64` is what that number converts to. -/
theorem parts_whole_of_value (hx : parts x = .finite .positive m e hm)
    (hv : ((m : ℤ) : ℚ) * 2 ^ e = (n : ℚ)) (hn : n < 2 ^ 64) : parts (whole n) = parts x := by
  rw [value_eq_natCast_iff] at hv
  have hhigh := WholeNumber.mantissa_lt hx
  have hnormal := normal_or_least hx
  rw [hx]
  rcases Int.eq_nat_or_neg e with ⟨k, rfl | rfl⟩
  · -- zeros follow the mantissa
    have hk : ((k : Int)).toNat = k ∧ (-(k : Int)).toNat = 0 := by omega
    rw [hk.1, hk.2, pow_zero, Nat.mul_one] at hv
    have hlt : k < 64 := exponent_lt hm (hv ▸ hn)
    rw [← hv]
    exact parts_whole_shifted (log2_of_normal (by omega) hhigh) hm (by omega)
  · -- the mantissa ends with zeros
    have hk : (-(k : Int)).toNat = 0 ∧ (- -(k : Int)).toNat = k := by omega
    rw [hk.1, hk.2, pow_zero, Nat.mul_one] at hv
    subst hv
    have hne : n ≠ 0 := (Nat.pos_of_mul_pos_right hm).ne'
    have hk53 : k < 53 := exponent_lt (Nat.pos_of_ne_zero hne) hhigh
    have hlog : n.log2 + k = 52 := by
      rw [← log2_mul_two_pow hne]
      exact log2_of_normal (by omega) hhigh
    have hsmall : n < 2 ^ 53 := lt_of_le_of_lt (Nat.le_mul_of_pos_right _ (by positivity)) hhigh
    have hshift : 52 - n.log2 = k := by omega
    rw [WholeNumber.parts_whole hne hsmall]
    simp only [hshift, Nat.shiftLeft_eq]

/-- The double that a conversion of `n` equals. -/
theorem whole_beq_of_parts_eq (hx : parts x = .finite .positive m e hm)
    (h : parts (whole n) = parts x) : (whole n == x) = true := by
  change UnpackedFloat.beq (parts (whole n)) (parts x) = true
  rw [h, hx]
  simp [UnpackedFloat.beq, UnpackedFloat.compare]

/-- Truncation of a positive double, up to the largest 64-bit number. -/
theorem toNat_toUInt64_of_parts (hx : parts x = .finite .positive m e hm) :
    x.toUInt64.toNat = min (m * 2 ^ e.toNat / 2 ^ (-e).toNat) (2 ^ 64 - 1) := by
  rw [WholeNumber.toNat_toUInt64, hx, UnpackedFloat.toInt]
  rcases Int.eq_nat_or_neg e with ⟨k, rfl | rfl⟩
  · have hk : ((k : Int)).toNat = k ∧ (-(k : Int)).toNat = 0 := by omega
    rw [roundToInt_natCast, Sign.apply, Int.toNat_natCast, hk.1, hk.2, pow_zero, Nat.div_one]
  · have hk : (-(k : Int)).toNat = 0 ∧ (- -(k : Int)).toNat = k := by omega
    rw [WholeNumber.roundToInt_neg, Sign.apply, Int.toNat_natCast, hk.1, hk.2, pow_zero, Nat.mul_one]

/-- What converting back shows about a truncated positive double: nothing was cut off. -/
theorem value_of_whole_beq (hx : parts x = .finite .positive m e hm)
    (htrunc : m * 2 ^ e.toNat / 2 ^ (-e).toNat = n) (hback : (whole n == x) = true) :
    m * 2 ^ e.toNat = n * 2 ^ (-e).toNat := by
  rcases Int.eq_nat_or_neg e with ⟨k, rfl | rfl⟩
  · have hk : (-(k : Int)).toNat = 0 := by omega
    rw [hk, pow_zero, Nat.div_one] at htrunc
    rw [htrunc, hk, pow_zero, Nat.mul_one]
  · have hk : (-(k : Int)).toNat = 0 := by omega
    rw [hk, pow_zero, Nat.mul_one] at htrunc
    have hsmall : n < 2 ^ 53 :=
      lt_of_le_of_lt (htrunc ▸ Nat.div_le_self _ _) (WholeNumber.mantissa_lt hx)
    rcases WholeNumber.parts_of_whole_beq hsmall hback with ⟨_, s, hzero⟩ | ⟨hne, hparts⟩
    · rw [hx] at hzero
      cases hzero
    · rw [hx, WholeNumber.parts_whole hne hsmall] at hparts
      simp only [UnpackedFloat.finite.injEq, true_and] at hparts
      obtain ⟨rfl, he⟩ := hparts
      have hshift : (- -(k : Int)).toNat = 52 - n.log2 := by omega
      rw [hk, pow_zero, Nat.mul_one, hshift, Nat.shiftLeft_eq]

/-- A double that is not negative, and that converting its truncation gives back, has its truncation
as its value. Only `2 ^ 64` passes too, with the largest 64-bit number as its truncation. -/
theorem value?_eq_natCast_iff (hn : n < 2 ^ 64 - 1) :
    ((0 ≤ x ∧ (x.toUInt64.toFloat == x) = true) ∧ x.toUInt64.toNat = n) ↔
      value? x = some (n : ℚ) := by
  rw [WholeNumber.le_iff, WholeNumber.parts_zero, WholeNumber.toFloat_uint64]
  cases hx : parts x with
  | notANumber => simp [value?, hx, UnpackedFloat.le, UnpackedFloat.compare]
  | infinity s =>
    cases s with
    | negative => simp [value?, hx, UnpackedFloat.le, UnpackedFloat.compare]
    | positive =>
      have htop : x.toUInt64.toNat = 2 ^ 64 - 1 := by
        rw [WholeNumber.toNat_toUInt64, hx]
        rfl
      simp only [value?, hx, htop, reduceCtorEq, iff_false]
      omega
  | zero s =>
    have hzero : x.toUInt64.toNat = 0 := by
      rw [WholeNumber.toNat_toUInt64, hx]
      rfl
    have hback : (whole 0 == x) = true := by
      change UnpackedFloat.beq (parts (whole 0)) (parts x) = true
      rw [hx, WholeNumber.parts_whole_zero]
      rfl
    have hle : UnpackedFloat.le (.zero .positive) (.zero s) = true := rfl
    rw [hzero]
    simp only [value?, hx, hback, hle, true_and, Option.some.injEq]
    exact ⟨fun h => by rw [← h, Nat.cast_zero], fun h => (Nat.cast_eq_zero.1 h.symm).symm⟩
  | finite s m e hm =>
    cases s with
    | negative =>
      have hneg : ((-(m : ℤ) : ℤ) : ℚ) * 2 ^ e < 0 := by
        have hm' : (0 : ℚ) < m := by exact_mod_cast hm
        push_cast
        exact mul_neg_of_neg_of_pos (by linarith) (by positivity)
      have hnot : ((-(m : ℤ) : ℤ) : ℚ) * 2 ^ e ≠ n := fun h => by
        have hnonneg : (0 : ℚ) ≤ n := Nat.cast_nonneg n
        linarith
      simp only [value?, hx, Sign.apply, Option.some.injEq, hnot, iff_false]
      simp [UnpackedFloat.le, UnpackedFloat.compare]
    | positive =>
      have hle : UnpackedFloat.le (.zero .positive) (.finite .positive m e hm) = true := rfl
      simp only [value?, hx, Sign.apply, Option.some.injEq, hle, true_and]
      rw [value_eq_natCast_iff, toNat_toUInt64_of_parts hx]
      constructor
      · rintro ⟨hback, htrunc⟩
        rw [htrunc] at hback
        exact value_of_whole_beq hx (by omega) hback
      · intro hv
        have htrunc : m * 2 ^ e.toNat / 2 ^ (-e).toNat = n := by
          rw [hv, Nat.mul_div_cancel _ (by positivity)]
        have hmin : min (m * 2 ^ e.toNat / 2 ^ (-e).toNat) (2 ^ 64 - 1) = n := by omega
        have hparts := parts_whole_of_value hx (value_eq_natCast_iff.2 hv) (by omega)
        rw [hmin]
        exact ⟨whole_beq_of_parts_eq hx hparts, rfl⟩

/-! ## Zero and NaN -/

theorem lt_iff (v w : Float) : v < w ↔ UnpackedFloat.lt (parts v) (parts w) = true := by
  change decide (v.toModel < w.toModel) = true ↔ _
  rw [decide_eq_true_iff]
  rfl

/-- A scalar test of doubles in terms of values: infinities pass, and both zeros and NaNs do not. -/
theorem isNonzero_iff (x : Float) :
    Scalar.isNonzero x = true ↔ value? x ≠ some 0 ∧ x.isNaN = false := by
  have hnan : x.isNaN = UnpackedFloat.isNaN (parts x) := rfl
  have htest : Scalar.isNonzero x = true ↔ x < 0 ∨ 0 < x := by
    simp [Scalar.isNonzero, Scalar.less]
  rw [htest, lt_iff, lt_iff, WholeNumber.parts_zero, hnan]
  cases hx : parts x with
  | notANumber => simp [UnpackedFloat.lt, UnpackedFloat.compare, UnpackedFloat.isNaN]
  | infinity s =>
    cases s <;> simp [value?, hx, UnpackedFloat.lt, UnpackedFloat.compare, UnpackedFloat.isNaN]
  | zero s => simp [value?, hx, UnpackedFloat.lt, UnpackedFloat.compare]
  | finite s m e hm =>
    have hne : ((s.apply m : ℤ) : ℚ) * 2 ^ e ≠ 0 := by
      have hs : (s.apply m : ℤ) ≠ 0 := by
        cases s <;> simp only [Sign.apply] <;> omega
      exact mul_ne_zero (by exact_mod_cast hs) (by positivity)
    simp only [value?, hx, ne_eq, Option.some.injEq, hne, not_false_eq_true, true_and]
    cases s <;> simp [UnpackedFloat.lt, UnpackedFloat.compare, UnpackedFloat.isNaN]

end RasterTile.ExactValue
