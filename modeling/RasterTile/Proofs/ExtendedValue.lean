import RasterTile.Proofs.ExactValue

/-!
# Doubles in order

Every double but a NaN has a place on the extended number line, and comparing doubles is comparing
their places. The conversion of natural numbers keeps their order: below `2 ^ 53` it is exact, and
from there on it rounds, all numbers of one length at the same bit. So a number never gets past a
larger one, and only those too large for the format become infinite.
-/
namespace RasterTile.ExactValue

open Float.Model Float.Model.UnpackedFloat
open WholeNumber (parts whole)

/-- The place of a double among all numbers and the two infinities. -/
noncomputable def extended? (x : Float) : Option EReal :=
  match parts x with
  | .notANumber => none
  | .infinity .negative => some ⊥
  | .infinity .positive => some ⊤
  | .zero _ => some (0 : ℝ)
  | .finite s m e _ => some (((s.apply m : ℤ) * 2 ^ e : ℝ))

theorem extended?_of_value? {x : Float} {q : ℚ} (h : value? x = some q) :
    extended? x = some ((q : ℝ) : EReal) := by
  unfold value? at h
  unfold extended?
  split at h
  · cases h
  · cases h
  · rename_i hx
    cases h
    rw [hx, Rat.cast_zero]
  · rename_i hx
    cases h
    rw [hx]
    norm_num

theorem extended?_natCast {x : Float} {n : Nat} (h : value? x = some (n : ℚ)) :
    extended? x = some (n : EReal) := by
  rw [extended?_of_value? h, Rat.cast_natCast]
  rfl

theorem extended?_isSome (x : Float) : (extended? x).isSome = !x.isNaN := by
  have hnan : x.isNaN = UnpackedFloat.isNaN (parts x) := rfl
  rw [hnan, extended?]
  cases parts x with
  | infinity s => cases s <;> rfl
  | _ => rfl

/-! ## Comparing -/

theorem extended?_of_lt {x y : Float} (h : x < y) : ∃ a, extended? x = some a := by
  rw [lt_iff] at h
  unfold extended?
  cases hx : parts x with
  | notANumber => simp [hx, UnpackedFloat.lt, UnpackedFloat.compare] at h
  | infinity s => cases s <;> exact ⟨_, rfl⟩
  | _ => exact ⟨_, rfl⟩

theorem least_le_exponent {x : Float} {s : Sign} {m : Nat} {e : Int} {h : 0 < m}
    (hx : parts x = .finite s m e h) : -1074 ≤ e := by
  simp only [parts, Float.Model.unpack, UnpackedFloat.unpack] at hx
  split at hx
  · split at hx <;> simp at hx
  · split at hx
    · split at hx
      · simp at hx
      · simp only [UnpackedFloat.finite.injEq, Format.exponentBias] at hx
        omega
    · rename_i hexponent
      have hpos : (@unpackExponent .binary64 x.toModel.toBits.toBitVec).toNat ≠ 0 :=
        fun h => hexponent (BitVec.eq_of_toNat_eq h)
      simp only [UnpackedFloat.finite.injEq, Format.exponentBias] at hx
      omega

variable {m m' : Nat} {e e' : Int}

/-- What the parts of finite doubles are like: a mantissa of 53 bits, or the least exponent. -/
structure Canonical (m : Nat) (e : Int) : Prop where
  mantissa_lt : m < 2 ^ 53
  normal : 2 ^ 52 ≤ m ∨ e = -1074
  least_le : -1074 ≤ e

theorem canonical_of_parts {x : Float} {s : Sign} {h : 0 < m} (hx : parts x = .finite s m e h) :
    Canonical m e :=
  ⟨WholeNumber.mantissa_lt hx, normal_or_least hx, least_le_exponent hx⟩

theorem scaled_lt_of_exponent_lt (h : Canonical m e) (h' : Canonical m' e') (he : e < e') :
    (m : ℝ) * 2 ^ e < m' * 2 ^ e' := by
  have hlow : 2 ^ 52 ≤ m' := h'.normal.resolve_right (by have := h.least_le; omega)
  calc (m : ℝ) * 2 ^ e
      < 2 ^ 53 * 2 ^ e := by
        have hm : (m : ℝ) < 2 ^ 53 := by exact_mod_cast h.mantissa_lt
        gcongr
    _ = 2 ^ 52 * 2 ^ (e + 1) := by
        rw [zpow_add₀ (by norm_num)]
        ring
    _ ≤ m' * 2 ^ e' := by
        have hm' : (2 : ℝ) ^ 52 ≤ m' := by exact_mod_cast hlow
        have hle : e + 1 ≤ e' := he
        gcongr
        norm_num

/-- Canonical parts are compared exponent first. -/
theorem scaled_lt_iff (h : Canonical m e) (h' : Canonical m' e') :
    (m : ℝ) * 2 ^ e < m' * 2 ^ e' ↔ e < e' ∨ e = e' ∧ m < m' := by
  rcases lt_trichotomy e e' with he | rfl | he
  · simp [scaled_lt_of_exponent_lt h h' he, he]
  · have hpos : (0 : ℝ) < 2 ^ e := by positivity
    rw [mul_lt_mul_iff_left₀ hpos, Nat.cast_lt]
    simp
  · have hnot := (scaled_lt_of_exponent_lt h' h he).le
    constructor
    · intro hlt
      exact absurd hlt (not_lt.2 hnot)
    · omega

theorem compare_then_eq_lt_iff (e e' : Int) (m m' : Nat) :
    (compare e e').then (compare m m') = .lt ↔ e < e' ∨ e = e' ∧ m < m' := by
  rw [Ordering.then_eq_lt, compare_lt_iff_lt, compare_eq_iff_eq, compare_lt_iff_lt]

theorem compare_then_swap_eq_lt_iff (e e' : Int) (m m' : Nat) :
    ((compare e e').then (compare m m')).swap = .lt ↔ e' < e ∨ e' = e ∧ m' < m := by
  rw [Ordering.swap_eq_lt, Ordering.then_eq_gt, compare_gt_iff_gt, compare_eq_iff_eq,
    compare_gt_iff_gt]
  omega

/-- Finite doubles compare as the numbers that they stand for. -/
theorem lt_finite_iff (s s' : Sign) {h : 0 < m} {h' : 0 < m'} (hc : Canonical m e)
    (hc' : Canonical m' e') :
    UnpackedFloat.lt (.finite s m e h) (.finite s' m' e' h') = true ↔
      ((s.apply m : ℤ) : ℝ) * 2 ^ e < (s'.apply m' : ℤ) * 2 ^ e' := by
  have hpos : (0 : ℝ) < m * 2 ^ e := by positivity
  have hpos' : (0 : ℝ) < m' * 2 ^ e' := by positivity
  cases s with
  | positive =>
    cases s' with
    | positive =>
      simp only [UnpackedFloat.lt, UnpackedFloat.compare, Sign.apply, Int.cast_natCast, beq_iff_eq,
        Option.some.injEq, compare_then_eq_lt_iff, scaled_lt_iff hc hc']
    | negative =>
      have hnot : ¬ (m : ℝ) * 2 ^ e < -m' * 2 ^ e' := by linarith
      simpa [UnpackedFloat.lt, UnpackedFloat.compare, Sign.apply] using hnot
  | negative =>
    cases s' with
    | positive =>
      have hlt : -(m : ℝ) * 2 ^ e < m' * 2 ^ e' := by linarith
      simpa [UnpackedFloat.lt, UnpackedFloat.compare, Sign.apply] using hlt
    | negative =>
      have hswap : -(m : ℝ) * 2 ^ e < -m' * 2 ^ e' ↔ (m' : ℝ) * 2 ^ e' < m * 2 ^ e := by
        rw [neg_mul, neg_mul, neg_lt_neg_iff]
      simp only [UnpackedFloat.lt, UnpackedFloat.compare, Sign.apply, Int.cast_neg,
        Int.cast_natCast, beq_iff_eq, Option.some.injEq, compare_then_swap_eq_lt_iff, hswap,
        scaled_lt_iff hc' hc]

theorem finite_lt_zero_iff (s s' : Sign) (h : 0 < m) :
    UnpackedFloat.lt (.finite s m e h) (.zero s') = true ↔
      ((s.apply m : ℤ) : ℝ) * 2 ^ e < 0 := by
  have hpos : (0 : ℝ) < m * 2 ^ e := by positivity
  cases s with
  | positive => simp [UnpackedFloat.lt, UnpackedFloat.compare, Sign.apply, hpos.le]
  | negative => simpa [UnpackedFloat.lt, UnpackedFloat.compare, Sign.apply] using hpos

theorem zero_lt_finite_iff (s s' : Sign) (h : 0 < m) :
    UnpackedFloat.lt (.zero s') (.finite s m e h) = true ↔
      0 < ((s.apply m : ℤ) : ℝ) * 2 ^ e := by
  have hpos : (0 : ℝ) < m * 2 ^ e := by positivity
  cases s with
  | positive => simpa [UnpackedFloat.lt, UnpackedFloat.compare, Sign.apply] using hpos
  | negative => simp [UnpackedFloat.lt, UnpackedFloat.compare, Sign.apply, hpos.le]

/-- Comparing doubles is comparing their places. -/
theorem lt_iff_extended {x y : Float} {a b : EReal} (hx : extended? x = some a)
    (hy : extended? y = some b) : x < y ↔ a < b := by
  rw [lt_iff]
  unfold extended? at hx hy
  cases hxp : parts x with
  | notANumber => simp [hxp] at hx
  | infinity s =>
    rw [hxp] at hx
    cases hyp : parts y with
    | notANumber => simp [hyp] at hy
    | infinity s' =>
      rw [hyp] at hy
      cases s <;> cases s' <;> cases hx <;> cases hy <;>
        simp [UnpackedFloat.lt, UnpackedFloat.compare]
      rfl
    | zero s' | finite s' =>
      rw [hyp] at hy
      cases s <;> cases hx <;> cases hy <;>
        simp [UnpackedFloat.lt, UnpackedFloat.compare, -EReal.coe_mul]
  | zero s =>
    rw [hxp] at hx
    cases hx
    cases hyp : parts y with
    | notANumber => simp [hyp] at hy
    | infinity s' =>
      rw [hyp] at hy
      cases s' <;> cases hy <;> simp [UnpackedFloat.lt, UnpackedFloat.compare]
    | zero s' =>
      rw [hyp] at hy
      cases hy
      simp [UnpackedFloat.lt, UnpackedFloat.compare]
    | finite s' m' e' hm' =>
      rw [hyp] at hy
      cases hy
      rw [zero_lt_finite_iff, EReal.coe_lt_coe_iff]
  | finite s m e hm =>
    rw [hxp] at hx
    cases hx
    cases hyp : parts y with
    | notANumber => simp [hyp] at hy
    | infinity s' =>
      rw [hyp] at hy
      cases s' <;> cases hy <;> simp [UnpackedFloat.lt, UnpackedFloat.compare, -EReal.coe_mul]
    | zero s' =>
      rw [hyp] at hy
      cases hy
      rw [finite_lt_zero_iff, EReal.coe_lt_coe_iff]
    | finite s' m' e' hm' =>
      rw [hyp] at hy
      cases hy
      rw [lt_finite_iff s s' (canonical_of_parts hxp) (canonical_of_parts hyp),
        EReal.coe_lt_coe_iff]

/-! ## Rounding keeps order -/

/-- A mantissa with its two residual bits, as a number. -/
def rank (em : ExtendedMantissa) : Nat :=
  4 * em.mantissa + 2 * em.roundBit.toNat + em.stickyBit.toNat

theorem rank_shiftRightOne_mono {a b : ExtendedMantissa} (h : rank a ≤ rank b) :
    rank a.shiftRightOne ≤ rank b.shiftRightOne := by
  rcases a with ⟨m, r, s⟩
  rcases b with ⟨m', r', s'⟩
  simp only [rank] at h
  have hbit (n : Nat) : (n % 2 != 0).toNat = n % 2 := by
    rcases Nat.mod_two_eq_zero_or_one n with hn | hn <;> rw [hn] <;> rfl
  simp only [rank, ExtendedMantissa.shiftRightOne, hbit]
  cases r <;> cases s <;> cases r' <;> cases s' <;> simp at h ⊢ <;> omega

/-- Shifting keeps the order of mantissas with their residual bits. -/
theorem rank_repeat_mono {a b : ExtendedMantissa} (h : rank a ≤ rank b) (k : Nat) :
    rank (Nat.repeat ExtendedMantissa.shiftRightOne k a) ≤
      rank (Nat.repeat ExtendedMantissa.shiftRightOne k b) := by
  induction k with
  | zero => exact h
  | succ k ih => exact rank_shiftRightOne_mono ih

theorem roundedMantissa_mono {a b : ExtendedMantissa} (h : rank a ≤ rank b) :
    a.roundedMantissa ≤ b.roundedMantissa := by
  rcases a with ⟨m, r, s⟩
  rcases b with ⟨m', r', s'⟩
  simp only [rank] at h
  cases r <;> cases s <;> cases r' <;> cases s' <;>
    simp [ExtendedMantissa.roundedMantissa, ExtendedMantissa.accuracy,
      Accuracy.roundToNearestEven] at h ⊢ <;> omega

theorem roundedMantissa_bounds (em : ExtendedMantissa) :
    em.mantissa ≤ em.roundedMantissa ∧ em.roundedMantissa ≤ em.mantissa + 1 := by
  rcases em with ⟨m, r, s⟩
  cases r <;> cases s <;>
    simp [ExtendedMantissa.roundedMantissa, ExtendedMantissa.accuracy,
      Accuracy.roundToNearestEven]
  omega

/-- The lowest `k` bits of a number rounded off, a half to the even side. -/
def roundOff (k n : Nat) : Nat :=
  (Nat.repeat ExtendedMantissa.shiftRightOne k ⟨n, false, false⟩).roundedMantissa

theorem roundOff_mono (k : Nat) {n n' : Nat} (h : n ≤ n') : roundOff k n ≤ roundOff k n' :=
  roundedMantissa_mono (rank_repeat_mono (by simpa [rank] using h) k)

/-- Rounding off moves a number by less than one unit. -/
theorem roundOff_bounds (k n : Nat) : n / 2 ^ k ≤ roundOff k n ∧ roundOff k n ≤ n / 2 ^ k + 1 := by
  have h := roundedMantissa_bounds (Nat.repeat ExtendedMantissa.shiftRightOne k ⟨n, false, false⟩)
  rwa [WholeNumber.mantissa_repeat] at h

theorem roundOff_normal {n k : Nat} (hn : n.log2 = 52 + k) :
    2 ^ 52 ≤ roundOff k n ∧ roundOff k n ≤ 2 ^ 53 := by
  have hne : n ≠ 0 := by
    rintro rfl
    rw [Nat.log2_zero] at hn
    omega
  have hlow : 2 ^ 52 ≤ n / 2 ^ k := by
    rw [Nat.le_div_iff_mul_le (by positivity), ← Nat.pow_add, ← hn]
    exact Nat.log2_self_le hne
  have hhigh : n / 2 ^ k < 2 ^ 53 := by
    rw [Nat.div_lt_iff_lt_mul (by positivity), ← Nat.pow_add]
    have hlt := Nat.lt_log2_self (n := n)
    rwa [hn, Nat.add_right_comm] at hlt
  obtain ⟨hbelow, habove⟩ := roundOff_bounds k n
  omega

/-- A number of more than 53 bits keeps 53 of them, and one more if rounding carries that far. -/
theorem roundWithAccuracy_eq {n k : Nat} {e : Int} (hn : n.log2 = 52 + k) (he : -1074 ≤ e + k) :
    ∃ m j h, roundWithAccuracy .binary64 .positive n e .exact =
        .finite .positive m (e + k + (j : Nat)) h ∧ m.log2 = 52 ∧ m * 2 ^ j = roundOff k n := by
  obtain ⟨hlow, hhigh⟩ := roundOff_normal hn
  have hfirst : shiftToTargetExponent .binary64 n e .exact =
      (Nat.repeat ExtendedMantissa.shiftRightOne k ⟨n, false, false⟩, e + k) := by
    have ht : Format.binary64.targetExponent (totalExponent n e) = e + k := by
      rw [WholeNumber.targetExponent_eq, hn]
      omega
    have hk : (e + (k : Int) - e).toNat = k := by omega
    simp only [shiftToTargetExponent, ht, shiftToExponent, hk]
    rfl
  obtain ⟨j, hj⟩ : ∃ j, (roundOff k n).log2 = 52 + j :=
    Nat.exists_eq_add_of_le ((Nat.le_log2 (by omega)).2 hlow)
  have hsecond : shiftToTargetExponent .binary64 (roundOff k n) (e + k) .exact =
      (Nat.repeat ExtendedMantissa.shiftRightOne j ⟨roundOff k n, false, false⟩, e + k + j) := by
    have ht : Format.binary64.targetExponent (totalExponent (roundOff k n) (e + k)) =
        e + k + j := by
      rw [WholeNumber.targetExponent_eq, hj]
      omega
    have hk : (e + (k : Int) + j - (e + k)).toNat = j := by omega
    simp only [shiftToTargetExponent, ht, shiftToExponent, hk]
    rfl
  -- the second shift drops the zeros of a carry, or nothing
  obtain ⟨m, hm, hmj⟩ : ∃ m, m.log2 = 52 ∧ m * 2 ^ j = roundOff k n := by
    rcases hhigh.lt_or_eq with hlt | heq
    · rw [log2_of_normal hlow hlt] at hj
      obtain rfl : j = 0 := by omega
      exact ⟨_, log2_of_normal hlow hlt, Nat.mul_one _⟩
    · rw [heq, Nat.log2_two_pow] at hj
      obtain rfl : j = 1 := by omega
      exact ⟨2 ^ 52, Nat.log2_two_pow, heq.symm⟩
  have hne : m ≠ 0 := by
    rintro rfl
    cases hm
  refine ⟨m, j, Nat.pos_of_ne_zero hne, ?_, hm, hmj⟩
  rw [← hmj, repeat_shiftRightOne, hmj] at hsecond
  have hfold : (Nat.repeat ExtendedMantissa.shiftRightOne k ⟨n, false, false⟩).roundedMantissa =
      roundOff k n := rfl
  simp only [roundWithAccuracy, hfirst, hfold, hsecond]
  exact dif_neg hne

/-! ## Converting numbers -/

theorem extended?_positive {x : Float} {h : 0 < m} (hx : parts x = .finite .positive m e h) :
    extended? x = some ((m * 2 ^ e : ℝ) : EReal) := by
  rw [extended?, hx]
  norm_num [Sign.apply]

theorem extended?_infinity {x : Float} (hx : parts x = .infinity .positive) :
    extended? x = some ⊤ := by
  rw [extended?, hx]

theorem extended?_ofNat_of_lt {n : Nat} (hn : n < 2 ^ 53) :
    extended? (Float.ofNat n) = some (n : EReal) := by
  rw [ofNat_eq_whole hn]
  by_cases hzero : n = 0
  · subst hzero
    rw [extended?, WholeNumber.parts_whole_zero]
    norm_num
  · have hvalue (k : Nat) : ((n * 2 ^ k : Nat) : ℝ) * 2 ^ (-(k : Int)) = n := by
      rw [zpow_neg, zpow_natCast]
      push_cast
      rw [mul_assoc, mul_inv_cancel₀ (by positivity), mul_one]
    rw [extended?_positive (WholeNumber.parts_whole hzero hn), Nat.shiftLeft_eq, hvalue]
    rfl

/-- A number of more than 53 bits is rounded with 53 zeros after the point. -/
theorem ofNat_eq_round {n : Nat} (hn : 2 ^ 53 ≤ n) :
    Float.ofNat n = Float.ofModel (Float.Model.pack
      (roundWithAccuracy .binary64 .positive (n * 2 ^ 53) (-53) .exact)) := by
  have hliteral : ¬ (n < 2 ^ 53 ∧ 0 ≤ 22) := by omega
  have hne : n ≠ 0 := by omega
  have hround : UnpackedFloat.ofScientific .binary64 n 0 =
      roundWithAccuracy .binary64 .positive (n * 2 ^ 53) (-53) .exact := by
    have hsmall : ¬ (0 : Int) > 2 ^ 11 := by decide
    have hlarge : ¬ (0 : Int) < -(2 ^ 11 + n.log2) := by omega
    rw [UnpackedFloat.ofScientific, dif_neg hne, if_neg hsmall, if_neg hlarge, if_pos le_rfl,
      UnpackedFloat.mul, Nat.shiftLeft_eq]
    simp only [Int.toNat_zero, pow_zero, Nat.mul_one]
    rfl
  change Float.ofScientific n false 0 = _
  rw [Float.ofScientific, dif_neg hliteral]
  exact congrArg (fun u => Float.ofModel (Float.Model.pack u)) hround

theorem unpack_pack_overflow {s : Sign} {h : 0 < m} (he : 971 < e) :
    UnpackedFloat.unpack .binary64 (UnpackedFloat.pack .binary64 (.finite s m e h)) =
      .infinity s := by
  have hlarge : 2 ^ Format.binary64.exponentBits ≤
      (e + ((Format.binary64.exponentBias : Nat) : Int) +
        ((Format.binary64.mantissaBitsWithoutImplicit : Nat) : Int)).toNat + 1 := by
    simp only [Format.exponentBias]
    omega
  rw [UnpackedFloat.pack, if_pos hlarge]
  cases s <;> rfl

theorem parts_ofModel_pack (u : UnpackedFloat) : parts (Float.ofModel (Float.Model.pack u)) =
    UnpackedFloat.unpack .binary64 (UnpackedFloat.pack .binary64 u) := rfl

/-- A mantissa of 53 bits becomes the number it stands for, or infinity from the next power of two on.
-/
theorem extended?_pack (h : 0 < m) (hm : m.log2 = 52) (k : Nat) :
    extended? (Float.ofModel (Float.Model.pack (.finite .positive m (k : Int) h))) =
      some (if m * 2 ^ k < 2 ^ 1024 then ((m * 2 ^ k : Nat) : EReal) else ⊤) := by
  have hleast : -1074 ≤ (k : Int) := by omega
  have hfits : m * 2 ^ k < 2 ^ 1024 ↔ (k : Int) ≤ 971 := by
    rw [← Nat.log2_lt (by positivity), log2_mul_two_pow (by omega), hm]
    omega
  by_cases hk : (k : Int) ≤ 971
  · have hparts := WholeNumber.unpack_pack_normal (s := .positive) h hm ⟨hleast, hk⟩
    rw [← parts_ofModel_pack] at hparts
    rw [if_pos (hfits.2 hk), extended?_positive hparts, zpow_natCast, ← Nat.cast_ofNat,
      ← Nat.cast_pow, ← Nat.cast_mul]
    rfl
  · have hparts := unpack_pack_overflow (s := .positive) (h := h) (not_le.1 hk)
    rw [← parts_ofModel_pack] at hparts
    rw [if_neg (mt hfits.1 hk), extended?_infinity hparts]

/-- What the 53 highest bits of a number say, the rest rounded off. -/
def rounded (n : Nat) : Nat :=
  if n < 2 ^ 53 then n else roundOff (n.log2 + 1) (n * 2 ^ 53) * 2 ^ (n.log2 - 52)

/-- A converted number has the place of what it is rounded to, or is infinite. -/
theorem extended?_ofNat (n : Nat) :
    extended? (Float.ofNat n) =
      some (if rounded n < 2 ^ 1024 then (rounded n : EReal) else ⊤) := by
  by_cases hsmall : n < 2 ^ 53
  · have hn : n < 2 ^ 1024 := by
      refine hsmall.trans ?_
      gcongr <;> decide
    rw [extended?_ofNat_of_lt hsmall, rounded, if_pos hsmall, if_pos hn]
  · have hlarge : 2 ^ 53 ≤ n := not_lt.1 hsmall
    have hbits : 53 ≤ n.log2 := (Nat.le_log2 (by omega)).2 hlarge
    have hlog : (n * 2 ^ 53).log2 = 52 + (n.log2 + 1) := by
      rw [log2_mul_two_pow (by omega)]
      omega
    obtain ⟨m, j, hpos, hround, hm, hmj⟩ := roundWithAccuracy_eq (e := -53) hlog (by omega)
    have hexponent : -53 + ((n.log2 + 1 : Nat) : Int) + (j : Int) =
        ((j + (n.log2 - 52) : Nat) : Int) := by omega
    simp only [hexponent] at hround
    rw [ofNat_eq_round hlarge, hround, extended?_pack hpos hm, Nat.pow_add, ← Nat.mul_assoc, hmj,
      rounded, if_neg hsmall]

/-- A number of more than 53 bits is rounded within its length. -/
theorem rounded_bounds {n : Nat} (hn : 2 ^ 53 ≤ n) :
    2 ^ n.log2 ≤ rounded n ∧ rounded n ≤ 2 ^ (n.log2 + 1) := by
  have hbits : 53 ≤ n.log2 := (Nat.le_log2 (by omega)).2 hn
  have hlog : (n * 2 ^ 53).log2 = 52 + (n.log2 + 1) := by
    rw [log2_mul_two_pow (by omega)]
    omega
  obtain ⟨hlow, hhigh⟩ := roundOff_normal hlog
  have hsplit (c : Nat) : 2 ^ c * 2 ^ (n.log2 - 52) = 2 ^ (c + n.log2 - 52) := by
    rw [← Nat.pow_add]
    congr 1
    omega
  have hbelow := Nat.mul_le_mul_right (2 ^ (n.log2 - 52)) hlow
  have habove := Nat.mul_le_mul_right (2 ^ (n.log2 - 52)) hhigh
  rw [hsplit, Nat.add_sub_cancel_left] at hbelow
  rw [hsplit, show 53 + n.log2 - 52 = n.log2 + 1 by omega] at habove
  rw [rounded, if_neg (not_lt.2 hn)]
  exact ⟨hbelow, habove⟩

/-- Rounding keeps the order of natural numbers. -/
theorem rounded_mono {a b : Nat} (h : a ≤ b) : rounded a ≤ rounded b := by
  by_cases hb : b < 2 ^ 53
  · rwa [rounded, rounded, if_pos hb, if_pos (h.trans_lt hb)]
  · have hb := not_lt.1 hb
    have hblow := (rounded_bounds hb).1
    by_cases ha : a < 2 ^ 53
    · calc rounded a = a := if_pos ha
        _ ≤ 2 ^ 53 := ha.le
        _ ≤ 2 ^ b.log2 := Nat.pow_le_pow_right (by decide) ((Nat.le_log2 (by omega)).2 hb)
        _ ≤ rounded b := hblow
    · have ha := not_lt.1 ha
      have hle : a.log2 ≤ b.log2 :=
        (Nat.le_log2 (by omega)).2 ((Nat.log2_self_le (by omega)).trans h)
      rcases hle.lt_or_eq with hlog | hlog
      · calc rounded a ≤ 2 ^ (a.log2 + 1) := (rounded_bounds ha).2
          _ ≤ 2 ^ b.log2 := Nat.pow_le_pow_right (by decide) hlog
          _ ≤ rounded b := hblow
      · -- one length: the same bits go
        rw [rounded, rounded, if_neg (not_lt.2 ha), if_neg (not_lt.2 hb), hlog]
        exact Nat.mul_le_mul_right _ (roundOff_mono _ (Nat.mul_le_mul_right _ h))

/-- A double below a converted number is below every larger one converted. -/
theorem lt_ofNat_of_le {x : Float} {a b : Nat} (hx : x < Float.ofNat a) (h : a ≤ b) :
    x < Float.ofNat b := by
  obtain ⟨p, hp⟩ : ∃ p, extended? x = some p := extended?_of_lt hx
  rw [lt_iff_extended hp (extended?_ofNat a)] at hx
  rw [lt_iff_extended hp (extended?_ofNat b)]
  refine lt_of_lt_of_le hx ?_
  have hle := rounded_mono h
  split_ifs with ha hb hb
  · exact Nat.cast_le.2 hle
  · exact le_top
  · exact absurd (hle.trans_lt hb) ha
  · exact le_rfl

/-- Below `2 ^ 53` the conversion is exact. -/
theorem lt_ofNat_iff {x : Float} {p : EReal} {n : Nat} (hx : extended? x = some p)
    (hn : n < 2 ^ 53) : x < Float.ofNat n ↔ p < n :=
  lt_iff_extended hx (extended?_ofNat_of_lt hn)

end RasterTile.ExactValue
