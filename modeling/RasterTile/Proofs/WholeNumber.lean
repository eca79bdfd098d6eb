import Mathlib

/-!
# Whole numbers as doubles

A double is read as its parts: a sign, a mantissa and an exponent, or a special value. A whole
number below `2 ^ 53` is stored exactly, so a double that compares equal to it truncates to it, and
the test that an index of a style program has to pass picks out the 32-bit numbers.
-/
namespace RasterTile.WholeNumber

open Float.Model Float.Model.UnpackedFloat

def parts (x : Float) : UnpackedFloat := x.toModel.unpack

theorem mantissa_lt {x : Float} {s : Sign} {m : Nat} {e : Int} {h : 0 < m}
    (hx : parts x = .finite s m e h) : m < 2 ^ 53 := by
  simp only [parts, Float.Model.unpack, UnpackedFloat.unpack] at hx
  split at hx
  · split at hx <;> simp at hx
  · split at hx
    · split at hx
      · simp at hx
      · simp only [UnpackedFloat.finite.injEq] at hx
        obtain ⟨-, rfl, -⟩ := hx
        have := (@unpackMantissa .binary64 x.toModel.toBits.toBitVec).isLt
        simp only at this
        omega
    · simp only [UnpackedFloat.finite.injEq] at hx
      obtain ⟨-, rfl, -⟩ := hx
      exact (1#1 ++ @unpackMantissa .binary64 x.toModel.toBits.toBitVec).isLt

/-- Shifting one bit at a time divides by a power of two. -/
theorem mantissa_repeat (em : ExtendedMantissa) (k : Nat) :
    (Nat.repeat ExtendedMantissa.shiftRightOne k em).mantissa = em.mantissa / 2 ^ k := by
  induction k with
  | zero => simp [Nat.repeat]
  | succ k ih =>
    simp only [Nat.repeat, ExtendedMantissa.shiftRightOne, ih]
    rw [Nat.div_div_eq_div_mul, Nat.pow_succ]

/-- Rounding towards zero drops the bits below the point. -/
theorem roundToInt_neg (s : Sign) (m k : Nat) :
    roundToInt s m (-(k : Int)) = s.apply ((m / 2 ^ k : Nat) : Int) := by
  have hk : ((-(k : Int)) - 0).toNat = 0 := by omega
  simp only [roundToInt, decreaseExponent, shiftToExponent, hk, Nat.shiftLeft_zero]
  congr 2
  have hs : (0 - (-(k : Int) - ((0 : Nat) : Int))).toNat = k := by omega
  rw [hs]
  exact mantissa_repeat _ _

theorem log2_shiftLeft {n : Nat} (hn : n ≠ 0) (k : Nat) : (n <<< k).log2 = n.log2 + k := by
  have hpos : n <<< k ≠ 0 := by simp [Nat.shiftLeft_eq, hn]
  have hlow := Nat.log2_self_le hn
  have hhigh := Nat.lt_log2_self (n := n)
  rw [Nat.log2_eq_iff hpos, Nat.shiftLeft_eq]
  constructor
  · rw [Nat.pow_add]
    exact Nat.mul_le_mul_right _ hlow
  · have he : n.log2 + k + 1 = (n.log2 + 1) + k := by omega
    rw [he, Nat.pow_add 2 (n.log2 + 1) k]
    exact Nat.mul_lt_mul_of_pos_right hhigh (by positivity)

/-- The exponent that a number is shifted to: 53 bits are left, but the exponent is no smaller than that of
the least double. -/
theorem targetExponent_eq (m : Nat) (e : Int) : Format.binary64.targetExponent (totalExponent m e) =
    max ((m.log2 : Int) + e - 52) (-1074) := by
  simp only [Format.targetExponent, totalExponent, Format.minExponent, Format.mantissaBits]
  omega

/-- A whole number with at most 53 bits is only shifted, never rounded. -/
theorem round_whole {n : Nat} (hn : n ≠ 0) (hlt : n < 2 ^ 53) :
    UnpackedFloat.round .binary64 .positive n 0 =
      .finite .positive (n <<< (52 - n.log2)) (-((52 - n.log2 : Nat) : Int))
        (by rw [Nat.shiftLeft_eq]; positivity) := by
  have hl : n.log2 ≤ 52 := by have := (Nat.log2_lt (k := 53) hn).2 hlt; omega
  have ht : Format.binary64.targetExponent (totalExponent n 0) = -((52 - n.log2 : Nat) : Int) := by
    rw [targetExponent_eq]
    omega
  have ht' : Format.binary64.targetExponent
      (totalExponent (n <<< (52 - n.log2)) (-((52 - n.log2 : Nat) : Int))) =
        -((52 - n.log2 : Nat) : Int) := by
    rw [targetExponent_eq, log2_shiftLeft hn]
    omega
  have hd : decreaseExponent n 0 (-((52 - n.log2 : Nat) : Int)) =
      (n <<< (52 - n.log2), -((52 - n.log2 : Nat) : Int)) := by
    simp [decreaseExponent]
  have hpos : n <<< (52 - n.log2) ≠ 0 := by simp [Nat.shiftLeft_eq, hn]
  simp only [UnpackedFloat.round, ht, hd, roundWithAccuracy, shiftToTargetExponent, ht',
    shiftToExponent, Int.sub_self, Int.toNat_zero]
  simp only [HShiftRight.hShiftRight, Nat.repeat, ExtendedMantissa.ofMantissaAndAccuracy,
    ExtendedMantissa.roundedMantissa, ExtendedMantissa.accuracy, Accuracy.roundToNearestEven,
    Int.natCast_zero, Int.add_zero, ht', Int.sub_self, Int.toNat_zero, dif_neg hpos]

theorem unpackSign_packComponents (s : Sign) (e : BitVec 11) (m : BitVec 52) :
    Sign.ofBitVec (unpackSign (packComponents .binary64 s e m)) = s := by
  unfold unpackSign packComponents BitVec.extractLsb
  rw [BitVec.extractLsb'_append_eq_of_le (by decide),
    BitVec.extractLsb'_append_eq_of_le (by decide)]
  cases s <;> rfl

/-- Unpacking a normal number gives back what was packed. -/
theorem unpack_pack_normal {s : Sign} {m : Nat} {e : Int} (h : 0 < m) (hm : m.log2 = 52)
    (he : -1074 ≤ e ∧ e ≤ 971) :
    UnpackedFloat.unpack .binary64 (UnpackedFloat.pack .binary64 (.finite s m e h)) =
      .finite s m e h := by
  have hlow := Nat.log2_self_le (Nat.pos_iff_ne_zero.1 h)
  have hhigh := Nat.lt_log2_self (n := m)
  rw [hm] at hlow hhigh
  have hb : (e + ((Format.binary64.exponentBias : Nat) : Int) +
      ((Format.binary64.mantissaBitsWithoutImplicit : Nat) : Int)).toNat = (e + 1075).toNat := by
    simp only [Format.exponentBias]
    omega
  have hsmall : ¬ 2 ^ Format.binary64.exponentBits ≤ (e + 1075).toNat + 1 := by
    simp only
    omega
  have hfull : m.log2 + 1 = Format.binary64.mantissaBits := by
    simp only [hm, Format.mantissaBits]
  have hpack : UnpackedFloat.pack .binary64 (.finite s m e h) =
      packComponents .binary64 s (BitVec.ofNat _ (e + 1075).toNat) (BitVec.ofNat _ m) := by
    simp only [UnpackedFloat.pack, hb, if_neg hsmall, if_pos hfull]
  have hexp : (BitVec.ofNat Format.binary64.exponentBits (e + 1075).toNat).toNat =
      (e + 1075).toNat := by
    simp only [BitVec.toNat_ofNat]
    omega
  have hspecial : BitVec.ofNat 11 (e + 1075).toNat ≠ -1#11 := by
    intro hc
    have := congrArg BitVec.toNat hc
    rw [hexp] at this
    simp at this
    omega
  have hsubnormal : BitVec.ofNat 11 (e + 1075).toNat ≠ 0#11 := by
    intro hc
    have := congrArg BitVec.toNat hc
    rw [hexp] at this
    simp at this
    omega
  rw [hpack, UnpackedFloat.unpack]
  simp only [unpackExponent_packComponents, unpackMantissa_packComponents,
    unpackSign_packComponents, hspecial, hsubnormal, if_false, UnpackedFloat.finite.injEq, true_and,
    hexp]
  constructor
  · rw [BitVec.toNat_append, ← Nat.shiftLeft_add_eq_or_of_lt (BitVec.isLt _), BitVec.toNat_ofNat,
      BitVec.toNat_ofNat, Nat.shiftLeft_eq]
    omega
  · simp only [Format.exponentBias]
    omega

def whole (n : Nat) : Float := .ofModel (.ofNat n)

theorem toFloat_uint32 (n : UInt32) : n.toFloat = whole n.toNat := rfl
theorem toFloat_uint64 (n : UInt64) : n.toFloat = whole n.toNat := rfl

theorem parts_zero : parts 0 = .zero .positive := by rfl
theorem parts_whole_zero : parts (whole 0) = .zero .positive := by rfl

/-- A whole number is converted by rounding it. -/
theorem ofNat_eq_round {n : Nat} (hn : n ≠ 0) :
    UnpackedFloat.ofNat .binary64 n = UnpackedFloat.round .binary64 .positive n 0 := by
  have hc : compare (n : Int) 0 = .gt := by
    rw [compare_gt_iff_gt]
    omega
  simp only [UnpackedFloat.ofNat, UnpackedFloat.ofInt, UnpackedFloat.normalize, hc,
    Int.toNat_natCast]

/-- A natural number below `2 ^ 53` is a double, shifted to 53 bits. -/
theorem parts_whole {n : Nat} (hn : n ≠ 0) (hlt : n < 2 ^ 53) :
    parts (whole n) = .finite .positive (n <<< (52 - n.log2)) (-((52 - n.log2 : Nat) : Int))
      (by rw [Nat.shiftLeft_eq]; positivity) := by
  have hl : n.log2 ≤ 52 := by have := (Nat.log2_lt (k := 53) hn).2 hlt; omega
  change UnpackedFloat.unpack .binary64
    (UnpackedFloat.pack .binary64 (UnpackedFloat.ofNat .binary64 n)) = _
  rw [ofNat_eq_round hn, round_whole hn hlt]
  apply unpack_pack_normal
  · rw [log2_shiftLeft hn]
    omega
  · omega

/-- A double that equals a whole number has its parts; zero has either sign. -/
theorem parts_of_whole_beq {n : Nat} {v : Float} (hlt : n < 2 ^ 53) (h : (whole n == v) = true) :
    (n = 0 ∧ ∃ s, parts v = .zero s) ∨ (n ≠ 0 ∧ parts v = parts (whole n)) := by
  change UnpackedFloat.beq (parts (whole n)) (parts v) = true at h
  by_cases hn : n = 0
  · subst n
    rw [parts_whole_zero] at h
    refine Or.inl ⟨rfl, ?_⟩
    cases hv : parts v with
    | zero s => exact ⟨s, rfl⟩
    | notANumber => simp [hv, UnpackedFloat.beq, UnpackedFloat.compare] at h
    | infinity s => cases s <;> simp [hv, UnpackedFloat.beq, UnpackedFloat.compare] at h
    | finite s m e hm => cases s <;> simp [hv, UnpackedFloat.beq, UnpackedFloat.compare] at h
  · refine Or.inr ⟨hn, ?_⟩
    rw [parts_whole hn hlt] at h ⊢
    cases hv : parts v with
    | zero s => simp [hv, UnpackedFloat.beq, UnpackedFloat.compare] at h
    | notANumber => simp [hv, UnpackedFloat.beq, UnpackedFloat.compare] at h
    | infinity s => cases s <;> simp [hv, UnpackedFloat.beq, UnpackedFloat.compare] at h
    | finite s m e hm =>
      cases s with
      | negative => simp [hv, UnpackedFloat.beq, UnpackedFloat.compare] at h
      | positive =>
        simp only [hv, UnpackedFloat.beq, UnpackedFloat.compare, beq_iff_eq, Option.some.injEq,
          Ordering.then_eq_eq, compare_eq_iff_eq] at h
        obtain ⟨rfl, rfl⟩ := h
        rfl

theorem whole_beq_self {n : Nat} (hlt : n < 2 ^ 53) : (whole n == whole n) = true := by
  change UnpackedFloat.beq (parts (whole n)) (parts (whole n)) = true
  by_cases hn : n = 0
  · subst n
    rfl
  · rw [parts_whole hn hlt]
    simp [UnpackedFloat.beq, UnpackedFloat.compare]

theorem toNat_ofNatClamp (n : Nat) : (UInt64.ofNatClamp n).toNat = min n (2 ^ 64 - 1) := by
  have hsize : UInt64.size = 2 ^ 64 := rfl
  unfold UInt64.ofNatClamp
  split
  · rw [UInt64.toNat_ofNatLT]
    omega
  · rw [UInt64.toNat_ofNatLT]
    omega

/-- Doubles are cut off to the words of 64 bits. -/
theorem toNat_toUInt64 (v : Float) :
    v.toUInt64.toNat = min ((parts v).toInt 0 (UInt64.size - 1)).toNat (2 ^ 64 - 1) :=
  toNat_ofNatClamp _

/-- Truncation gives back the whole number that a double equals. -/
theorem toUInt64_of_whole_beq {n : Nat} {v : Float} (hlt : n < 2 ^ 53)
    (h : (whole n == v) = true) : v.toUInt64.toNat = n := by
  rw [toNat_toUInt64]
  rcases parts_of_whole_beq hlt h with ⟨rfl, s, hv⟩ | ⟨hn, hv⟩
  · simp [hv, UnpackedFloat.toInt]
  · rw [hv, parts_whole hn hlt]
    simp only [UnpackedFloat.toInt, roundToInt_neg, Sign.apply, Int.toNat_natCast]
    rw [Nat.shiftLeft_eq, Nat.mul_div_cancel _ (by positivity)]
    omega

theorem le_iff (v w : Float) : v ≤ w ↔ UnpackedFloat.le (parts v) (parts w) = true := by
  change decide (v.toModel ≤ w.toModel) = true ↔ _
  rw [decide_eq_true_iff]
  rfl

theorem nonneg_of_whole_beq {n : Nat} {v : Float} (hlt : n < 2 ^ 53)
    (h : (whole n == v) = true) : 0 ≤ v := by
  rw [le_iff, parts_zero]
  rcases parts_of_whole_beq hlt h with ⟨rfl, s, hv⟩ | ⟨hn, hv⟩
  · rw [hv]; rfl
  · rw [hv, parts_whole hn hlt]; rfl

/-- Exponents are compared before mantissas. -/
theorem isLE_compare_then (e e' : Int) (m m' : Nat) :
    ((compare e e').then (compare m m')).isLE = true ↔ e < e' ∨ e = e' ∧ m ≤ m' := by
  rw [Ordering.isLE_then_iff_or, compare_lt_iff_lt, compare_eq_iff_eq, Nat.isLE_compare]

/-- The parts of the largest 32-bit number. -/
theorem parts_indexLimit :
    parts 4294967295 = .finite .positive (4294967295 * 2 ^ 21) (-21) (by decide) := by rfl

theorem le_of_whole_beq {n : Nat} {v : Float} (hlt : n < 2 ^ 32) (h : (whole n == v) = true) :
    v ≤ 4294967295 := by
  rw [le_iff, parts_indexLimit]
  rcases parts_of_whole_beq (by omega) h with ⟨rfl, s, hv⟩ | ⟨hn, hv⟩
  · rw [hv]; rfl
  · rw [hv, parts_whole hn (by omega)]
    have hl : n.log2 ≤ 31 := by have := (Nat.log2_lt (k := 32) hn).2 hlt; omega
    simp only [UnpackedFloat.le, UnpackedFloat.compare, Option.any_some]
    rw [isLE_compare_then]
    by_cases h31 : n.log2 = 31
    · refine Or.inr ⟨by omega, ?_⟩
      rw [h31, Nat.shiftLeft_eq]
      omega
    · exact Or.inl (by omega)

/-- A double between zero and the largest 32-bit number truncates to 32 bits. -/
theorem toUInt64_lt {v : Float} (hlow : 0 ≤ v) (hhigh : v ≤ 4294967295) :
    v.toUInt64.toNat < 2 ^ 32 := by
  rw [le_iff, parts_zero] at hlow
  rw [le_iff, parts_indexLimit] at hhigh
  rw [toNat_toUInt64]
  cases hv : parts v with
  | zero s => simp [UnpackedFloat.toInt]
  | notANumber => simp [hv, UnpackedFloat.le, UnpackedFloat.compare] at hhigh
  | infinity s =>
    cases s with
    | negative => simp [UnpackedFloat.toInt]
    | positive => simp [hv, UnpackedFloat.le, UnpackedFloat.compare] at hhigh
  | finite s m e hm =>
    cases s with
    | negative => simp [hv, UnpackedFloat.le, UnpackedFloat.compare] at hlow
    | positive =>
      have hm' := mantissa_lt hv
      simp only [hv, UnpackedFloat.le, UnpackedFloat.compare, Option.any_some] at hhigh
      rw [isLE_compare_then] at hhigh
      have he : e = -((-e).toNat : Int) := by omega
      have hfine : 21 ≤ (-e).toNat := by omega
      have hdiv : m / 2 ^ (-e).toNat < 2 ^ 32 := by
        have hle : m / 2 ^ (-e).toNat ≤ m / 2 ^ 21 :=
          Nat.div_le_div_left (Nat.pow_le_pow_right (by decide) hfine) (by positivity)
        omega
      rw [UnpackedFloat.toInt, he, roundToInt_neg]
      simp only [Sign.apply, Int.toNat_natCast]
      omega

/-- What an index has to pass is passed by exactly the doubles that equal a 32-bit number, and it
truncates to that number. -/
theorem index_iff (v : Float) (i : Nat) :
    ((0 ≤ v ∧ (v.toUInt64.toFloat == v) = true ∧ v ≤ 4294967295) ∧ v.toUInt64.toNat = i) ↔
      ∃ n : UInt32, (n.toFloat == v) = true ∧ n.toNat = i := by
  constructor
  · rintro ⟨⟨hlow, heq, hhigh⟩, rfl⟩
    have hlt := toUInt64_lt hlow hhigh
    have hn : (UInt32.ofNat v.toUInt64.toNat).toNat = v.toUInt64.toNat := by
      rw [UInt32.toNat_ofNat']
      omega
    refine ⟨UInt32.ofNat v.toUInt64.toNat, ?_, hn⟩
    rw [toFloat_uint32, hn, ← toFloat_uint64]
    exact heq
  · rintro ⟨n, heq, rfl⟩
    have hlt := n.toNat_lt
    rw [toFloat_uint32] at heq
    have ht := toUInt64_of_whole_beq (by omega) heq
    refine ⟨⟨nonneg_of_whole_beq (by omega) heq, ?_, le_of_whole_beq hlt heq⟩, ht⟩
    rw [toFloat_uint64, ht]
    exact heq

end RasterTile.WholeNumber
