import RasterTile.Proofs.ExactValue

/-!
# Doubles and their patterns

A pattern of 64 bits is read as a sign, an exponent and a mantissa. What can be read from a pattern at
all is read back after it was packed, and so is its negative; only the payload of a NaN gets lost. So
the parts of a double are those of the pattern it was made from, and it is zero if every bit but the
sign is clear.
-/
namespace RasterTile.ExactValue

open Float.Model Float.Model.UnpackedFloat
open WholeNumber (parts whole)

/-- Parts that a pattern can have: a special value, a number with the least exponent and fewer than 53
bits, or one with 53 bits. -/
inductive Encoded : UnpackedFloat → Prop
  | notANumber : Encoded .notANumber
  | infinity (s : Sign) : Encoded (.infinity s)
  | zero (s : Sign) : Encoded (.zero s)
  | subnormal (s : Sign) (m : Nat) (h : 0 < m) (hm : m < 2 ^ 52) : Encoded (.finite s m (-1074) h)
  | normal (s : Sign) (m : Nat) (e : Int) (h : 0 < m) (hm : m.log2 = 52)
      (he : -1074 ≤ e ∧ e ≤ 971) : Encoded (.finite s m e h)

variable {u : UnpackedFloat}

theorem toNat_append_mantissa (m : BitVec 52) : (1#1 ++ m).toNat = 2 ^ 52 + m.toNat := by
  rw [BitVec.toNat_append, ← Nat.shiftLeft_add_eq_or_of_lt m.isLt, Nat.shiftLeft_eq]
  rfl

theorem encoded_unpack (w : BitVec 64) : Encoded (UnpackedFloat.unpack .binary64 w) := by
  have hexponent : (@unpackExponent .binary64 w).toNat < 2 ^ 11 := BitVec.isLt _
  have hmantissa : (@unpackMantissa .binary64 w).toNat < 2 ^ 52 := BitVec.isLt _
  simp only [UnpackedFloat.unpack]
  split_ifs with hspecial hinfinite hleast hnone
  · exact .infinity _
  · exact .notANumber
  · exact .zero _
  · rw [hleast]
    exact .subnormal _ _ _ hmantissa
  · have hpos : (@unpackExponent .binary64 w).toNat ≠ 0 := fun h =>
      hleast (BitVec.eq_of_toNat_eq h)
    have htop : (@unpackExponent .binary64 w).toNat ≠ 2047 := fun h =>
      hspecial (BitVec.eq_of_toNat_eq h)
    have hbits := toNat_append_mantissa (@unpackMantissa .binary64 w)
    refine .normal _ _ _ _ (log2_of_normal ?_ ?_) ?_
    · omega
    · omega
    · simp only [Format.exponentBias]
      omega

/-- The parts of every double can be encoded. -/
theorem encoded_parts (x : Float) : Encoded (parts x) := encoded_unpack _

/-- A mantissa of fewer than 53 bits is packed with the least exponent. -/
theorem unpack_pack_subnormal {s : Sign} {m : Nat} {e : Int} (h : 0 < m) (hm : m < 2 ^ 52)
    (he : e ≤ 971) :
    UnpackedFloat.unpack .binary64 (UnpackedFloat.pack .binary64 (.finite s m e h)) =
      .finite s m (-1074) h := by
  have hlog : m.log2 + 1 ≠ Format.binary64.mantissaBits := by
    have hlt : m.log2 < 52 := (Nat.log2_lt (by omega)).2 hm
    simp only [Format.mantissaBits]
    omega
  have hsmall : ¬ 2 ^ Format.binary64.exponentBits ≤
      (e + ((Format.binary64.exponentBias : Nat) : Int) +
        ((Format.binary64.mantissaBitsWithoutImplicit : Nat) : Int)).toNat + 1 := by
    simp only [Format.exponentBias]
    omega
  have hmod : m % 2 ^ 52 = m := Nat.mod_eq_of_lt hm
  have hne : BitVec.ofNat 52 m ≠ 0#52 := by
    intro hzero
    have hvalue := congrArg BitVec.toNat hzero
    rw [BitVec.toNat_ofNat, hmod] at hvalue
    exact h.ne' hvalue
  have hspecial : (0#11 : BitVec 11) ≠ -1#11 := by decide
  simp only [UnpackedFloat.pack, if_neg hsmall, if_neg hlog, UnpackedFloat.unpack,
    unpackExponent_packComponents, unpackMantissa_packComponents,
    WholeNumber.unpackSign_packComponents, if_neg hspecial, if_true, dif_neg hne,
    BitVec.toNat_ofNat, hmod, UnpackedFloat.finite.injEq, true_and]
  rfl

/-- Packing loses nothing that came out of a pattern. -/
theorem Encoded.unpack_pack (h : Encoded u) :
    UnpackedFloat.unpack .binary64 (UnpackedFloat.pack .binary64 u) = u := by
  cases h with
  | notANumber => rfl
  | infinity s => cases s <;> rfl
  | zero s => cases s <;> rfl
  | subnormal s m h hm => exact unpack_pack_subnormal h hm (by decide)
  | normal s m e h hm he => exact WholeNumber.unpack_pack_normal h hm he

theorem Encoded.neg (h : Encoded u) : Encoded u.neg := by
  cases h with
  | notANumber => exact .notANumber
  | infinity s => exact .infinity _
  | zero s => exact .zero _
  | subnormal s m h hm => exact .subnormal _ m h hm
  | normal s m e h hm he => exact .normal _ m e h hm he

theorem parts_ofBits (w : UInt64) :
    parts (Float.ofBits w) = UnpackedFloat.unpack .binary64 w.toBitVec :=
  (encoded_unpack w.toBitVec).unpack_pack

theorem parts_neg (x : Float) : parts (-x) = (parts x).neg := (encoded_parts x).neg.unpack_pack

/-! ## Numbers -/

theorem toNat_unpackExponent (w : BitVec 64) :
    (@unpackExponent .binary64 w).toNat = w.toNat / 2 ^ 52 % 2 ^ 11 := by
  change w.toNat >>> 52 % 2 ^ 11 = _
  rw [Nat.shiftRight_eq_div_pow]

/-- A pattern with the largest exponent stands for an infinity or a NaN. -/
theorem exponent_of_isFinite {w : UInt64} (h : (Float.ofBits w).isFinite = true) :
    w.toNat / 2 ^ 52 % 2 ^ 11 ≠ 2047 := by
  intro htop
  have hspecial : @unpackExponent .binary64 w.toBitVec = -1#11 :=
    BitVec.eq_of_toNat_eq ((toNat_unpackExponent w.toBitVec).trans htop)
  have hfinite : (UnpackedFloat.unpack .binary64 w.toBitVec).isFinite = true := by
    rw [← parts_ofBits w]
    exact h
  simp only [UnpackedFloat.unpack, if_pos hspecial] at hfinite
  split_ifs at hfinite <;> cases hfinite

/-- A number has the pattern that it was made from. -/
theorem toBits_ofBits {w : UInt64} (h : (Float.ofBits w).isFinite = true) :
    (Float.ofBits w).toBits = w := by
  have hbits : (Float.ofBits w).toBits.toBitVec =
      if @isNaNBits .binary64 w.toBitVec = true then packedNaN .binary64 else w.toBitVec :=
    @pack_unpack .binary64 w.toBitVec (by decide)
  by_cases hnan : @isNaNBits .binary64 w.toBitVec = true
  · rw [if_pos hnan] at hbits
    have hparts : parts (Float.ofBits w) = .notANumber := by
      rw [parts, Float.Model.unpack]
      exact (congrArg (UnpackedFloat.unpack .binary64) hbits).trans unpack_packedNaN
    have hfinite : (parts (Float.ofBits w)).isFinite = true := h
    rw [hparts] at hfinite
    cases hfinite
  · rw [if_neg hnan] at hbits
    exact UInt64.toBitVec_inj.1 hbits

/-! ## Zero -/

/-- A double equals zero if its parts are a zero of either sign. -/
theorem beq_zero_iff (x : Float) : (x == 0) = true ↔ ∃ s, parts x = .zero s := by
  change UnpackedFloat.beq (parts x) (parts 0) = true ↔ _
  rw [WholeNumber.parts_zero]
  cases parts x with
  | notANumber => simp [UnpackedFloat.beq, UnpackedFloat.compare]
  | infinity s => cases s <;> simp [UnpackedFloat.beq, UnpackedFloat.compare]
  | zero s => simp [UnpackedFloat.beq, UnpackedFloat.compare]
  | finite s m e h => cases s <;> simp [UnpackedFloat.beq, UnpackedFloat.compare]

theorem value?_eq_zero_iff (x : Float) : value? x = some 0 ↔ (x == 0) = true := by
  rw [beq_zero_iff, value?]
  cases parts x with
  | finite s m e h =>
    have hs : ((s.apply m : ℤ) : ℚ) ≠ 0 := by
      cases s <;> simp [Sign.apply, h.ne']
    have he : (2 : ℚ) ^ e ≠ 0 := by positivity
    simp [hs, he]
  | _ => simp

/-- A scalar test of doubles in terms of comparisons. -/
theorem isNonzero_eq (x : Float) : Scalar.isNonzero x = !(x == 0 || x.isNaN) := by
  rw [Bool.eq_iff_iff, isNonzero_iff, ne_eq, value?_eq_zero_iff]
  simp

/-- Zero is the only value with the least exponent and no mantissa. -/
theorem unpack_eq_zero_iff (w : BitVec 64) :
    (∃ s, UnpackedFloat.unpack .binary64 w = .zero s) ↔ w.toNat % 2 ^ 63 = 0 := by
  have hexponent := toNat_unpackExponent w
  have hmantissa : (@unpackMantissa .binary64 w).toNat = w.toNat % 2 ^ 52 := by
    change w.toNat >>> 0 % 2 ^ 52 = _
    rw [Nat.shiftRight_zero]
  simp only [UnpackedFloat.unpack]
  split_ifs with hspecial hinfinite hleast hnone
  · have htop : (@unpackExponent .binary64 w).toNat = 2047 := by rw [hspecial]; rfl
    simp only [exists_false, false_iff]
    omega
  · have htop : (@unpackExponent .binary64 w).toNat = 2047 := by rw [hspecial]; rfl
    simp only [exists_false, false_iff]
    omega
  · have hlow : (@unpackExponent .binary64 w).toNat = 0 := by rw [hleast]; rfl
    have hclear : (@unpackMantissa .binary64 w).toNat = 0 := by rw [hnone]; rfl
    simp only [UnpackedFloat.zero.injEq, exists_eq', true_iff]
    omega
  · have hset : (@unpackMantissa .binary64 w).toNat ≠ 0 := fun h => hnone (BitVec.eq_of_toNat_eq h)
    simp only [exists_false, false_iff]
    omega
  · have hpos : (@unpackExponent .binary64 w).toNat ≠ 0 := fun h =>
      hleast (BitVec.eq_of_toNat_eq h)
    simp only [exists_false, false_iff]
    omega

/-- The patterns of zero are those without a bit beside the sign. -/
theorem ofBits_beq_zero_iff (w : UInt64) : (Float.ofBits w == 0) = true ↔ w.toNat % 2 ^ 63 = 0 := by
  rw [beq_zero_iff, parts_ofBits, unpack_eq_zero_iff]
  rfl

end RasterTile.ExactValue
