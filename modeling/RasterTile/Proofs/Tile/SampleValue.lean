import RasterTile.ElementType
import RasterTile.Proofs.BitPattern

/-!
# Samples as numbers

The test for zero looks at a pattern without reading it as a number. It agrees with the number that the
pattern stands for: that number is equal to zero if every bit is clear, the sign of a float apart. So a
negative zero passes, and a NaN does not. The pattern that marks a valid pixel stands for full scale.
-/
namespace RasterTile

namespace Rounding

variable {n p k : Nat}

theorem halfEven_le (n k : Nat) : halfEven n k ≤ n / 2 ^ k + 1 := by
  simp only [halfEven]
  split
  · exact Nat.le_succ _
  · exact le_rfl

/-- Rounded to 53 bits, a number has the exponent that its length says, or the next one. -/
theorem pattern_le (n : Nat) : pattern 52 0 n ≤ (n.log2 - 52) * 2 ^ 52 + 2 ^ 53 := by
  have hlength : n < 2 ^ (53 + (n.log2 - 52)) :=
    lt_of_lt_of_le (Nat.lt_log2_self (n := n)) (Nat.pow_le_pow_right (by decide) (by omega))
  have hbits : n / 2 ^ (n.log2 - 52) < 2 ^ 53 := by
    rwa [Nat.div_lt_iff_lt_mul (by positivity), ← Nat.pow_add]
  exact Nat.add_le_add_left ((halfEven_le _ _).trans hbits) _

theorem le_pattern (n : Nat) : (n.log2 - 52) * 2 ^ 52 ≤ pattern 52 0 n := Nat.le_add_right _ _

/-- The exponent of a single says how long its magnitude is, which is zero for the first pattern only. -/
theorem magnitude_bounds (p : Nat) :
    magnitude 23 p < 2 ^ (24 + p / 2 ^ 23) ∧ (magnitude 23 p = 0 ↔ p = 0) := by
  have hfraction : p % 2 ^ 23 < 2 ^ 23 := Nat.mod_lt _ (by decide)
  have hdigits : p = 2 ^ 23 * (p / 2 ^ 23) + p % 2 ^ 23 := (Nat.div_add_mod p _).symm
  cases he : p / 2 ^ 23 with
  | zero =>
    have hexponent : p / Nat.pow 2 23 = 0 := he
    have hm : magnitude 23 p = p % 2 ^ 23 := by simp only [magnitude, hexponent, Nat.pow_eq]
    rw [hm]
    exact ⟨by omega, by omega⟩
  | succ e =>
    have hexponent : p / Nat.pow 2 23 = e + 1 := he
    have hm : magnitude 23 p = (2 ^ 23 + p % 2 ^ 23) * 2 ^ e := by
      simp only [magnitude, hexponent, Nat.pow_eq]
    have hpos : 0 < (2 ^ 23 + p % 2 ^ 23) * 2 ^ e := by positivity
    rw [hm]
    refine ⟨?_, by omega⟩
    calc (2 ^ 23 + p % 2 ^ 23) * 2 ^ e
        < 2 ^ 24 * 2 ^ e := Nat.mul_lt_mul_of_pos_right (by omega) (by positivity)
      _ = 2 ^ (24 + e) := (Nat.pow_add ..).symm
      _ ≤ 2 ^ (24 + (e + 1)) := Nat.pow_le_pow_right (by decide) (by omega)

/-- The pattern of a single is widened to that of a double, and only zero to zero. -/
theorem widenPattern_bounds (hp : p < 2 ^ 31) :
    widenPattern p < 2 ^ 63 ∧ (widenPattern p = 0 ↔ p = 0) := by
  by_cases hspecial : p / Nat.pow 2 23 = Nat.pow 2 8 - 1
  · have hwide : widenPattern p = 2047 * 2 ^ 52 + p % 2 ^ 23 * 2 ^ 29 := if_pos hspecial
    have hexponent : p / 2 ^ 23 = 255 := hspecial
    omega
  · have hexponent : p / 2 ^ 23 ≠ 255 := hspecial
    obtain ⟨hlt, hzero⟩ := magnitude_bounds p
    have hwide : widenPattern p = pattern 52 0 (magnitude 23 p * 2 ^ singleScale) := by
      rw [widenPattern, if_neg hspecial, Nat.pow_eq]
    by_cases hm : magnitude 23 p = 0
    · have hnone : widenPattern p = 0 := by
        rw [hwide, hm, Nat.zero_mul]
        rfl
      rw [hnone]
      exact ⟨by decide, by simpa using hzero.1 hm⟩
    · have hlog : (magnitude 23 p * 2 ^ singleScale).log2 = (magnitude 23 p).log2 + 925 :=
        ExactValue.log2_mul_two_pow hm singleScale
      have hlength : (magnitude 23 p).log2 < 24 + p / 2 ^ 23 := (Nat.log2_lt hm).2 hlt
      have hbelow := le_pattern (magnitude 23 p * 2 ^ singleScale)
      have habove := pattern_le (magnitude 23 p * 2 ^ singleScale)
      rw [hlog, ← hwide] at hbelow habove
      omega

theorem signed_beq_zero_iff (negative : Bool) (hp : p < 2 ^ 63) :
    (signed negative p == 0) = true ↔ p = 0 := by
  rw [signed, ExactValue.ofBits_beq_zero_iff, UInt64.toNat_ofNat']
  change (if negative then 2 ^ 63 + p else p) % 2 ^ 64 % 2 ^ 63 = 0 ↔ p = 0
  split <;> omega

theorem ofSingle_beq_zero_iff (w : BitVec 32) :
    (ofSingle w == 0) = true ↔ w.toNat % 2 ^ 31 = 0 := by
  have hp : w.toNat % 2 ^ 31 < 2 ^ 31 := Nat.mod_lt _ (by decide)
  obtain ⟨hlt, hzero⟩ := widenPattern_bounds hp
  exact (signed_beq_zero_iff _ hlt).trans hzero

end Rounding

namespace ExactValue

theorem ofNat_beq_zero_iff {n : Nat} (hn : n < 2 ^ 53) : (Float.ofNat n == 0) = true ↔ n = 0 := by
  rw [beq_zero_iff, ofNat_eq_whole hn]
  by_cases hzero : n = 0
  · subst hzero
    simp [WholeNumber.parts_whole_zero]
  · simp [WholeNumber.parts_whole hzero hn, hzero]

theorem neg_beq_zero_iff (x : Float) : (-x == 0) = true ↔ (x == 0) = true := by
  rw [beq_zero_iff, beq_zero_iff, parts_neg]
  cases WholeNumber.parts x <;> simp [Float.Model.UnpackedFloat.neg]

theorem ofInt_beq_zero_iff {n : Int} (hn : n.natAbs < 2 ^ 53) :
    (Float.ofInt n == 0) = true ↔ n = 0 := by
  cases n with
  | ofNat n =>
    have hlt : n < 2 ^ 53 := hn
    rw [Float.ofInt, ofNat_beq_zero_iff hlt]
    exact Int.natCast_eq_zero.symm
  | negSucc n =>
    rw [Float.ofInt, iff_false_right (Int.negSucc_ne_zero n)]
    change ¬ (-Float.ofNat (n + 1) == 0) = true
    rw [neg_beq_zero_iff, ofNat_beq_zero_iff (by omega)]
    omega

theorem ofInt_toInt_beq_zero_iff {n : Nat} (hn : n ≤ 53) (w : BitVec n) :
    (Float.ofInt w.toInt == 0) = true ↔ w.toNat = 0 := by
  have hlow := BitVec.le_two_mul_toInt (x := w)
  have hhigh := BitVec.two_mul_toInt_lt (x := w)
  have hlimit : (2 : Int) ^ n ≤ 2 ^ 53 := pow_le_pow_right₀ (by decide) hn
  have hzero : w.toInt = (0#n).toInt ↔ w.toNat = (0#n).toNat := by
    rw [BitVec.toInt_inj, BitVec.toNat_inj]
  rw [BitVec.toInt_zero, BitVec.toNat_zero] at hzero
  exact (ofInt_beq_zero_iff (by omega)).trans hzero

end ExactValue

namespace ElementType

/-- A sample is zero as a pattern if its number is equal to zero. -/
theorem isZero_iff (t : ElementType) (w : BitVec t.bits) :
    t.isZero w = true ↔ (t.value w == 0) = true := by
  have hw : w.toNat < 2 ^ t.bits := w.isLt
  have hbits : 2 ^ t.bits ≤ 2 ^ 64 := Nat.pow_le_pow_right (by decide) (by cases t <;> decide)
  cases t with
  | u8 | u16 | u32 =>
    have hsmall : w.toNat < 2 ^ 53 := hw.trans (by decide)
    change (w.toNat == 0) = true ↔ (Float.ofNat w.toNat == 0) = true
    rw [beq_iff_eq, ExactValue.ofNat_beq_zero_iff hsmall]
  | i8 | i16 | i32 =>
    refine beq_iff_eq.trans (Iff.symm ?_)
    exact ExactValue.ofInt_toInt_beq_zero_iff (by decide) w
  | f32 =>
    refine beq_iff_eq.trans (Iff.symm ?_)
    exact Rounding.ofSingle_beq_zero_iff w
  | f64 =>
    have hword : w.toNat.toUInt64.toNat = w.toNat := Nat.mod_eq_of_lt hw
    change (w.toNat % 2 ^ 63 == 0) = true ↔ (Float.ofBits w.toNat.toUInt64 == 0) = true
    rw [beq_iff_eq, ExactValue.ofBits_beq_zero_iff, hword]

def fullScale : ElementType → Nat
  | .u8 => 255
  | .i8 => 127
  | .u16 => 65535
  | .i16 => 32767
  | .u32 => 4294967295
  | .i32 => 2147483647
  | .f32 | .f64 => 65535

/-- The pattern of a valid pixel stands for the full scale of the type. -/
theorem value_full (t : ElementType) : t.value t.full = Float.ofNat t.fullScale := by
  cases t with
  | f32 =>
    have hwide : Rounding.widenPattern 0x477fff00 = 0x40efffe000000000 := by decide +kernel
    change Rounding.signed false (Rounding.widenPattern 0x477fff00) = _
    rw [hwide]
    rfl
  | _ => rfl

theorem value_zero (t : ElementType) : t.value 0 = 0 := by
  cases t with
  | f32 =>
    have hwide : Rounding.widenPattern 0 = 0 := by decide +kernel
    change Rounding.signed false (Rounding.widenPattern 0) = _
    rw [hwide]
    rfl
  | _ => rfl

end ElementType
end RasterTile
