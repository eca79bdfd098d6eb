import RasterTile.Proofs.BitPattern
import RasterTile.Proofs.ExtendedValue
import RasterTile.Rounding

/-!
# Rounding down

Rounding down compares, truncates and converts, and for negative doubles it adds one and changes signs.
None of these steps rounds: from `2 ^ 53` on every double is whole already, and below it whole numbers
are exact. So the result is the floor of the exact value, and what has no exact value stays what it is.
-/
namespace RasterTile.ExactValue

open Float.Model Float.Model.UnpackedFloat
open WholeNumber (parts whole)

variable {x y : Float} {p q : ℚ} {n : Nat}

/-! ## Values -/

theorem value?_zero : value? 0 = some 0 := by
  rw [value?, WholeNumber.parts_zero]

theorem lt_iff_value (hx : value? x = some p) (hy : value? y = some q) : x < y ↔ p < q := by
  rw [lt_iff_extended (extended?_of_value? hx) (extended?_of_value? hy), EReal.coe_lt_coe_iff,
    Rat.cast_lt]

theorem pos_iff_value (hx : value? x = some q) : 0 < x ↔ 0 < q := lt_iff_value value?_zero hx

theorem neg_iff_value (hx : value? x = some q) : x < 0 ↔ q < 0 := lt_iff_value hx value?_zero

theorem value?_neg (x : Float) : value? (-x) = (value? x).map fun q => -q := by
  unfold value?
  rw [parts_neg]
  cases parts x with
  | finite s m e h =>
    have hsign : (((-s).apply m : ℤ) : ℚ) = -((s.apply m : ℤ) : ℚ) := by
      cases s with
      | negative =>
        change ((m : ℤ) : ℚ) = -((-(m : ℤ) : ℤ) : ℚ)
        rw [Int.cast_neg, neg_neg]
      | positive => exact Int.cast_neg _
    simp [UnpackedFloat.neg, hsign]
  | _ => simp [UnpackedFloat.neg]

/-- Natural numbers below `2 ^ 53` are doubles. -/
theorem value?_whole (hn : n < 2 ^ 53) : value? (whole n) = some (n : ℚ) := by
  have hself := WholeNumber.whole_beq_self hn
  have htrunc := WholeNumber.toUInt64_of_whole_beq hn hself
  refine (value?_eq_natCast_iff (by omega)).1 ⟨⟨WholeNumber.nonneg_of_whole_beq hn hself, ?_⟩, htrunc⟩
  rw [WholeNumber.toFloat_uint64, htrunc]
  exact hself

/-- Truncating a positive double is taking its floor, up to the largest 64-bit number. -/
theorem toNat_toUInt64_of_value (hx : value? x = some q) (hq : 0 < q) :
    x.toUInt64.toNat = min ⌊q⌋₊ (2 ^ 64 - 1) := by
  unfold value? at hx
  cases hparts : parts x with
  | notANumber => simp [hparts] at hx
  | infinity s => simp [hparts] at hx
  | zero s =>
    simp only [hparts, Option.some.injEq] at hx
    exact absurd hx hq.ne
  | finite s m e h =>
    simp only [hparts, Option.some.injEq] at hx
    have hpower : (2 : ℚ) ^ e = (2 ^ e.toNat : ℕ) / (2 ^ (-e).toNat : ℕ) := by
      rw [eq_div_iff (by positivity)]
      push_cast
      rw [← zpow_natCast, ← zpow_natCast, ← zpow_add₀ (by norm_num)]
      congr 1
      omega
    cases s with
    | negative =>
      have hneg : ((-(m : ℤ) : ℤ) : ℚ) * 2 ^ e ≤ 0 := by
        push_cast
        exact mul_nonpos_of_nonpos_of_nonneg (by simp) (by positivity)
      exact absurd (hx ▸ hneg) (not_le.2 hq)
    | positive =>
      have hquotient : q = ((m * 2 ^ e.toNat : ℕ) : ℚ) / (2 ^ (-e).toNat : ℕ) := by
        rw [← hx, hpower, Nat.cast_mul, mul_div_assoc]
        rfl
      rw [toNat_toUInt64_of_parts hparts, hquotient, Nat.floor_div_eq_div]

/-- A double is whole, or it has bits below the point and is small. -/
theorem whole_or_small (hx : value? x = some q) : (∃ n : ℤ, q = n) ∨ |q| < 2 ^ 52 := by
  unfold value? at hx
  cases hparts : parts x with
  | notANumber => simp [hparts] at hx
  | infinity s => simp [hparts] at hx
  | zero s =>
    simp only [hparts, Option.some.injEq] at hx
    exact .inl ⟨0, by rw [← hx, Int.cast_zero]⟩
  | finite s m e h =>
    simp only [hparts, Option.some.injEq] at hx
    by_cases he : 0 ≤ e
    · obtain ⟨k, rfl⟩ := Int.eq_ofNat_of_zero_le he
      refine .inl ⟨s.apply m * 2 ^ k, ?_⟩
      rw [← hx]
      push_cast
      rfl
    · refine .inr ?_
      have hm : (m : ℚ) < 2 ^ 53 := by exact_mod_cast WholeNumber.mantissa_lt hparts
      have hsize : |((s.apply m : ℤ) : ℚ)| = m := by
        cases s <;> simp [Sign.apply]
      calc |q| = m * 2 ^ e := by
            rw [← hx, abs_mul, hsize, abs_of_pos (by positivity)]
        _ ≤ m * 2 ^ (-1 : ℤ) := by
            gcongr
            · norm_num
            · omega
        _ < 2 ^ 53 * 2 ^ (-1 : ℤ) := by gcongr
        _ = 2 ^ 52 := by norm_num

/-- A double is whole if it is zero or large. -/
theorem whole_of_large (hx : value? x = some q) (hneg : ¬ (q < 0 ∧ -(2 ^ 53) < q))
    (hpos : ¬ (0 < q ∧ q < 2 ^ 53)) : ∃ n : ℤ, q = n := by
  rcases whole_or_small hx with hwhole | hsmall
  · exact hwhole
  · obtain ⟨hlow, hhigh⟩ := abs_lt.1 hsmall
    have hzero : q = 0 := by
      by_contra hne
      rcases lt_or_gt_of_ne hne with h | h
      · exact hneg ⟨h, by linarith⟩
      · exact hpos ⟨h, by linarith⟩
    exact ⟨0, by rw [hzero, Int.cast_zero]⟩

/-- Only small doubles lie between two whole numbers. -/
theorem lt_of_between (hx : value? x = some q) (hlow : (n : ℚ) < q) (hhigh : q < n + 1) :
    n < 2 ^ 52 := by
  rcases whole_or_small hx with ⟨k, rfl⟩ | hsmall
  · have hlt : (n : ℤ) < k := by exact_mod_cast hlow
    have hle : k < (n : ℤ) + 1 := by exact_mod_cast hhigh
    omega
  · have hlt : (n : ℚ) < 2 ^ 52 := hlow.trans ((le_abs_self q).trans_lt hsmall)
    exact_mod_cast hlt

/-! ## Adding one -/

theorem parts_literal_one : parts 1 = .finite .positive (2 ^ 52) (-52) (by decide) := by rfl

/-- Both numbers are aligned to 52 bits below the point, and the sum has as many zeros there. -/
theorem add_one (hn : n + 1 < 2 ^ 53) :
    UnpackedFloat.add .binary64 (parts (whole n)) (parts 1) = parts (whole (n + 1)) := by
  by_cases hzero : n = 0
  · subst hzero
    rfl
  · have hlog : n.log2 ≤ 52 := Nat.lt_succ_iff.1 ((Nat.log2_lt hzero).2 (by omega))
    have hlog' : (n + 1).log2 ≤ 52 := Nat.lt_succ_iff.1 ((Nat.log2_lt (by omega)).2 hn)
    have hmantissa : ((n + 1) <<< (52 - (n + 1).log2)).log2 = 52 := by
      rw [WholeNumber.log2_shiftLeft (by omega)]
      omega
    have hpos : 0 < (n + 1) <<< (52 - (n + 1).log2) := by
      rw [Nat.shiftLeft_eq]
      positivity
    have hleft : n <<< (52 - n.log2) <<< (-((52 - n.log2 : Nat) : Int) - -52).toNat = n * 2 ^ 52 := by
      rw [← Nat.shiftLeft_add, Nat.shiftLeft_eq]
      congr 2
      omega
    have hmin : min (-((52 - n.log2 : Nat) : Int)) (-52) = -52 := by omega
    have hsum : Sign.positive.apply ((n * 2 ^ 52 : Nat) : Int) +
        Sign.positive.apply ((2 ^ 52 <<< ((-52 : Int) - -52).toNat : Nat) : Int) =
          (((n + 1) <<< (52 - (n + 1).log2) * 2 ^ (n + 1).log2 : Nat) : Int) := by
      have hnext : (n + 1) <<< (52 - (n + 1).log2) * 2 ^ (n + 1).log2 = (n + 1) * 2 ^ 52 := by
        rw [Nat.shiftLeft_eq, Nat.mul_assoc, ← Nat.pow_add]
        congr 2
        omega
      rw [hnext, Nat.add_mul, Nat.one_mul, Nat.cast_add]
      rfl
    have hround := round_shifted hmantissa hpos (n + 1).log2 (e := -52) (by omega)
    have hpositive : compare (((n + 1) <<< (52 - (n + 1).log2) * 2 ^ (n + 1).log2 : Nat) : Int) 0 =
        .gt := by
      rw [compare_gt_iff_gt]
      positivity
    have hexponent : (-52 : Int) + (n + 1).log2 = -((52 - (n + 1).log2 : Nat) : Int) := by omega
    rw [WholeNumber.parts_whole hzero (by omega), parts_literal_one,
      WholeNumber.parts_whole (by omega) hn, UnpackedFloat.add]
    simp only [hmin, decreaseExponent, hleft, hsum, UnpackedFloat.normalize, hpositive,
      Int.toNat_natCast, hround, hexponent]

theorem parts_whole_add_one (hn : n + 1 < 2 ^ 53) :
    parts (whole n + 1) = parts (whole (n + 1)) := by
  change UnpackedFloat.unpack .binary64 (UnpackedFloat.pack .binary64
    (UnpackedFloat.add .binary64 (parts (whole n)) (parts 1))) = _
  rw [add_one hn]
  exact (encoded_parts _).unpack_pack

theorem value?_whole_add_one (hn : n + 1 < 2 ^ 53) : value? (whole n + 1) = some ((n : ℚ) + 1) := by
  rw [value?, parts_whole_add_one hn, ← value?, value?_whole hn, Nat.cast_add, Nat.cast_one]

/-! ## The floor -/

theorem value?_wholeFrom : value? Rounding.wholeFrom = some (2 ^ 53) := by
  have hparts : parts Rounding.wholeFrom = .finite .positive (2 ^ 52) 1 (by decide) := by rfl
  rw [value?, hparts]
  norm_num [Sign.apply]

theorem value?_neg_wholeFrom : value? (-Rounding.wholeFrom) = some (-(2 ^ 53)) := by
  rw [value?_neg, value?_wholeFrom, Option.map_some]

/-- A double between two others is a number. -/
theorem value?_ne_none {a b : Float} (ha : a < x) (hb : x < b) : value? x ≠ none := by
  rw [lt_iff] at ha hb
  unfold value?
  cases hparts : parts x with
  | notANumber =>
    cases hpa : parts a <;> simp [hpa, hparts, UnpackedFloat.lt, UnpackedFloat.compare] at ha
  | infinity s =>
    cases s with
    | negative =>
      cases hpa : parts a with
      | infinity s =>
        cases s <;> simp [hpa, hparts, UnpackedFloat.lt, UnpackedFloat.compare] at ha
      | _ => simp [hpa, hparts, UnpackedFloat.lt, UnpackedFloat.compare] at ha
    | positive =>
      cases hpb : parts b with
      | infinity s =>
        cases s <;> simp [hpb, hparts, UnpackedFloat.lt, UnpackedFloat.compare] at hb
      | _ => simp [hpb, hparts, UnpackedFloat.lt, UnpackedFloat.compare] at hb
  | _ => simp

/-- Rounding down leaves infinities and NaNs as they are. -/
theorem down_of_value?_none (hx : value? x = none) : Rounding.down x = x := by
  unfold Rounding.down
  split_ifs with hpos hlarge hneg
  · exact absurd hx (value?_ne_none hpos hlarge)
  · rfl
  · exact absurd hx (value?_ne_none hneg.2 hneg.1)
  · rfl

/-- Below `2 ^ 53`, a positive double becomes its truncation. -/
theorem toFloat_toUInt64 (hx : value? x = some q) (hpos : 0 < q) (hlarge : q < 2 ^ 53) :
    ⌊q⌋₊ < 2 ^ 53 ∧ x.toUInt64.toNat = ⌊q⌋₊ ∧ x.toUInt64.toFloat = whole ⌊q⌋₊ := by
  have hfloor : ⌊q⌋₊ < 2 ^ 53 := (Nat.floor_lt hpos.le).2 (by exact_mod_cast hlarge)
  have htrunc : x.toUInt64.toNat = ⌊q⌋₊ := by
    rw [toNat_toUInt64_of_value hx hpos, Nat.min_eq_left (by omega)]
  exact ⟨hfloor, htrunc, by rw [WholeNumber.toFloat_uint64, htrunc]⟩

/-- A negative double goes down by less than one, unless it is whole. -/
theorem value?_down_of_neg (hx : value? x = some q) (hneg : x < 0) (hlarge : -Rounding.wholeFrom < x) :
    value? (Rounding.down x) = some ((⌊q⌋ : ℤ) : ℚ) := by
  have hq : q < 0 := (neg_iff_value hx).1 hneg
  have hopposite : value? (-x) = some (-q) := by rw [value?_neg, hx, Option.map_some]
  have hlow : -q < 2 ^ 53 := by
    have hlt := (lt_iff_value value?_neg_wholeFrom hx).1 hlarge
    linarith
  obtain ⟨hbits, htrunc, hback⟩ := toFloat_toUInt64 hopposite (by linarith) hlow
  have hnotpos : ¬ 0 < x := by
    rw [pos_iff_value hx]
    linarith
  have hexact := value?_eq_natCast_iff (x := -x) (n := ⌊-q⌋₊) (by omega)
  rw [Rounding.down, if_neg hnotpos, if_pos ⟨hneg, hlarge⟩]
  simp only [hback]
  rw [hback, hopposite, Option.some.injEq] at hexact
  have hfloor : (⌊-q⌋₊ : ℚ) ≤ -q := Nat.floor_le (by linarith)
  have hnext : -q < ⌊-q⌋₊ + 1 := Nat.lt_floor_add_one _
  generalize ⌊-q⌋₊ = n at *
  split_ifs with hwhole
  · have hn : -q = n :=
      hexact.1 ⟨⟨WholeNumber.nonneg_of_whole_beq hbits hwhole, hwhole⟩, htrunc⟩
    have hint : q = ((-(n : ℤ) : ℤ) : ℚ) := by
      push_cast
      linarith
    rw [hx, hint, Int.floor_intCast]
  · have hne : -q ≠ n := fun h => hwhole (hexact.2 h).1.2
    have habove : (n : ℚ) < -q := lt_of_le_of_ne hfloor hne.symm
    have hsmall : n < 2 ^ 52 := lt_of_between hopposite habove hnext
    have hceil : ⌊q⌋ = -((n : ℤ) + 1) := by
      rw [Int.floor_eq_iff]
      push_cast
      exact ⟨by linarith, by linarith⟩
    rw [value?_neg, value?_whole_add_one (by omega), Option.map_some, hceil]
    push_cast
    rfl

/-- Rounding down gives the floor. -/
theorem value?_down (x : Float) :
    value? (Rounding.down x) = (value? x).map fun q => ((⌊q⌋ : ℤ) : ℚ) := by
  cases hx : value? x with
  | none => rw [down_of_value?_none hx, hx, Option.map_none]
  | some q =>
    rw [Option.map_some]
    by_cases hneg : x < 0 ∧ -Rounding.wholeFrom < x
    · exact value?_down_of_neg hx hneg.1 hneg.2
    · by_cases hpos : 0 < x ∧ x < Rounding.wholeFrom
      · have hq : 0 < q := (pos_iff_value hx).1 hpos.1
        have hlt : q < 2 ^ 53 := (lt_iff_value hx value?_wholeFrom).1 hpos.2
        obtain ⟨hbits, -, hback⟩ := toFloat_toUInt64 hx hq hlt
        rw [Rounding.down, if_pos hpos.1, if_pos hpos.2, hback, value?_whole hbits,
          ← natCast_floor_eq_intCast_floor hq.le]
      · -- every double that is left is whole
        have hstays : Rounding.down x = x := by
          by_cases h : 0 < x
          · rw [Rounding.down, if_pos h, if_neg fun hsmall => hpos ⟨h, hsmall⟩]
          · rw [Rounding.down, if_neg h, if_neg hneg]
        rw [neg_iff_value hx, lt_iff_value value?_neg_wholeFrom hx] at hneg
        rw [pos_iff_value hx, lt_iff_value hx value?_wholeFrom] at hpos
        obtain ⟨n, rfl⟩ := whole_of_large hx hneg hpos
        rw [hstays, hx, Int.floor_intCast]

/-- The floor of a double, whichever way it is computed. What is not a number is its own floor. -/
structure IsFloor (x f : Float) : Prop where
  value : value? f = (value? x).map fun q => ((⌊q⌋ : ℤ) : ℚ)
  special : value? x = none → f = x

/-- Rounding down gives the floor of every double. -/
theorem isFloor_down (x : Float) : IsFloor x (Rounding.down x) :=
  ⟨value?_down x, down_of_value?_none⟩

end RasterTile.ExactValue
