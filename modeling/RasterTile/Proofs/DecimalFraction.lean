import RasterTile.Proofs.NearestDouble

/-!
# The nearest double to a decimal fraction

Few digits and a small power of ten are doubles, whose quotient is rounded once. Any others are divided as
whole numbers, exactly up to a remainder, and then rounded. So the double that is read is always the nearest
one to the number that is written.
-/
namespace RasterTile.ExactValue

open Float.Model Float.Model.UnpackedFloat
open WholeNumber (parts whole)

variable {q : ℚ} {m k : Nat} {e : Int}

/-! ## Division -/

theorem two_pow_le_scaled (hm : 0 < m) (e : Int) : (2 : ℚ) ^ (totalExponent m e - 1) ≤ m * 2 ^ e := by
  have hexponent : totalExponent m e - 1 = m.log2 + e := by
    unfold totalExponent
    omega
  rw [hexponent]
  exact le_scaled (Nat.log2_self_le hm.ne') le_rfl

theorem scaled_lt_two_pow (m : Nat) (e : Int) : (m : ℚ) * 2 ^ e < 2 ^ totalExponent m e := by
  have hexponent : totalExponent m e = ((m.log2 + 1 : Nat) : Int) + e := by
    unfold totalExponent
    omega
  rw [hexponent, ← natCast_two_pow_mul]
  exact mul_lt_mul_of_pos_right (Nat.cast_lt.2 Nat.lt_log2_self) (by positivity)

/-- A quotient is no smaller than the leading bits say, but for one place. -/
theorem HasLog.le_of_div {m₁ m₂ : Nat} {e₁ e₂ l : Int} (h₁ : 0 < m₁) (h₂ : 0 < m₂)
    (hq : HasLog ((m₁ * 2 ^ e₁) / (m₂ * 2 ^ e₂)) l) :
    totalExponent m₁ e₁ - totalExponent m₂ e₂ ≤ l + 1 := by
  have hdivisor : (0 : ℚ) < m₂ * 2 ^ e₂ := by positivity
  have hhigh := hq.high
  rw [div_lt_iff₀ hdivisor] at hhigh
  have hlt : (2 : ℚ) ^ (totalExponent m₁ e₁ - 1) < 2 ^ (l + 1 + totalExponent m₂ e₂) :=
    calc (2 : ℚ) ^ (totalExponent m₁ e₁ - 1) ≤ m₁ * 2 ^ e₁ := two_pow_le_scaled h₁ e₁
      _ < 2 ^ (l + 1) * (m₂ * 2 ^ e₂) := hhigh
      _ ≤ 2 ^ (l + 1) * 2 ^ totalExponent m₂ e₂ :=
        mul_le_mul_of_nonneg_left (scaled_lt_two_pow m₂ e₂).le (by positivity)
      _ = 2 ^ (l + 1 + totalExponent m₂ e₂) := (zpow_add₀ two_ne_zero _ _).symm
  have := (zpow_lt_zpow_iff_right₀ (one_lt_two (α := ℚ))).1 hlt
  omega

/-- Division of positive doubles gives the double nearest to the quotient. -/
theorem isNearest_div_parts {m₁ m₂ : Nat} (e₁ e₂ : Int) (h₁ : 0 < m₁) (h₂ : 0 < m₂) :
    IsNearest ((m₁ * 2 ^ e₁) / (m₂ * 2 ^ e₂)) (Float.ofModel (Float.Model.pack
      (UnpackedFloat.div .binary64 (.finite .positive m₁ e₁ h₁) (.finite .positive m₂ e₂ h₂)))) := by
  have hpos : (0 : ℚ) < (m₁ * 2 ^ e₁) / (m₂ * 2 ^ e₂) := by positivity
  have hlog := hasLog_log hpos
  have htotal := hlog.le_of_div h₁ h₂
  rw [UnpackedFloat.div, divCore]
  refine isNearest_round hlog ?_ ?_
  · simp only [Format.targetExponent, Format.minExponent, Format.mantissaBits, lastPlace]
    omega
  · generalize hplace : min (e₁ - e₂) _ = e
    obtain ⟨k, hk⟩ : ∃ k : Nat, e₁ - e₂ = e + k := Int.le.dest (by omega) |>.imp fun _ h => h.symm
    have hshift : (e₁ - e₂ - e).toNat = k := by omega
    have hscaled : (m₁ * 2 ^ e₁ : ℚ) / (m₂ * 2 ^ e₂) / 2 ^ e = (m₁ <<< k : Nat) / m₂ := by
      have he₁ : e₁ = e + k + e₂ := by omega
      rw [he₁, zpow_add₀ two_ne_zero, zpow_add₀ two_ne_zero, zpow_natCast, Nat.shiftLeft_eq]
      push_cast
      field_simp
    rw [hshift, hscaled]
    exact describes_quotient _ h₂

theorem exists_parts_of_pos {x : Float} (hx : value? x = some q) (hq : 0 < q) :
    ∃ m e h, parts x = .finite .positive m e h ∧ (m : ℚ) * 2 ^ e = q := by
  unfold value? at hx
  cases hparts : parts x with
  | notANumber => simp [hparts] at hx
  | infinity s => simp [hparts] at hx
  | zero s =>
    simp only [hparts, Option.some.injEq] at hx
    exact absurd hx hq.ne
  | finite s m e h =>
    simp only [hparts, Option.some.injEq] at hx
    cases s with
    | positive => exact ⟨m, e, h, rfl, hx⟩
    | negative =>
      have hsign : ((Sign.negative.apply m : ℤ) : ℚ) ≤ 0 := by simp [Sign.apply]
      have hnonpos := mul_nonpos_of_nonpos_of_nonneg hsign (zpow_nonneg zero_le_two e)
      exact absurd (hx ▸ hnonpos) (not_le.2 hq)

/-- Doubles are divided by rounding the quotient. -/
theorem isNearest_div {x z : Float} {p : ℚ} (hx : value? x = some p) (hp : 0 < p)
    (hz : value? z = some q) (hq : 0 < q) : IsNearest (p / q) (x / z) := by
  obtain ⟨m₁, e₁, h₁, hparts₁, rfl⟩ := exists_parts_of_pos hx hp
  obtain ⟨m₂, e₂, h₂, hparts₂, rfl⟩ := exists_parts_of_pos hz hq
  have hdiv : x / z = Float.ofModel (Float.Model.pack (UnpackedFloat.div .binary64 (parts x) (parts z))) :=
    rfl
  rw [hdiv, hparts₁, hparts₂]
  exact isNearest_div_parts e₁ e₂ h₁ h₂

/-! ## Decimal numbers -/

/-- A double is nearest to its own value. -/
theorem isNearest_of_value? {x : Float} (hx : value? x = some q) (hq : q < 2 ^ 1024 - 2 ^ 970)
    (hsign : parts x ≠ .zero .negative) : IsNearest q x := by
  constructor
  · simp [hx, hq]
  · simp [hx]
  · intro v hv z w _
    cases hx.symm.trans hv
    rw [sub_self, abs_zero]
    exact abs_nonneg _
  · intro v hv z w _ hne htie
    cases hx.symm.trans hv
    rw [sub_self, abs_zero, eq_comm, abs_eq_zero, sub_eq_zero] at htie
    exact absurd htie.symm hne
  · exact hsign

theorem two_pow_le_limit : (2 : ℚ) ^ 53 ≤ 2 ^ 1024 - 2 ^ 970 := by
  rw [le_sub_iff_add_le, pow_succ 2 1023, mul_two]
  exact add_le_add (pow_le_pow_right₀ one_le_two (by decide)) (pow_le_pow_right₀ one_le_two (by decide))

theorem isNearest_zero {x : Float} (hx : parts x = .zero .positive) : IsNearest 0 x := by
  refine isNearest_of_value? (by rw [value?, hx]) ?_ (by rw [hx]; simp)
  exact lt_of_lt_of_le (by positivity) two_pow_le_limit

/-- A natural number becomes the double nearest to it. -/
theorem isNearest_ofNat (n : Nat) : IsNearest n (Float.ofNat n) := by
  by_cases hn : n < 2 ^ 53
  · rw [ofNat_eq_whole hn]
    refine isNearest_of_value? (value?_whole hn) ?_ ?_
    · exact lt_of_lt_of_le (by exact_mod_cast hn) two_pow_le_limit
    · by_cases hzero : n = 0
      · subst hzero
        rw [WholeNumber.parts_whole_zero]
        simp
      · rw [WholeNumber.parts_whole hzero hn]
        simp
  · have hn := not_lt.1 hn
    have hpos : (0 : ℚ) < n := Nat.cast_pos.2 (by omega)
    have hlog := hasLog_log hpos
    rw [ofNat_eq_round hn]
    refine isNearest_round hlog ?_ ?_
    · have hone : (2 : ℚ) ^ (0 : Int) ≤ n := by
        rw [zpow_zero]
        exact_mod_cast (by omega : 1 ≤ n)
      have := (zpow_lt_zpow_iff_right₀ (one_lt_two (α := ℚ))).1 (hone.trans_lt hlog.high)
      unfold lastPlace
      omega
    · have hscaled : (n : ℚ) / 2 ^ (-53 : Int) = (n * 2 ^ 53 : Nat) := by
        rw [zpow_neg, div_inv_eq_mul]
        push_cast
        rfl
      rw [hscaled]
      exact describes_exact _

theorem value?_powersOfTen : Float.exactlyRepresentablePowersOfTen.toList.map value? =
    (List.range 23).map fun k => some (10 ^ k) := by
  decide +kernel

/-- The table of powers of ten is exact. -/
theorem value?_powerOfTen (hk : k < Float.exactlyRepresentablePowersOfTen.size) :
    value? Float.exactlyRepresentablePowersOfTen[k] = some (10 ^ k) := by
  have hlt : k < 23 := hk
  have helement := congrArg (·[k]?) value?_powersOfTen
  simpa [hlt, hk] using helement

/-- What is far below the smallest double is rounded to zero. -/
theorem isNearest_tiny (hpos : 0 < q) (hsmall : q < 2 ^ (-1075 : Int)) {x : Float}
    (hx : parts x = .zero .positive) : IsNearest q x := by
  have hlog := hasLog_log hpos
  have hlt := (zpow_lt_zpow_iff_right₀ (one_lt_two (α := ℚ))).1 (hlog.low.trans_lt hsmall)
  have hplace : lastPlace (Int.log 2 q) = -1074 := by
    unfold lastPlace
    omega
  refine isNearest_of_carried hlog (r := 0) ?_ ?_
  · rw [hplace]
    refine isNearestWhole_of_lt ?_
    have hunit : (0 : ℚ) < 2 ^ (-1074 : Int) := by positivity
    rw [Nat.cast_zero, sub_zero, abs_of_pos (div_pos hpos hunit), div_lt_iff₀ hunit]
    refine hsmall.trans_eq ?_
    have hsplit : (-1075 : Int) = -1 + -1074 := rfl
    rw [hsplit, zpow_add₀ two_ne_zero, zpow_neg_one, one_div]
  · rw [Nat.cast_zero, zero_mul, if_pos (by positivity), hx]
    rfl

theorem parts_zero_div {x z : Float} (hx : parts x = .zero .positive) (hz : value? z = some q)
    (hq : 0 < q) : parts (x / z) = .zero .positive := by
  obtain ⟨m, e, h, hparts, -⟩ := exists_parts_of_pos hz hq
  have hdiv : parts (x / z) = UnpackedFloat.unpack .binary64 (UnpackedFloat.pack .binary64
      (UnpackedFloat.div .binary64 (parts x) (parts z))) := rfl
  rw [hdiv, hx, hparts]
  exact (Encoded.zero .positive).unpack_pack

/-- Few digits and a small power of ten are doubles, which are divided. -/
theorem isNearest_div_powerOfTen {n : Nat} (hn : n < 2 ^ 53)
    (hk : k < Float.exactlyRepresentablePowersOfTen.size) :
    IsNearest (n / 10 ^ k) (whole n / Float.exactlyRepresentablePowersOfTen[k]) := by
  have hpower : (0 : ℚ) < 10 ^ k := by positivity
  by_cases hzero : n = 0
  · subst hzero
    rw [Nat.cast_zero, zero_div]
    exact isNearest_zero (parts_zero_div WholeNumber.parts_whole_zero (value?_powerOfTen hk) hpower)
  · exact isNearest_div (value?_whole hn) (Nat.cast_pos.2 (Nat.pos_of_ne_zero hzero))
      (value?_powerOfTen hk) hpower

theorem div_ten_pow_lt (n k : Nat) : (n : ℚ) / 10 ^ k < 2 ^ ((n.log2 : Int) + 1 - k) := by
  have hbits : (n : ℚ) < 2 ^ ((n.log2 : Int) + 1) := by exact_mod_cast Nat.lt_log2_self
  rw [div_lt_iff₀ (by positivity), zpow_sub₀ two_ne_zero, zpow_natCast]
  calc (n : ℚ) < 2 ^ ((n.log2 : Int) + 1) := hbits
    _ = 2 ^ ((n.log2 : Int) + 1) / 2 ^ k * 2 ^ k := (div_mul_cancel₀ _ (by positivity)).symm
    _ ≤ 2 ^ ((n.log2 : Int) + 1) / 2 ^ k * 10 ^ k := by
      gcongr
      norm_num

/-- Any digits and any power of ten are divided exactly, unless the quotient is far too small. -/
theorem isNearest_ofScientific_unpacked (n : Nat) (hk : 0 < k) :
    IsNearest (n / 10 ^ k)
      (Float.ofModel (Float.Model.pack (UnpackedFloat.ofScientific .binary64 n (-k)))) := by
  by_cases hzero : n = 0
  · subst hzero
    rw [Nat.cast_zero, zero_div]
    exact isNearest_zero (Encoded.zero .positive).unpack_pack
  have hlarge : ¬ (-(k : Int)) > 2 ^ Format.binary64.exponentBits := by
    have : (0 : Int) < 2 ^ Format.binary64.exponentBits := by decide
    omega
  rw [UnpackedFloat.ofScientific, dif_neg hzero, if_neg hlarge]
  by_cases htiny : -(k : Int) < -(2 ^ Format.binary64.exponentBits + n.log2)
  · rw [if_pos htiny]
    refine isNearest_tiny (div_pos (Nat.cast_pos.2 (Nat.pos_of_ne_zero hzero)) (by positivity)) ?_
      (Encoded.zero .positive).unpack_pack
    refine (div_ten_pow_lt n k).trans_le (zpow_le_zpow_right₀ one_le_two ?_)
    have hbits : (2 : Int) ^ Format.binary64.exponentBits = 2048 := by decide
    omega
  · have hnegative : ¬ 0 ≤ -(k : Int) := by omega
    rw [if_neg htiny, if_neg hnegative]
    have hexponent : (-(-(k : Int))).toNat = k := by omega
    have hquotient := isNearest_div_parts 0 0 (Nat.pos_of_ne_zero hzero)
      (Nat.pow_pos (n := k) (by decide : 0 < 10))
    rw [zpow_zero, mul_one, mul_one] at hquotient
    simp only [hexponent]
    exact_mod_cast hquotient

/-- Decimal fractions are read as the nearest double. -/
theorem isNearest_ofScientific (n : Nat) (hk : 0 < k) :
    IsNearest (n / 10 ^ k) (Float.ofScientific n true k) := by
  by_cases h : n < 2 ^ 53 ∧ k ≤ 22
  · have hbound : k < Float.exactlyRepresentablePowersOfTen.size := Nat.lt_succ_of_le h.2
    have hword : n.toUInt64.toNat = n := by
      have hfits : n < 2 ^ 64 := by omega
      simpa using hfits
    rw [Float.ofScientific, dif_pos h]
    change IsNearest _ (whole n.toUInt64.toNat / Float.exactlyRepresentablePowersOfTen[k])
    rw [hword]
    exact isNearest_div_powerOfTen h.1 hbound
  · rw [Float.ofScientific, dif_neg h]
    obtain ⟨j, rfl⟩ := Nat.exists_eq_add_one_of_ne_zero hk.ne'
    exact isNearest_ofScientific_unpacked n hk

end RasterTile.ExactValue
