import RasterTile.Proofs.Tile.SampleValue

/-!
# Single precision

Without its sign a pattern is a natural number, and its magnitude is the number it stands for, counted in
the smallest one of the format. A magnitude that has a pattern is rounded to that pattern. The magnitudes
of singles have at most 24 digits, so they have patterns among doubles as well, and a single that was made
a double is found again when it is rounded to single precision.
-/
namespace RasterTile.Rounding

variable {width scale p q m k : Nat}

theorem magnitude_of_lt (hp : p < 2 ^ width) : magnitude width p = p := by
  have hexponent : p / 2 ^ width = 0 := Nat.div_eq_of_lt hp
  simp only [magnitude, Nat.pow_eq, hexponent]
  exact Nat.mod_eq_of_lt hp

theorem magnitude_normal (e : Nat) {f : Nat} (hf : f < 2 ^ width) :
    magnitude width ((e + 1) * 2 ^ width + f) = (2 ^ width + f) * 2 ^ e := by
  have hexponent : ((e + 1) * 2 ^ width + f) / 2 ^ width = e + 1 := by
    rw [Nat.mul_comm, Nat.mul_add_div (by positivity), Nat.div_eq_of_lt hf, Nat.add_zero]
  have hfraction : ((e + 1) * 2 ^ width + f) % 2 ^ width = f := by
    rw [Nat.mul_comm, Nat.mul_add_mod, Nat.mod_eq_of_lt hf]
  simp only [magnitude, Nat.pow_eq, hexponent, hfraction]

/-- A pattern that is not too small has an exponent and a fraction. -/
theorem exists_fields (hp : 2 ^ width ≤ p) :
    ∃ e f, f < 2 ^ width ∧ p = (e + 1) * 2 ^ width + f := by
  have hpos : 0 < p / 2 ^ width := Nat.div_pos hp (by positivity)
  refine ⟨p / 2 ^ width - 1, p % 2 ^ width, Nat.mod_lt _ (by positivity), ?_⟩
  rw [Nat.sub_add_cancel hpos, Nat.mul_comm, Nat.div_add_mod]

theorem halfEven_mul (m k : Nat) : halfEven (m * 2 ^ k) k = m := by
  have hquotient : m * 2 ^ k / 2 ^ k = m := Nat.mul_div_cancel _ (by positivity)
  have hrest : 2 * (m * 2 ^ k % 2 ^ k) < 2 ^ k := by
    rw [Nat.mul_mod_left]
    positivity
  simp only [halfEven, Nat.pow_eq, hquotient, hrest, true_or, if_true]

/-- A magnitude that has a pattern is rounded to it, on whatever scale it is given. -/
theorem pattern_magnitude (width scale p : Nat) :
    pattern width scale (magnitude width p * 2 ^ scale) = p := by
  by_cases hp : p < 2 ^ width
  · rw [magnitude_of_lt hp]
    have hlog : (p * 2 ^ scale).log2 - width - scale = 0 := by
      by_cases hzero : p = 0
      · simp [hzero]
      · have := (Nat.log2_lt hzero).2 hp
        rw [ExactValue.log2_mul_two_pow hzero]
        omega
    simp only [pattern, hlog, Nat.zero_mul, Nat.zero_add, halfEven_mul]
  · obtain ⟨e, f, hf, rfl⟩ := exists_fields (Nat.not_lt.1 hp)
    rw [magnitude_normal e hf, Nat.mul_assoc, ← Nat.pow_add]
    have hne : 2 ^ width + f ≠ 0 := by positivity
    have hwidth : (2 ^ width + f).log2 = width := (Nat.log2_eq_iff hne).2 ⟨by omega, by rw [Nat.pow_succ]; omega⟩
    have hlog : ((2 ^ width + f) * 2 ^ (e + scale)).log2 - width - scale = e := by
      rw [ExactValue.log2_mul_two_pow hne, hwidth]
      omega
    simp only [pattern, hlog, halfEven_mul, Nat.pow_eq]
    ring

/-- A number of at most `width + 1` digits and some zeros after them is the magnitude of a pattern. -/
theorem exists_magnitude (hm : m < 2 ^ (width + 1)) (k : Nat) :
    ∃ p, magnitude width p = m * 2 ^ k := by
  induction k generalizing m with
  | zero =>
    by_cases hlow : m < 2 ^ width
    · exact ⟨m, by rw [magnitude_of_lt hlow, Nat.pow_zero, Nat.mul_one]⟩
    · refine ⟨(0 + 1) * 2 ^ width + (m - 2 ^ width), ?_⟩
      rw [magnitude_normal 0 (by rw [Nat.pow_succ] at hm; omega)]
      omega
  | succ k ih =>
    by_cases hlow : m < 2 ^ width
    · -- the digits have room for one of the zeros
      obtain ⟨p, hp⟩ := ih (m := 2 * m) (by rw [Nat.pow_succ]; omega)
      exact ⟨p, by rw [hp]; ring⟩
    · refine ⟨(k + 1 + 1) * 2 ^ width + (m - 2 ^ width), ?_⟩
      rw [magnitude_normal (k + 1) (by rw [Nat.pow_succ] at hm; omega)]
      congr 1
      omega

/-! ## Singles -/

/-- The magnitude of a pattern for singles has at most 24 digits, and zeros after them. -/
theorem exists_digits (p : Nat) : ∃ m < 2 ^ 24, ∃ k, magnitude 23 p = m * 2 ^ k := by
  by_cases hp : p < 2 ^ 23
  · exact ⟨p, by omega, 0, by rw [magnitude_of_lt hp, Nat.pow_zero, Nat.mul_one]⟩
  · obtain ⟨e, f, hf, rfl⟩ := exists_fields (Nat.not_lt.1 hp)
    exact ⟨2 ^ 23 + f, by omega, e, magnitude_normal e hf⟩

/-- A single below infinity keeps its magnitude as a double. -/
theorem magnitude_widenPattern (hp : p / 2 ^ 23 ≠ 255) :
    magnitude 52 (widenPattern p) = magnitude 23 p * 2 ^ singleScale := by
  obtain ⟨m, hm, k, hdigits⟩ := exists_digits p
  have hlong : m < 2 ^ (52 + 1) := by omega
  obtain ⟨r, hr⟩ := exists_magnitude hlong (k + singleScale)
  have hwide : magnitude 23 p * 2 ^ singleScale = magnitude 52 r := by
    rw [hr, hdigits, Nat.mul_assoc, ← Nat.pow_add]
  have hpattern := pattern_magnitude 52 0 r
  rw [Nat.pow_zero, Nat.mul_one] at hpattern
  have hspecial : ¬ p / Nat.pow 2 23 = Nat.pow 2 8 - 1 := hp
  rw [widenPattern, if_neg hspecial, Nat.pow_eq, hwide, hpattern]

theorem toNat_signed (negative : Bool) (hp : p < 2 ^ 63) :
    (UInt64.ofNat (if negative then Nat.pow 2 63 + p else p)).toNat =
      if negative then 2 ^ 63 + p else p := by
  rw [UInt64.toNat_ofNat', Nat.pow_eq]
  apply Nat.mod_eq_of_lt
  split <;> omega

variable {w : BitVec 32}

theorem exponent_of_ofSingle (h : (ofSingle w).isFinite = true) :
    w.toNat % 2 ^ 31 / 2 ^ 23 ≠ 255 := by
  intro hspecial
  have hp : w.toNat % 2 ^ 31 < 2 ^ 31 := Nat.mod_lt _ (by decide)
  have hlt : widenPattern (w.toNat % 2 ^ 31) < 2 ^ 63 := (widenPattern_bounds hp).1
  have hwide : widenPattern (w.toNat % 2 ^ 31) =
      2047 * 2 ^ 52 + w.toNat % 2 ^ 31 % 2 ^ 23 * 2 ^ 29 := if_pos hspecial
  have hexponent := ExactValue.exponent_of_isFinite h
  rw [Nat.pow_eq] at hexponent
  rw [toNat_signed _ hlt] at hexponent
  split at hexponent <;> omega

/-- What is no NaN is rounded by its magnitude. -/
theorem single_eq {x : Float} (hx : ¬ x.isNaN = true) :
    single x = nearestSingle (decide (2 ^ 63 ≤ x.toBits.toNat)) singleScale
      (magnitude 52 (x.toBits.toNat % 2 ^ 63)) := by
  rw [single, if_neg hx, Nat.pow_eq]

def IsSingle (x : Float) : Prop := ∃ bits, ofSingle bits = x

/-- A number of single precision is not changed by rounding it to single precision. -/
theorem single_ofSingle (h : (ofSingle w).isFinite = true) : single (ofSingle w) = ofSingle w := by
  by_cases hnan : (ofSingle w).isNaN = true
  · exact if_pos hnan
  · have hp : w.toNat % 2 ^ 31 < 2 ^ 31 := Nat.mod_lt _ (by decide)
    have hnumber := exponent_of_ofSingle h
    have hlt : widenPattern (w.toNat % 2 ^ 31) < 2 ^ 63 := (widenPattern_bounds hp).1
    have hbits : (ofSingle w).toBits.toNat =
        if decide (2 ^ 31 ≤ w.toNat) = true then 2 ^ 63 + widenPattern (w.toNat % 2 ^ 31)
        else widenPattern (w.toNat % 2 ^ 31) :=
      (congrArg UInt64.toNat (ExactValue.toBits_ofBits h)).trans (toNat_signed _ hlt)
    have hpattern : (ofSingle w).toBits.toNat % 2 ^ 63 = widenPattern (w.toNat % 2 ^ 31) := by
      rw [hbits]
      split <;> omega
    have hsign : decide (2 ^ 63 ≤ (ofSingle w).toBits.toNat) = decide (2 ^ 31 ≤ w.toNat) := by
      rw [decide_eq_decide, hbits]
      simp only [decide_eq_true_eq]
      split <;> omega
    have hmin : min (w.toNat % 2 ^ 31) singleInfinity = w.toNat % 2 ^ 31 := by
      refine Nat.min_eq_left ?_
      change w.toNat % 2 ^ 31 ≤ 255 * 2 ^ 23
      omega
    calc single (ofSingle w)
        = nearestSingle (decide (2 ^ 63 ≤ (ofSingle w).toBits.toNat)) singleScale
            (magnitude 52 ((ofSingle w).toBits.toNat % 2 ^ 63)) := single_eq hnan
      _ = nearestSingle (decide (2 ^ 31 ≤ w.toNat)) singleScale
            (magnitude 23 (w.toNat % 2 ^ 31) * 2 ^ singleScale) := by
          rw [hsign, hpattern, magnitude_widenPattern hnumber]
      _ = signed (decide (2 ^ 31 ≤ w.toNat))
            (widenPattern (min (w.toNat % 2 ^ 31) singleInfinity)) := by
          rw [nearestSingle, pattern_magnitude]
      _ = ofSingle w := by
          rw [hmin]
          rfl

end RasterTile.Rounding
