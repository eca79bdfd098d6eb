import RasterTile.Proofs.Difference
import RasterTile.Proofs.RoundingDown

/-!
# The nearest double

A quotient is cut off after its integral part, and two more bits say where between two mantissas it lies.
Shifting keeps these bits right, so rounding gives a whole number of units that is as near as any, and an
even one if two are equally near. The unit is chosen by the size of the quotient: no double that is not a
multiple of it is nearer.
-/
namespace RasterTile.ExactValue

open Float.Model Float.Model.UnpackedFloat
open WholeNumber (parts whole)

variable {q y : ℚ} {m k r : Nat} {e : Int} {em : ExtendedMantissa} {acc : Accuracy}

/-! ## Cut off numbers -/

/-- The number is in the half unit that starts at the mantissa and its round bit, and the sticky bit says
whether it lies beyond the start. -/
structure Describes (em : ExtendedMantissa) (y : ℚ) : Prop where
  low : 2 * em.mantissa + em.roundBit.toNat ≤ 2 * y
  high : 2 * y < 2 * em.mantissa + em.roundBit.toNat + 1
  sticky : em.stickyBit = false ↔ 2 * y = 2 * em.mantissa + em.roundBit.toNat

/-- Shifting halves what a mantissa and its residual bits describe. -/
theorem Describes.shiftRightOne (h : Describes em y) : Describes em.shiftRightOne (y / 2) := by
  obtain ⟨m, roundBit, stickyBit⟩ := em
  obtain ⟨hlow, hhigh, hsticky⟩ := h
  have hhalf : 2 * ((m / 2 : Nat) : ℚ) + ((m % 2 != 0).toNat : ℚ) = m := by
    have hbit : (m % 2 != 0).toNat = m % 2 := by
      rcases Nat.mod_two_eq_zero_or_one m with hm | hm <;> rw [hm] <;> rfl
    rw [hbit]
    exact_mod_cast Nat.div_add_mod m 2
  have hbit : (0 : ℚ) ≤ roundBit.toNat ∧ (roundBit.toNat : ℚ) ≤ 1 := by cases roundBit <;> norm_num
  dsimp only at hlow hhigh hsticky
  constructor
  · change 2 * ((m / 2 : Nat) : ℚ) + ((m % 2 != 0).toNat : ℚ) ≤ 2 * (y / 2)
    linarith
  · change 2 * (y / 2) < 2 * ((m / 2 : Nat) : ℚ) + ((m % 2 != 0).toNat : ℚ) + 1
    linarith
  · change (roundBit || stickyBit) = false ↔
      2 * (y / 2) = 2 * ((m / 2 : Nat) : ℚ) + ((m % 2 != 0).toNat : ℚ)
    rw [hhalf, mul_div_cancel₀ _ two_ne_zero, Bool.or_eq_false_iff, hsticky]
    constructor
    · rintro ⟨rfl, hy⟩
      simpa using hy
    · rintro rfl
      cases roundBit with
      | false => simp
      | true => norm_num at hlow

theorem Describes.repeat (h : Describes em y) (k : Nat) :
    Describes (Nat.repeat ExtendedMantissa.shiftRightOne k em) (y / 2 ^ k) := by
  induction k with
  | zero => simpa [Nat.repeat] using h
  | succ k ih =>
    rw [pow_succ, ← div_div]
    exact ih.shiftRightOne

/-- A whole number that is as near as any, and even if two are. -/
structure IsNearestWhole (y : ℚ) (r : Nat) : Prop where
  near : |y - r| ≤ 1 / 2
  even : |y - r| = 1 / 2 → Even r

theorem isNearestWhole_of_lt (h : |y - r| < 1 / 2) : IsNearestWhole y r :=
  ⟨h.le, fun htie => absurd htie h.ne⟩

/-- A mantissa and its residual bits say enough to round to the nearest whole number. -/
theorem Describes.roundedMantissa (h : Describes em y) : IsNearestWhole y em.roundedMantissa := by
  obtain ⟨m, roundBit, stickyBit⟩ := em
  obtain ⟨hlow, hhigh, hsticky⟩ := h
  cases roundBit <;> cases stickyBit <;>
    simp only [ExtendedMantissa.roundedMantissa, ExtendedMantissa.accuracy,
      Accuracy.roundToNearestEven, Bool.toNat_true, Bool.toNat_false, Nat.cast_zero, Nat.cast_one,
      add_zero, true_iff, Bool.true_eq_false, false_iff] at hlow hhigh hsticky ⊢
  · refine isNearestWhole_of_lt ?_
    rw [abs_lt]
    constructor <;> linarith
  · refine isNearestWhole_of_lt ?_
    rw [abs_lt]
    constructor <;> linarith
  · -- halfway: the even neighbour
    rcases Nat.mod_two_eq_zero_or_one m with hm | hm
    · rw [hm, Nat.add_zero]
      refine ⟨?_, fun _ => Nat.even_iff.2 hm⟩
      rw [abs_le]
      constructor <;> linarith
    · rw [hm]
      refine ⟨?_, fun _ => Nat.even_add_one.2 (Nat.not_even_iff.2 hm)⟩
      rw [abs_le]
      push_cast
      constructor <;> linarith
  · have hbeyond := lt_of_le_of_ne hlow (Ne.symm hsticky)
    refine isNearestWhole_of_lt ?_
    rw [abs_lt]
    push_cast
    constructor <;> linarith

/-- Rounding does not pass a whole number. -/
theorem IsNearestWhole.le_of_lt_pow (h : IsNearestWhole y r) {n : Nat} (hy : y < n) : r ≤ n := by
  have hnear := (abs_le.1 h.near).1
  by_contra hlt
  have hcast : (n : ℚ) + 1 ≤ r := by exact_mod_cast not_le.1 hlt
  linarith

theorem IsNearestWhole.le_of_pow_le (h : IsNearestWhole y r) {n : Nat} (hy : n ≤ y) : n ≤ r := by
  have hnear := (abs_le.1 h.near).2
  by_contra hlt
  have hcast : (r : ℚ) + 1 ≤ n := by exact_mod_cast not_le.1 hlt
  linarith

/-- No whole number is nearer, and if another one is as near then this one is even. -/
theorem IsNearestWhole.int (h : IsNearestWhole y r) (k : ℤ) :
    |y - r| < |y - k| ∨ (k : ℚ) = r ∨ |y - r| = |y - k| ∧ Even r := by
  by_cases hk : k = r
  · exact .inr (.inl (by rw [hk]; rfl))
  have hapart : (1 : ℚ) ≤ |(r : ℚ) - k| := by
    have hint : (1 : ℤ) ≤ |(r : ℤ) - k| := Int.one_le_abs (sub_ne_zero.2 (Ne.symm hk))
    exact_mod_cast hint
  have htriangle : |(r : ℚ) - k| ≤ |y - k| + |y - r| := by
    have hsplit : (r : ℚ) - k = (y - k) - (y - r) := by ring
    rw [hsplit]
    exact abs_sub _ _
  rcases lt_or_ge |y - r| |y - k| with hlt | hge
  · exact .inl hlt
  · have hnear := h.near
    have htie : |y - r| = 1 / 2 := by linarith
    exact .inr (.inr ⟨by linarith, h.even htie⟩)

/-- Below an even number, the nearest whole number stays below it until halfway. -/
theorem IsNearestWhole.lt_iff (h : IsNearestWhole y r) {n : Nat} (heven : Even n) (hr : r ≤ n) :
    r < n ↔ y < n - 1 / 2 := by
  constructor
  · intro hlt
    have hcast : (r : ℚ) + 1 ≤ n := by exact_mod_cast hlt
    have hnear := (abs_le.1 h.near).2
    refine lt_of_le_of_ne (by linarith) fun htie => ?_
    have hr' : (r : ℚ) + 1 = n := by linarith
    have hsucc : r + 1 = n := by exact_mod_cast hr'
    have hodd : Even r := h.even (by rw [htie, ← hr', abs_of_nonneg] <;> linarith)
    rw [← hsucc, Nat.even_add_one] at heven
    exact heven hodd
  · intro hlt
    refine lt_of_le_of_ne hr fun heq => ?_
    have hnear := (abs_le.1 h.near).1
    rw [heq] at hnear
    linarith

theorem describes_exact (m : Nat) :
    Describes (ExtendedMantissa.ofMantissaAndAccuracy m .exact) m := by
  constructor <;> simp [ExtendedMantissa.ofMantissaAndAccuracy]

theorem describes_below {f : ℚ} (hy : 2 * y = 2 * m + f) (hpos : 0 < f) (hlt : f < 1) :
    Describes ⟨m, false, true⟩ y := by
  constructor <;> simp only [Bool.toNat_false, Nat.cast_zero, add_zero, hy]
  · linarith
  · linarith
  · simpa using hpos.ne'

theorem describes_halfway (hy : 2 * y = 2 * m + 1) : Describes ⟨m, true, false⟩ y := by
  constructor <;> simp [hy]

theorem describes_above {f : ℚ} (hy : 2 * y = 2 * m + f) (hgt : 1 < f) (hlt : f < 2) :
    Describes ⟨m, true, true⟩ y := by
  constructor <;> simp only [Bool.toNat_true, Nat.cast_one, hy]
  · linarith
  · linarith
  · simpa using hgt.ne'

/-- The quotient of two numbers, cut off with the remainder in mind. -/
theorem describes_quotient (a : Nat) {b : Nat} (hb : 0 < b) :
    Describes (ExtendedMantissa.ofMantissaAndAccuracy (a / b) (accuracyOfFraction (a % b) b))
      (a / b) := by
  have hpos : (0 : ℚ) < b := Nat.cast_pos.2 hb
  have hsplit : 2 * ((a : ℚ) / b) = 2 * (a / b : Nat) + (2 * (a % b) : Nat) / b := by
    have hdiv : (b : ℚ) * (a / b : Nat) + (a % b : Nat) = a := by exact_mod_cast Nat.div_add_mod a b
    push_cast
    field_simp
    linarith
  rw [accuracyOfFraction]
  by_cases hzero : a % b = 0
  · have hexact : (a : ℚ) / b = (a / b : Nat) := by
      rw [hzero] at hsplit
      norm_num at hsplit
      exact hsplit
    rw [if_pos hzero, hexact]
    exact describes_exact _
  have hrest : (0 : ℚ) < (2 * (a % b) : Nat) / b := div_pos (Nat.cast_pos.2 (by omega)) hpos
  rw [if_neg hzero]
  rcases lt_trichotomy (2 * (a % b)) b with hcompare | hcompare | hcompare
  · rw [Nat.compare_eq_lt.2 hcompare]
    refine describes_below hsplit hrest ?_
    rw [div_lt_one hpos]
    exact_mod_cast hcompare
  · rw [Nat.compare_eq_eq.2 hcompare]
    rw [hcompare, div_self hpos.ne'] at hsplit
    exact describes_halfway hsplit
  · rw [Nat.compare_eq_gt.2 hcompare]
    refine describes_above hsplit ?_ ?_
    · rw [one_lt_div hpos]
      exact_mod_cast hcompare
    · rw [div_lt_iff₀ hpos]
      exact_mod_cast Nat.mul_lt_mul_of_pos_left (Nat.mod_lt a hb) two_pos

/-! ## The unit -/

/-- The largest power of two that is not larger than the number. -/
structure HasLog (q : ℚ) (l : Int) : Prop where
  low : 2 ^ l ≤ q
  high : q < 2 ^ (l + 1)

/-- The last place of a double of that size: 53 bits, but not below the smallest double. -/
def lastPlace (l : Int) : Int := max (l - 52) (-1074)

/-- The length of a cut-off mantissa tells the size of the number. -/
theorem HasLog.log2_eq {l : Int} (hq : HasLog q l) (hm : m ≠ 0) (hlow : m ≤ q / 2 ^ e)
    (hhigh : q / 2 ^ e < m + 1) : (m.log2 : Int) + e = l := by
  have hunit : (0 : ℚ) < 2 ^ e := by positivity
  rw [le_div_iff₀ hunit] at hlow
  rw [div_lt_iff₀ hunit] at hhigh
  have hbits : (2 : ℚ) ^ m.log2 ≤ m ∧ (m : ℚ) + 1 ≤ 2 ^ (m.log2 + 1) :=
    ⟨by exact_mod_cast Nat.log2_self_le hm, by exact_mod_cast Nat.lt_log2_self⟩
  have hbelow : (2 : ℚ) ^ ((m.log2 : Int) + e) ≤ q := by
    rw [zpow_add₀ two_ne_zero, zpow_natCast]
    exact (mul_le_mul_of_nonneg_right hbits.1 hunit.le).trans hlow
  have habove : q < (2 : ℚ) ^ ((m.log2 : Int) + 1 + e) := by
    rw [zpow_add₀ two_ne_zero, ← Nat.cast_succ, zpow_natCast]
    exact hhigh.trans_le (mul_le_mul_of_nonneg_right hbits.2 hunit.le)
  have hle := (zpow_lt_zpow_iff_right₀ (one_lt_two (α := ℚ))).1 (hbelow.trans_lt hq.high)
  have hge := (zpow_lt_zpow_iff_right₀ (one_lt_two (α := ℚ))).1 (hq.low.trans_lt habove)
  omega

/-- Whatever a number is cut off to, it is shifted to its unit. -/
theorem targetExponent_eq_lastPlace {l : Int} (hq : HasLog q l) (he : e ≤ lastPlace l) (hlow : m ≤ q / 2 ^ e)
    (hhigh : q / 2 ^ e < m + 1) :
    Format.binary64.targetExponent (totalExponent m e) = lastPlace l := by
  rw [WholeNumber.targetExponent_eq]
  by_cases hm : m = 0
  · subst hm
    have hsmall : q < 2 ^ e := by
      rw [Nat.cast_zero, zero_add, div_lt_one (by positivity)] at hhigh
      exact hhigh
    have hlt := (zpow_lt_zpow_iff_right₀ (one_lt_two (α := ℚ))).1 (hq.low.trans_lt hsmall)
    rw [Nat.log2_zero]
    unfold lastPlace at he ⊢
    omega
  · have hlog := hq.log2_eq hm hlow hhigh
    unfold lastPlace
    omega

theorem Describes.floor (h : Describes em y) : em.mantissa ≤ y ∧ y < em.mantissa + 1 := by
  obtain ⟨hlow, hhigh, -⟩ := h
  have hbit : (0 : ℚ) ≤ em.roundBit.toNat ∧ (em.roundBit.toNat : ℚ) ≤ 1 := by
    cases em.roundBit <;> norm_num
  constructor <;> linarith

theorem mantissa_ofMantissaAndAccuracy (m : Nat) (acc : Accuracy) :
    (ExtendedMantissa.ofMantissaAndAccuracy m acc).mantissa = m := by
  rcases acc with _ | _ | _ | _ <;> rfl

/-- The first shift leads to the last place. -/
theorem describes_shifted {l : Int} (hq : HasLog q l) (he : e ≤ lastPlace l)
    (hcut : Describes (ExtendedMantissa.ofMantissaAndAccuracy m acc) (q / 2 ^ e)) :
    ∃ em, shiftToTargetExponent .binary64 m e acc = (em, lastPlace l) ∧
      Describes em (q / 2 ^ lastPlace l) := by
  obtain ⟨hlow, hhigh⟩ := hcut.floor
  rw [mantissa_ofMantissaAndAccuracy] at hlow hhigh
  obtain ⟨k, hk⟩ := Int.le.dest he
  have hshift : (lastPlace l - e).toNat = k := by omega
  refine ⟨Nat.repeat ExtendedMantissa.shiftRightOne k (.ofMantissaAndAccuracy m acc), ?_, ?_⟩
  · simp only [shiftToTargetExponent, targetExponent_eq_lastPlace hq he hlow hhigh, shiftToExponent, hshift, hk]
    rfl
  · rw [← hk, zpow_add₀ two_ne_zero, ← div_div, zpow_natCast]
    exact hcut.repeat k

def carried (r : Nat) (e : Int) : UnpackedFloat :=
  if h : r = 0 then .zero .positive
  else if r < 2 ^ 53 then .finite .positive r e (Nat.pos_of_ne_zero h)
  else .finite .positive (2 ^ 52) (e + 1) (by decide)

theorem carried_of_lt (hpos : 0 < r) (hlt : r < 2 ^ 53) :
    carried r e = .finite .positive r e hpos := by
  rw [carried, dif_neg hpos.ne', if_pos hlt]

theorem carried_top (e : Int) : carried (2 ^ 53) e = .finite .positive (2 ^ 52) (e + 1) (by decide) := by
  rw [carried, dif_neg (by decide), if_neg (lt_irrefl _)]

/-- The second shift makes room for a carry. -/
theorem shifted_carry (hr : r ≤ 2 ^ 53) (he : -1074 ≤ e) :
    shiftToTargetExponent .binary64 r e .exact =
      if r < 2 ^ 53 then (⟨r, false, false⟩, e) else (⟨2 ^ 52, false, false⟩, e + 1) := by
  have htarget := WholeNumber.targetExponent_eq r e
  split_ifs with hlt
  · have hlog : r.log2 ≤ 52 := by
      by_cases hzero : r = 0
      · simp [hzero]
      · exact Nat.lt_succ_iff.1 ((Nat.log2_lt hzero).2 hlt)
    have hshift : (max ((r.log2 : Int) + e - 52) (-1074) - e).toNat = 0 := by omega
    simp only [shiftToTargetExponent, htarget, shiftToExponent, hshift, Int.natCast_zero, Int.add_zero]
    rfl
  · obtain rfl : r = 2 ^ 53 := by omega
    rw [Nat.log2_two_pow] at htarget
    have hshift : (max (((53 : Nat) : Int) + e - 52) (-1074) - e).toNat = 1 := by omega
    simp only [shiftToTargetExponent, htarget, shiftToExponent, hshift, Int.natCast_one]
    rfl

theorem least_le_lastPlace (l : Int) : -1074 ≤ lastPlace l := le_max_right _ _

theorem natCast_two_pow_mul (n : Nat) (e : Int) : ((2 ^ n : Nat) : ℚ) * 2 ^ e = 2 ^ (n + e) := by
  rw [zpow_add₀ two_ne_zero, zpow_natCast]
  push_cast
  rfl

/-- In its last place a number has at most 53 bits, and no fewer unless it is very small. -/
theorem HasLog.div_lastPlace {l : Int} (hq : HasLog q l) : q / 2 ^ lastPlace l < (2 ^ 53 : Nat) ∧
    (lastPlace l = -1074 ∨ (2 ^ 52 : Nat) ≤ q / 2 ^ lastPlace l) := by
  have hpos : (0 : ℚ) < 2 ^ lastPlace l := by positivity
  constructor
  · rw [div_lt_iff₀ hpos, natCast_two_pow_mul]
    refine hq.high.trans_le (zpow_le_zpow_right₀ one_le_two ?_)
    unfold lastPlace
    omega
  · by_cases hleast : lastPlace l = -1074
    · exact .inl hleast
    · refine .inr ?_
      rw [le_div_iff₀ hpos, natCast_two_pow_mul]
      refine (zpow_le_zpow_right₀ one_le_two ?_).trans hq.low
      unfold lastPlace at hleast ⊢
      omega

/-- The mantissa is rounded to the last place of the double, from whatever was cut off before. -/
theorem roundWithAccuracy_nearest {l : Int} (hq : HasLog q l) (he : e ≤ lastPlace l)
    (hcut : Describes (ExtendedMantissa.ofMantissaAndAccuracy m acc) (q / 2 ^ e)) :
    ∃ r, IsNearestWhole (q / 2 ^ lastPlace l) r ∧
      roundWithAccuracy .binary64 .positive m e acc = carried r (lastPlace l) := by
  obtain ⟨em, hfirst, hem⟩ := describes_shifted hq he hcut
  have hnear := hem.roundedMantissa
  refine ⟨_, hnear, ?_⟩
  have hsecond := shifted_carry (hnear.le_of_lt_pow hq.div_lastPlace.1) (least_le_lastPlace l)
  simp only [roundWithAccuracy, hfirst, hsecond, carried]
  by_cases hlt : em.roundedMantissa < 2 ^ 53
  · simp only [if_pos hlt]
  · have hzero : em.roundedMantissa ≠ 0 := by omega
    simp only [if_neg hlt, dif_neg hzero]
    rfl

/-! ## What is nearest -/

def HasEvenMantissa (x : Float) : Prop := ∀ s m e h, parts x = .finite s m e h → Even m

/-- The double nearest to a number that is not negative, and the even one if two are equally near. From
halfway between the largest double and the next power of two on, that is infinity. -/
structure IsNearest (q : ℚ) (x : Float) : Prop where
  isSome_iff : (value? x).isSome ↔ q < 2 ^ 1024 - 2 ^ 970
  infinite : value? x = none → parts x = .infinity .positive
  near : ∀ v ∈ value? x, ∀ z, ∀ w ∈ value? z, |q - v| ≤ |q - w|
  even : ∀ v ∈ value? x, ∀ z, ∀ w ∈ value? z, w ≠ v → |q - v| = |q - w| → HasEvenMantissa x
  positive : parts x ≠ .zero .negative

/-- With enough bits a number is below `2 ^ 1024` if its exponent says so. -/
theorem scaled_lt_iff_exponent_le {n : Nat} (hlow : 2 ^ n ≤ r) (hhigh : r < 2 ^ (n + 1)) (e : Int) :
    (r : ℚ) * 2 ^ e < 2 ^ 1024 ↔ e ≤ 1023 - n := by
  have hpos : (0 : ℚ) < 2 ^ e := by positivity
  have hbelow : (2 : ℚ) ^ ((n : Int) + e) ≤ r * 2 ^ e := by
    rw [← natCast_two_pow_mul]
    exact mul_le_mul_of_nonneg_right (by exact_mod_cast hlow) hpos.le
  have habove : (r : ℚ) * 2 ^ e < 2 ^ (((n + 1 : Nat) : Int) + e) := by
    rw [← natCast_two_pow_mul]
    exact mul_lt_mul_of_pos_right (by exact_mod_cast hhigh) hpos
  have hlimit : (2 : ℚ) ^ (1024 : Nat) = 2 ^ (1024 : Int) := (zpow_natCast 2 1024).symm
  rw [hlimit]
  constructor
  · intro hlt
    have := (zpow_lt_zpow_iff_right₀ (one_lt_two (α := ℚ))).1 (hbelow.trans_lt hlt)
    omega
  · intro hle
    exact habove.trans_le (zpow_le_zpow_right₀ one_le_two (by omega))

/-- A mantissa that was rounded is packed as it is, or as infinity from the limit on. -/
theorem parts_carried {l : Int} (hr : r ≤ 2 ^ 53) (hleast : lastPlace l = -1074 ∨ 2 ^ 52 ≤ r) :
    parts (Float.ofModel (Float.Model.pack (carried r (lastPlace l)))) =
      if (r : ℚ) * 2 ^ lastPlace l < 2 ^ 1024 then carried r (lastPlace l) else .infinity .positive := by
  have hle := least_le_lastPlace l
  rw [parts_ofModel_pack]
  generalize lastPlace l = e at hleast hle
  by_cases hzero : r = 0
  · subst hzero
    rw [Nat.cast_zero, zero_mul, if_pos (by positivity)]
    exact (Encoded.zero .positive).unpack_pack
  by_cases hcarry : r < 2 ^ 53
  · rw [carried_of_lt (Nat.pos_of_ne_zero hzero) hcarry]
    by_cases hnormal : 2 ^ 52 ≤ r
    · simp only [scaled_lt_iff_exponent_le hnormal hcarry e]
      split_ifs with hsmall
      · exact (Encoded.normal _ _ _ _ (log2_of_normal hnormal hcarry) ⟨hle, by omega⟩).unpack_pack
      · exact unpack_pack_overflow (by omega)
    · obtain rfl : e = -1074 := hleast.resolve_right hnormal
      have hsmall : (r : ℚ) * 2 ^ (-1074 : Int) < 2 ^ 1024 := by
        have hbits : (r : ℚ) < 2 ^ 53 := by exact_mod_cast hcarry
        calc (r : ℚ) * 2 ^ (-1074 : Int) ≤ r * 1 := by
              gcongr
              exact zpow_le_one_of_nonpos₀ one_le_two (by decide)
          _ < 2 ^ 1024 := by
              rw [mul_one]
              exact hbits.trans (pow_lt_pow_right₀ one_lt_two (by decide))
      rw [if_pos hsmall]
      exact (Encoded.subnormal _ _ _ (not_le.1 hnormal)).unpack_pack
  · obtain rfl : r = 2 ^ 53 := by omega
    simp only [carried_top, scaled_lt_iff_exponent_le (n := 53) le_rfl (by decide) e]
    split_ifs with hsmall
    · exact (Encoded.normal _ _ _ _ Nat.log2_two_pow ⟨by omega, by omega⟩).unpack_pack
    · exact unpack_pack_overflow (by omega)

/-- The value of any double is a multiple of a unit, or smaller than all numbers that have this unit. -/
theorem multiple_or_lt {z : Float} {w : ℚ} (hz : value? z = some w) (e : Int) :
    (∃ k : ℤ, w = k * 2 ^ e) ∨ -1074 < e ∧ w < 2 ^ 52 * 2 ^ e := by
  unfold value? at hz
  cases hparts : parts z with
  | notANumber => simp [hparts] at hz
  | infinity s => simp [hparts] at hz
  | zero s =>
    simp only [hparts, Option.some.injEq] at hz
    exact .inl ⟨0, by simp [← hz]⟩
  | finite s m e' hm =>
    simp only [hparts, Option.some.injEq] at hz
    obtain ⟨hmantissa, -, hleast⟩ := canonical_of_parts hparts
    rcases le_or_gt e e' with he | he
    · obtain ⟨k, rfl⟩ := Int.le.dest he
      refine .inl ⟨s.apply m * 2 ^ k, ?_⟩
      rw [← hz, zpow_add₀ two_ne_zero, zpow_natCast]
      push_cast
      ring
    · refine .inr ⟨by omega, ?_⟩
      have hsign : ((s.apply m : ℤ) : ℚ) ≤ m := by
        cases s <;> simp [Sign.apply]
      have hbits : (m : ℚ) < 2 ^ 53 := by exact_mod_cast hmantissa
      have hpos : (0 : ℚ) < 2 ^ e' := by positivity
      calc w = (s.apply m : ℤ) * 2 ^ e' := hz.symm
        _ ≤ m * 2 ^ e' := mul_le_mul_of_nonneg_right hsign hpos.le
        _ < 2 ^ 53 * 2 ^ e' := mul_lt_mul_of_pos_right hbits hpos
        _ = 2 ^ 52 * 2 ^ (1 + e') := by
          rw [zpow_add₀ two_ne_zero]
          ring
        _ ≤ 2 ^ 52 * 2 ^ e := by
          gcongr
          · exact one_le_two
          · omega

theorem value?_carried {x : Float} (hr : r ≤ 2 ^ 53) (hx : parts x = carried r e) :
    value? x = some ((r : ℚ) * 2 ^ e) := by
  by_cases hzero : r = 0
  · subst hzero
    rw [value?, hx, Nat.cast_zero, zero_mul]
    rfl
  by_cases hcarry : r < 2 ^ 53
  · rw [value?, hx, carried_of_lt (Nat.pos_of_ne_zero hzero) hcarry]
    rfl
  · obtain rfl : r = 2 ^ 53 := by omega
    have hdouble : ((2 ^ 53 : Nat) : ℚ) * 2 ^ e = (2 ^ 52 : Nat) * 2 ^ (e + 1) := by
      rw [zpow_add₀ two_ne_zero]
      push_cast
      ring
    rw [value?, hx, carried_top, hdouble]
    rfl

theorem hasEvenMantissa_of_carried {x : Float} (hx : parts x = carried r e) (hr : Even r) :
    HasEvenMantissa x := by
  intro s m e' h hparts
  rw [hx, carried] at hparts
  split_ifs at hparts
  · cases hparts
    exact hr
  · cases hparts
    decide

theorem distance_scaled (q k : ℚ) (e : Int) : |q - k * 2 ^ e| = |q / 2 ^ e - k| * 2 ^ e := by
  have hpos : (0 : ℚ) < 2 ^ e := by positivity
  have hfactor : q - k * 2 ^ e = (q / 2 ^ e - k) * 2 ^ e := by
    field_simp
  rw [hfactor, abs_mul, abs_of_pos hpos]

/-- No double is nearer than the nearest whole number of units. -/
theorem IsNearestWhole.double {l : Int} (hq : HasLog q l)
    (hr : IsNearestWhole (q / 2 ^ lastPlace l) r) {z : Float} {w : ℚ} (hz : value? z = some w) :
    |q - r * 2 ^ lastPlace l| < |q - w| ∨ w = r * 2 ^ lastPlace l ∨
      |q - r * 2 ^ lastPlace l| = |q - w| ∧ Even r := by
  have hpos : (0 : ℚ) < 2 ^ lastPlace l := by positivity
  rw [distance_scaled]
  rcases multiple_or_lt hz (lastPlace l) with ⟨k, rfl⟩ | ⟨hleast, hsmall⟩
  · rw [distance_scaled, mul_lt_mul_iff_left₀ hpos, mul_left_inj' hpos.ne', mul_left_inj' hpos.ne']
    exact hr.int k
  · -- the number is at least as large as the first multiple that `w` is below
    have hlarge := hq.div_lastPlace.2.resolve_left hleast.ne'
    rw [Nat.cast_pow, Nat.cast_ofNat] at hlarge
    refine .inl ?_
    have hnear : |q / 2 ^ lastPlace l - r| ≤ q / 2 ^ lastPlace l - 2 ^ 52 := by
      rw [← abs_of_nonneg (sub_nonneg.2 hlarge)]
      rcases hr.int (2 ^ 52) with hlt | heq | htie
      · exact_mod_cast hlt.le
      · rw [← heq]
        exact_mod_cast le_rfl
      · exact_mod_cast htie.1.le
    calc |q / 2 ^ lastPlace l - r| * 2 ^ lastPlace l
        ≤ (q / 2 ^ lastPlace l - 2 ^ 52) * 2 ^ lastPlace l := mul_le_mul_of_nonneg_right hnear hpos.le
      _ = q - 2 ^ 52 * 2 ^ lastPlace l := by
        rw [sub_mul, div_mul_cancel₀ _ hpos.ne']
      _ < q - w := sub_lt_sub_left hsmall q
      _ ≤ |q - w| := le_abs_self _

theorem scaled_le {n : Nat} {e' : Int} (hr : r ≤ 2 ^ n) (he : e ≤ e') :
    (r : ℚ) * 2 ^ e ≤ 2 ^ ((n : Int) + e') := by
  rw [← natCast_two_pow_mul]
  exact mul_le_mul (Nat.cast_le.2 hr) (zpow_le_zpow_right₀ one_le_two he) (by positivity)
    (Nat.cast_nonneg _)

theorem le_scaled {n : Nat} {e' : Int} (hr : 2 ^ n ≤ r) (he : e' ≤ e) :
    (2 : ℚ) ^ ((n : Int) + e') ≤ r * 2 ^ e := by
  rw [← natCast_two_pow_mul]
  exact mul_le_mul (Nat.cast_le.2 hr) (zpow_le_zpow_right₀ one_le_two he) (by positivity)
    (Nat.cast_nonneg _)

/-- In the last place `971` the limit is half a unit below `2 ^ 53`. -/
theorem div_lt_iff_lt_limit (q : ℚ) :
    q / 2 ^ (971 : Int) < (2 ^ 53 : Nat) - 1 / 2 ↔ q < 2 ^ 1024 - 2 ^ 970 := by
  rw [div_lt_iff₀ (by positivity)]
  have hplace : (2 : ℚ) ^ (971 : Int) = 2 ^ 970 * 2 := by
    rw [← pow_succ]
    exact zpow_natCast 2 971
  have hpower : (2 : ℚ) ^ 1024 = 2 ^ 970 * 2 ^ 54 := pow_add 2 970 54
  rw [hplace, hpower]
  generalize (2 : ℚ) ^ 970 = u
  push_cast
  ring_nf

/-- Rounding to the last place reaches `2 ^ 1024` from halfway on. -/
theorem rounded_lt_iff {l : Int} (hq : HasLog q l) (hr : IsNearestWhole (q / 2 ^ lastPlace l) r) :
    (r : ℚ) * 2 ^ lastPlace l < 2 ^ 1024 ↔ q < 2 ^ 1024 - 2 ^ 970 := by
  have hbits := hr.le_of_lt_pow hq.div_lastPlace.1
  have hpower (n : Nat) : (2 : ℚ) ^ (n : Int) = 2 ^ n := zpow_natCast 2 n
  have hhalf : (2 : ℚ) ^ 1023 ≤ 2 ^ 1024 - 2 ^ 970 := by
    rw [le_sub_iff_add_le, pow_succ 2 1023, mul_two]
    exact add_le_add_right (pow_le_pow_right₀ one_le_two (by decide)) _
  rcases lt_trichotomy l 1023 with hl | rfl | hl
  · -- smaller numbers are not rounded that far
    have hplace : lastPlace l ≤ 970 := by
      unfold lastPlace
      omega
    have hrounded : (r : ℚ) * 2 ^ lastPlace l < 2 ^ 1024 := by
      refine (scaled_le hbits hplace).trans_lt ?_
      rw [← hpower]
      exact zpow_lt_zpow_right₀ one_lt_two (by decide)
    have hsmall : q < 2 ^ 1023 := by
      rw [← hpower]
      exact hq.high.trans_le (zpow_le_zpow_right₀ one_le_two hl)
    exact iff_of_true hrounded (hsmall.trans_le hhalf)
  · have hplace : lastPlace 1023 = 971 := rfl
    rw [hplace] at hr ⊢
    have hcarry : (r : ℚ) * 2 ^ (971 : Int) < 2 ^ 1024 ↔ r < 2 ^ 53 := by
      have hsplit : (2 : ℚ) ^ 1024 = (2 ^ 53 : Nat) * 2 ^ (971 : Int) := by
        rw [natCast_two_pow_mul, ← hpower]
        rfl
      rw [hsplit, mul_lt_mul_iff_left₀ (by positivity), Nat.cast_lt]
    rw [hcarry, ← div_lt_iff_lt_limit]
    exact hr.lt_iff (by decide) hbits
  · -- larger numbers are that large themselves
    have hplace : 972 ≤ lastPlace l := by
      unfold lastPlace
      omega
    have hnormal : 2 ^ 52 ≤ r := hr.le_of_pow_le (hq.div_lastPlace.2.resolve_left (by omega))
    have hrounded : (2 : ℚ) ^ 1024 ≤ r * 2 ^ lastPlace l := by
      rw [← hpower]
      exact le_scaled hnormal hplace
    have hlarge : (2 : ℚ) ^ 1024 ≤ q := by
      rw [← hpower]
      exact (zpow_le_zpow_right₀ one_le_two hl).trans hq.low
    exact iff_of_false (not_lt.2 hrounded) (not_lt.2 ((sub_le_self _ (by positivity)).trans hlarge))

/-- The double of a nearest mantissa is nearest. -/
theorem isNearest_of_carried {l : Int} (hq : HasLog q l) (hr : IsNearestWhole (q / 2 ^ lastPlace l) r)
    {x : Float} (hx : parts x =
      if (r : ℚ) * 2 ^ lastPlace l < 2 ^ 1024 then carried r (lastPlace l) else .infinity .positive) :
    IsNearest q x := by
  have hbits := hr.le_of_lt_pow hq.div_lastPlace.1
  have hlimit := rounded_lt_iff hq hr
  by_cases hsmall : (r : ℚ) * 2 ^ lastPlace l < 2 ^ 1024
  · rw [if_pos hsmall] at hx
    have hvalue := value?_carried hbits hx
    constructor
    · simpa [hvalue, hsmall] using hlimit.1 hsmall
    · simp [hvalue]
    · intro v hv z w hw
      cases hvalue.symm.trans hv
      rcases hr.double hq hw with hlt | rfl | ⟨htie, -⟩
      · exact hlt.le
      · exact le_rfl
      · exact htie.le
    · intro v hv z w hw hne htie
      cases hvalue.symm.trans hv
      rcases hr.double hq hw with hlt | heq | ⟨-, heven⟩
      · exact absurd htie hlt.ne
      · exact absurd heq hne
      · exact hasEvenMantissa_of_carried hx heven
    · rw [hx, carried]
      split_ifs <;> simp
  · rw [if_neg hsmall] at hx
    have hvalue : value? x = none := by rw [value?, hx]
    constructor
    · simpa [hvalue] using mt hlimit.2 hsmall
    · exact fun _ => hx
    · simp [hvalue]
    · simp [hvalue]
    · rw [hx]
      simp

theorem hasLog_log (hq : 0 < q) : HasLog q (Int.log 2 q) :=
  ⟨Int.zpow_log_le_self one_lt_two hq, Int.lt_zpow_succ_log_self one_lt_two q⟩

/-- Rounding gives the nearest double if enough bits are left. -/
theorem isNearest_round {l : Int} (hq : HasLog q l) (he : e ≤ lastPlace l)
    (hcut : Describes (ExtendedMantissa.ofMantissaAndAccuracy m acc) (q / 2 ^ e)) :
    IsNearest q (Float.ofModel (Float.Model.pack (roundWithAccuracy .binary64 .positive m e acc))) := by
  obtain ⟨r, hr, hround⟩ := roundWithAccuracy_nearest hq he hcut
  refine isNearest_of_carried hq hr ?_
  rw [hround]
  exact parts_carried (hr.le_of_lt_pow hq.div_lastPlace.1)
    (hq.div_lastPlace.2.imp_right hr.le_of_pow_le)

end RasterTile.ExactValue
