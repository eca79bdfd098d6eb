import Mathlib.Tactic.FieldSimp
import RasterTile.Proofs.ExactScalar
import RasterTile.Proofs.Style.Slots

/-!
# From raw values to the display

The curve of a window is a ramp: zero below the window, one above it, and straight in between. A window
without width is a step, and one the wrong way round is a step at its low end. A preset with such
curves looks its outputs up, scales them to raw values and these to the 8-bit range. Without rounding
the two factors cancel but for 255, so every slot ends between 0 and 255, and a larger value is not
shown darker.
-/
namespace RasterTile

def ramp (low high i : Nat) : ℚ :=
  if i < low then 0 else if high < i then 1 else (i - low : ℚ) / (high - low)

section Ramp

variable {low high i j : Nat}

theorem ramp_eq_zero (h : i < low) : ramp low high i = 0 := if_pos h

theorem ramp_eq_one (hlow : low ≤ i) (hhigh : high < i) : ramp low high i = 1 := by
  rw [ramp, if_neg (Nat.not_lt.2 hlow), if_pos hhigh]

theorem ramp_inside (hlow : low ≤ i) (hhigh : i ≤ high) :
    ramp low high i = (i - low : ℚ) / (high - low) := by
  rw [ramp, if_neg (Nat.not_lt.2 hlow), if_neg (Nat.not_lt.2 hhigh)]

theorem ramp_nonneg (low high i : Nat) : 0 ≤ ramp low high i := by
  unfold ramp
  split_ifs with hbelow habove
  · exact le_rfl
  · exact zero_le_one
  · have hlow : (low : ℚ) ≤ i := Nat.cast_le.2 (Nat.not_lt.1 hbelow)
    have hhigh : (i : ℚ) ≤ high := Nat.cast_le.2 (Nat.not_lt.1 habove)
    exact div_nonneg (sub_nonneg.2 hlow) (sub_nonneg.2 (hlow.trans hhigh))

theorem ramp_le_one (low high i : Nat) : ramp low high i ≤ 1 := by
  unfold ramp
  split_ifs with hbelow habove
  · exact zero_le_one
  · exact le_rfl
  · have hlow : (low : ℚ) ≤ i := Nat.cast_le.2 (Nat.not_lt.1 hbelow)
    have hhigh : (i : ℚ) ≤ high := Nat.cast_le.2 (Nat.not_lt.1 habove)
    exact div_le_one_of_le₀ (sub_le_sub_right hhigh _) (sub_nonneg.2 (hlow.trans hhigh))

/-- A ramp never falls. -/
theorem ramp_mono (low high : Nat) : Monotone (ramp low high) := by
  intro i j hle
  by_cases hbelow : i < low
  · rw [ramp_eq_zero hbelow]
    exact ramp_nonneg low high j
  · have hlow : low ≤ i := Nat.not_lt.1 hbelow
    by_cases habove : high < j
    · rw [ramp_eq_one (hlow.trans hle) habove]
      exact ramp_le_one low high i
    · have hhigh : j ≤ high := Nat.not_lt.1 habove
      rw [ramp_inside hlow (hle.trans hhigh), ramp_inside (hlow.trans hle) hhigh]
      have hspan : (0 : ℚ) ≤ high - low :=
        sub_nonneg.2 (Nat.cast_le.2 (hlow.trans (hle.trans hhigh)))
      exact div_le_div_of_nonneg_right (sub_le_sub_right (Nat.cast_le.2 hle) _) hspan

end Ramp

namespace Curve

/-- Without rounding, the levels between zero and one are a ramp. -/
theorem level_eq_ramp (low high i : Nat) :
    level (.rational low) (.rational high) (.rational 0) (.rational 1) (.rational i) =
      Exact.rational (ramp low high i) := by
  simp only [level, Exact.rational_sub, Exact.less_rational, Exact.zero_eq, decide_eq_true_eq,
    Nat.cast_lt, sub_pos, sub_zero]
  by_cases hbelow : i < low
  · rw [if_pos hbelow, ramp_eq_zero hbelow]
  by_cases habove : high < i
  · rw [if_neg hbelow, if_pos habove, ramp_eq_one (Nat.not_lt.1 hbelow) habove]
  have hlow : low ≤ i := Nat.not_lt.1 hbelow
  have hhigh : i ≤ high := Nat.not_lt.1 habove
  rw [if_neg hbelow, if_neg habove, ramp_inside hlow hhigh]
  by_cases hspan : low < high
  · have hwidth : (high - low : ℚ) ≠ 0 := (sub_pos.2 (Nat.cast_lt.2 hspan)).ne'
    rw [if_pos hspan, Exact.rational_div hwidth, Exact.rational_mul, Exact.rational_add, zero_add,
      one_div_mul_eq_div]
  · -- the window is a single value, at which the ramp starts
    have hsame : i = low := by omega
    rw [if_neg hspan, Exact.rational_mul, Exact.rational_add, hsame, sub_self, zero_div, mul_zero,
      add_zero]

/-- A curve has the ramp of its window, entry by entry. -/
theorem values_ofLevels {depth : Nat} (hpos : 0 < depth) (hfits : depth < UInt32.size)
    (low high : UInt32) :
    (ofLevels depth (low, high) (0, UInt32.ofNat depth) : Curve Exact).values =
      Array.ofFn fun i : Fin depth => .rational (ramp low.toNat high.toNat i) := by
  have hdepth : (UInt32.ofNat depth).toNat = depth := UInt32.toNat_ofNat_of_lt' hfits
  have hne : (depth : ℚ) ≠ 0 := Nat.cast_ne_zero.2 hpos.ne'
  simp only [ofLevels, hdepth, Exact.nat_eq, Exact.single_eq, UInt32.toNat_zero,
    Exact.rational_div hne, Nat.cast_zero, zero_div, div_self hne, level_eq_ramp]

end Curve

/-! ## Slots 0 to 2 -/

section Slots

variable {α : Type} [Scalar α] {k : Nat}

theorem CurveSet.getElem?_apply {s : CurveSet α} {c : Curve α} (hk : k < 3)
    (hc : s.curves[k]? = some c) (pixel : List α) :
    (s.apply pixel)[k]? = pixel[k]?.map fun x => c.lookup x * s.top := by
  have htake : (s.curves.take 3)[k]? = some c := by rw [List.getElem?_take_of_lt hk, hc]
  rw [apply, Pixel.getElem?_overwrite, List.getElem?_zipWith, htake]
  cases pixel[k]? <;> rfl

theorem ConfiguredPreset.getElem?_rescale (hk : k < 3) (factor : α) (pixel : List α) :
    (rescale factor pixel)[k]? = pixel[k]?.map (· * factor) := by
  rw [rescale, Pixel.getElem?_overwrite, List.getElem?_map, List.getElem?_take_of_lt hk]
  cases pixel[k]? <;> rfl

/-- Curves without colours: a lookup, and then two factors. -/
theorem ConfiguredPreset.getElem?_apply {style : ConfiguredPreset α} {s : CurveSet α} {c : Curve α}
    (hcurves : style.curves = some s) (hcolor : style.color = none) (hk : k < 3)
    (hc : s.curves[k]? = some c) (bands : BandMap) (pixel : List α) :
    (style.apply bands pixel)[k]? =
      (style.preset.apply (style.readBands.getD bands) pixel)[k]?.map
        fun x => c.lookup x * s.top * style.scale := by
  rw [apply_eq_finish, finish, hcurves, hcolor]
  dsimp only [Option.elim_some, Option.elim_none]
  rw [getElem?_rescale hk, CurveSet.getElem?_apply hk hc, Option.map_map]
  rfl

end Slots

def shade (depth low high : Nat) (x : Exact) : ℚ :=
  255 * ramp low high (Scalar.index (depth - 1) x)

/-- What is shown is a byte, rounded or not. -/
theorem shade_bounds (depth low high : Nat) (x : Exact) :
    0 ≤ shade depth low high x ∧ shade depth low high x ≤ 255 := by
  have hlow := ramp_nonneg low high (Scalar.index (depth - 1) x)
  have hhigh := ramp_le_one low high (Scalar.index (depth - 1) x)
  unfold shade
  constructor <;> linarith

/-- A larger value is never shown darker. -/
theorem shade_mono (depth low high : Nat) {x y : Exact} (h : Scalar.less x y = true) :
    shade depth low high x ≤ shade depth low high y :=
  mul_le_mul_of_nonneg_left (ramp_mono low high (Exact.index_mono _ h)) (by norm_num)

/-- A curve is looked up and scaled as the ramp of the nearest entry says. -/
theorem Curve.lookup_scaled {depth : Nat} (htwo : 2 ≤ depth) (hfits : depth < UInt32.size)
    (low high : UInt32) (x : Exact) :
    (ofLevels depth (low, high) (0, UInt32.ofNat depth) : Curve Exact).lookup x *
        Scalar.nat (depth - 1) * (Scalar.nat 255 / Scalar.nat (depth - 1)) =
      .rational (shade depth low.toNat high.toNat x) := by
  have hindex : Scalar.index (depth - 1) x < depth := by
    have hle := Scalar.index_le (depth - 1) x
    omega
  have htop : ((depth - 1 : Nat) : ℚ) ≠ 0 := Nat.cast_ne_zero.2 (by omega)
  have hlookup : (ofLevels depth (low, high) (0, UInt32.ofNat depth) : Curve Exact).lookup x =
      .rational (ramp low.toNat high.toNat (Scalar.index (depth - 1) x)) := by
    rw [lookup, size_ofLevels, values_ofLevels (by omega) hfits,
      Array.getElem?_eq_getElem (by rw [Array.size_ofFn]; exact hindex), Array.getElem_ofFn]
    rfl
  rw [hlookup, Exact.nat_eq, Exact.nat_eq, Exact.rational_div htop, Exact.rational_mul,
    Exact.rational_mul, shade, Nat.cast_ofNat]
  congr 1
  field_simp

/-- Whatever the window is, its curve has one level for every raw value below the depth, from zero
below the window to one above it, and never falls. So slots 0 to 2 of a preset with this curve and
without colours end between 0 and 255, whatever the preset left there, infinities and NaNs included,
and a larger value is not shown darker. -/
theorem Preset.stretched_display {depth : Nat} (htwo : 2 ≤ depth) (hfits : depth < UInt32.size)
    (low high : UInt32) :
    let curve : Curve Exact := .ofLevels depth (low, high) (0, UInt32.ofNat depth)
    (∃ level : Nat → ℚ,
      curve.values = Array.ofFn (fun i : Fin depth => Exact.rational (level i)) ∧
      (∀ i, 0 ≤ level i ∧ level i ≤ 1) ∧ Monotone level ∧
      (∀ i < low.toNat, level i = 0) ∧ ∀ i > max low.toNat high.toNat, level i = 1) ∧
    ∃ shown : Exact → ℚ, (∀ x, 0 ≤ shown x ∧ shown x ≤ 255) ∧
      (∀ x y, Scalar.less x y = true → shown x ≤ shown y) ∧
      ∀ (p : Preset) (options : PresetOptions Exact) (curves : List (Curve Exact)),
        options.pixelDepth = depth → options.color = none → options.curves = some curves →
        (∀ k < 3, curves[k]? = some curve) →
        ∃ style, ConfiguredPreset.configure? p options = some style ∧
          ∀ (bands : BandMap) (pixel : List Exact), ∀ k < 3,
            (style.apply bands pixel)[k]? =
              (p.apply ((options.readBands.map BandOrder.map).getD bands) pixel)[k]?.map
                fun x => .rational (shown x) := by
  intro curve
  refine ⟨⟨ramp low.toNat high.toNat, Curve.values_ofLevels (by omega) hfits low high, ?_,
    ramp_mono _ _, fun i hi => ramp_eq_zero hi, ?_⟩,
    shade depth low.toNat high.toNat, shade_bounds _ _ _, fun x y => shade_mono _ _ _, ?_⟩
  · intro i
    exact ⟨ramp_nonneg _ _ i, ramp_le_one _ _ i⟩
  · intro i hi
    exact ramp_eq_one ((le_max_left _ _).trans hi.le) ((le_max_right _ _).trans_lt hi)
  · intro p options curves hdepth hcolor hcurves hcurve
    have hconfigure : ConfiguredPreset.configure? p options = some {
        preset := p
        readBands := options.readBands.map BandOrder.map
        curves := some (.ofDepth curves depth)
        scale := Scalar.nat 255 / Scalar.nat (depth - 1)
        color := none } := by
      rw [ConfiguredPreset.configure?, hdepth, if_neg (Nat.not_lt.2 htwo), hcurves, hcolor]
      rfl
    refine ⟨_, hconfigure, fun bands pixel k hk => ?_⟩
    rw [ConfiguredPreset.getElem?_apply rfl rfl hk (hcurve k hk)]
    simp only [CurveSet.ofDepth, curve, Curve.lookup_scaled htwo hfits]

/-- Options with the curves of a window the wrong way round, a step at its low end. -/
def PresetOptions.inverted : PresetOptions Exact :=
  ⟨4, some (List.replicate 3 (.ofLevels 4 (3, 1) (0, 4))), none, none⟩

theorem Preset.stretched_display_inverted :
    (Curve.ofLevels 4 (3, 1) (0, 4) : Curve Exact).values =
        #[.rational 0, .rational 0, .rational 0, .rational 1] ∧
      ∃ shown : Exact → ℚ, ∃ style,
        ConfiguredPreset.configure? .value .inverted = some style ∧
        shown .nan ≤ 255 ∧ shown (.infinite true) ≤ shown (.infinite false) ∧
        ∀ x : Exact, (style.apply (BandOrder.map [.red]) [x, 0, 0, .rational 1])[0]? =
          some (.rational (shown x)) := by
  obtain ⟨-, shown, hrange, hmono, happly⟩ :=
    stretched_display (by decide : 2 ≤ 4) (by decide) 3 1
  obtain ⟨style, hstyle, hslots⟩ := happly .value .inverted _ rfl rfl rfl
    fun k hk => List.getElem?_replicate_of_lt hk
  refine ⟨by decide +kernel, shown, style, hstyle, (hrange _).2, hmono _ _ rfl, fun x => ?_⟩
  exact hslots (BandOrder.map [.red]) [x, 0, 0, .rational 1] 0 (by decide)

end RasterTile
