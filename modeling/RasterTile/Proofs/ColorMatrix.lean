import RasterTile.ColorMatrix
import RasterTile.Proofs.ExactScalar
import Mathlib.Tactic.Ring

/-!
# What brightness, contrast and saturation do

A matrix whose last column is that of the identity keeps the component one, so the product of two
applies the left one first and the right one after it. The matrix of the settings is such a product:
each channel is blended with the luminance, the contrast is added, and the sum is multiplied by the
brightness. The weights of the luminance add up to one, so blending leaves the luminance alone, and a
gray pixel altogether.
-/
namespace RasterTile

def Row.exact (red green blue one : ℚ) : Row Exact :=
  ⟨.rational red, .rational green, .rational blue, .rational one⟩

def ColorSettings.exact (brightness contrast saturation : ℚ) : ColorSettings Exact :=
  ⟨.rational brightness, .rational contrast, .rational saturation⟩

namespace ColorMatrix

/-- A matrix of fractions with the last column of the identity. -/
def IsAffine (m : ColorMatrix Exact) : Prop :=
  ∃ r₁ r₂ r₃ g₁ g₂ g₃ b₁ b₂ b₃ o₁ o₂ o₃ : ℚ,
    m = ⟨.exact r₁ r₂ r₃ 0, .exact g₁ g₂ g₃ 0, .exact b₁ b₂ b₃ 0, .exact o₁ o₂ o₃ 1⟩

def colored (x y z : ℚ) (rest : List Exact) : List Exact :=
  .rational x :: .rational y :: .rational z :: rest

variable {m n : ColorMatrix Exact}

/-- The product applies the left matrix first. -/
theorem IsAffine.apply_mul (hm : m.IsAffine) (hn : n.IsAffine) (x y z : ℚ) (rest : List Exact) :
    (m.mul n).apply (colored x y z rest) = n.apply (m.apply (colored x y z rest)) := by
  obtain ⟨r₁, r₂, r₃, g₁, g₂, g₃, b₁, b₂, b₃, o₁, o₂, o₃, rfl⟩ := hm
  obtain ⟨r₁', r₂', r₃', g₁', g₂', g₃', b₁', b₂', b₃', o₁', o₂', o₃', rfl⟩ := hn
  simp only [mul, Row.times, Row.exact, apply, colored, Exact.rational_add, Exact.rational_mul,
    List.cons.injEq, Exact.rational.injEq, and_true]
  refine ⟨?_, ?_, ?_⟩ <;> ring

theorem IsAffine.mul (hm : m.IsAffine) (hn : n.IsAffine) : (m.mul n).IsAffine := by
  obtain ⟨r₁, r₂, r₃, g₁, g₂, g₃, b₁, b₂, b₃, o₁, o₂, o₃, rfl⟩ := hm
  obtain ⟨r₁', r₂', r₃', g₁', g₂', g₃', b₁', b₂', b₃', o₁', o₂', o₃', rfl⟩ := hn
  simp only [ColorMatrix.mul, Row.times, Row.exact, Exact.rational_add, Exact.rational_mul, mul_zero,
    zero_mul, mul_one, add_zero, zero_add]
  exact ⟨_, _, _, _, _, _, _, _, _, _, _, _, rfl⟩

/-! ## The three settings -/

def luminance (x y z : ℚ) : ℚ := 0.3086 * x + 0.6094 * y + 0.082 * z

theorem weights_eq : (redWeight : Exact) = .rational 0.3086 ∧ (greenWeight : Exact) = .rational 0.6094 ∧
    (blueWeight : Exact) = .rational 0.082 := by
  refine ⟨congrArg Exact.rational ?_, congrArg Exact.rational ?_, congrArg Exact.rational ?_⟩ <;>
    norm_num

theorem isAffine_brightness (b : ℚ) : (brightness (Exact.rational b)).IsAffine :=
  ⟨b, 0, 0, 0, b, 0, 0, 0, b, 0, 0, 0, by simp [brightness, Row.exact]⟩

theorem isAffine_contrast (c : ℚ) : (contrast (Exact.rational c)).IsAffine :=
  ⟨1, 0, 0, 0, 1, 0, 0, 0, 1, c, c, c, by simp [contrast, Row.exact]⟩

theorem isAffine_saturation (s : ℚ) : (saturation (Exact.rational s)).IsAffine := by
  obtain ⟨hr, hg, hb⟩ := weights_eq
  simp only [saturation, hr, hg, hb, Exact.nat_eq, Exact.zero_eq, Exact.rational_sub,
    Exact.rational_mul, Exact.rational_add, Nat.cast_one]
  exact ⟨_, _, _, _, _, _, _, _, _, 0, 0, 0, rfl⟩

theorem apply_brightness (b x y z : ℚ) (rest : List Exact) :
    (brightness (.rational b)).apply (colored x y z rest) = colored (b * x) (b * y) (b * z) rest := by
  simp [brightness, apply, colored, mul_comm]

theorem apply_contrast (c x y z : ℚ) (rest : List Exact) :
    (contrast (.rational c)).apply (colored x y z rest) = colored (x + c) (y + c) (z + c) rest := by
  simp [contrast, apply, colored]

/-- Saturation moves each channel between itself and the luminance. -/
theorem apply_saturation (s x y z : ℚ) (rest : List Exact) :
    (saturation (.rational s)).apply (colored x y z rest) =
      colored (s * x + (1 - s) * luminance x y z) (s * y + (1 - s) * luminance x y z)
        (s * z + (1 - s) * luminance x y z) rest := by
  obtain ⟨hr, hg, hb⟩ := weights_eq
  simp only [saturation, hr, hg, hb, apply, colored, luminance, Exact.nat_eq, Exact.zero_eq,
    Exact.rational_sub, Exact.rational_mul, Exact.rational_add, Nat.cast_one, List.cons.injEq,
    Exact.rational.injEq, and_true]
  refine ⟨?_, ?_, ?_⟩ <;> ring

/-! ## All three -/

/-- A channel after the settings, in a pixel of a luminance. -/
def adjusted (b c s luma v : ℚ) : ℚ := b * (s * v + (1 - s) * luma + c)

/-- The matrix of some settings does to a colour what the settings say, channel by channel. -/
theorem apply_ofSettings (b c s x y z : ℚ) (rest : List Exact) :
    (ofSettings (.exact b c s)).apply (colored x y z rest) =
      colored (adjusted b c s (luminance x y z) x) (adjusted b c s (luminance x y z) y)
        (adjusted b c s (luminance x y z) z) rest := by
  have hblend := (isAffine_saturation s).mul (isAffine_contrast c)
  calc (ofSettings (.exact b c s)).apply (colored x y z rest)
      = (brightness (.rational b)).apply (((saturation (.rational s)).mul
          (contrast (.rational c))).apply (colored x y z rest)) :=
        hblend.apply_mul (isAffine_brightness b) x y z rest
    _ = (brightness (.rational b)).apply ((contrast (.rational c)).apply
          ((saturation (.rational s)).apply (colored x y z rest))) := by
        rw [(isAffine_saturation s).apply_mul (isAffine_contrast c)]
    _ = colored (b * (s * x + (1 - s) * luminance x y z + c))
          (b * (s * y + (1 - s) * luminance x y z + c))
          (b * (s * z + (1 - s) * luminance x y z + c)) rest := by
        rw [apply_saturation, apply_contrast, apply_brightness]

/-- The weights add up to one, so blending with the luminance does not change it. -/
theorem luminance_adjusted (b c s x y z : ℚ) :
    luminance (adjusted b c s (luminance x y z) x) (adjusted b c s (luminance x y z) y)
      (adjusted b c s (luminance x y z) z) = b * (luminance x y z + c) := by
  simp only [luminance, adjusted]
  ring

theorem luminance_gray (x : ℚ) : luminance x x x = x := by
  simp only [luminance]
  ring

/-- Each of the first three slots is blended with the luminance of the pixel, then the contrast is
added, and the sum is multiplied by the brightness; all other slots stay. So the luminance does not
depend on the saturation, no saturation changes a gray pixel, and one saturation after another is their
product. -/
theorem settings_formula (b c s x y z : ℚ) (rest : List Exact) :
    (ofSettings (.exact b c s)).apply (colored x y z rest) =
      colored (b * (s * x + (1 - s) * luminance x y z + c))
        (b * (s * y + (1 - s) * luminance x y z + c))
        (b * (s * z + (1 - s) * luminance x y z + c)) rest ∧
    (∃ x' y' z', (ofSettings (.exact b c s)).apply (colored x y z rest) = colored x' y' z' rest ∧
      luminance x' y' z' = b * (luminance x y z + c)) ∧
    (ofSettings (.exact 1 0 s)).apply (colored x x x rest) = colored x x x rest ∧
    ∀ t, (ofSettings (.exact 1 0 t)).apply
        ((ofSettings (.exact 1 0 s)).apply (colored x y z rest)) =
      (ofSettings (.exact 1 0 (s * t))).apply (colored x y z rest) := by
  refine ⟨apply_ofSettings b c s x y z rest, ?_, ?_, ?_⟩
  · exact ⟨_, _, _, apply_ofSettings b c s x y z rest, luminance_adjusted b c s x y z⟩
  · have hgray : adjusted 1 0 s x x = x := by
      simp only [adjusted]
      ring
    rw [apply_ofSettings, luminance_gray, hgray]
  · intro t
    -- the second blend finds the luminance that the first one left
    have hluma := luminance_adjusted 1 0 s x y z
    rw [one_mul, add_zero] at hluma
    have hchannel (v : ℚ) : adjusted 1 0 t (luminance x y z) (adjusted 1 0 s (luminance x y z) v) =
        adjusted 1 0 (s * t) (luminance x y z) v := by
      simp only [adjusted]
      ring
    rw [apply_ofSettings, apply_ofSettings, apply_ofSettings, hluma, hchannel, hchannel, hchannel]

/-- A red pixel with half its saturation, and a slot behind it. -/
example : (ofSettings (.exact 2 10 0.5)).apply (colored 1000 0 0 [.nan]) =
    colored 1328.6 328.6 328.6 [.nan] := by
  decide +kernel

end ColorMatrix
end RasterTile
