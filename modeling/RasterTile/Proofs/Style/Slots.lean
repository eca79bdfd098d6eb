import RasterTile.Proofs.Style.Checked

/-!
# The slots of a preset

A preset writes red, green, blue and alpha to the first four slots. Curves, scale and colours come after
it and go from the first three slots to the first three: the other slots do not matter to them and stay.
So the alpha of a configured preset is the one that the validity band gives.
-/
namespace RasterTile

variable {α : Type} [Scalar α]

theorem CurveSet.apply_cons (s : CurveSet α) (r g b : α) :
    ∃ r' g' b', ∀ rest, s.apply (r :: g :: b :: rest) = r' :: g' :: b' :: rest := by
  unfold CurveSet.apply
  rcases s.curves with _ | ⟨c, _ | ⟨c', _ | ⟨c'', curves⟩⟩⟩
  · exact ⟨r, g, b, fun rest => rfl⟩
  · exact ⟨_, g, b, fun rest => rfl⟩
  · exact ⟨_, _, b, fun rest => rfl⟩
  · exact ⟨c.lookup r * s.top, c'.lookup g * s.top, c''.lookup b * s.top, fun rest => by
      simp [Pixel.overwrite]⟩

theorem ColorMatrix.apply_cons (m : ColorMatrix α) (r g b : α) :
    ∃ r' g' b', ∀ rest, m.apply (r :: g :: b :: rest) = r' :: g' :: b' :: rest :=
  ⟨_, _, _, fun _ => rfl⟩

theorem Preset.apply_cons (p : Preset) (bands : BandMap) (x y z a : α) (rest : List α) :
    p.apply bands (x :: y :: z :: a :: rest) =
      (p.color bands (x :: y :: z :: a :: rest) x y z).1 ::
      (p.color bands (x :: y :: z :: a :: rest) x y z).2.1 ::
      (p.color bands (x :: y :: z :: a :: rest) x y z).2.2 ::
      Scalar.nat (if isValid bands (x :: y :: z :: a :: rest) then p.opaqueAlpha else 0) :: rest := rfl

namespace ConfiguredPreset

variable (c : ConfiguredPreset α) (bands : BandMap)

def finish (painted : List α) : List α :=
  let scaled := rescale c.scale (c.curves.elim painted (·.apply painted))
  c.color.elim scaled (·.apply scaled)

/-- The preset itself comes first, then what is configured. -/
theorem apply_eq_finish (pixel : List α) :
    c.apply bands pixel = c.finish (c.preset.apply (c.readBands.getD bands) pixel) := rfl

theorem rescale_cons (factor r g b : α) (rest : List α) :
    rescale factor (r :: g :: b :: rest) = r * factor :: g * factor :: b * factor :: rest := by
  simp [rescale, Pixel.overwrite]

theorem finish_cons (r g b : α) :
    ∃ r' g' b', ∀ rest, c.finish (r :: g :: b :: rest) = r' :: g' :: b' :: rest := by
  have hcurves : ∃ r' g' b', ∀ rest, c.curves.elim (r :: g :: b :: rest)
      (·.apply (r :: g :: b :: rest)) = r' :: g' :: b' :: rest := by
    cases c.curves with
    | none => exact ⟨r, g, b, fun _ => rfl⟩
    | some s => exact s.apply_cons r g b
  obtain ⟨x, y, z, hstretched⟩ := hcurves
  cases hcolor : c.color with
  | none =>
    refine ⟨x * c.scale, y * c.scale, z * c.scale, fun rest => ?_⟩
    rw [finish, hstretched, rescale_cons, hcolor]
    rfl
  | some m =>
    obtain ⟨r', g', b', hm⟩ := m.apply_cons (x * c.scale) (y * c.scale) (z * c.scale)
    refine ⟨r', g', b', fun rest => ?_⟩
    rw [finish, hstretched, rescale_cons, hcolor]
    exact hm rest

/-- Four slots are written, and the validity band alone decides on the fourth. -/
theorem apply_eq_cons {pixel : List α} (hfour : 4 ≤ pixel.length) :
    ∃ r g b, c.apply bands pixel = r :: g :: b :: Scalar.nat
      (if Preset.isValid (c.readBands.getD bands) pixel then c.preset.opaqueAlpha else 0) ::
        pixel.drop 4 := by
  obtain ⟨x, y, z, w, rest, rfl⟩ := Checked.exists_four hfour
  rw [apply_eq_finish, Preset.apply_cons]
  obtain ⟨r, g, b, hfinish⟩ := c.finish_cons _ _ _
  exact ⟨r, g, b, hfinish _⟩

/-- Alpha is full where the validity band marks the pixel, and zero elsewhere. -/
theorem getElem?_alpha {pixel : List α} (hfour : 4 ≤ pixel.length) :
    (c.apply bands pixel)[3]? = some (Scalar.nat
      (if Preset.isValid (c.readBands.getD bands) pixel then c.preset.opaqueAlpha else 0)) := by
  obtain ⟨r, g, b, happly⟩ := c.apply_eq_cons bands hfour
  rw [happly]
  rfl

end ConfiguredPreset

theorem Preset.configure_eq_ok {p : Preset} {options : PresetOptions Float} {c : ConfiguredPreset Float}
    (h : p.configure options = .ok c) :
    c.preset = p ∧ c.readBands = options.readBands.map BandOrder.map := by
  unfold Preset.configure ConfiguredPreset.configure? at h
  by_cases hdepth : options.pixelDepth < 2
  · rw [if_pos hdepth] at h
    cases h
  · rw [if_neg hdepth] at h
    cases h
    exact ⟨rfl, rfl⟩

theorem Preset.exists_configure (p : Preset) {options : PresetOptions Float}
    (h : 2 ≤ options.pixelDepth) : ∃ c, p.configure options = .ok c := by
  unfold Preset.configure ConfiguredPreset.configure?
  rw [if_neg (Nat.not_lt.2 h)]
  exact ⟨_, rfl⟩

end RasterTile
