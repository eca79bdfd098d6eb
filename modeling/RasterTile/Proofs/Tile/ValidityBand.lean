import RasterTile.Proofs.Tile
import RasterTile.Proofs.Tile.SampleValue

/-!
# The validity band

A tile whose order has no validity band gets one. It comes after all other bands, so each of them stays
where it was, and a pixel is marked in it by the values that the pixel has in them. The order of the new
tile has a validity band, and so the tile stays as it is when it is given one again.
-/
namespace RasterTile

namespace Tensor

variable {t : Tensor} {b p : Nat}

/-- Extents that an array view may span have a product that it may span, and so does the second alone. -/
theorem mul_le_of_span {n m : Nat} (h : span [n, m] ≤ viewLimit) : n * m ≤ viewLimit ∧ m ≤ viewLimit := by
  by_cases hm : m = 0
  · simp [hm]
  · by_cases hn : n = 0
    · simpa [span, hn, hm] using h
    · have hproduct : n * m ≤ viewLimit := by simpa [span, hn, hm] using h
      exact ⟨hproduct, le_trans (Nat.le_mul_of_pos_left _ (Nat.pos_of_ne_zero hn)) hproduct⟩

variable (h : span [t.bands, t.pixelCount] ≤ viewLimit)

include h

/-- A tensor that a view may span has room for all places. -/
theorem fits_of_span : t.Fits := lt_of_le_of_lt (mul_le_of_span h).1 (by decide)

/-- There is room for one more band. -/
theorem succ_mul_pixelCount_lt : (t.bands + 1) * t.pixelCount < UInt64.size := by
  obtain ⟨hproduct, hpixels⟩ := mul_le_of_span h
  have hlimit : viewLimit + viewLimit < UInt64.size := by decide
  rw [Nat.add_mul, Nat.one_mul]
  omega

theorem size_append_validity :
    (t.samples ++ t.validity).size = wrap64 ((t.bands + 1) * t.height * t.width) := by
  rw [wrap64_mul_pixelCount, wrap64_of_lt (succ_mul_pixelCount_lt h), Array.size_append,
    (fits_of_span h).size_eq, validity, Array.size_ofFn, Nat.add_mul, Nat.one_mul]

/-- The tensor with its validity band, which is there if a view may span the other bands. -/
def validated (t : Tensor) (h : span [t.bands, t.pixelCount] ≤ viewLimit) : Tensor where
  element := t.element
  bands := t.bands + 1
  height := t.height
  width := t.width
  samples := t.samples ++ t.validity
  size_eq := size_append_validity h

/-- The view limit and the size being kept, the validity band is appended. -/
theorem withValidity_eq_validated : t.withValidity = .ok (t.validated h) := by
  rw [withValidity, if_neg (not_lt.2 h)]
  exact dif_pos (size_append_validity h)

/-! ## Places -/

@[simp] theorem pixelCount_validated : (t.validated h).pixelCount = t.pixelCount := rfl

theorem fits_validated : (t.validated h).Fits := succ_mul_pixelCount_lt h

/-- The bands that there were keep their places. -/
theorem valueAt_validated (hb : b < t.bands) (hp : p < t.pixelCount) :
    (t.validated h).valueAt b p = t.valueAt b p := by
  have hin := (fits_of_span h).index_lt hb hp
  have hsample : (t.samples ++ t.validity)[b * t.pixelCount + p]? =
      t.samples[b * t.pixelCount + p]? := Array.getElem?_append_left hin
  rw [valueAt, valueAt, pixelCount_validated, (fits_of_span h).wrap64_index hb hp]
  unfold get? validated
  rw [hsample]

/-- The new band marks the pixels of which some band is not zero. -/
theorem valueAt_validated_last (hp : p < t.pixelCount) :
    (t.validated h).valueAt t.bands p =
      if t.isMarked p then Float.ofNat t.element.fullScale else 0 := by
  have hsize := (fits_of_span h).size_eq
  have hplace := (fits_validated h).wrap64_index (Nat.lt_succ_self t.bands) hp
  have hlast : (t.samples ++ t.validity)[t.bands * t.pixelCount + p]? =
      some (if t.isMarked p then t.element.full else 0) := by
    rw [Array.getElem?_append_right (by omega), hsize, Nat.add_sub_cancel_left, validity,
      Array.getElem?_ofFn, dif_pos hp]
  rw [pixelCount_validated] at hplace
  rw [valueAt, pixelCount_validated, hplace]
  unfold get? validated
  rw [hlast, Option.map_some, apply_ite t.element.value, ElementType.value_full,
    ElementType.value_zero, Option.getD_some]

/-- A pixel is marked if one of its values is not equal to zero. -/
theorem isMarked_eq (hp : p < t.pixelCount) :
    t.isMarked p = (Tile.bandValues t p).any (· != 0) := by
  rw [Bool.eq_iff_iff, isMarked, Tile.bandValues, List.any_map, List.any_eq_true, List.any_eq_true]
  refine exists_congr fun b => and_congr_right fun hb => ?_
  obtain ⟨w, hw, hvalue⟩ := (fits_of_span h).exists_sample (List.mem_range.1 hb) hp
  have hzero := t.element.isZero_iff w
  rw [← Bool.eq_iff_iff] at hzero
  rw [Function.comp_apply, hvalue, hw, Option.any_some, hzero, bne]

end Tensor

namespace Tile

variable {t : Tensor} {order : BandOrder} {p : Nat}

/-- The values of a pixel are followed by its mark. -/
theorem bandValues_validated (h : Tensor.span [t.bands, t.pixelCount] ≤ Tensor.viewLimit)
    (hp : p < t.pixelCount) :
    bandValues (t.validated h) p = bandValues t p ++
      [if (bandValues t p).any (· != 0) then Float.ofNat t.element.fullScale else 0] := by
  have hbands : (t.validated h).bands = t.bands + 1 := rfl
  rw [bandValues, hbands, List.range_succ, List.map_append, List.map_singleton,
    Tensor.valueAt_validated_last h hp, Tensor.isMarked_eq h hp]
  refine congrArg (· ++ _) (List.map_congr_left fun b hb => ?_)
  exact Tensor.valueAt_validated h (List.mem_range.1 hb) hp

/-! ## Tiles -/

theorem ofTensor_of_length (h : t.bands = order.length) :
    ∃ tile, ofTensor t order = .ok tile ∧ tile.tensor = some t ∧ tile.bands = order :=
  ⟨_, dif_pos h, rfl, rfl⟩

theorem withAlpha_of_mem (halpha : .alpha ∈ order) : withAlpha t order = ofTensor t order :=
  if_pos halpha

theorem withAlpha_of_ne (h : t.bands ≠ order.length) :
    withAlpha t order = .error (.bandCount order.length t.bands) := by
  by_cases halpha : .alpha ∈ order
  · rw [withAlpha_of_mem halpha, ofTensor, dif_neg h]
  · rw [withAlpha, if_neg halpha, if_pos h]

theorem withAlpha_of_notMem (halpha : .alpha ∉ order) (h : t.bands = order.length)
    (hspan : Tensor.span [t.bands, t.pixelCount] ≤ Tensor.viewLimit) :
    withAlpha t order = ofTensor (t.validated hspan) (order ++ [.alpha]) := by
  rw [withAlpha, if_neg halpha, if_neg (not_not.2 h), Tensor.withValidity_eq_validated hspan]
  rfl

/-- A tensor whose bands are in an order becomes a tile with a validity band. If the order has one, the
tensor is taken as it is. Otherwise the band is put at the end: every pixel keeps its values, and after
them it has full scale if one of them is not equal to zero, and zero if there is none. The new tile
stays as it is when this is done again. Any other number of bands is an error. -/
theorem withAlpha_completes (t : Tensor) (order : BandOrder) :
    (t.bands ≠ order.length →
      withAlpha t order = .error (.bandCount order.length t.bands)) ∧
    (t.bands = order.length → .alpha ∈ order →
      ∃ tile, withAlpha t order = .ok tile ∧ tile.tensor = some t ∧ tile.bands = order) ∧
    (t.bands = order.length → .alpha ∉ order →
      Tensor.span [t.bands, t.height * t.width] ≤ Tensor.viewLimit →
      ∃ tile tensor, withAlpha t order = .ok tile ∧ tile.tensor = some tensor ∧
        tile.bands = order ++ [.alpha] ∧ tensor.element = t.element ∧
        tensor.bands = t.bands + 1 ∧ tensor.height = t.height ∧ tensor.width = t.width ∧
        (∀ p, tile.pixel? p = if p < t.height * t.width then
            some (bandValues t p ++
              [if (bandValues t p).any (· != 0) then Float.ofNat t.element.fullScale else 0])
          else none) ∧
        (t.bands = 0 → ∀ p < t.height * t.width, tile.pixel? p = some [0]) ∧
        withAlpha tensor tile.bands = .ok tile) := by
  refine ⟨withAlpha_of_ne, fun h halpha => ?_, fun h halpha hspan => ?_⟩
  · rw [withAlpha_of_mem halpha]
    exact ofTensor_of_length h
  · have hpixels : t.pixelCount = t.height * t.width :=
      Tensor.pixelCount_of_lt (lt_of_le_of_lt (Tensor.mul_le_of_span hspan).2 (by decide))
    rw [← hpixels] at hspan ⊢
    have hlength : (t.validated hspan).bands = (order ++ [Band.alpha]).length := by
      rw [List.length_append, ← h]
      rfl
    obtain ⟨tile, hok, htensor, hbands⟩ := ofTensor_of_length hlength
    have hpixel (p : Nat) : tile.pixel? p = if p < t.pixelCount then
        some (bandValues t p ++
          [if (bandValues t p).any (· != 0) then Float.ofNat t.element.fullScale else 0])
        else none := by
      by_cases hp : p < t.pixelCount
      · rw [pixel?_eq_some htensor hp, bandValues_validated hspan hp, if_pos hp]
      · rw [if_neg hp]
        exact pixel?_eq_none (pixelCount_of_tensor htensor ▸ Nat.not_lt.1 hp)
    refine ⟨tile, t.validated hspan, ?_, htensor, hbands, rfl, rfl, rfl, rfl, hpixel, ?_, ?_⟩
    · rw [withAlpha_of_notMem halpha h hspan, hok]
    · intro hnone p hp
      have hvalues : bandValues t p = [] := List.length_eq_zero_iff.1 (by simpa using hnone)
      rw [hpixel, if_pos hp, hvalues]
      rfl
    · rw [hbands, withAlpha_of_mem (by simp), hok]

def zeroAndNaN : Tensor :=
  ⟨.f64, 1, 1, 2, #[0x8000000000000000#64, 0x7ff8000000000000#64], by decide⟩

theorem withAlpha_zeroAndNaN :
    withAlpha zeroAndNaN [] = .error (.bandCount 0 1) ∧
    (∃ tile, withAlpha zeroAndNaN [.alpha] = .ok tile ∧ tile.tensor = some zeroAndNaN) ∧
    ∃ tile tensor, withAlpha zeroAndNaN [.red] = .ok tile ∧ tile.tensor = some tensor ∧
      tile.bands = [.red, .alpha] ∧ withAlpha tensor tile.bands = .ok tile ∧
      tile.pixel? 0 = some [Float.ofBits 0x8000000000000000, 0] ∧
      tile.pixel? 1 = some [Float.ofBits 0x7ff8000000000000, 65535] := by
  refine ⟨(withAlpha_completes zeroAndNaN []).1 (by decide), ?_, ?_⟩
  · obtain ⟨tile, hok, htensor, -⟩ :=
      (withAlpha_completes zeroAndNaN [.alpha]).2.1 rfl (by decide)
    exact ⟨tile, hok, htensor⟩
  · obtain ⟨tile, tensor, hok, htensor, hbands, -, -, -, -, hpixel, -, hagain⟩ :=
      (withAlpha_completes zeroAndNaN [.red]).2.2 rfl (by decide) (by decide)
    exact ⟨tile, tensor, hok, htensor, hbands, hagain, by rw [hpixel]; rfl, by rw [hpixel]; rfl⟩

end Tile
end RasterTile
