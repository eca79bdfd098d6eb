import RasterTile.Proofs.ArrayFile.Extent
import RasterTile.Proofs.Tile

/-!
# Decoded tiles

A file without bytes is a blank tile, and every other file that is decoded is a tile with a tensor. Its
bands are those of the order, with a validity band at their end if the order has none; so they depend on
the order only, and there is at least one.
-/
namespace RasterTile

def BandOrder.validated (order : BandOrder) : BandOrder :=
  if .alpha ∈ order then order else order ++ [.alpha]

theorem BandOrder.length_validated_pos (order : BandOrder) : 0 < order.validated.length := by
  unfold validated
  split
  · rename_i halpha
    exact List.length_pos_of_mem halpha
  · simp

namespace Tile

variable {bytes : List UInt8} {order : BandOrder} {t : Tile} {tensor : Tensor}

theorem ofTensor_eq_ok (h : ofTensor tensor order = .ok t) :
    t.tensor = some tensor ∧ t.bands = order := by
  unfold ofTensor at h
  split at h
  · cases h
    exact ⟨rfl, rfl⟩
  · cases h

/-- A tile with a tensor has a validity band, given or put there. -/
theorem withAlpha_eq_ok (h : withAlpha tensor order = .ok t) :
    t.isBlank = false ∧ t.bands = order.validated := by
  unfold withAlpha at h
  by_cases halpha : .alpha ∈ order
  · rw [if_pos halpha] at h
    obtain ⟨ht, hbands⟩ := ofTensor_eq_ok h
    exact ⟨by rw [isBlank, ht]; rfl, by rw [BandOrder.validated, if_pos halpha, hbands]⟩
  · rw [if_neg halpha] at h
    split at h
    · cases h
    · obtain ⟨_, -, hofTensor⟩ := bind_eq_ok_iff.1 h
      obtain ⟨ht, hbands⟩ := ofTensor_eq_ok hofTensor
      exact ⟨by rw [isBlank, ht]; rfl, by rw [BandOrder.validated, if_neg halpha, hbands]⟩

theorem decode_eq_ok (h : decode bytes order = .ok t) (ht : t.isBlank = false) :
    ∃ tensor, ArrayFile.decode bytes = .ok (some tensor) ∧ withAlpha tensor order = .ok t := by
  unfold decode at h
  split at h
  · cases h
  · cases h
    cases ht
  · rename_i tensor hdecode
    exact ⟨tensor, hdecode, h⟩

/-- A tile that is decoded has the bands of the order, and a validity band. -/
theorem bands_of_decode_eq_ok (h : decode bytes order = .ok t) (ht : t.isBlank = false) :
    t.bands = order.validated := by
  obtain ⟨tensor, -, halpha⟩ := decode_eq_ok h ht
  exact (withAlpha_eq_ok halpha).2

/-- Only a file without bytes is a blank tile. -/
theorem isBlank_iff_of_decode (h : decode bytes order = .ok t) : t.isBlank = true ↔ bytes = [] := by
  unfold decode at h
  split at h
  · cases h
  · rename_i hnone
    cases h
    exact ⟨fun _ => ArrayFile.decode_eq_ok_none_iff.1 hnone, fun _ => rfl⟩
  · rename_i tensor hsome
    rw [(withAlpha_eq_ok h).1]
    constructor
    · intro hblank
      cases hblank
    · rintro rfl
      cases hsome

end Tile
end RasterTile
