import RasterTile.Proofs.BandOrder
import RasterTile.Proofs.Histogram.Counting
import RasterTile.Proofs.Style.Safety
import RasterTile.Proofs.Style.Slots
import RasterTile.Proofs.Tile.Decoding

/-!
# Valid pixels and opaque pixels

Counting takes the last band of a pixel for its validity; painting takes the first band with the letter
`a`, if the map has it. Decoding puts a validity band at the end of an order without one. So both look at
one band if that letter stands nowhere but at the end, at a position that the map can hold, and then the
pixels that are counted are those that become opaque.
-/
namespace RasterTile

/-- No validity band but at the end, where it fits the map even if it has yet to be put there. -/
def BandOrder.ValidityLast (order : BandOrder) : Prop :=
  ∃ rest, .alpha ∉ rest ∧ rest.length < 256 ∧ (order = rest ∨ order = rest ++ [.alpha])

namespace Picture

def isOpaque (q : Picture) (p : Nat) : Bool := q.rgba[p * 4 + 3]? == some 255

def opaqueCount (q : Picture) : Nat := (List.range (q.width * q.height)).countP q.isOpaque

end Picture

/-- What fails from some number on need not be counted there. -/
theorem countP_range_of_le {test : Nat → Bool} {m n : Nat} (hle : m ≤ n)
    (htest : ∀ p, m ≤ p → p < n → test p = false) :
    (List.range n).countP test = (List.range m).countP test := by
  obtain ⟨k, rfl⟩ := Nat.exists_eq_add_of_le hle
  rw [List.range_add, List.countP_append, List.countP_map, Nat.add_eq_left, List.countP_eq_zero]
  intro p hp
  rw [Function.comp_apply, htest _ (Nat.le_add_right _ _) (Nat.add_lt_add_left (List.mem_range.1 hp) _)]
  exact Bool.false_ne_true

/-! ## The band that decides -/

namespace Tile

variable {bytes : List UInt8} {order : BandOrder} {t : Tile} {tensor : Tensor}

/-- A tile from a file has one validity band, at its end. -/
theorem bands_of_decode (horder : order.ValidityLast) (h : decode bytes order = .ok t)
    (ht : t.isBlank = false) :
    ∃ rest, t.bands = rest ++ [.alpha] ∧ .alpha ∉ rest ∧ rest.length < 256 := by
  have hbands := bands_of_decode_eq_ok h ht
  rw [BandOrder.validated] at hbands
  obtain ⟨rest, hrest, hlength, rfl | rfl⟩ := horder
  · exact ⟨order, by rw [hbands, if_neg hrest], hrest, hlength⟩
  · exact ⟨rest, by rw [hbands, if_pos (by simp)], hrest, hlength⟩

/-- The map of such an order has the last band for the validity band. -/
theorem position?_alpha {rest : List Band} (hrest : .alpha ∉ rest) (hlength : rest.length < 256) :
    (BandOrder.map (rest ++ [.alpha])).position? .alpha = some rest.length := by
  have hindex : (rest ++ [Band.alpha]).idxOf? .alpha = some rest.length := by
    rw [List.idxOf?_eq_some_iff]
    refine ⟨by simp, by simp, fun j hj => ?_⟩
    rw [List.getElem_append_left hj]
    exact fun h => hrest (h ▸ List.getElem_mem hj)
  rw [BandOrder.map, BandMap.position?_ofOrder, hindex]
  exact if_pos hlength

variable {rest : List Band} {p : Nat}

/-- Painting finds a pixel valid if counting does. -/
theorem isValid_slots (hbands : t.bands = rest ++ [.alpha]) (hrest : .alpha ∉ rest)
    (hlength : rest.length < 256) (ht : t.tensor = some tensor) (hp : p < tensor.pixelCount) :
    Preset.isValid t.map (t.slots p) = tensor.isValid p := by
  have hcount : t.bandCount = rest.length + 1 := by simp [bandCount, hbands]
  have htensor : tensor.bands = rest.length + 1 := (t.bands_eq tensor ht).trans hcount
  have hlast : rest.length < tensor.bands := by omega
  have hposition : t.map.position? .alpha = some rest.length := by
    rw [map, hbands]
    exact position?_alpha hrest hlength
  have hband : rest.length < t.bandCount := by omega
  have hvalue := getElem?_bandValues hlast p
  have hslot := getElem?_slots_index ht hp hband
  have hcounted := Histogram.getLast?_bandValues (Nat.zero_lt_of_lt hlast) p
  rw [List.getLast?_eq_getElem?, length_bandValues, htensor, Nat.add_sub_cancel, hvalue] at hcounted
  rw [Preset.isValid, BandMap.value, hposition, Option.bind_some, hslot, ← hcounted]
  rfl

/-- A place without a pixel is not valid. -/
theorem isValid_slots_of_le (bands : BandMap) (hp : t.pixelCount ≤ p) :
    Preset.isValid bands (t.slots p) = false := by
  have hzero : Scalar.isNonzero (0 : Float) = false := by decide +kernel
  rw [slots_of_le hp, Preset.isValid, BandMap.value]
  cases bands.position? .alpha with
  | none => exact hzero
  | some i =>
    rw [Option.bind_some, List.getElem?_replicate]
    split
    · exact hzero
    · exact hzero

end Tile

/-! ## Counting and painting -/

namespace Histogram

variable {t : Tile} {tensor : Tensor} {p : Nat}

/-- A pixel is recorded if its last band is neither zero nor a NaN. -/
theorem recordValid_pixel (ht : t.tensor = some tensor) (hbands : 0 < tensor.bands)
    (hp : p < tensor.pixelCount) (h : Histogram) :
    h.recordValid (t.pixel p) = if tensor.isValid p then h.record (t.pixel p) else h := by
  rw [recordValid, Tile.pixel_eq ht hp, getLast?_bandValues hbands]

/-- A histogram of its own counts all valid pixels of a tile. -/
theorem exists_ofTile_none (ht : t.tensor = some tensor) (hbands : 0 < tensor.bands) (depth : Nat) :
    ∃ h, ofTile t depth t.bands none = .ok h ∧ h.count.val = tensor.validCount := by
  have hpos : 0 < t.bandCount := lt_of_lt_of_eq hbands (t.bands_eq tensor ht)
  refine ⟨_, ofTile_ofTally hpos rfl none, ?_⟩
  have hle : tensor.validCount ≤ UInt64.size - 1 :=
    le_trans (le_trans List.countP_le_length (List.length_range ..).le)
      (Nat.le_sub_one_of_lt (wrap64_lt _))
  have htally := tileTally_count (n := t.bandCount) (d := depth) ht hbands
  rw [Nat.min_eq_right hle] at htally
  rw [Option.getD_none, zero_add]
  exact htally

end Histogram

namespace Tile

variable {t : Tile} {tensor : Tensor} {p : Nat}

/-- The alpha byte of a preset with one opaque alpha. -/
theorem getElem?_draw_preset (c : ConfiguredPreset Float) (hread : c.readBands = none)
    (hp : p < t.height * t.width) :
    (t.draw fun bands pixel => (Style.preset c).apply bands pixel)[p * 4 + 3]? =
      some (toByte (Scalar.nat
        (if Preset.isValid t.map (t.slots p) then c.preset.opaqueAlpha else 0))) := by
  have hslot := c.getElem?_alpha t.map (t.four_le_length_slots p)
  rw [hread, Option.getD_none] at hslot
  rw [getElem?_draw_index (Style.preset c).keepsSlots hp (by decide)]
  exact congrArg (Option.map toByte) hslot

/-- Under an order with its one validity band at the end, each pixel of a decoded tile is counted if and
only if `rgb` makes it opaque, whatever the options are; so the histogram counts as many pixels as the
picture has opaque ones. -/
theorem counted_iff_isOpaque {bytes : List UInt8} {order : BandOrder} (horder : order.ValidityLast)
    (hdecode : decode bytes order = .ok t) (ht : t.isBlank = false) {options : PresetOptions Float}
    (hread : options.readBands = none) (hdepth : 2 ≤ options.pixelDepth) :
    ∃ q, t.render (.preset .rgb options) = .ok q ∧
      (∀ p < t.pixelCount, ∀ h : Histogram,
        h.recordValid (t.pixel p) = if q.isOpaque p then h.record (t.pixel p) else h) ∧
      ∀ depth, ∃ h, Histogram.ofTile t depth t.bands none = .ok h ∧ h.count.val = q.opaqueCount := by
  obtain ⟨rest, hbands, hrest, hlength⟩ := bands_of_decode horder hdecode ht
  obtain ⟨tensor, htensor⟩ := Option.isSome_iff_exists.1 (Option.isNone_eq_false_iff.1 ht)
  have hpixels : t.pixelCount = tensor.pixelCount := pixelCount_of_tensor htensor
  have hpos : 0 < tensor.bands := by
    rw [t.bands_eq tensor htensor, hbands]
    simp
  obtain ⟨c, hc⟩ := Preset.rgb.exists_configure hdepth
  obtain ⟨hpreset, hcbands⟩ := Preset.configure_eq_ok hc
  rw [hread] at hcbands
  refine ⟨_, render_of_build (congrArg (Except.map Style.preset) hc), ?_⟩
  -- the alpha byte of a pixel is 255 or 0, as the pixel is valid or not
  have halpha : ∀ p < t.height * t.width, Picture.isOpaque ⟨t.width, t.height,
      t.draw fun bands pixel => (Style.preset c).apply bands pixel⟩ p =
        Preset.isValid t.map (t.slots p) := by
    intro p hp
    rw [Picture.isOpaque, getElem?_draw_preset c hcbands hp, hpreset]
    have hfull : toByte (Scalar.nat 255) = 255 := by decide +kernel
    have hnone : toByte (Scalar.nat 0) = 0 := by decide +kernel
    cases Preset.isValid t.map (t.slots p) with
    | false => simp [hnone]
    | true => simp [Preset.opaqueAlpha, hfull]
  have hvalid (p : Nat) (hp : p < t.pixelCount) :
      Preset.isValid t.map (t.slots p) = tensor.isValid p :=
    isValid_slots hbands hrest hlength htensor (hpixels ▸ hp)
  refine ⟨fun p hp h => ?_, fun depth => ?_⟩
  · rw [halpha p (lt_of_lt_of_le hp t.pixelCount_le), hvalid p hp]
    exact Histogram.recordValid_pixel htensor hpos (hpixels ▸ hp) h
  · obtain ⟨h, hok, hcount⟩ := Histogram.exists_ofTile_none htensor hpos depth
    refine ⟨h, hok, hcount.trans ?_⟩
    rw [Tensor.validCount, Picture.opaqueCount, Nat.mul_comm, ← hpixels,
      countP_range_of_le t.pixelCount_le fun p hp hlt => ?_]
    · refine List.countP_congr fun p hp => ?_
      rw [List.mem_range] at hp
      rw [halpha p (lt_of_lt_of_le hp t.pixelCount_le), hvalid p hp]
    · rw [halpha p hlt, isValid_slots_of_le _ hp]

def onePixel (values : List (BitVec 8)) (h : values.length < UInt64.size) : Tensor where
  element := .u8
  bands := values.length
  height := 1
  width := 1
  samples := values.toArray
  size_eq := by
    change values.length = wrap64 (values.length * 1 * 1)
    rw [Nat.mul_one, Nat.mul_one, wrap64_of_lt h]

theorem counted_iff_isOpaque_onePixel :
    BandOrder.ValidityLast [.red] ∧
      ∃ t q h, decode (ArrayFile.encode (onePixel [5] (by decide))) [.red] = .ok t ∧ t.isBlank = false ∧
        t.render (.preset .rgb .default) = .ok q ∧ Histogram.ofTile t 8 t.bands none = .ok h ∧
        h.count.val = q.opaqueCount := by
  have horder : BandOrder.ValidityLast [.red] := ⟨[.red], by decide, by decide, .inl rfl⟩
  have hblank : (decode (ArrayFile.encode (onePixel [5] (by decide))) [.red]).map isBlank = .ok false := by
    decide +kernel
  obtain ⟨t, hdecode, ht⟩ := map_eq_ok_iff.1 hblank
  have hread : (PresetOptions.default : PresetOptions Float).readBands = none := rfl
  obtain ⟨q, hq, -, hcounts⟩ := counted_iff_isOpaque horder hdecode ht hread (by decide)
  obtain ⟨h, hh, hcount⟩ := hcounts 8
  exact ⟨horder, t, q, h, hdecode, ht, hq, hh, hcount⟩

/-- How many pixels of a file are counted under an order, and how many `rgb` makes opaque. -/
def counts (bytes : List UInt8) (order : BandOrder) : Except Error (Nat × Nat) := do
  let t ← decode bytes order
  let q ← t.render (.preset .rgb .default)
  let h ← Histogram.ofTile t 1 t.bands none
  return (h.count.val, q.opaqueCount)

/-- A validity band in front of another one, one at both ends, and one that is put behind 256 others. -/
theorem counts_differ :
    counts (ArrayFile.encode (onePixel [0, 5] (by decide))) [.alpha, .red] = .ok (1, 0) ∧
      counts (ArrayFile.encode (onePixel [5, 0, 0] (by decide))) [.alpha, .red, .alpha] = .ok (0, 1) ∧
      counts (ArrayFile.encode (onePixel (List.replicate 256 1) (by decide +kernel)))
        (List.replicate 256 .red) = .ok (1, 0) := by
  refine ⟨?_, ?_, ?_⟩
  · decide +kernel
  · decide +kernel
  · decide +kernel

end Tile
end RasterTile
