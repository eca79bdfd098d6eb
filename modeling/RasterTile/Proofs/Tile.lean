import RasterTile.Tile
import Mathlib

/-!
# Reading a tile

Every pixel of a tile has one value per band. Places are counted in words of 64 bits, and as long as all
places of a tensor are words, the value is the sample at the band's place and the pixel's place in it.
A tensor whose places do not fit is too short for some of them; there the value is a zero that nothing
stands for. Reading a pixel overwrites the slots of the bands, so it does not matter what they held, and
one buffer will do for all pixels.
-/
namespace RasterTile

namespace Tensor

variable {t : Tensor} {b p : Nat}

/-- All places of a tensor are words. -/
def Fits (t : Tensor) : Prop := t.bands * t.pixelCount < UInt64.size

/-- It does not matter whether pixels are counted as a word before they are multiplied. -/
theorem wrap64_mul_pixelCount (t : Tensor) (n : Nat) :
    wrap64 (n * t.height * t.width) = wrap64 (n * t.pixelCount) := by
  rw [pixelCount, wrap64, wrap64, wrap64, Nat.mul_assoc, Nat.mul_mod_mod]

theorem pixelCount_of_lt (h : t.height * t.width < UInt64.size) :
    t.pixelCount = t.height * t.width := wrap64_of_lt h

/-- A tensor whose places are words has a sample for each of them. -/
theorem Fits.size_eq (h : t.Fits) : t.samples.size = t.bands * t.pixelCount := by
  rw [t.size_eq, t.wrap64_mul_pixelCount, wrap64_of_lt h]

/-- A pixel of a band has a sample. -/
theorem Fits.index_lt (h : t.Fits) (hb : b < t.bands) (hp : p < t.pixelCount) :
    b * t.pixelCount + p < t.samples.size := by
  have hle : (b + 1) * t.pixelCount ≤ t.bands * t.pixelCount := Nat.mul_le_mul_right _ hb
  rw [Nat.add_mul, Nat.one_mul] at hle
  rw [h.size_eq]
  exact lt_of_lt_of_le (Nat.add_lt_add_left hp _) hle

/-- Its place is found as a word. -/
theorem Fits.wrap64_index (h : t.Fits) (hb : b < t.bands) (hp : p < t.pixelCount) :
    wrap64 (b * t.pixelCount + p) = b * t.pixelCount + p := by
  refine wrap64_of_lt (lt_trans (h.index_lt hb hp) ?_)
  rw [h.size_eq]
  exact h

theorem Fits.exists_sample (h : t.Fits) (hb : b < t.bands) (hp : p < t.pixelCount) :
    ∃ w, t.samples[b * t.pixelCount + p]? = some w ∧ t.valueAt b p = t.element.value w := by
  have hin := Array.getElem?_eq_getElem (h.index_lt hb hp)
  refine ⟨_, hin, ?_⟩
  rw [valueAt, h.wrap64_index hb hp, get?, hin, Option.map_some, Option.getD_some]

end Tensor

namespace Tile

variable {t : Tile} {tensor : Tensor} {b i p x y : Nat} {out slots : List Float}

def bandValues (t : Tensor) (p : Nat) : List Float := (List.range t.bands).map (t.valueAt · p)

@[simp] theorem length_bandValues (tensor : Tensor) (p : Nat) :
    (bandValues tensor p).length = tensor.bands := by simp [bandValues]

theorem getElem?_bandValues (hb : b < tensor.bands) (p : Nat) :
    (bandValues tensor p)[b]? = some (tensor.valueAt b p) := by simp [bandValues, hb]

theorem tensor_of_isBlank (h : t.isBlank = true) : t.tensor = none :=
  Option.isNone_iff_eq_none.1 h

theorem pixelCount_eq (t : Tile) : t.pixelCount = wrap64 (t.height * t.width) := by
  unfold pixelCount height width
  cases t.tensor <;> rfl

theorem pixelCount_le (t : Tile) : t.pixelCount ≤ t.height * t.width := by
  rw [pixelCount_eq]
  exact wrap64_le _

theorem pixelCount_of_tensor (ht : t.tensor = some tensor) : t.pixelCount = tensor.pixelCount := by
  rw [pixelCount, ht, Option.elim_some]

theorem pixelCount_of_isBlank (h : t.isBlank = true) : t.pixelCount = 0 := by
  rw [pixelCount, tensor_of_isBlank h, Option.elim_none]

theorem exists_tensor (hp : p < t.pixelCount) : ∃ tensor, t.tensor = some tensor ∧ p < tensor.pixelCount := by
  cases ht : t.tensor with
  | none =>
    rw [pixelCount_of_isBlank (Option.isNone_iff_eq_none.2 ht)] at hp
    cases hp
  | some tensor => exact ⟨tensor, rfl, pixelCount_of_tensor ht ▸ hp⟩

/-! ## Reading into slots -/

/-- Slots up to the number of bands get the values of these, and all others stay. -/
theorem getElem?_fill (tensor : Tensor) (p b : Nat) (out : List Float) (i : Nat) :
    (fill tensor p b out)[i]? = out[i]?.map fun x =>
      if b + i < tensor.bands then tensor.valueAt (b + i) p else x := by
  induction out generalizing b i with
  | nil => simp [fill]
  | cons x out ih =>
    cases i with
    | zero => simp [fill]
    | succ i =>
      have hplace : b + 1 + i = b + (i + 1) := by omega
      rw [fill, List.getElem?_cons_succ, List.getElem?_cons_succ, ih, hplace]

/-- Filling slots from the first band on overwrites the leading ones with the values of the bands. -/
theorem fill_eq_overwrite (tensor : Tensor) (p : Nat) (out : List Float) :
    fill tensor p 0 out = Pixel.overwrite out ((bandValues tensor p).map some) := by
  apply List.ext_getElem?
  intro i
  rw [getElem?_fill, Pixel.getElem?_overwrite, List.getElem?_map, Nat.zero_add]
  by_cases hi : i < tensor.bands
  · simp [bandValues, hi]
  · simp [bandValues, hi]

/-- Reading a pixel overwrites the leading slots with its values. -/
theorem readPixel_eq_some (ht : t.tensor = some tensor) (hp : p < tensor.pixelCount)
    (out : List Float) :
    t.readPixel p out = some (Pixel.overwrite out ((bandValues tensor p).map some)) := by
  rw [readPixel, ht, ← fill_eq_overwrite]
  exact if_pos hp

theorem readPixel_eq_none (hp : t.pixelCount ≤ p) (out : List Float) : t.readPixel p out = none := by
  rw [readPixel]
  cases ht : t.tensor with
  | none => rfl
  | some tensor => exact if_neg (Nat.not_lt.2 (pixelCount_of_tensor ht ▸ hp))

@[simp] theorem length_bandSlots (t : Tile) : t.bandSlots.length = t.bandCount :=
  List.length_replicate ..

/-- With as many slots as bands, nothing is left of what they held. -/
theorem readPixel_bandValues (ht : t.tensor = some tensor) (hp : p < tensor.pixelCount)
    (hslots : slots.length = t.bandCount) : t.readPixel p slots = some (bandValues tensor p) := by
  have hlength : slots.length = (bandValues tensor p).length := by
    rw [hslots, length_bandValues, t.bands_eq tensor ht, bandCount]
  rw [readPixel_eq_some ht hp, Pixel.overwrite_map_some hlength]

theorem pixel?_eq_some (ht : t.tensor = some tensor) (hp : p < tensor.pixelCount) :
    t.pixel? p = some (bandValues tensor p) := readPixel_bandValues ht hp (length_bandSlots t)

theorem pixel?_eq_none (hp : t.pixelCount ≤ p) : t.pixel? p = none := readPixel_eq_none hp _

theorem pixel_eq (ht : t.tensor = some tensor) (hp : p < tensor.pixelCount) :
    t.pixel p = bandValues tensor p := by
  rw [pixel, pixel?_eq_some ht hp, Option.getD_some]

/-- Reading into slots is overwriting them with the values of the pixel, if there is one. -/
theorem readPixel_eq (t : Tile) (p : Nat) (out : List Float) :
    t.readPixel p out = (t.pixel? p).map fun values => Pixel.overwrite out (values.map some) := by
  by_cases hp : p < t.pixelCount
  · obtain ⟨tensor, ht, hin⟩ := exists_tensor hp
    rw [readPixel_eq_some ht hin, pixel?_eq_some ht hin, Option.map_some]
  · rw [readPixel_eq_none (Nat.not_lt.1 hp), pixel?_eq_none (Nat.not_lt.1 hp), Option.map_none]

/-! ## Every pixel -/

variable {σ : Type} {visit : σ → List Float → Nat → σ} {s : σ}

/-- The first of several pixels is handed on with its own values, and as many slots go on to the next. -/
theorem visitFrom_succ (hp : p < t.pixelCount) (hslots : slots.length = t.bandCount) (count : Nat) :
    (t.pixel p).length = t.bandCount ∧
    t.visitFrom visit p (count + 1) slots s =
      t.visitFrom visit (p + 1) count (t.pixel p) (visit s (t.pixel p) p) := by
  obtain ⟨tensor, ht, hin⟩ := exists_tensor hp
  rw [pixel_eq ht hin, visitFrom, readPixel_bandValues ht hin hslots, Option.getD_some]
  exact ⟨(length_bandValues tensor p).trans (t.bands_eq tensor ht), rfl⟩

/-- Pixels are visited one after the other, each with its own values. -/
theorem visitFrom_eq {count : Nat} (hcount : p + count ≤ t.pixelCount)
    (hslots : slots.length = t.bandCount) :
    t.visitFrom visit p count slots s =
      (List.range' p count).foldl (fun s p => visit s (t.pixel p) p) s := by
  induction count generalizing p slots s with
  | zero => rfl
  | succ count ih =>
    have hp : p < t.pixelCount := by omega
    obtain ⟨hlength, hstep⟩ := visitFrom_succ hp hslots count
    rw [hstep, ih (by omega) hlength, List.range'_succ, List.foldl_cons]

/-- Every pixel is visited once, in ascending order, with its own values. -/
theorem visitPixels_eq (t : Tile) (visit : σ → List Float → Nat → σ) (s : σ) :
    t.visitPixels visit s =
      (List.range t.pixelCount).foldl (fun s p => visit s (t.pixel p) p) s := by
  rw [visitPixels, visitFrom_eq (Nat.zero_add _).le (length_bandSlots t), List.range_eq_range']

theorem pixels_eq_map (t : Tile) : t.pixels = (List.range t.pixelCount).map t.pixel := by
  rw [pixels, visitPixels_eq, List.foldl_flip_cons_eq_append, List.append_nil, List.reverse_reverse]

/-- A visit that does not ask for the index goes through the pixels. -/
theorem visitPixels_eq_foldl (t : Tile) (f : σ → List Float → σ) (s : σ) :
    t.visitPixels (fun s values _ => f s values) s = t.pixels.foldl f s := by
  rw [visitPixels_eq, pixels_eq_map, List.foldl_map]

/-- A tile with a column has a tensor. -/
theorem exists_tensor_of_width (hx : x < t.width) :
    ∃ tensor, t.tensor = some tensor ∧ t.width = tensor.width ∧ t.height = tensor.height := by
  cases ht : t.tensor with
  | none =>
    rw [width, ht, Option.elim_none] at hx
    cases hx
  | some tensor =>
    exact ⟨tensor, rfl, by rw [width, ht, Option.elim_some], by rw [height, ht, Option.elim_some]⟩

/-- Two bands of many rows without a sample: the number of samples that they need is zero as a word. -/
def hollow : Tensor := ⟨.u8, 2, 2 ^ 63, 1, #[], by decide⟩

end Tile
end RasterTile
