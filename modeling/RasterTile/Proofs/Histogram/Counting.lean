import RasterTile.Proofs.ExactValue
import RasterTile.Proofs.Histogram.Tally
import RasterTile.Proofs.Tile

/-!
# What a histogram counts

A pixel is valid if its last band is neither zero nor a NaN. A bucket stands for one natural number, and
it counts the valid pixels whose value is exactly that number. So a negative zero falls into bucket
zero, while negative and broken values, NaNs, infinities and values beyond the depth fall into none; the
number of pixels does not depend on it. Counters stop at their limits.
-/
namespace RasterTile

namespace Tensor

/-- The exact value of band `b` at pixel `p`, if it is a number at all. -/
def number? (t : Tensor) (b p : Nat) : Option ℚ := ExactValue.value? (t.valueAt b p)

def isValid (t : Tensor) (p : Nat) : Bool :=
  t.number? (t.bands - 1) p ≠ some 0 && !(t.valueAt (t.bands - 1) p).isNaN

def validCount (t : Tensor) : Nat := (List.range t.pixelCount).countP t.isValid

def valueCount (t : Tensor) (b v : Nat) : Nat :=
  (List.range t.pixelCount).countP fun p => t.isValid p && t.number? b p = some (v : ℚ)

end Tensor

namespace Counter

variable {limit : Nat} {α : Type}

/-- One for each of the things that pass a test. -/
theorem val_sum_ite (xs : List α) (test : α → Bool) :
    ((xs.map fun x => if test x then (zero.succ : Counter limit) else 0).sum).val =
      min limit (xs.countP test) := by
  induction xs with
  | nil => simp; rfl
  | cons x xs ih =>
    rw [List.map_cons, List.sum_cons, List.countP_cons]
    change min (_ + _) limit = _
    rw [ih]
    by_cases hx : test x = true
    · rw [if_pos hx, if_pos hx]
      change min (min (0 + 1) limit + _) limit = _
      omega
    · rw [if_neg hx, if_neg hx]
      change min (0 + _) limit = _
      omega

/-- Stopping at the limit before adding makes no difference. -/
theorem val_add_min {a b : Counter limit} {k : Nat} (hb : b.val = min limit k) :
    (a + b).val = min limit (a.val + k) := by
  change min (a.val + b.val) limit = _
  omega

end Counter

namespace Histogram

variable {n d : Nat}

structure HasShape (h : Histogram) (n d : Nat) : Prop where
  bandCount : h.bands.length = n
  depth : ∀ buckets ∈ h.bands, buckets.size = d

def bucketAt? (h : Histogram) (b v : Nat) : Option Nat :=
  (h.bands[b]?.bind (·[v]?)).map Counter.val

theorem hasShape_ofTally (x : Tally n d) : (ofTally x).HasShape n d := by
  constructor
  · exact List.length_ofFn
  · intro buckets h
    obtain ⟨b, rfl⟩ := List.mem_ofFn.1 h
    exact Array.size_ofFn

/-- Buckets hold what the table says. -/
theorem bucketAt?_ofTally (x : Tally n d) {b v : Nat} (hb : b < n) (hv : v < d) :
    (ofTally x).bucketAt? b v = some (x.1 ⟨b, hb⟩ ⟨v, hv⟩).val := by
  simp [bucketAt?, ofTally, hb, hv]

/-- A histogram is a table. -/
theorem HasShape.exists_tally {h : Histogram} (hs : h.HasShape n d) :
    ∃ x : Tally n d, ofTally x = h := by
  obtain ⟨bands, count⟩ := h
  obtain ⟨rfl, hdepth⟩ := hs
  have hsize (b : Fin bands.length) : (bands.get b).size = d := hdepth _ (List.get_mem ..)
  have hin (b : Fin bands.length) (v : Fin d) : v.val < (bands.get b).size := hsize b ▸ v.isLt
  refine ⟨(fun b v => have := hin b v; (bands.get b)[v.val], count), ?_⟩
  unfold ofTally
  congr 1
  apply List.ext_getElem
  · simp
  · intro b hb hb'
    rw [List.getElem_ofFn]
    apply Array.ext
    · simp [← hsize ⟨b, hb'⟩]
    · intro v _ _
      simp

/-! ## Valid pixels -/

variable {t : Tile} {tensor : Tensor} {b p v : Nat}

/-- A value has the bucket of its number, exactly. -/
theorem bucket?_eq_some_iff {x : Float} (hv : v < 2 ^ 64 - 1) :
    bucket? x = some v ↔ ExactValue.value? x = some (v : ℚ) := by
  rw [← ExactValue.value?_eq_natCast_iff hv]
  unfold bucket?
  split
  · rename_i h
    simp [h]
  · rename_i h
    simp [h]

/-- A pixel counts if its last band is neither zero nor a NaN. -/
theorem getLast?_bandValues (hbands : 0 < tensor.bands) (p : Nat) :
    (Tile.bandValues tensor p).getLast?.any Scalar.isNonzero = tensor.isValid p := by
  have hlast : tensor.bands - 1 < tensor.bands := Nat.sub_lt hbands Nat.one_pos
  rw [List.getLast?_eq_getElem?, Tile.length_bandValues, Tile.getElem?_bandValues hlast,
    Tensor.isValid, Tensor.number?, Option.any_some, Bool.eq_iff_iff, ExactValue.isNonzero_iff]
  simp

/-- A pixel adds one to the number of pixels if it is valid. -/
theorem pixelTally_count (hbands : 0 < tensor.bands) (p : Nat) :
    (pixelTally n d (Tile.bandValues tensor p)).2 =
      if tensor.isValid p then Counter.zero.succ else 0 := by
  rw [pixelTally, getLast?_bandValues hbands]
  split <;> rfl

/-- A pixel adds one to the bucket of each value that it has, if it is valid. -/
theorem pixelTally_bucket (hn : tensor.bands = n) (hd : d < 2 ^ 64) (p : Nat) (b : Fin n)
    (v : Fin d) :
    (pixelTally n d (Tile.bandValues tensor p)).1 b v =
      if (tensor.isValid p && tensor.number? b p = some ((v : Nat) : ℚ)) then Counter.zero.succ
      else 0 := by
  have hb : b.val < tensor.bands := hn ▸ b.isLt
  have hv : v.val < 2 ^ 64 - 1 := by omega
  have hvalue := Tile.getElem?_bandValues hb p
  rw [pixelTally, getLast?_bandValues (Nat.zero_lt_of_lt hb), Tensor.number?]
  by_cases hvalid : tensor.isValid p = true
  · simp [hvalid, hvalue, valueTally, bucket?_eq_some_iff hv]
  · simp [hvalid]

/-! ## Tiles -/

theorem pixels_eq (ht : t.tensor = some tensor) :
    t.pixels = (List.range tensor.pixelCount).map (Tile.bandValues tensor) := by
  rw [Tile.pixels_eq_map, Tile.pixelCount_of_tensor ht]
  exact List.map_congr_left fun p hp => Tile.pixel_eq ht (List.mem_range.1 hp)

/-- A tile adds its valid pixels, up to the limit of the counter. -/
theorem tileTally_count (ht : t.tensor = some tensor) (hbands : 0 < tensor.bands) :
    (tileTally n d t).2.val = min (UInt64.size - 1) tensor.validCount := by
  rw [tileTally, pixels_eq ht, List.map_map, Tensor.validCount, ← Counter.val_sum_ite]
  have hsum := map_list_sum (AddMonoidHom.snd (Fin n → Fin d → Bucket) PixelTotal)
    ((List.range tensor.pixelCount).map (pixelTally n d ∘ Tile.bandValues tensor))
  rw [List.map_map] at hsum
  refine congrArg Counter.val (hsum.trans (congrArg List.sum (List.map_congr_left ?_)))
  intro p _
  exact pixelTally_count hbands p

/-- To a bucket it adds the valid pixels with this value, up to the limit of the bucket. -/
theorem tileTally_bucket (ht : t.tensor = some tensor) (hn : tensor.bands = n) (hd : d < 2 ^ 64)
    (b : Fin n) (v : Fin d) :
    ((tileTally n d t).1 b v).val = min (UInt32.size - 1) (tensor.valueCount b v) := by
  rw [tileTally, pixels_eq ht, List.map_map, Tensor.valueCount, ← Counter.val_sum_ite]
  have hsum := map_list_sum (((Pi.evalAddMonoidHom (fun _ : Fin d => Bucket) v).comp
      (Pi.evalAddMonoidHom (fun _ : Fin n => Fin d → Bucket) b)).comp
      (AddMonoidHom.fst (Fin n → Fin d → Bucket) PixelTotal))
    ((List.range tensor.pixelCount).map (pixelTally n d ∘ Tile.bandValues tensor))
  rw [List.map_map] at hsum
  refine congrArg Counter.val (hsum.trans (congrArg List.sum (List.map_congr_left ?_)))
  intro p _
  exact pixelTally_bucket hn hd p b v

/-- A tile with a tensor is counted under any order of as many bands, on top of any accumulator of the
expected shape: the number of pixels grows by the valid ones, and each bucket by the valid pixels whose
value it stands for, up to the limits of the counters. Any other shape is an error. -/
theorem ofTile_counts (t : Tile) (depth : Nat) (bands : BandOrder) (accumulator : Option Histogram) :
    (∀ tensor, t.tensor = some tensor → bands ≠ [] → bands.length = t.bandCount → depth < 2 ^ 64 →
      (∀ a ∈ accumulator, a.HasShape bands.length depth) →
      ∃ h, ofTile t depth bands accumulator = .ok h ∧ h.HasShape bands.length depth ∧
        h.count.val = min (2 ^ 64 - 1) (accumulator.elim 0 (·.count.val) + tensor.validCount) ∧
        ∀ b < bands.length, ∀ v < depth, ∃ k,
          accumulator.elim (some 0) (·.bucketAt? b v) = some k ∧
          h.bucketAt? b v = some (min (2 ^ 32 - 1) (k + tensor.valueCount b v))) ∧
    (t.isBlank = false → bands.length ≠ t.bandCount →
      ofTile t depth bands accumulator = .error (.bandCount bands.length t.bandCount)) ∧
    (t.isBlank = true ∨ bands.length = t.bandCount →
      ∀ a ∈ accumulator, a.bandCount ≠ bands.length ∨ a.depth ≠ depth →
        ofTile t depth bands accumulator =
          .error (.accumulatorShape a.bandCount a.depth bands.length depth)) := by
  refine ⟨?_, ?_, ?_⟩
  · intro tensor ht hbands hcount hdepth hshape
    have hpos : 0 < bands.length := List.length_pos_iff.2 hbands
    have htensor : tensor.bands = bands.length := (t.bands_eq tensor ht).trans hcount.symm
    obtain ⟨start, rfl⟩ : ∃ start : Option (Tally bands.length depth),
        start.map ofTally = accumulator := by
      cases accumulator with
      | none => exact ⟨none, rfl⟩
      | some a =>
        obtain ⟨x, hx⟩ := (hshape a rfl).exists_tally
        exact ⟨some x, congrArg some hx⟩
    refine ⟨_, ofTile_order hpos rfl hcount.symm start, hasShape_ofTally _, ?_, ?_⟩
    · have hcounted := tileTally_count (n := bands.length) (d := depth) ht (htensor ▸ hpos)
      cases start with
      | none => exact Counter.val_add_min hcounted
      | some x => exact Counter.val_add_min hcounted
    · intro b hb v hv
      refine ⟨((start.getD 0).1 ⟨b, hb⟩ ⟨v, hv⟩).val, ?_, ?_⟩
      · cases start with
        | none => rfl
        | some x => exact bucketAt?_ofTally x hb hv
      · rw [bucketAt?_ofTally _ hb hv]
        exact congrArg some
          (Counter.val_add_min (tileTally_bucket ht htensor hdepth ⟨b, hb⟩ ⟨v, hv⟩))
  · intro hblank hcount
    rw [ofTile, if_pos ⟨by rw [hblank]; rfl, hcount⟩]
    rfl
  · rintro hcount a rfl hshape
    have hsame : ¬ ((!t.isBlank) = true ∧ bands.length ≠ t.bandCount) := by
      rintro ⟨hblank, hne⟩
      rcases hcount with h | h
      · simp [h] at hblank
      · exact hne h
    rw [ofTile, if_neg hsame, start, if_pos hshape]
    rfl

/-- A negative zero, -1, 0.5, a NaN, infinity, 300 and 2 at valid pixels, and 2 at one that is not. -/
def mixed : Tensor where
  element := .f64
  bands := 2
  height := 2
  width := 4
  samples := #[0x8000000000000000#64, 0xbff0000000000000#64, 0x3fe0000000000000#64,
    0x7ff8000000000000#64, 0x7ff0000000000000#64, 0x4072c00000000000#64, 0x4000000000000000#64,
    0x4000000000000000#64, 0x3ff0000000000000#64, 0x3ff0000000000000#64, 0x3ff0000000000000#64,
    0x3ff0000000000000#64, 0x3ff0000000000000#64, 0x7ff0000000000000#64, 0xbff0000000000000#64,
    0x7ff8000000000000#64]
  size_eq := rfl

def mixedTile : Tile := ⟨some mixed, [.red, .alpha], by simp [mixed]⟩

def nearlyFull : Histogram :=
  ⟨[#[⟨2 ^ 32 - 1, by decide⟩, .zero, ⟨4, by decide⟩], #[.zero, .zero, .zero]],
    ⟨2 ^ 64 - 3, by decide⟩⟩

theorem ofTile_counts_mixed : nearlyFull.HasShape 2 3 ∧
    ∃ h, ofTile mixedTile 3 [.red, .alpha] (some nearlyFull) = .ok h ∧ h.HasShape 2 3 ∧
      h.count.val = 2 ^ 64 - 1 ∧ h.bucketAt? 0 0 = some (2 ^ 32 - 1) ∧
      h.bucketAt? 0 1 = some 0 ∧ h.bucketAt? 0 2 = some 5 := by
  have hshape : nearlyFull.HasShape 2 3 := ⟨rfl, by decide⟩
  obtain ⟨h, hok, hh, hcount, hbuckets⟩ :=
    (ofTile_counts mixedTile 3 [.red, .alpha] (some nearlyFull)).1 mixed rfl (by simp) rfl
      (by decide) (by rintro a ⟨⟩; exact hshape)
  refine ⟨hshape, h, hok, hh, hcount.trans (by decide +kernel), ?_, ?_, ?_⟩
  · obtain ⟨k, hk, hv⟩ := hbuckets 0 (by decide) 0 (by decide)
    cases hk
    exact hv.trans (by decide +kernel)
  · obtain ⟨k, hk, hv⟩ := hbuckets 0 (by decide) 1 (by decide)
    cases hk
    exact hv.trans (by decide +kernel)
  · obtain ⟨k, hk, hv⟩ := hbuckets 0 (by decide) 2 (by decide)
    cases hk
    exact hv.trans (by decide +kernel)

end Histogram
end RasterTile
