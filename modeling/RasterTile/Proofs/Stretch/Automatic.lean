import RasterTile.Viewport
import RasterTile.Proofs.NonNegative
import RasterTile.Proofs.Stretch.Quantile

/-!
# The automatic stretch

The curves of a preset that brings none come from one window, the average of the windows of the first
three bands. There is one if the histogram has three bands and each has enough pixels for both
thresholds: then both scans of every band stop. Nothing but the sums of the bounds goes into the
average, so the order of the three bands does not matter, and the bands after them are not looked at.
-/
namespace RasterTile

namespace BandRange

variable {ranges ranges' : List BandRange}

theorem toNat_mean (a b c : UInt32) : (mean a b c).toNat = (a.toNat + b.toNat + c.toNat) / 3 := by
  have ha := a.toNat_lt_size
  have hb := b.toNat_lt_size
  have hc := c.toNat_lt_size
  rw [mean, UInt32.toNat_ofNat_of_lt']
  omega

theorem isAvailable_iff {r : BandRange} :
    r.isAvailable = true ↔ ∃ low high, r = ⟨some low, some high⟩ := by
  rcases r with ⟨_ | low, _ | high⟩ <;> simp [isAvailable, bounds]

/-- The shared window is the mean of the first three ranges, if they are there with both bounds. -/
theorem shared?_eq_some_iff {w : UInt32 × UInt32} :
    shared? ranges = some w ↔ ∃ l₁ u₁ l₂ u₂ l₃ u₃ rest,
      ranges = ⟨some l₁, some u₁⟩ :: ⟨some l₂, some u₂⟩ :: ⟨some l₃, some u₃⟩ :: rest ∧
      w = (mean l₁ l₂ l₃, mean u₁ u₂ u₃) := by
  constructor
  · intro h
    unfold shared? at h
    split at h
    · split at h
      · rename_i ha hb hc
        obtain rfl := bounds_eq_some_iff.1 ha
        obtain rfl := bounds_eq_some_iff.1 hb
        obtain rfl := bounds_eq_some_iff.1 hc
        exact ⟨_, _, _, _, _, _, _, rfl, (Option.some.inj h).symm⟩
      · cases h
    · cases h
  · rintro ⟨l₁, u₁, l₂, u₂, l₃, u₃, rest, rfl, rfl⟩
    rfl

theorem shared?_isSome_iff :
    (shared? ranges).isSome ↔ 3 ≤ ranges.length ∧ ∀ r ∈ ranges.take 3, r.isAvailable = true := by
  rw [Option.isSome_iff_exists]
  constructor
  · rintro ⟨w, hw⟩
    obtain ⟨l₁, u₁, l₂, u₂, l₃, u₃, rest, rfl, -⟩ := shared?_eq_some_iff.1 hw
    simp [isAvailable, bounds]
  · rintro ⟨hlength, hall⟩
    obtain ⟨a, b, c, rest, rfl⟩ : ∃ a b c rest, ranges = a :: b :: c :: rest := by
      rcases ranges with _ | ⟨a, _ | ⟨b, _ | ⟨c, rest⟩⟩⟩
      · simp at hlength
      · simp at hlength
      · simp at hlength
      · exact ⟨a, b, c, rest, rfl⟩
    obtain ⟨l₁, u₁, rfl⟩ := isAvailable_iff.1 (hall a (by simp))
    obtain ⟨l₂, u₂, rfl⟩ := isAvailable_iff.1 (hall b (by simp))
    obtain ⟨l₃, u₃, rfl⟩ := isAvailable_iff.1 (hall c (by simp))
    exact ⟨_, rfl⟩

/-- The order of the first three ranges does not matter, nor does any other range. -/
theorem shared?_perm (h : (ranges'.take 3).Perm (ranges.take 3)) :
    shared? ranges' = shared? ranges := by
  have hsome : (shared? ranges').isSome ↔ (shared? ranges).isSome := by
    have hlength := h.length_eq
    rw [List.length_take, List.length_take] at hlength
    rw [shared?_isSome_iff, shared?_isSome_iff]
    refine and_congr (by omega) (forall_congr' fun r => ?_)
    rw [h.mem_iff]
  cases hw : shared? ranges with
  | none =>
    rw [hw] at hsome
    simpa using hsome
  | some w =>
    obtain ⟨w', hw'⟩ := Option.isSome_iff_exists.1 (hsome.2 (by rw [hw]; rfl))
    obtain ⟨l₁, u₁, l₂, u₂, l₃, u₃, rest, rfl, rfl⟩ := shared?_eq_some_iff.1 hw
    obtain ⟨l₁', u₁', l₂', u₂', l₃', u₃', rest', rfl, rfl⟩ := shared?_eq_some_iff.1 hw'
    have hlow := (h.map fun r => (r.low.getD 0).toNat).sum_eq
    have hhigh := (h.map fun r => (r.high.getD 0).toNat).sum_eq
    simp only [List.take_succ_cons, List.take_zero, List.map_cons, List.map_nil, List.sum_cons,
      List.sum_nil, Option.getD_some, Nat.add_zero, ← Nat.add_assoc] at hlow hhigh
    rw [hw', mean, mean, hlow, hhigh]
    rfl

end BandRange

open ExactValue (extended?)
open Histogram (mass Countable)

/-- All curves are of the shared window. -/
theorem autoCurves_eq (h : Histogram) (depth : Nat) (s : StretchSettings) :
    autoCurves h depth s =
      if depth < UInt32.size then
        (BandRange.shared? (h.ranges s.lowPercent s.highPercent)).map fun window =>
          List.replicate 3 (Curve.ofLevels depth window (0, UInt32.ofNat depth))
      else none := by
  rw [autoCurves, BandRange.average]
  cases BandRange.shared? (h.ranges s.lowPercent s.highPercent) <;> rfl

namespace Histogram

variable {h : Histogram}

/-- Neither threshold of a percentage that is not negative is a NaN. -/
theorem extended?_threshold (hcount : 0 < h.count.val) (hexact : h.count.val < 2 ^ 53)
    {percent : Float} (hpercent : 0 ≤ percent) :
    ∃ a, extended? (h.threshold percent) = some a ∧ 0 ≤ a := by
  have hshare : 0 ≤ percent / 100 := ExactValue.nonneg_div hpercent (by decide) (by decide)
  exact ExactValue.extended?_of_nonneg
    (ExactValue.nonneg_down (ExactValue.nonneg_mul hshare hcount hexact))

/-- More pixels than a threshold from zero on are some pixels. -/
theorem Placed.isAvailable_iff {a b : EReal} {buckets : Array Bucket} {r : BandRange}
    (h : Placed a b buckets r) (ha : 0 ≤ a) :
    r.isAvailable = true ↔ a < mass buckets ∧ b < mass buckets := by
  have hboth : r.isAvailable = true ↔ r.low ≠ none ∧ r.high ≠ none := by
    rcases r with ⟨_ | low, _ | high⟩ <;> simp [BandRange.isAvailable, BandRange.bounds]
  rw [hboth, Ne, Ne, h.low_eq_none, h.high_eq_none, ← mass_eq_zero_iff, not_or, not_or, not_le,
    not_le]
  constructor
  · rintro ⟨⟨-, hlow⟩, -, hhigh⟩
    exact ⟨hlow, hhigh⟩
  · rintro ⟨hlow, hhigh⟩
    have hsome : mass buckets ≠ 0 := by
      intro hnone
      rw [hnone, Nat.cast_zero] at hlow
      exact absurd ha (not_le.2 hlow)
    exact ⟨⟨hsome, hlow⟩, hsome, hhigh⟩

end Histogram

variable {h : Histogram} {s : StretchSettings}

/-- There are curves if each of three bands holds more pixels than either threshold says. -/
theorem autoCurves_isSome_iff (hcount : 0 < h.count.val)
    (hbands : ∀ buckets ∈ h.bands, Countable buckets) {a b : EReal}
    (ha : extended? (h.threshold s.lowPercent) = some a)
    (hb : extended? (h.threshold s.highPercent) = some b) (hnonneg : 0 ≤ a) (depth : Nat) :
    (autoCurves h depth s).isSome ↔ depth < UInt32.size ∧ 3 ≤ h.bandCount ∧
      ∀ buckets ∈ h.bands.take 3, a < mass buckets ∧ b < mass buckets := by
  have hranges := Histogram.ranges_of_pos hcount s.lowPercent s.highPercent
  have havailable : (∀ r ∈ (h.ranges s.lowPercent s.highPercent).take 3, r.isAvailable = true) ↔
      ∀ buckets ∈ h.bands.take 3, a < mass buckets ∧ b < mass buckets := by
    rw [hranges, ← List.map_take, List.forall_mem_map]
    refine forall₂_congr fun buckets hmem => ?_
    obtain ⟨hsize, hmass⟩ := hbands buckets (List.mem_of_mem_take hmem)
    exact (Histogram.placed hsize hmass ha hb).isAvailable_iff hnonneg
  rw [autoCurves_eq]
  split_ifs with hdepth
  · rw [Option.isSome_map, BandRange.shared?_isSome_iff, havailable, hranges, List.length_map]
    simp only [hdepth, true_and, Histogram.bandCount]
  · simp [hdepth]

/-- Nothing but the number of pixels and the first three bands, in any order, decides. -/
theorem autoCurves_perm {h' : Histogram} (hcount : 0 < h.count.val) (hsame : h'.count = h.count)
    (hperm : (h'.bands.take 3).Perm (h.bands.take 3)) (depth : Nat) :
    autoCurves h' depth s = autoCurves h depth s := by
  have hthreshold (percent : Float) : h'.threshold percent = h.threshold percent := by
    rw [Histogram.threshold, Histogram.threshold, hsame]
  have hranges : ((h'.ranges s.lowPercent s.highPercent).take 3).Perm
      ((h.ranges s.lowPercent s.highPercent).take 3) := by
    rw [Histogram.ranges_of_pos hcount, Histogram.ranges_of_pos (hsame ▸ hcount), hthreshold,
      hthreshold, ← List.map_take, ← List.map_take]
    exact hperm.map _
  rw [autoCurves_eq, autoCurves_eq, BandRange.shared?_perm hranges]

/-- A preset without curves gets those of the histogram, if it gives any. -/
theorem StyleSource.resolve_preset (h : Histogram) (s : StretchSettings) (p : Preset)
    {options : PresetOptions Float} (hnone : options.curves = none) :
    (StyleSource.preset p options).resolve h s =
      .preset p { options with curves := autoCurves h options.pixelDepth s } := by
  rw [resolve, hnone]
  rfl

/-- A preset is stretched if the depth fits in 32 bits and the histogram has three bands with more
pixels than either threshold says. It is then stretched over one window for all three channels, whose
ends are the floors of the averages of the bounds. Only the number of pixels and the first three bands
count, in any order, and a preset without curves gets exactly these, or stays as it is. -/
theorem autoCurves_shared (hcount : 0 < h.count.val) (hexact : h.count.val < 2 ^ 53)
    (hbands : ∀ buckets ∈ h.bands, Countable buckets) (hlow : 0 ≤ s.lowPercent)
    (hhigh : 0 ≤ s.highPercent) (depth : Nat) :
    (∃ a b : EReal, extended? (h.threshold s.lowPercent) = some a ∧
      extended? (h.threshold s.highPercent) = some b ∧
      ((autoCurves h depth s).isSome ↔ depth < UInt32.size ∧ 3 ≤ h.bandCount ∧
        ∀ buckets ∈ h.bands.take 3, a < mass buckets ∧ b < mass buckets)) ∧
    (∀ curves, autoCurves h depth s = some curves → ∃ l₁ u₁ l₂ u₂ l₃ u₃ low high : UInt32,
      (h.ranges s.lowPercent s.highPercent).take 3 =
        [⟨some l₁, some u₁⟩, ⟨some l₂, some u₂⟩, ⟨some l₃, some u₃⟩] ∧
      low.toNat = (l₁.toNat + l₂.toNat + l₃.toNat) / 3 ∧
      high.toNat = (u₁.toNat + u₂.toNat + u₃.toNat) / 3 ∧
      low.toNat ∈ Set.Icc (min l₁.toNat (min l₂.toNat l₃.toNat))
        (max l₁.toNat (max l₂.toNat l₃.toNat)) ∧
      high.toNat ∈ Set.Icc (min u₁.toNat (min u₂.toNat u₃.toNat))
        (max u₁.toNat (max u₂.toNat u₃.toNat)) ∧
      curves = List.replicate 3 (Curve.ofLevels depth (low, high) (0, UInt32.ofNat depth)) ∧
      ∀ c ∈ curves, c.values.size = depth) ∧
    (∀ h' : Histogram, h'.count = h.count → (h'.bands.take 3).Perm (h.bands.take 3) →
      autoCurves h' depth s = autoCurves h depth s) ∧
    ∀ (p : Preset) (options : PresetOptions Float), options.pixelDepth = depth →
      options.curves = none →
      (StyleSource.preset p options).resolve h s =
        .preset p { options with curves := autoCurves h depth s } ∧
      (autoCurves h depth s = none →
        (StyleSource.preset p options).resolve h s = .preset p options) := by
  refine ⟨?_, ?_, fun h' hsame hperm => autoCurves_perm hcount hsame hperm depth, ?_⟩
  · obtain ⟨a, ha, hnonneg⟩ := Histogram.extended?_threshold hcount hexact hlow
    obtain ⟨b, hb, -⟩ := Histogram.extended?_threshold hcount hexact hhigh
    exact ⟨a, b, ha, hb, autoCurves_isSome_iff hcount hbands ha hb hnonneg depth⟩
  · intro curves hcurves
    rw [autoCurves_eq] at hcurves
    split_ifs at hcurves
    obtain ⟨w, hw, rfl⟩ := Option.map_eq_some_iff.1 hcurves
    obtain ⟨l₁, u₁, l₂, u₂, l₃, u₃, rest, hranges, rfl⟩ := BandRange.shared?_eq_some_iff.1 hw
    have hmean := BandRange.toNat_mean l₁ l₂ l₃
    have hmean' := BandRange.toNat_mean u₁ u₂ u₃
    refine ⟨l₁, u₁, l₂, u₂, l₃, u₃, _, _, by rw [hranges]; rfl, hmean, hmean', ?_, ?_, rfl, ?_⟩
    · rw [hmean, Set.mem_Icc]
      omega
    · rw [hmean', Set.mem_Icc]
      omega
    · intro c hc
      rw [List.eq_of_mem_replicate hc, Curve.size_ofLevels]
  · rintro p options rfl hnone
    have hresolve := StyleSource.resolve_preset h s p hnone
    refine ⟨hresolve, fun hunavailable => ?_⟩
    rw [hresolve, hunavailable, ← hnone]

/-- The band with a gap as it is, turned round, moved up by one value, and emptied. -/
def fourBands : Histogram where
  bands := Histogram.gapped.bands.flatMap fun buckets =>
    [buckets, buckets.reverse, #[.zero] ++ buckets.pop, buckets.map fun _ => .zero]
  count := Histogram.gapped.count

theorem autoCurves_shared_fourBands :
    autoCurves fourBands 4 ⟨25, 25, none⟩ =
        some (List.replicate 3 (Curve.ofLevels 4 (2, 2) (0, 4))) ∧
      autoCurves ⟨(fourBands.bands.take 3).reverse, fourBands.count⟩ 4 ⟨25, 25, none⟩ =
        autoCurves fourBands 4 ⟨25, 25, none⟩ := by
  have hranges : (fourBands.ranges 25 25).take 3 =
      [⟨some 2, some 2⟩, ⟨some 1, some 1⟩, ⟨some 3, some 3⟩] := by decide +kernel
  have hbands : ∀ buckets ∈ fourBands.bands, Countable buckets := by
    unfold Histogram.Countable
    decide +kernel
  have hpercent : (0 : Float) ≤ 25 := by decide +kernel
  obtain ⟨⟨a, b, ha, hb, hiff⟩, hcurves, hperm, -⟩ :=
    autoCurves_shared (s := ⟨25, 25, none⟩) (by decide) (by decide) hbands hpercent hpercent 4
  obtain rfl := Option.some.inj (ha.symm.trans Histogram.threshold_gapped.1)
  obtain rfl := Option.some.inj (hb.symm.trans Histogram.threshold_gapped.1)
  have hmass : ∀ buckets ∈ fourBands.bands.take 3, 1 < mass buckets := by decide +kernel
  have hsome : (autoCurves fourBands 4 ⟨25, 25, none⟩).isSome := by
    refine hiff.2 ⟨by decide, by decide, fun buckets hbuckets => ?_⟩
    exact ⟨Nat.cast_lt.2 (hmass buckets hbuckets), Nat.cast_lt.2 (hmass buckets hbuckets)⟩
  obtain ⟨curves, heq⟩ := Option.isSome_iff_exists.1 hsome
  obtain ⟨l₁, u₁, l₂, u₂, l₃, u₃, low, high, hthree, hlow, hhigh, -, -, rfl, -⟩ := hcurves _ heq
  rw [hranges] at hthree
  cases hthree
  obtain rfl : low = 2 := UInt32.toNat_inj.1 hlow
  obtain rfl : high = 2 := UInt32.toNat_inj.1 hhigh
  refine ⟨heq, hperm _ rfl ?_⟩
  rw [List.take_of_length_le (by decide)]
  exact List.reverse_perm _

end RasterTile
