import RasterTile.Proofs.Stretch.Crossing

/-!
# Bounds are quantiles

Below `2 ^ 53` pixels are counted exactly, so the scans of a band compare numbers: the low bound is
the least value that some pixel has and up to which more pixels lie than the threshold says, and the
high bound is the same from above. Each is missing on its own, for want of pixels.
-/
namespace RasterTile.Histogram

open ExactValue (extended?)

variable {low high : Float} {a b a' b' : EReal} {buckets : Array Bucket} {r r' : BandRange}

structure Placed (a b : EReal) (buckets : Array Bucket) (r : BandRange) : Prop where
  low_eq_some : ∀ v : UInt32, r.low = some v ↔
    IsLeast {v : Nat | ∃ n, buckets[v]? = some n ∧ 0 < n.val ∧ a < countTo buckets v} v.toNat
  high_eq_some : ∀ v : UInt32, r.high = some v ↔
    IsGreatest {v : Nat | ∃ n, buckets[v]? = some n ∧ 0 < n.val ∧ b < countFrom buckets v} v.toNat
  low_eq_none : r.low = none ↔ (∀ n ∈ buckets, n.val = 0) ∨ mass buckets ≤ a
  high_eq_none : r.high = none ↔ (∀ n ∈ buckets, n.val = 0) ∨ mass buckets ≤ b

theorem countTo_le (buckets : Array Bucket) (v : Nat) : countTo buckets v ≤ mass buckets :=
  ((List.take_sublist _ _).map _).sum_le_sum fun _ _ => Nat.zero_le _

theorem countFrom_le (buckets : Array Bucket) (v : Nat) : countFrom buckets v ≤ mass buckets :=
  ((List.drop_sublist _ _).map _).sum_le_sum fun _ _ => Nat.zero_le _

/-- A range is where the thresholds place it. -/
theorem placed (hsize : buckets.size ≤ UInt32.size) (hmass : mass buckets < 2 ^ 53)
    (ha : extended? low = some a) (hb : extended? high = some b) :
    Placed a b buckets (range low high buckets) where
  low_eq_some v := by
    have hcount (v : Nat) : low < Float.ofNat (countTo buckets v) ↔ a < countTo buckets v :=
      ExactValue.lt_ofNat_iff ha ((countTo_le buckets v).trans_lt hmass)
    simp only [low_eq_some_iff, ReachedUp, hcount]
  high_eq_some v := by
    have hcount (v : Nat) : high < Float.ofNat (countFrom buckets v) ↔ b < countFrom buckets v :=
      ExactValue.lt_ofNat_iff hb ((countFrom_le buckets v).trans_lt hmass)
    simp only [high_eq_some_iff, ReachedDown, hcount]
  low_eq_none := by
    rw [low_eq_none_iff hsize, mass_eq_zero_iff, ExactValue.lt_ofNat_iff ha hmass, not_lt]
  high_eq_none := by
    rw [high_eq_none_iff hsize, mass_eq_zero_iff, ExactValue.lt_ofNat_iff hb hmass, not_lt]

/-- A higher threshold neither lowers the low bound nor makes it appear. -/
theorem Placed.low_mono (h : Placed a b buckets r) (h' : Placed a' b' buckets r') (hle : a ≤ a')
    {v' : UInt32} (hv' : r'.low = some v') : ∃ v, r.low = some v ∧ v ≤ v' := by
  cases hv : r.low with
  | none =>
    have hnone : r'.low = none :=
      h'.low_eq_none.2 ((h.low_eq_none.1 hv).imp_right fun hmass => hmass.trans hle)
    rw [hnone] at hv'
    cases hv'
  | some v =>
    obtain ⟨n, hn, hpos, hreached⟩ := ((h'.low_eq_some v').1 hv').1
    have hleast := ((h.low_eq_some v).1 hv).2 ⟨n, hn, hpos, hle.trans_lt hreached⟩
    exact ⟨v, rfl, UInt32.le_iff_toNat_le.2 hleast⟩

/-- A higher threshold neither raises the high bound nor makes it appear. -/
theorem Placed.high_mono (h : Placed a b buckets r) (h' : Placed a' b' buckets r') (hle : b ≤ b')
    {v' : UInt32} (hv' : r'.high = some v') : ∃ v, r.high = some v ∧ v' ≤ v := by
  cases hv : r.high with
  | none =>
    have hnone : r'.high = none :=
      h'.high_eq_none.2 ((h.high_eq_none.1 hv).imp_right fun hmass => hmass.trans hle)
    rw [hnone] at hv'
    cases hv'
  | some v =>
    obtain ⟨n, hn, hpos, hreached⟩ := ((h'.high_eq_some v').1 hv').1
    have hgreatest := ((h.high_eq_some v).1 hv).2 ⟨n, hn, hpos, hle.trans_lt hreached⟩
    exact ⟨v, rfl, UInt32.le_iff_toNat_le.2 hgreatest⟩

/-- The bands that the scans count exactly: of at most `2 ^ 32` buckets, and fewer than `2 ^ 53`
pixels. -/
def Countable (buckets : Array Bucket) : Prop :=
  buckets.size ≤ UInt32.size ∧ mass buckets < 2 ^ 53

theorem ranges_of_zero {h : Histogram} (hcount : h.count.val = 0) (lo hi : Float) :
    h.ranges lo hi = List.replicate h.bandCount .unavailable := by
  rw [ranges]
  simp only [if_pos hcount, List.map_const', bandCount]

theorem ranges_of_pos {h : Histogram} (hcount : 0 < h.count.val) (lo hi : Float) :
    h.ranges lo hi = h.bands.map (range (h.threshold lo) (h.threshold hi)) := by
  rw [ranges]
  simp only [if_neg hcount.ne']

/-- Each band has the range that its thresholds place. -/
theorem ranges_placed {h : Histogram} (hbands : ∀ buckets ∈ h.bands, Countable buckets)
    (hcount : 0 < h.count.val) {lo hi : Float} (ha : extended? (h.threshold lo) = some a)
    (hb : extended? (h.threshold hi) = some b) :
    List.Forall₂ (Placed a b) h.bands (h.ranges lo hi) := by
  rw [ranges_of_pos hcount, List.forall₂_map_right_iff, List.forall₂_same]
  intro buckets hmem
  obtain ⟨hsize, hmass⟩ := hbands buckets hmem
  exact placed hsize hmass ha hb

/-- Every band has one range, and its bounds are the quantiles of that band. Higher thresholds move
each bound inwards or take it away; the running totals fit in 64 bits; and without any valid pixel
there is no range. -/
theorem ranges_at_quantiles (h : Histogram) :
    (h.count.val = 0 → ∀ lo hi, h.ranges lo hi = List.replicate h.bandCount .unavailable) ∧
    ((∀ buckets ∈ h.bands, buckets.size ≤ UInt32.size) → ∀ buckets ∈ h.bands, ∀ t,
      let cells := buckets.toList.zipIdx
      checkedCrossing? t 0 cells = some (firstCrossing t 0 cells) ∧
        checkedCrossing? t 0 cells.reverse = some (firstCrossing t 0 cells.reverse)) ∧
    ((∀ buckets ∈ h.bands, Countable buckets) → 0 < h.count.val → ∀ lo hi : Float,
      (h.threshold lo).isNaN = false → (h.threshold hi).isNaN = false →
      ∃ a b, extended? (h.threshold lo) = some a ∧ extended? (h.threshold hi) = some b ∧
        List.Forall₂ (Placed a b) h.bands (h.ranges lo hi) ∧
        ∀ lo' hi' a' b', extended? (h.threshold lo') = some a' →
          extended? (h.threshold hi') = some b' → ∀ (i : Nat) (r r' : BandRange),
          (h.ranges lo hi)[i]? = some r → (h.ranges lo' hi')[i]? = some r' →
            (a ≤ a' → ∀ v', r'.low = some v' → ∃ v, r.low = some v ∧ v ≤ v') ∧
            (b ≤ b' → ∀ v', r'.high = some v' → ∃ v, r.high = some v ∧ v' ≤ v)) := by
  refine ⟨ranges_of_zero, fun hsize buckets hmem => checkedCrossing?_band (hsize buckets hmem), ?_⟩
  intro hbands hcount lo hi hlo hhi
  have hvalue {x : Float} (hx : x.isNaN = false) : ∃ a, extended? x = some a := by
    rw [← Option.isSome_iff_exists, ExactValue.extended?_isSome, hx]
    rfl
  obtain ⟨a, ha⟩ := hvalue hlo
  obtain ⟨b, hb⟩ := hvalue hhi
  have hplaced := ranges_placed hbands hcount ha hb
  refine ⟨a, b, ha, hb, hplaced, ?_⟩
  intro lo' hi' a' b' ha' hb' i r r' hr hr'
  have hplaced' := ranges_placed hbands hcount ha' hb'
  obtain ⟨hi, rfl⟩ := List.getElem?_eq_some_iff.1 hr
  obtain ⟨hi', rfl⟩ := List.getElem?_eq_some_iff.1 hr'
  have hband : i < h.bands.length := hplaced.length_eq ▸ hi
  have hat := hplaced.get hband hi
  have hat' := hplaced'.get hband hi'
  exact ⟨fun hle _ hv' => hat.low_mono hat' hle hv', fun hle _ hv' => hat.high_mono hat' hle hv'⟩

def gapped : Histogram where
  bands := [#[⟨1, by decide⟩, ⟨0, by decide⟩, ⟨2, by decide⟩, ⟨1, by decide⟩]]
  count := ⟨4, by decide⟩

theorem threshold_gapped : extended? (gapped.threshold 25) = some ((1 : Nat) : EReal) ∧
    extended? (gapped.threshold 75) = some ((3 : Nat) : EReal) :=
  ⟨ExactValue.extended?_natCast ((ExactValue.value?_eq_natCast_iff (by decide)).1 (by decide +kernel)),
    ExactValue.extended?_natCast ((ExactValue.value?_eq_natCast_iff (by decide)).1 (by decide +kernel))⟩

/-- A running count that only equals the threshold does not place a bound. -/
theorem ranges_at_quantiles_gapped : gapped.ranges 25 25 = [⟨some 2, some 2⟩] ∧
    List.Forall₂ (Placed (1 : Nat) (1 : Nat)) gapped.bands (gapped.ranges 25 25) ∧
    ∀ v', (gapped.ranges 75 75)[0]?.bind BandRange.low = some v' → 2 ≤ v' := by
  have hrange : gapped.ranges 25 25 = [⟨some 2, some 2⟩] := by decide +kernel
  have hbands : ∀ buckets ∈ gapped.bands, Countable buckets :=
    List.forall_mem_singleton.2 ⟨by decide, by decide⟩
  obtain ⟨-, -, hquantiles⟩ := ranges_at_quantiles gapped
  obtain ⟨a, b, ha, hb, hplaced, hraised⟩ :=
    hquantiles hbands (by decide) 25 25 (by decide +kernel) (by decide +kernel)
  obtain rfl := Option.some.inj (ha.symm.trans threshold_gapped.1)
  obtain rfl := Option.some.inj (hb.symm.trans threshold_gapped.1)
  refine ⟨hrange, hplaced, fun v' hv' => ?_⟩
  obtain ⟨r', hr', hlow⟩ := Option.bind_eq_some_iff.1 hv'
  have hmono := hraised 75 75 _ _ threshold_gapped.2 threshold_gapped.2 0 _ r'
    (by rw [hrange]; rfl) hr'
  obtain ⟨v, hv, hle⟩ := hmono.1 (Nat.cast_le.2 (by decide)) v' hlow
  obtain rfl := Option.some.inj hv
  exact hle

end RasterTile.Histogram
