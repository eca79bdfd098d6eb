import RasterTile.Proofs.Outcome
import RasterTile.Proofs.Stretch.Quantile

/-!
# Windows the right way round

The thresholds are shares of all valid pixels, but a band only holds those whose value fits the depth.
The two scans of a band that lost many pixels can therefore pass each other, and its window is then
inverted. It is the right way round exactly if both scans reach some value, which they do if the
thresholds together stay below the pixels of the band.
-/
namespace RasterTile.Histogram

open ExactValue (extended?)

variable {t : Float} {buckets : Array Bucket} {low high : Float} {l h : Nat}

def countBelow (buckets : Array Bucket) (v : Nat) : Nat :=
  ((buckets.toList.take v).map Counter.val).sum

/-- Every pixel of a band is below a value or from it on. -/
theorem countBelow_add_countFrom (buckets : Array Bucket) (v : Nat) :
    countBelow buckets v + countFrom buckets v = mass buckets := by
  rw [countBelow, countFrom, ← List.sum_append, ← List.map_append, List.take_append_drop, mass]

theorem countFrom_anti (buckets : Array Bucket) {v w : Nat} (hle : v ≤ w) :
    countFrom buckets w ≤ countFrom buckets v :=
  ((List.drop_sublist_drop_left _ hle).map _).sum_le_sum fun _ _ => Nat.zero_le _

/-- Below the least value that a scan reaches there are no pixels, or too few. -/
theorem countBelow_of_isLeast (hleast : IsLeast {v | ReachedUp t buckets v} l) {v : Nat}
    (hle : v ≤ l) : countBelow buckets v = 0 ∨ ¬ t < Float.ofNat (countBelow buckets v) := by
  induction v with
  | zero => exact Or.inl rfl
  | succ v ih =>
    obtain ⟨_, hl, -⟩ := hleast.1
    have hv : v < buckets.size := by
      have hlsize := (Array.getElem?_eq_some_iff.1 hl).1
      omega
    by_cases hn : buckets[v].val = 0
    · have hsame : countBelow buckets (v + 1) = countBelow buckets v := by
        rw [countBelow, List.take_add_one, Array.getElem?_toList, Array.getElem?_eq_getElem hv,
          List.map_append, List.sum_append]
        simp [hn, countBelow]
      rw [hsame]
      exact ih (by omega)
    · refine Or.inr fun hreached => ?_
      have hmem : ReachedUp t buckets v :=
        ⟨_, Array.getElem?_eq_getElem hv, Nat.pos_of_ne_zero hn, hreached⟩
      have hle' := hleast.2 hmem
      omega

/-- Where scans pass each other, neither side of a cut between them exceeds its threshold. -/
theorem not_exceeded_of_lt (hlow : IsLeast {v | ReachedUp low buckets v} l)
    (hhigh : IsGreatest {v | ReachedDown high buckets v} h) (hlt : h < l) :
    ¬ low < Float.ofNat (countBelow buckets l) ∧ ¬ high < Float.ofNat (countFrom buckets l) := by
  constructor
  · obtain ⟨n, hn, hpos, -⟩ := hhigh.1
    have hmem : n.val ∈ (buckets.toList.take l).map Counter.val := by
      refine List.mem_map_of_mem (List.mem_of_getElem? (i := h) ?_)
      rw [List.getElem?_take_of_lt hlt, Array.getElem?_toList, hn]
    have hle : n.val ≤ countBelow buckets l := List.le_sum_of_mem hmem
    exact (countBelow_of_isLeast hlow le_rfl).resolve_left (by omega)
  · intro hreached
    obtain ⟨n, hn, hpos, -⟩ := hlow.1
    have hle := hhigh.2 ⟨n, hn, hpos, hreached⟩
    omega

/-- Scans meet if some value is reached by both. -/
theorem le_iff_reached (hlow : IsLeast {v | ReachedUp low buckets v} l)
    (hhigh : IsGreatest {v | ReachedDown high buckets v} h) :
    l ≤ h ↔ ∃ v, ReachedUp low buckets v ∧ ReachedDown high buckets v := by
  constructor
  · intro hle
    obtain ⟨n, hn, hpos, -⟩ := hlow.1
    obtain ⟨_, -, -, hreached⟩ := hhigh.1
    -- from the low bound on there are at least the pixels from the high bound on
    exact ⟨l, hlow.1, n, hn, hpos, ExactValue.lt_ofNat_of_le hreached (countFrom_anti buckets hle)⟩
  · rintro ⟨v, hup, hdown⟩
    exact (hlow.2 hup).trans (hhigh.2 hdown)

/-- Thresholds that leave some pixels between them give bounds in order. -/
theorem le_of_thresholds_lt (hlow : IsLeast {v | ReachedUp low buckets v} l)
    (hhigh : IsGreatest {v | ReachedDown high buckets v} h) {a b : EReal}
    (ha : extended? low = some a) (hb : extended? high = some b) (hmass : mass buckets < 2 ^ 53)
    (hsum : a + b < mass buckets) : l ≤ h := by
  by_contra hlt
  obtain ⟨hbelow, hfrom⟩ := not_exceeded_of_lt hlow hhigh (not_le.1 hlt)
  have hsplit := countBelow_add_countFrom buckets l
  rw [ExactValue.lt_ofNat_iff ha (by omega), not_lt] at hbelow
  rw [ExactValue.lt_ofNat_iff hb (by omega), not_lt] at hfrom
  have hle := add_le_add hbelow hfrom
  rw [← Nat.cast_add, hsplit] at hle
  exact absurd hsum (not_lt.2 hle)

/-- A window is the right way round exactly if both scans of its band reach some value. That is so if
the thresholds together stay below the pixels of the band. -/
theorem low_le_high_iff {h : Histogram} {lo hi : Float} {i : Nat} {low high : UInt32}
    (hband : h.bands[i]? = some buckets)
    (hrange : (h.ranges lo hi)[i]? = some ⟨some low, some high⟩) :
    (low ≤ high ↔ ∃ v, ReachedUp (h.threshold lo) buckets v ∧
      ReachedDown (h.threshold hi) buckets v) ∧
    ∀ a b : EReal, extended? (h.threshold lo) = some a → extended? (h.threshold hi) = some b →
      mass buckets < 2 ^ 53 → a + b < mass buckets → low ≤ high := by
  have hcount : 0 < h.count.val := by
    by_contra hzero
    rw [ranges_of_zero (by omega), List.getElem?_replicate] at hrange
    split_ifs at hrange
    cases hrange
  rw [ranges_of_pos hcount, List.getElem?_map, hband] at hrange
  have hboth := Option.some.inj hrange
  have hlow := low_eq_some_iff.1 (congrArg BandRange.low hboth)
  have hhigh := high_eq_some_iff.1 (congrArg BandRange.high hboth)
  rw [UInt32.le_iff_toNat_le]
  exact ⟨le_iff_reached hlow hhigh, fun a b ha hb => le_of_thresholds_lt hlow hhigh ha hb⟩

/-- A quarter at either end of the band with a gap leaves half of its pixels. -/
theorem low_le_high_iff_gapped : ∃ buckets, gapped.bands[0]? = some buckets ∧
    (gapped.ranges 25 25)[0]? = some ⟨some 2, some 2⟩ ∧
    (∃ v, ReachedUp (gapped.threshold 25) buckets v ∧
      ReachedDown (gapped.threshold 25) buckets v) ∧
    ((1 : Nat) : EReal) + (1 : Nat) < mass buckets ∧ (2 : UInt32) ≤ 2 := by
  have hrange : (gapped.ranges 25 25)[0]? = some ⟨some 2, some 2⟩ := by decide +kernel
  have hsum : ((1 : Nat) : EReal) + (1 : Nat) < (4 : Nat) := by
    rw [← Nat.cast_add, Nat.cast_lt]
    decide
  obtain ⟨hiff, hle⟩ := low_le_high_iff rfl hrange
  have hordered := hle _ _ threshold_gapped.1 threshold_gapped.1 (by decide) hsum
  exact ⟨_, rfl, hrange, hiff.1 hordered, hsum, hordered⟩

/-! ## Inverted windows -/

/-- Three pixels of which one is too bright for two buckets. -/
def bright : Tile :=
  ⟨some ⟨.u8, 2, 1, 3, #[0, 1, 9, 1, 1, 1], rfl⟩, [.red, .alpha], by simp⟩

def steep : Tile := ⟨some ⟨.u8, 1, 1, 10, #[1, 2, 2, 2, 2, 2, 2, 2, 2, 2], rfl⟩, [.alpha], by simp⟩

/-- Percentages of less than a hundred together do not keep a window the right way round: neither
in a band that lost a pixel, nor where every pixel is in its bucket but a threshold is rounded up
before its floor is taken. -/
theorem ranges_inverted :
    (∃ h, ofTile bright 2 [.red, .alpha] none = .ok h ∧ h.count.val = 3 ∧
      (0 : Float) ≤ 49 ∧ (49 : Float) + 49 < 100 ∧
      h.ranges 49 49 = [⟨some 1, some 0⟩, ⟨some 1, some 1⟩]) ∧
    ∃ h, ofTile steep 3 [.alpha] none = .ok h ∧ h.count.val = 10 ∧ h.bands.map mass = [10] ∧
      (0 : Float) ≤ 10 ∧ (0 : Float) ≤ 89.99999999999999 ∧
      (10 : Float) + 89.99999999999999 < 100 ∧
      h.ranges 10 89.99999999999999 = [⟨some 2, some 1⟩] := by
  constructor
  · refine ⟨⟨[#[⟨1, by decide⟩, ⟨1, by decide⟩], #[⟨0, by decide⟩, ⟨3, by decide⟩]],
      ⟨3, by decide⟩⟩, toOption_eq_some_iff.1 ?_, ?_⟩ <;> decide +kernel
  · refine ⟨⟨[#[⟨0, by decide⟩, ⟨1, by decide⟩, ⟨9, by decide⟩]], ⟨10, by decide⟩⟩,
      toOption_eq_some_iff.1 ?_, ?_⟩ <;> decide +kernel

end RasterTile.Histogram
