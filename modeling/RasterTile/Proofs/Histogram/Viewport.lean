import RasterTile.Proofs.Histogram.Tally
import RasterTile.Proofs.Outcome
import RasterTile.Viewport

/-!
# Ways to count the tiles of a viewport

Tiles can be counted on their own and merged along any tree, counted first and merged afterwards,
or counted one after the other into one accumulator. Each way adds up the tables of the tiles, so
neither the way nor the order matters, and blank tiles add nothing.
-/
namespace RasterTile

/-- A way to combine things two by two. -/
inductive Reduction (α : Type) where
  | one (a : α)
  | both (left right : Reduction α)

namespace Reduction

def leaves {α : Type} : Reduction α → List α
  | one a => [a]
  | both l r => l.leaves ++ r.leaves

/-- The tiles at the leaves are counted, and the histograms merged at the branches. -/
def histogram (depth : Nat) : Reduction Tile → Except Error Histogram
  | one t => Histogram.ofTile t depth t.bands none
  | both l r => do (← l.histogram depth).merge (← r.histogram depth)

end Reduction

def present (tiles : List Tile) : List Tile := tiles.filter (!·.isBlank)

def histograms (depth : Nat) (tiles : List Tile) : Except Error (List Histogram) :=
  tiles.mapM fun t => Histogram.ofTile t depth t.bands none

def mergeAll : List Histogram → Except Error (Option Histogram)
  | [] => .ok none
  | h :: hs => (hs.foldlM Histogram.merge h).map some

/-- Each tile on top of the ones before it. -/
def accumulate (depth : Nat) (tiles : List Tile) : Except Error (Option Histogram) :=
  tiles.foldlM (fun h t => (Histogram.ofTile t depth t.bands h).map some) none

open Histogram

variable {n depth : Nat} {tiles : List Tile}

def total (n depth : Nat) (tiles : List Tile) : Tally n depth := (tiles.map (tileTally n depth)).sum

theorem total_cons (t : Tile) :
    total n depth (t :: tiles) = tileTally n depth t + total n depth tiles := by
  rw [total, List.map_cons, List.sum_cons, total]

theorem total_append (ts us : List Tile) :
    total n depth (ts ++ us) = total n depth ts + total n depth us := by
  rw [total, List.map_append, List.sum_append, total, total]

/-- The order of the tiles makes no difference to their total. -/
theorem total_perm {ts us : List Tile} (h : ts.Perm us) : total n depth ts = total n depth us :=
  (h.map _).sum_eq

/-- Blank tiles add nothing. -/
theorem total_present (tiles : List Tile) : total n depth (present tiles) = total n depth tiles := by
  induction tiles with
  | nil => rfl
  | cons t tiles ih =>
    rw [present, List.filter_cons, total_cons]
    by_cases ht : t.isBlank = true
    · rw [if_neg (by simp [ht]), tileTally_of_isBlank ht, zero_add]
      exact ih
    · rw [if_pos (by simpa using ht), total_cons]
      exact congrArg (tileTally n depth t + ·) ih

theorem ofTile_none {t : Tile} (hn : 0 < n) (ht : t.bandCount = n) :
    ofTile t depth t.bands none = .ok (ofTally (tileTally n depth t)) := by
  have h := ofTile_ofTally (d := depth) hn ht none
  rw [Option.getD_none, zero_add] at h
  exact h

/-- However tiles are combined, what comes of it is the histogram of their total. -/
theorem Reduction.histogram_eq (hn : 0 < n) (r : Reduction Tile)
    (hr : ∀ t ∈ r.leaves, t.bandCount = n) :
    r.histogram depth = .ok (ofTally (total n depth r.leaves)) := by
  induction r with
  | one t =>
    have ht : t.bandCount = n := hr t (by simp [leaves])
    rw [histogram, ofTile_none hn ht]
    simp [total, leaves]
  | both l r ihl ihr =>
    have hl := ihl fun t ht => hr t (by simp [leaves, ht])
    have hr := ihr fun t ht => hr t (by simp [leaves, ht])
    rw [histogram, hl, hr, leaves, total_append]
    exact merge_ofTally _ _

theorem histograms_eq (hn : 0 < n) (h : ∀ t ∈ tiles, t.bandCount = n) :
    histograms depth tiles = .ok (tiles.map fun t => ofTally (tileTally n depth t)) := by
  induction tiles with
  | nil => rfl
  | cons t tiles ih =>
    have ht : t.bandCount = n := h t (by simp)
    have htiles := ih fun u hu => h u (by simp [hu])
    unfold histograms at htiles ⊢
    rw [List.mapM_cons, ofTile_none hn ht, htiles]
    rfl

/-- Merging one by one adds one table after another. -/
theorem foldlM_merge (x : Tally n depth) (tiles : List Tile) :
    (tiles.map fun t => ofTally (tileTally n depth t)).foldlM Histogram.merge (ofTally x) =
      .ok (ofTally (x + total n depth tiles)) := by
  induction tiles generalizing x with
  | nil =>
    rw [total, List.map_nil, List.map_nil, List.sum_nil, add_zero]
    rfl
  | cons t tiles ih =>
    rw [List.map_cons, List.foldlM_cons, merge_ofTally, total_cons, ← add_assoc]
    exact ih _

/-- The histograms of tiles, merged into the first one, are that of their total. -/
theorem mergeAll_eq (hne : tiles ≠ []) :
    mergeAll (tiles.map fun t => ofTally (tileTally n depth t)) =
      .ok (some (ofTally (total n depth tiles))) := by
  cases tiles with
  | nil => exact absurd rfl hne
  | cons t tiles =>
    rw [List.map_cons, mergeAll, foldlM_merge, total_cons]
    rfl

theorem foldlM_ofTile (hn : 0 < n) (accumulator : Option (Tally n depth))
    (h : ∀ t ∈ tiles, t.bandCount = n) (hne : tiles ≠ []) :
    tiles.foldlM (fun h t => (ofTile t depth t.bands h).map some) (accumulator.map ofTally) =
      .ok (some (ofTally (accumulator.getD 0 + total n depth tiles))) := by
  induction tiles generalizing accumulator with
  | nil => exact absurd rfl hne
  | cons t tiles ih =>
    have ht : t.bandCount = n := h t (by simp)
    rw [List.foldlM_cons, ofTile_ofTally hn ht, total_cons, ← add_assoc]
    cases tiles with
    | nil =>
      rw [total, List.map_nil, List.sum_nil, add_zero]
      rfl
    | cons u tiles =>
      exact ih (some _) (fun v hv => h v (List.mem_cons_of_mem t hv)) (List.cons_ne_nil u tiles)

/-- A histogram that is handed on from tile to tile is that of their total. -/
theorem accumulate_eq (hn : 0 < n) (h : ∀ t ∈ tiles, t.bandCount = n) (hne : tiles ≠ []) :
    accumulate depth tiles = .ok (some (ofTally (total n depth tiles))) := by
  have hfold := foldlM_ofTile hn (none : Option (Tally n depth)) h hne
  rw [Option.getD_none, zero_add] at hfold
  exact hfold

theorem foldlM_merge_ofTile (hn : 0 < n) (x : Tally n depth) (h : ∀ t ∈ tiles, t.bandCount = n) :
    tiles.foldlM (fun h t => do h.merge (← ofTile t depth t.bands none)) (ofTally x) =
      .ok (ofTally (x + total n depth tiles)) := by
  induction tiles generalizing x with
  | nil =>
    rw [total, List.map_nil, List.sum_nil, add_zero]
    rfl
  | cons t tiles ih =>
    have ht : t.bandCount = n := h t (by simp)
    have hstep : (do (ofTally x).merge (← ofTile t depth t.bands none)) =
        .ok (ofTally (x + tileTally n depth t)) := by
      rw [ofTile_none hn ht]
      exact merge_ofTally _ _
    rw [List.foldlM_cons, hstep, total_cons, ← add_assoc]
    exact ih _ fun u hu => h u (List.mem_cons_of_mem t hu)

theorem viewportHistogram_of_nil (h : present tiles = []) :
    viewportHistogram tiles depth = .ok none := by
  have hfilter : tiles.filter (!·.isBlank) = [] := h
  unfold viewportHistogram
  rw [hfilter]
  rfl

/-- The merged histogram of a viewport is the total of its tiles. -/
theorem viewportHistogram_eq (hn : 0 < n) (h : ∀ t ∈ present tiles, t.bandCount = n)
    (hne : present tiles ≠ []) :
    viewportHistogram tiles depth = .ok (some (ofTally (total n depth (present tiles)))) := by
  cases hp : present tiles with
  | nil => exact absurd hp hne
  | cons t ts =>
    rw [hp] at h
    have hfilter : tiles.filter (!·.isBlank) = t :: ts := hp
    unfold viewportHistogram
    rw [hfilter]
    have hfirst : ofTile t depth t.bands none = .ok (ofTally (tileTally n depth t)) :=
      ofTile_none hn (h t (by simp))
    have hts : ∀ u ∈ ts, u.bandCount = n := fun u hu => h u (List.mem_cons_of_mem t hu)
    have hrest := foldlM_merge_ofTile hn (tileTally n depth t) hts
    rw [total_cons]
    exact bind_eq_ok_iff.2 ⟨_, hfirst, bind_eq_ok_iff.2 ⟨_, hrest, rfl⟩⟩

theorem present_eq_nil_iff : present tiles = [] ↔ ∀ t ∈ tiles, t.isBlank = true := by
  simp [present]

/-- Tiles of one band count have one histogram, however they are counted. There is none only if
all tiles are blank, and neither the order of the tiles nor blank ones among them matter. -/
theorem viewport_histogram_unique (hn : 1 ≤ n) (hbands : ∀ t ∈ tiles, t.bandCount = n) :
    (viewportHistogram tiles depth = .ok none ↔ ∀ t ∈ tiles, t.isBlank = true) ∧
    ((∃ t ∈ tiles, t.isBlank = false) → ∃ h,
      viewportHistogram tiles depth = .ok (some h) ∧
      (∀ r : Reduction Tile, r.leaves.Perm (present tiles) → r.histogram depth = .ok h) ∧
      (∀ ts, ts.Perm (present tiles) →
        ∃ hs, histograms depth ts = .ok hs ∧ mergeAll hs = .ok (some h)) ∧
      (∀ ts, ts.Perm tiles → accumulate depth ts = .ok (some h))) ∧
    (∀ ts, (present ts).Perm (present tiles) →
      viewportHistogram ts depth = viewportHistogram tiles depth) := by
  have hpresent : ∀ t ∈ present tiles, t.bandCount = n :=
    fun t ht => hbands t (List.mem_of_mem_filter ht)
  refine ⟨?_, ?_, ?_⟩
  · rw [← present_eq_nil_iff]
    refine ⟨fun h => ?_, viewportHistogram_of_nil⟩
    by_contra hne
    rw [viewportHistogram_eq hn hpresent hne] at h
    cases h
  · rintro ⟨t, ht, hblank⟩
    have hne : present tiles ≠ [] := by
      intro h
      rw [present_eq_nil_iff.1 h t ht] at hblank
      cases hblank
    refine ⟨_, viewportHistogram_eq hn hpresent hne, ?_, ?_, ?_⟩
    · intro r hr
      rw [r.histogram_eq hn fun t ht => hpresent t (hr.mem_iff.1 ht), total_perm hr]
    · intro ts hts
      have hts' : ∀ t ∈ ts, t.bandCount = n := fun t ht => hpresent t (hts.mem_iff.1 ht)
      refine ⟨_, histograms_eq hn hts', ?_⟩
      rw [mergeAll_eq fun h => hne (List.nil_perm.1 (h ▸ hts)), total_perm hts]
    · intro ts hts
      have hts' : ∀ t ∈ ts, t.bandCount = n := fun t ht => hbands t (hts.mem_iff.1 ht)
      have htiles : ts ≠ [] := List.ne_nil_of_mem (hts.mem_iff.2 ht)
      rw [accumulate_eq hn hts' htiles, total_perm hts, total_present]
  · intro ts hts
    by_cases hne : present tiles = []
    · rw [viewportHistogram_of_nil hne]
      exact viewportHistogram_of_nil (List.perm_nil.1 (hne ▸ hts))
    · have hts' : ∀ t ∈ present ts, t.bandCount = n := fun t ht => hpresent t (hts.mem_iff.1 ht)
      have hne' : present ts ≠ [] := fun h => hne (List.nil_perm.1 (h ▸ hts))
      rw [viewportHistogram_eq hn hpresent hne, viewportHistogram_eq hn hts' hne', total_perm hts]

/-- Two tiles of one band, with a blank one between them. -/
def threeTiles : List Tile :=
  [⟨some ⟨.u8, 1, 1, 2, #[3, 0], rfl⟩, [.alpha], by simp⟩, .blank [.alpha],
    ⟨some ⟨.u8, 1, 1, 1, #[3], rfl⟩, [.alpha], by simp⟩]

theorem viewport_histogram_unique_threeTiles :
    (∀ t ∈ threeTiles, t.bandCount = 1) ∧
      ∃ h, viewportHistogram threeTiles 4 = .ok (some h) ∧
        accumulate 4 threeTiles.reverse = .ok (some h) := by
  have hbands : ∀ t ∈ threeTiles, t.bandCount = 1 := by decide
  have hsome : ∃ t ∈ threeTiles, t.isBlank = false := by decide
  obtain ⟨h, hview, -, -, hthread⟩ := (viewport_histogram_unique (le_refl 1) hbands).2.1 hsome
  exact ⟨hbands, h, hview, hthread _ (List.reverse_perm _)⟩

end RasterTile
