import RasterTile.Histogram
import RasterTile.Proofs.Tile
import Mathlib

/-!
# Histograms as sums

Counters that stop at a limit form a commutative monoid, and so do tables of them. A histogram of
`n` bands and `d` buckets is such a table; merging adds two of them, and counting a pixel adds the
table of that pixel. Whatever a tile is counted on top of, it adds the same.
-/
namespace RasterTile

namespace Counter

variable {limit : Nat}

instance : Zero (Counter limit) := ⟨zero⟩
instance : Add (Counter limit) := ⟨add⟩

instance : AddCommMonoid (Counter limit) where
  add_assoc a b c := by
    ext
    change min (min (a.val + b.val) limit + c.val) limit =
      min (a.val + min (b.val + c.val) limit) limit
    omega
  zero_add a := by
    ext
    change min (0 + a.val) limit = a.val
    have h := a.val_le
    omega
  add_zero a := by
    ext
    change min (a.val + 0) limit = a.val
    have h := a.val_le
    omega
  add_comm a b := by
    ext
    change min (a.val + b.val) limit = min (b.val + a.val) limit
    omega
  nsmul := nsmulRec

/-- Counting one more is adding one. -/
theorem succ_eq_add (a : Counter limit) : a.succ = a + zero.succ := by
  ext
  change min (a.val + 1) limit = min (a.val + min (0 + 1) limit) limit
  omega

end Counter

namespace Histogram

abbrev Tally (n d : Nat) := (Fin n → Fin d → Bucket) × PixelTotal

variable {n d : Nat}

def ofTally (x : Tally n d) : Histogram := ⟨List.ofFn fun b => Array.ofFn (x.1 b), x.2⟩

theorem ofTally_zero : ofTally (0 : Tally n d) = empty n d := by
  have hbuckets : Array.ofFn (0 : Fin d → Bucket) = Array.replicate d .zero := by
    apply Array.ext
    · simp
    · intro i _ _
      simp
      rfl
  change (⟨List.ofFn fun _ => Array.ofFn (0 : Fin d → Bucket), .zero⟩ : Histogram) = _
  rw [List.ofFn_const, hbuckets]
  rfl

@[simp] theorem bandCount_ofTally (x : Tally n d) : (ofTally x).bandCount = n := List.length_ofFn

theorem depth_ofTally (hn : 0 < n) (x : Tally n d) : (ofTally x).depth = d := by
  obtain ⟨n, rfl⟩ := Nat.exists_eq_succ_of_ne_zero (Nat.ne_of_gt hn)
  simp [depth, ofTally, List.ofFn_succ]

theorem zipWith_ofFn (f g : Fin d → Bucket) :
    Array.zipWith Counter.add (Array.ofFn f) (Array.ofFn g) = Array.ofFn (f + g) := by
  apply Array.ext
  · simp
  · intro i _ _
    simp
    rfl

/-- Without any band there is no depth. -/
theorem depth_ofTally_congr (x y : Tally n d) : (ofTally x).depth = (ofTally y).depth := by
  cases n with
  | zero => rfl
  | succ n => rw [depth_ofTally n.succ_pos, depth_ofTally n.succ_pos]

/-- Merging adds. -/
theorem merge_ofTally (x y : Tally n d) :
    (ofTally x).merge (ofTally y) = .ok (ofTally (x + y)) := by
  have hbands : List.zipWith (Array.zipWith Counter.add) (ofTally x).bands (ofTally y).bands =
      (ofTally (x + y)).bands := by
    apply List.ext_getElem
    · simp [ofTally]
    · intro b _ _
      simp only [ofTally, List.getElem_zipWith, List.getElem_ofFn]
      exact zipWith_ofFn _ _
  have hshape : ¬ ((ofTally x).bandCount ≠ (ofTally y).bandCount ∨
      (ofTally x).depth ≠ (ofTally y).depth) := by
    simp [depth_ofTally_congr x y]
  rw [merge, if_neg hshape, hbands]
  rfl

/-! ## Pixels -/

def valueTally (v : Float) : Fin d → Bucket :=
  fun i => if bucket? v = some i.val then Counter.zero.succ else 0

/-- Counting a value adds one to its bucket. -/
theorem countValue_ofFn (f : Fin d → Bucket) (v : Float) :
    countValue (Array.ofFn f) v = Array.ofFn (f + valueTally v) := by
  unfold countValue
  cases hb : bucket? v with
  | none =>
    have hzero : valueTally v = (0 : Fin d → Bucket) := by
      funext i
      simp [valueTally, hb]
    rw [hzero, add_zero]
  | some b =>
    apply Array.ext
    · simp
    · intro i hi _
      have hi : i < d := by simpa using hi
      simp only [Array.getElem_modify, Array.getElem_ofFn, Pi.add_apply, valueTally, hb,
        Option.some.injEq]
      by_cases hbi : b = i
      · rw [if_pos hbi, if_pos hbi, Counter.succ_eq_add]
      · rw [if_neg hbi, if_neg hbi, add_zero]

theorem countValues_ofFn (f : Fin n → Fin d → Bucket) (values : List Float) :
    countValues (List.ofFn fun b => Array.ofFn (f b)) values =
      List.ofFn fun b => Array.ofFn (f b + values[b.val]?.elim 0 valueTally) := by
  induction n generalizing values with
  | zero => rfl
  | succ n ih =>
    rw [List.ofFn_succ, List.ofFn_succ]
    cases values with
    | nil => simp [countValues]
    | cons v values =>
      rw [countValues, countValue_ofFn, ih]
      simp

def pixelTally (n d : Nat) (pixel : List Float) : Tally n d :=
  if pixel.getLast?.any Scalar.isNonzero then
    (fun b => pixel[b.val]?.elim 0 valueTally, Counter.zero.succ)
  else 0

/-- Recording a pixel adds its table. -/
theorem recordValid_ofTally (x : Tally n d) (pixel : List Float) :
    recordValid (ofTally x) pixel = ofTally (x + pixelTally n d pixel) := by
  unfold recordValid pixelTally
  by_cases hvalid : pixel.getLast?.any Scalar.isNonzero = true
  · rw [if_pos hvalid, if_pos hvalid, record, ofTally, countValues_ofFn, Counter.succ_eq_add]
    rfl
  · rw [if_neg hvalid, if_neg hvalid, add_zero]

/-- Recording pixels one after the other adds all their tables. -/
theorem foldl_recordValid (x : Tally n d) (pixels : List (List Float)) :
    pixels.foldl recordValid (ofTally x) = ofTally (x + (pixels.map (pixelTally n d)).sum) := by
  induction pixels generalizing x with
  | nil => simp
  | cons pixel pixels ih =>
    rw [List.foldl_cons, recordValid_ofTally, ih, List.map_cons, List.sum_cons, add_assoc]

/-! ## Tiles -/

def tileTally (n d : Nat) (t : Tile) : Tally n d := (t.pixels.map (pixelTally n d)).sum

theorem tileTally_of_isBlank {t : Tile} (h : t.isBlank = true) : tileTally n d t = 0 := by
  have hpixels : t.pixels = [] := by
    rw [Tile.pixels_eq_map, Tile.pixelCount_of_isBlank h]
    rfl
  rw [tileTally, hpixels]
  rfl

theorem start_ofTally (hn : 0 < n) (accumulator : Option (Tally n d)) :
    start n d (accumulator.map ofTally) = .ok (ofTally (accumulator.getD 0)) := by
  cases accumulator with
  | none =>
    rw [Option.getD_none, ofTally_zero]
    rfl
  | some x =>
    have hshape : ¬ ((ofTally x).bandCount ≠ n ∨ (ofTally x).depth ≠ d) := by
      simp [depth_ofTally hn]
    rw [Option.map_some, start, if_neg hshape, Option.getD_some]

/-- A tile adds the same to any accumulator, under any order of as many bands. -/
theorem ofTile_order {t : Tile} {bands : BandOrder} (hn : 0 < n) (hbands : bands.length = n)
    (ht : t.bandCount = n) (accumulator : Option (Tally n d)) :
    ofTile t d bands (accumulator.map ofTally) =
      .ok (ofTally (accumulator.getD 0 + tileTally n d t)) := by
  have hsame : ¬ ((!t.isBlank) = true ∧ bands.length ≠ t.bandCount) :=
    fun h => h.2 (hbands.trans ht.symm)
  rw [ofTile, if_neg hsame, hbands, start_ofTally hn]
  change Except.ok (t.visitPixels (fun h values _ => h.recordValid values)
    (ofTally (accumulator.getD 0))) = _
  rw [Tile.visitPixels_eq_foldl, foldl_recordValid]
  rfl

/-- Counting a tile adds the tile's table to that of the accumulator. -/
theorem ofTile_ofTally {t : Tile} (hn : 0 < n) (ht : t.bandCount = n)
    (accumulator : Option (Tally n d)) :
    ofTile t d t.bands (accumulator.map ofTally) =
      .ok (ofTally (accumulator.getD 0 + tileTally n d t)) :=
  ofTile_order hn ht ht accumulator

end Histogram
end RasterTile
