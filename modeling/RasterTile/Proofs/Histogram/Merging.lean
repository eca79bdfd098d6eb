import RasterTile.Proofs.Histogram.Counting
import RasterTile.Proofs.Outcome
import RasterTile.Proofs.Stretch.Crossing

/-!
# Merging histograms

A histogram only comes from an empty one, by counting tiles and by merging. So all its bands have as many
buckets as the first, and none of them holds more pixels than were counted, until the counter of pixels
stops. Of one shape, such histograms are a commutative monoid under merging: no bucket is lost where two
of them are gone through in step. Merging in place leaves what merging gives; if the shapes differ it
leaves the histogram as it is.
-/
namespace RasterTile.Histogram

variable {n d : Nat} {a b c h : Histogram}

/-! ## Merging in place -/

/-- Updates the elements that have a partner in the other list; those beyond it stay as they are. -/
def updateZip {α β : Type} (f : α → β → α) : List α → List β → List α
  | x :: xs, y :: ys => f x y :: updateZip f xs ys
  | xs, _ => xs

def addBuckets (buckets others : Array Bucket) : Array Bucket :=
  (updateZip Counter.add buckets.toList others.toList).toArray

def addCounters (other : Histogram) : StateM Histogram Unit := do
  modify fun h => { h with bands := updateZip addBuckets h.bands other.bands }
  modify fun h => { h with count := h.count.add other.count }

/-- Merging in place. The shapes are compared before anything is changed. -/
def absorb (other : Histogram) : ExceptT Error (StateM Histogram) Unit := do
  let h ← get
  if h.bandCount ≠ other.bandCount ∨ h.depth ≠ other.depth then
    throw (.mergeShape other.bandCount other.depth h.bandCount h.depth)
  else addCounters other

def absorbed (h other : Histogram) : Except Error Unit × Histogram := ((absorb other).run.run h).run

/-- With a partner for every element all of them are updated. -/
theorem updateZip_eq_zipWith {α β : Type} (f : α → β → α) {xs : List α} {ys : List β}
    (h : xs.length = ys.length) : updateZip f xs ys = List.zipWith f xs ys := by
  induction xs generalizing ys with
  | nil => rfl
  | cons x xs ih =>
    cases ys with
    | nil => cases h
    | cons y ys =>
      rw [updateZip, List.zipWith_cons_cons, ih (Nat.succ.inj h)]

def SameShape (a b : Histogram) : Prop := a.bandCount = b.bandCount ∧ a.depth = b.depth

instance (a b : Histogram) : Decidable (SameShape a b) := inferInstanceAs (Decidable (_ ∧ _))

theorem not_differ_iff : ¬ (a.bandCount ≠ b.bandCount ∨ a.depth ≠ b.depth) ↔ a.SameShape b := by
  rw [not_or, not_not, not_not, SameShape]

theorem merge_of_differ (h : ¬ a.SameShape b) :
    a.merge b = .error (.mergeShape b.bandCount b.depth a.bandCount a.depth) := by
  rw [← not_differ_iff, not_not] at h
  exact if_pos h

/-- Merging in place compares the shapes first, and then changes all of it. -/
theorem absorbed_eq (a b : Histogram) : absorbed a b =
    if a.bandCount ≠ b.bandCount ∨ a.depth ≠ b.depth then
      (.error (.mergeShape b.bandCount b.depth a.bandCount a.depth), a)
    else (.ok (), ⟨updateZip addBuckets a.bands b.bands, a.count.add b.count⟩) := by
  have hrun : absorbed a b = ((ExceptT.run (if a.bandCount ≠ b.bandCount ∨ a.depth ≠ b.depth then
      throw (.mergeShape b.bandCount b.depth a.bandCount a.depth)
    else addCounters b : ExceptT Error (StateM Histogram) Unit)).run a).run := rfl
  rw [hrun]
  split_ifs <;> rfl

theorem absorbed_of_differ (h : ¬ a.SameShape b) :
    absorbed a b = (.error (.mergeShape b.bandCount b.depth a.bandCount a.depth), a) := by
  rw [← not_differ_iff, not_not] at h
  rw [absorbed_eq, if_pos h]

theorem addBuckets_ofFn (f g : Fin d → Bucket) :
    addBuckets (Array.ofFn f) (Array.ofFn g) = Array.ofFn (f + g) := by
  rw [addBuckets, updateZip_eq_zipWith _ (by simp), ← Array.toList_zipWith, Array.toArray_toList,
    zipWith_ofFn]

/-- No bucket is passed over. -/
theorem absorbed_ofTally (x y : Tally n d) :
    absorbed (ofTally x) (ofTally y) = (.ok (), ofTally (x + y)) := by
  have hbands : updateZip addBuckets (ofTally x).bands (ofTally y).bands = (ofTally (x + y)).bands := by
    rw [updateZip_eq_zipWith _ (by simp [ofTally])]
    apply List.ext_getElem
    · simp [ofTally]
    · intro b _ _
      simp only [ofTally, List.getElem_zipWith, List.getElem_ofFn]
      exact addBuckets_ofFn _ _
  have hshape : ¬ ((ofTally x).bandCount ≠ (ofTally y).bandCount ∨
      (ofTally x).depth ≠ (ofTally y).depth) := by
    simp [depth_ofTally_congr x y]
  rw [absorbed_eq, if_neg hshape, hbands]
  rfl

/-! ## What every histogram keeps -/

/-- The bands have as many buckets as the first, and none of them holds more pixels than were counted
until the counter of pixels stops. -/
structure Sound (h : Histogram) : Prop where
  rectangular : ∀ buckets ∈ h.bands, buckets.size = h.depth
  mass_le : h.count.val < UInt64.size - 1 → ∀ buckets ∈ h.bands, mass buckets ≤ h.count.val

def Consistent (x : Tally n d) : Prop :=
  x.2.val < UInt64.size - 1 → ∀ b, ∑ v, (x.1 b v).val ≤ x.2.val

theorem consistent_zero : Consistent (0 : Tally n d) := by
  intro _ b
  exact (Finset.sum_eq_zero fun _ _ => rfl).le

/-- Counters that stop do not stop earlier than their sum. -/
theorem Consistent.add {x y : Tally n d} (hx : Consistent x) (hy : Consistent y) :
    Consistent (x + y) := by
  intro hlt b
  have hcount : (x + y).2.val = min (x.2.val + y.2.val) (UInt64.size - 1) := rfl
  rw [hcount] at hlt ⊢
  have hxb := hx (by omega) b
  have hyb := hy (by omega) b
  calc ∑ v, ((x + y).1 b v).val
      ≤ ∑ v, ((x.1 b v).val + (y.1 b v).val) := Finset.sum_le_sum fun _ _ => Nat.min_le_left _ _
    _ = ∑ v, (x.1 b v).val + ∑ v, (y.1 b v).val := Finset.sum_add_distrib
    _ ≤ x.2.val + y.2.val := Nat.add_le_add hxb hyb
    _ = min (x.2.val + y.2.val) (UInt64.size - 1) := by omega

/-- A value falls into one bucket at most. -/
theorem sum_valueTally_le (v : Float) : ∑ i : Fin d, (valueTally v i).val ≤ 1 := by
  have hone (i : Fin d) : (valueTally v i).val = if bucket? v = some i.val then 1 else 0 := by
    unfold valueTally
    split <;> rfl
  simp only [hone, Finset.sum_boole, Nat.cast_id]
  refine Finset.card_le_one.2 fun i hi j hj => ?_
  rw [Finset.mem_filter] at hi hj
  exact Fin.ext (Option.some.inj (hi.2.symm.trans hj.2))

/-- A pixel adds at most one to each band, and one to the total. -/
theorem consistent_pixelTally (pixel : List Float) : Consistent (pixelTally n d pixel) := by
  unfold pixelTally
  by_cases hvalid : pixel.getLast?.any Scalar.isNonzero = true
  · rw [if_pos hvalid]
    intro _ b
    change ∑ v, (pixel[b.val]?.elim 0 valueTally v).val ≤ 1
    cases pixel[b.val]? with
    | none => exact (Finset.sum_eq_zero fun _ _ => rfl).le.trans (Nat.zero_le 1)
    | some v => exact sum_valueTally_le v
  · rw [if_neg hvalid]
    exact consistent_zero

/-- The pixels of a band are the sum of its buckets. -/
theorem mass_ofFn (f : Fin d → Bucket) : mass (Array.ofFn f) = ∑ v, (f v).val := by
  rw [mass, Array.toList_ofFn, List.map_ofFn, List.sum_ofFn]
  rfl

/-- The histogram of a consistent table is sound. -/
theorem Consistent.sound {x : Tally n d} (hx : Consistent x) : Sound (ofTally x) := by
  refine ⟨fun buckets hmem => ?_, fun hlt buckets hmem => ?_⟩
  · obtain ⟨b, -⟩ := List.mem_ofFn.1 hmem
    rw [(hasShape_ofTally x).depth buckets hmem, depth_ofTally (Nat.zero_lt_of_lt b.isLt)]
  · obtain ⟨b, rfl⟩ := List.mem_ofFn.1 hmem
    rw [mass_ofFn]
    exact hx hlt b

/-- A sound histogram is a consistent table of its shape. -/
theorem Sound.exists_tally (hs : Sound h) (hn : h.bandCount = n) (hd : h.depth = d) :
    ∃ x : Tally n d, Consistent x ∧ ofTally x = h := by
  have hshape : h.HasShape n d := ⟨hn, hd ▸ hs.rectangular⟩
  obtain ⟨x, rfl⟩ := hshape.exists_tally
  refine ⟨x, fun hlt b => ?_, rfl⟩
  rw [← mass_ofFn]
  exact hs.mass_le hlt _ (List.mem_ofFn.2 ⟨b, rfl⟩)

/-- Sound histograms of one shape come from tables of one shape. -/
theorem SameShape.exists_tallies (hs : a.SameShape b) (ha : Sound a) (hb : Sound b) :
    ∃ n d, ∃ x y : Tally n d, Consistent x ∧ Consistent y ∧ ofTally x = a ∧ ofTally y = b := by
  obtain ⟨x, hx, hxa⟩ := ha.exists_tally rfl rfl
  obtain ⟨y, hy, hyb⟩ := hb.exists_tally hs.1.symm hs.2.symm
  exact ⟨_, _, x, y, hx, hy, hxa, hyb⟩

/-- Without any band an empty histogram of any depth will do. -/
theorem Sound.hasShape (ha : Sound a) (hs : a.SameShape (empty n d)) : a.HasShape n d := by
  rw [← ofTally_zero] at hs
  have hcount : a.bandCount = n := hs.1.trans (bandCount_ofTally 0)
  refine ⟨hcount, fun buckets hmem => ?_⟩
  have hpos : 0 < n := hcount ▸ List.length_pos_of_mem hmem
  rw [ha.rectangular buckets hmem, hs.2, depth_ofTally hpos]

theorem sound_empty (n d : Nat) : Sound (empty n d) := by
  rw [← ofTally_zero]
  exact consistent_zero.sound

/-- Counting a pixel keeps a histogram sound. -/
theorem Sound.recordValid (hs : Sound h) (pixel : List Float) : Sound (recordValid h pixel) := by
  obtain ⟨x, hx, hxh⟩ := hs.exists_tally rfl rfl
  rw [← hxh, recordValid_ofTally]
  exact (hx.add (consistent_pixelTally pixel)).sound

/-- So does counting one after the other. -/
theorem Sound.foldl_recordValid (hs : Sound h) (pixels : List (List Float)) :
    Sound (pixels.foldl Histogram.recordValid h) := by
  induction pixels generalizing h with
  | nil => exact hs
  | cons pixel pixels ih => exact ih (hs.recordValid pixel)

theorem start_eq_ok {bandCount depth : Nat} {accumulator : Option Histogram}
    (hstart : start bandCount depth accumulator = .ok h) :
    h = empty bandCount depth ∨ h ∈ accumulator := by
  cases accumulator with
  | none =>
    cases hstart
    exact .inl rfl
  | some a =>
    rw [start] at hstart
    split_ifs at hstart
    cases hstart
    exact .inr rfl

theorem ofTile_eq_ok {tile : Tile} {depth : Nat} {bands : BandOrder} {accumulator : Option Histogram}
    (hcounted : ofTile tile depth bands accumulator = .ok h) :
    ∃ base, start bands.length depth accumulator = .ok base ∧
      h = tile.pixels.foldl recordValid base := by
  rw [ofTile] at hcounted
  split_ifs at hcounted with hbands
  · cases hcounted
  · obtain ⟨base, hbase, hpixels⟩ := bind_eq_ok_iff.1 hcounted
    rw [Tile.visitPixels_eq_foldl] at hpixels
    exact ⟨base, hbase, (pure_eq_ok_iff.1 hpixels).symm⟩

/-- Merging keeps histograms sound. -/
theorem Sound.merge (ha : Sound a) (hb : Sound b) (hm : a.merge b = .ok h) : Sound h := by
  by_cases hs : a.SameShape b
  · obtain ⟨n, d, x, y, hx, hy, rfl, rfl⟩ := hs.exists_tallies ha hb
    rw [merge_ofTally] at hm
    cases hm
    exact (hx.add hy).sound
  · rw [merge_of_differ hs] at hm
    cases hm

theorem Sound.absorbed (ha : Sound a) (hb : Sound b) : Sound (absorbed a b).2 := by
  by_cases hs : a.SameShape b
  · obtain ⟨n, d, x, y, hx, hy, rfl, rfl⟩ := hs.exists_tallies ha hb
    rw [absorbed_ofTally]
    exact (hx.add hy).sound
  · rw [absorbed_of_differ hs]
    exact ha

inductive Reachable : Histogram → Prop
  | empty (bandCount depth : Nat) : Reachable (empty bandCount depth)
  | counted {h : Histogram} (tile : Tile) (depth : Nat) (bands : BandOrder)
      (accumulator : Option Histogram) :
      (∀ a ∈ accumulator, Reachable a) → ofTile tile depth bands accumulator = .ok h → Reachable h
  | merged {a b h : Histogram} : Reachable a → Reachable b → a.merge b = .ok h → Reachable h
  | absorbed {a b : Histogram} : Reachable a → Reachable b → Reachable (absorbed a b).2

/-- All histograms that come about are sound. -/
theorem Reachable.sound (hr : Reachable h) : Sound h := by
  induction hr with
  | empty bandCount depth => exact sound_empty bandCount depth
  | counted tile depth bands accumulator _ hcounted ih =>
    obtain ⟨base, hbase, rfl⟩ := ofTile_eq_ok hcounted
    refine Sound.foldl_recordValid ?_ _
    rcases start_eq_ok hbase with rfl | hmem
    · exact sound_empty bands.length depth
    · exact ih base hmem
  | merged _ _ hm iha ihb => exact iha.merge ihb hm
  | absorbed _ _ iha ihb => exact iha.absorbed ihb

/-! ## The laws of merging -/

/-- Histograms that come about are sound, and those of one shape can be merged: each counter of the
result is the sum of two, up to its limit, whichever of them is merged into which, and in place as well.
Merging is associative, and an empty histogram changes nothing. Histograms of other shapes are not
merged, and nothing happens to the one that would be merged into. -/
theorem reachable_merge_laws :
    (∀ h, Reachable h → Sound h) ∧
    (∀ a b, Reachable a → Reachable b → a.SameShape b →
      ∃ c, a.merge b = .ok c ∧ b.merge a = .ok c ∧ absorbed a b = (.ok (), c) ∧
        c.SameShape a ∧ c.count.val = min (2 ^ 64 - 1) (a.count.val + b.count.val) ∧
        ∀ i < a.bandCount, ∀ v < a.depth, ∃ m k, a.bucketAt? i v = some m ∧
          b.bucketAt? i v = some k ∧ c.bucketAt? i v = some (min (2 ^ 32 - 1) (m + k))) ∧
    (∀ a b c, Reachable a → Reachable b → Reachable c → a.SameShape b → b.SameShape c →
      ∃ d, a.merge b >>= (·.merge c) = .ok d ∧ b.merge c >>= (a.merge ·) = .ok d) ∧
    (∀ a n d, Reachable a → a.SameShape (empty n d) →
      a.merge (empty n d) = .ok a ∧ (empty n d).merge a = .ok a) ∧
    (∀ a b, ¬ a.SameShape b →
      a.merge b = .error (.mergeShape b.bandCount b.depth a.bandCount a.depth) ∧
      absorbed a b = (.error (.mergeShape b.bandCount b.depth a.bandCount a.depth), a)) := by
  refine ⟨fun h hr => hr.sound, fun a b ha hb hs => ?_, fun a b c ha hb hc hab hbc => ?_,
    fun a n d ha hs => ?_, fun a b h => ⟨merge_of_differ h, absorbed_of_differ h⟩⟩
  · obtain ⟨n, d, x, y, -, -, rfl, rfl⟩ := hs.exists_tallies ha.sound hb.sound
    refine ⟨ofTally (x + y), merge_ofTally x y, ?_, absorbed_ofTally x y, ?_, ?_, ?_⟩
    · rw [merge_ofTally, add_comm]
    · exact ⟨by simp, depth_ofTally_congr _ _⟩
    · exact Nat.min_comm _ _
    · intro i hi v hv
      have hi : i < n := by simpa using hi
      have hv : v < d := by rwa [depth_ofTally (Nat.zero_lt_of_lt hi)] at hv
      refine ⟨_, _, bucketAt?_ofTally x hi hv, bucketAt?_ofTally y hi hv, ?_⟩
      rw [bucketAt?_ofTally _ hi hv]
      exact congrArg some (Nat.min_comm _ _)
  · obtain ⟨n, hn⟩ : ∃ n, a.bandCount = n := ⟨_, rfl⟩
    obtain ⟨d, hd⟩ : ∃ d, a.depth = d := ⟨_, rfl⟩
    obtain ⟨x, -, rfl⟩ := ha.sound.exists_tally hn hd
    obtain ⟨y, -, rfl⟩ := hb.sound.exists_tally (hab.1.symm.trans hn) (hab.2.symm.trans hd)
    obtain ⟨z, -, rfl⟩ := hc.sound.exists_tally (hbc.1.symm.trans (hab.1.symm.trans hn))
      (hbc.2.symm.trans (hab.2.symm.trans hd))
    refine ⟨ofTally (x + y + z), ?_, ?_⟩
    · rw [merge_ofTally, ok_bind, merge_ofTally]
    · rw [merge_ofTally, ok_bind, merge_ofTally, add_assoc]
  · obtain ⟨x, rfl⟩ := (ha.sound.hasShape hs).exists_tally
    rw [← ofTally_zero]
    exact ⟨by rw [merge_ofTally, add_zero], by rw [merge_ofTally, zero_add]⟩

/-- Two tiles, one with a value beyond the depth of 2, are counted and merged with each other. -/
def dim : Tile := ⟨some ⟨.u8, 1, 1, 3, #[1, 1, 1], rfl⟩, [.alpha], by simp⟩

def glaring : Tile := ⟨some ⟨.u8, 1, 1, 2, #[1, 9], rfl⟩, [.alpha], by simp⟩

def dimCounted : Histogram := ⟨[#[.zero, ⟨3, by decide⟩]], ⟨3, by decide⟩⟩

def glaringCounted : Histogram := ⟨[#[.zero, Counter.zero.succ]], ⟨2, by decide⟩⟩

theorem reachable_merge_laws_twoTiles : Reachable dimCounted ∧ Reachable glaringCounted ∧
    Sound glaringCounted ∧ dimCounted.SameShape glaringCounted ∧
    (∃ c, dimCounted.merge glaringCounted = .ok c ∧ glaringCounted.merge dimCounted = .ok c ∧
      c.count.val = 5 ∧ c.bucketAt? 0 1 = some 4) ∧
    ¬ dimCounted.SameShape (empty 1 3) ∧
    absorbed dimCounted (empty 1 3) = (.error (.mergeShape 1 3 1 2), dimCounted) := by
  have hdim : Reachable dimCounted := .counted dim 2 [.alpha] none (by simp)
    (toOption_eq_some_iff.1 (by decide +kernel))
  have hglaring : Reachable glaringCounted := .counted glaring 2 [.alpha] none (by simp)
    (toOption_eq_some_iff.1 (by decide +kernel))
  have hshape : dimCounted.SameShape glaringCounted := by decide
  have hother : ¬ dimCounted.SameShape (empty 1 3) := by decide
  obtain ⟨hsound, hmerge, -, -, hdiffer⟩ := reachable_merge_laws
  obtain ⟨c, hc, hc', -, -, hcount, hbuckets⟩ := hmerge _ _ hdim hglaring hshape
  obtain ⟨m, k, hm, hk, hmk⟩ := hbuckets 0 (by decide) 1 (by decide)
  cases hm
  cases hk
  exact ⟨hdim, hglaring, hsound _ hglaring, hshape, ⟨c, hc, hc', hcount, hmk⟩, hother,
    (hdiffer _ _ hother).2⟩

end RasterTile.Histogram
