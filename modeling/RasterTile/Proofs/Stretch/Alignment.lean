import RasterTile.Proofs.Histogram.Merging
import RasterTile.Proofs.Histogram.Viewport
import RasterTile.Proofs.Program.Rearrangement
import RasterTile.Proofs.Stretch.Automatic
import RasterTile.Proofs.Style.LookupTable

/-!
# Ranges and positions

Where a band is, is found out again and again: a tile is counted in the order of its bands, the ranges
come in the order of the counted bands, and a letter stands for the first position that the order has it
at. All of these agree. So a style that names a band by its letter gets the range of that band's own
buckets, or learns that there are too few pixels in them; of a band that an order has twice, the first
one is meant.
-/
namespace RasterTile

namespace Histogram

open ExactValue (extended?)

variable {n d : Nat} {h : Histogram} {s : StretchSettings} {buckets : Array Bucket}

/-! ## The histogram of a viewport -/

theorem consistent_tileTally (t : Tile) : Consistent (tileTally n d t) := by
  refine List.sum_induction Consistent (fun _ _ => Consistent.add) consistent_zero ?_
  rw [List.forall_mem_map]
  exact fun pixel _ => consistent_pixelTally pixel

/-- A tile of as many bands is counted by a consistent table. -/
theorem exists_ofTile {t : Tile} (ht : t.bandCount = n) :
    ∃ x : Tally n d, Consistent x ∧ ofTile t d t.bands none = .ok (ofTally x) := by
  subst ht
  refine ⟨_, consistent_tileTally t, ?_⟩
  have hsame : ¬ ((!t.isBlank) = true ∧ t.bands.length ≠ t.bandCount) := fun h => h.2 rfl
  have hcount : t.pixels.foldl recordValid (empty t.bandCount d) =
      ofTally (tileTally t.bandCount d t) := by
    rw [← ofTally_zero, foldl_recordValid, zero_add, tileTally]
  rw [ofTile, if_neg hsame, ← hcount, ← Tile.visitPixels_eq_foldl]
  rfl

/-- Merging tiles into a table one by one gives a table again. -/
theorem exists_foldlM_merge {tiles : List Tile} (htiles : ∀ t ∈ tiles, t.bandCount = n)
    {x : Tally n d} (hx : Consistent x) : ∃ y : Tally n d, Consistent y ∧
      tiles.foldlM (fun h t => do h.merge (← ofTile t d t.bands none)) (ofTally x) =
        .ok (ofTally y) := by
  induction tiles generalizing x with
  | nil => exact ⟨x, hx, rfl⟩
  | cons t tiles ih =>
    rw [List.forall_mem_cons] at htiles
    obtain ⟨y, hy, hsingle⟩ := exists_ofTile (d := d) htiles.1
    obtain ⟨z, hz, hrest⟩ := ih htiles.2 (hx.add hy)
    refine ⟨z, hz, ?_⟩
    rw [List.foldlM_cons, hsingle]
    exact bind_eq_ok_iff.2 ⟨_, merge_ofTally x y, hrest⟩

/-- Tiles with a tensor and with equally many bands have a histogram, even if they have no bands. -/
theorem exists_viewportHistogram {tiles : List Tile} (hne : tiles ≠ [])
    (htiles : ∀ t ∈ tiles, t.isBlank = false ∧ t.bandCount = n) :
    ∃ x : Tally n d, Consistent x ∧ viewportHistogram tiles d = .ok (some (ofTally x)) := by
  have hpresent : tiles.filter (!·.isBlank) = tiles :=
    List.filter_eq_self.2 fun t ht => by rw [(htiles t ht).1]; rfl
  cases tiles with
  | nil => exact absurd rfl hne
  | cons t tiles =>
    rw [List.forall_mem_cons] at htiles
    obtain ⟨x, hx, hfirst⟩ := exists_ofTile (d := d) htiles.1.2
    obtain ⟨y, hy, hrest⟩ := exists_foldlM_merge (fun t ht => (htiles.2 t ht).2) hx
    refine ⟨y, hy, ?_⟩
    unfold viewportHistogram
    rw [hpresent]
    exact bind_eq_ok_iff.2 ⟨_, hfirst, bind_eq_ok_iff.2 ⟨_, hrest, rfl⟩⟩

/-- Tables of fewer than `2 ^ 53` pixels are counted exactly. -/
theorem Consistent.countable {x : Tally n d} (hx : Consistent x) (hd : d ≤ UInt32.size)
    (hexact : x.2.val < 2 ^ 53) : ∀ buckets ∈ (ofTally x).bands, Countable buckets := by
  intro buckets hmem
  have hmass := hx.sound.mass_le (hexact.trans (by decide)) buckets hmem
  rw [Countable, (hasShape_ofTally x).depth buckets hmem]
  exact ⟨hd, hmass.trans_lt hexact⟩

/-! ## The range of a band -/

def window (h : Histogram) (s : StretchSettings) (buckets : Array Bucket) : BandRange :=
  if h.count.val = 0 then .unavailable
  else range (h.threshold s.lowPercent) (h.threshold s.highPercent) buckets

theorem getElem?_ranges (h : Histogram) (s : StretchSettings) (i : Nat) :
    (h.ranges s.lowPercent s.highPercent)[i]? = h.bands[i]?.map (h.window s) := List.getElem?_map ..

/-- A band that can be stretched: some pixel was counted, and the band has more of them than either
threshold says. -/
structure Filled (h : Histogram) (s : StretchSettings) (buckets : Array Bucket) : Prop where
  counted : 0 < h.count.val
  low : ∃ a, extended? (h.threshold s.lowPercent) = some a ∧ a < mass buckets
  high : ∃ b, extended? (h.threshold s.highPercent) = some b ∧ b < mass buckets

/-- A histogram that is counted exactly, and settings that ask for shares of it. -/
structure Measured (h : Histogram) (s : StretchSettings) : Prop where
  exact : h.count.val < 2 ^ 53
  countable : ∀ buckets ∈ h.bands, Countable buckets
  low_nonneg : 0 ≤ s.lowPercent
  high_nonneg : 0 ≤ s.highPercent

/-- A window is there if the band is filled. -/
theorem Measured.window_isAvailable_iff (hs : h.Measured s) (hbuckets : buckets ∈ h.bands) :
    (h.window s buckets).isAvailable = true ↔ h.Filled s buckets := by
  rcases Nat.eq_zero_or_pos h.count.val with hzero | hcount
  · rw [window, if_pos hzero]
    exact iff_of_false (by decide) fun hfilled => hfilled.counted.ne' hzero
  · obtain ⟨a, ha, hnonneg⟩ := extended?_threshold hcount hs.exact hs.low_nonneg
    obtain ⟨b, hb, -⟩ := extended?_threshold hcount hs.exact hs.high_nonneg
    obtain ⟨hsize, hmass⟩ := hs.countable buckets hbuckets
    rw [window, if_neg hcount.ne', (placed hsize hmass ha hb).isAvailable_iff hnonneg]
    constructor
    · rintro ⟨hlow, hhigh⟩
      exact ⟨hcount, ⟨a, ha, hlow⟩, b, hb, hhigh⟩
    · rintro ⟨-, ⟨a', ha', hlow⟩, b', hb', hhigh⟩
      cases ha.symm.trans ha'
      cases hb.symm.trans hb'
      exact ⟨hlow, hhigh⟩

/-- Where a band is first in an order, and the buckets that a histogram has there. -/
structure Keeps (h : Histogram) (order : BandOrder) (b : Band) (i : Nat)
    (buckets : Array Bucket) : Prop where
  position : order.idxOf? b = some i
  counts : h.bands[i]? = some buckets

variable {order : BandOrder} {b : Band} {i : Nat}

/-- The band of a letter has buckets. -/
theorem exists_keeps (hbands : h.bands.length = order.length) (hb : b ∈ order) :
    ∃ i buckets, h.Keeps order b i buckets := by
  cases hi : order.idxOf? b with
  | none => exact absurd hb (List.idxOf?_eq_none_iff.1 hi)
  | some i =>
    obtain ⟨hlt, -⟩ := List.idxOf?_eq_some_iff.1 hi
    exact ⟨i, _, hi, List.getElem?_eq_getElem (hbands ▸ hlt)⟩

end Histogram

/-! ## References by letter -/

namespace Program

variable {scope : Scope} {table : Table} {b : Band} {i : Nat} {range : BandRange} {rest : List Token}

/-- Once an index is known to be a position, a reference fails only for what is there. -/
theorem indexed_of_spells {ts : List Token} {e : Expr} (h : Spells .sum ts e)
    (he : e.Admissible scope) (hi : Parser.position table (e.fold scope) = .ok i)
    (rest : List Token) :
    ∃ fewer, Parser.indexed scope table (.openBracket :: (ts ++ .closeBracket :: rest)) =
      (Parser.select scope table i).map fun code => ⟨code, rest, fewer⟩ := by
  have hend : Phrase.sum.Stops (.closeBracket :: rest) := by simp [Phrase.Stops]
  obtain ⟨hfewer, hsum⟩ := h.reads he _ hend
  have hopen : Parser.expect .openBracket .openBracket
      (.openBracket :: (ts ++ .closeBracket :: rest)) = .ok ⟨_, Nat.lt_succ_self _⟩ :=
    expect_eq_ok_iff.2 rfl
  have hclose : Parser.expect .closeBracket .closeBracket (.closeBracket :: rest) =
      .ok ⟨rest, Nat.lt_succ_self _⟩ := expect_eq_ok_iff.2 rfl
  refine ⟨by simp only [List.length_cons, List.length_append]; omega, ?_⟩
  rw [Parser.indexed, hopen, ok_bind]
  simp only [hsum, ok_bind, hclose, hi]
  cases Parser.select scope table i <;> rfl

/-- What stands after a table's name to refer to it by letter, as in `[bandmap.r]`. -/
def atBand (b : Band) (rest : List Token) : List Token :=
  .openBracket :: ([.word "bandmap", .dot, .word (.singleton b.letter)] ++ .closeBracket :: rest)

/-- A reference by letter goes to the band's first position. -/
theorem reference_atBand (hposition : scope.bands.position? b = some i) (table : Table)
    (rest : List Token) :
    ∃ fewer, Parser.reference scope table.word (atBand b rest) =
      (Parser.select scope table i).map fun code => ⟨code, rest, fewer⟩ := by
  have hletter : Band.ofChar? b.letter = some b := dif_pos b.isLower
  have hname : scope.position? (.singleton b.letter) = some i :=
    position?_eq_some_iff.2 ⟨b.letter, b, by simp, hletter, hposition⟩
  have hlt := position?_lt_size hname
  have hindex : Parser.position table ((Expr.position (.singleton b.letter)).fold scope) = .ok i := by
    rw [Expr.fold, hname]
    exact position_number_eq_ok_iff.2 ⟨UInt32.ofNat i, (toFloat_beq_ofNat_iff hlt _).2
      (toNat_ofNat_of_position hlt), toNat_ofNat_of_position hlt⟩
  have hspells : Spells .sum [.word "bandmap", .dot, .word (.singleton b.letter)]
      (.position (.singleton b.letter)) := .sum (.product .position .productEnd) .sumEnd
  obtain ⟨fewer, hindexed⟩ :=
    indexed_of_spells hspells ⟨b.letter, b, i, by simp, hletter, hposition⟩ hindex rest
  have hreference : Parser.reference scope table.word (atBand b rest) =
      Parser.indexed scope table (atBand b rest) := by
    cases table <;> rw [Table.word, Parser.reference]
  exact ⟨fewer, hreference.trans hindexed⟩

example : tokenize "vmin[bandmap.r]".toList = .ok (.word "vmin" :: atBand .red []) := by cbv

/-- The bounds of an available range are numbers. -/
theorem reads_bounds (hposition : scope.bands.position? b = some i) {low high : UInt32}
    (hrange : scope.ranges[i]? = some ⟨some low, some high⟩) (rest : List Token) :
    Reads (Parser.reference scope "vmin" (atBand b rest)) (.number low.toFloat) rest ∧
      Reads (Parser.reference scope "vmax" (atBand b rest)) (.number high.toFloat) rest := by
  obtain ⟨hfewer, hlow⟩ := reference_atBand hposition .low rest
  obtain ⟨_, hhigh⟩ := reference_atBand hposition .high rest
  simp only [Parser.select, Parser.rangeBound, hrange] at hlow hhigh
  exact ⟨⟨hfewer, hlow⟩, hfewer, hhigh⟩

theorem reference_of_unavailable (hposition : scope.bands.position? b = some i)
    (hrange : scope.ranges[i]? = some range) (hnone : range.isAvailable = false)
    (rest : List Token) :
    Parser.reference scope "vmin" (atBand b rest) = .error (.rangeUnavailable i) ∧
      Parser.reference scope "vmax" (atBand b rest) = .error (.rangeUnavailable i) := by
  have hbounds : range.bounds = none := Option.not_isSome_iff_eq_none.1 (ne_true_of_eq_false hnone)
  obtain ⟨_, hlow⟩ := reference_atBand hposition .low rest
  obtain ⟨_, hhigh⟩ := reference_atBand hposition .high rest
  simp only [Parser.select, Parser.rangeBound, hrange, hbounds] at hlow hhigh
  exact ⟨hlow, hhigh⟩

/-- By letter a band has the range of its own buckets, if they are filled. -/
theorem reference_ranges {h : Histogram} {s : StretchSettings} {order : BandOrder}
    {buckets : Array Bucket} (hlength : order.length ≤ 256) (hs : h.Measured s)
    (hkeeps : h.Keeps order b i buckets) (earlier : List String) (rest : List Token) :
    let scope : Scope := ⟨h.ranges s.lowPercent s.highPercent, order.map, earlier⟩
    (h.Filled s buckets → ∃ low high, h.window s buckets = ⟨some low, some high⟩ ∧
      Reads (Parser.reference scope "vmin" (atBand b rest)) (.number low.toFloat) rest ∧
      Reads (Parser.reference scope "vmax" (atBand b rest)) (.number high.toFloat) rest) ∧
    (¬ h.Filled s buckets →
      Parser.reference scope "vmin" (atBand b rest) = .error (.rangeUnavailable i) ∧
      Parser.reference scope "vmax" (atBand b rest) = .error (.rangeUnavailable i)) := by
  intro scope
  have hposition : scope.bands.position? b = some i :=
    (BandMap.position?_of_length hlength b).trans hkeeps.position
  have hrange : scope.ranges[i]? = some (h.window s buckets) := by
    rw [Histogram.getElem?_ranges, hkeeps.counts, Option.map_some]
  rw [← hs.window_isAvailable_iff (List.mem_of_getElem? hkeeps.counts)]
  constructor
  · intro havailable
    obtain ⟨low, high, hwindow⟩ := BandRange.isAvailable_iff.1 havailable
    rw [hwindow] at hrange
    exact ⟨low, high, hwindow, reads_bounds hposition hrange rest⟩
  · intro hnone
    exact reference_of_unavailable hposition hrange (Bool.eq_false_of_not_eq_true hnone) rest

end Program

/-! ## Tables -/

namespace LookupTable

open Histogram (Measured)

variable {h : Histogram} {s : StretchSettings} {order : BandOrder} {c : Array Float × Band}

def Bound.channels (b : Bound) : List Channel := [b.red, b.green, b.blue]

/-- A table can be bound to the ranges of a histogram if the buckets of its band are filled. -/
theorem bindable_ranges_iff (hlength : order.length ≤ 256) (hs : h.Measured s) :
    Bindable (h.ranges s.lowPercent s.highPercent) order.map c ↔
      c.1.size ≠ 0 ∧ ∃ i buckets, h.Keeps order c.2 i buckets ∧ h.Filled s buckets := by
  constructor
  · rintro ⟨hentries, i, low, high, hposition, hrange⟩
    rw [Histogram.getElem?_ranges, Option.map_eq_some_iff] at hrange
    obtain ⟨buckets, hbuckets, hwindow⟩ := hrange
    rw [BandOrder.map, BandMap.position?_of_length hlength] at hposition
    refine ⟨hentries, i, buckets, ⟨hposition, hbuckets⟩, ?_⟩
    rw [← hs.window_isAvailable_iff (List.mem_of_getElem? hbuckets), hwindow]
    rfl
  · rintro ⟨hentries, i, buckets, hkeeps, hfilled⟩
    rw [← hs.window_isAvailable_iff (List.mem_of_getElem? hkeeps.counts),
      BandRange.isAvailable_iff] at hfilled
    obtain ⟨low, high, hwindow⟩ := hfilled
    refine ⟨hentries, i, low, high, ?_, ?_⟩
    · exact (BandMap.position?_of_length hlength c.2).trans hkeeps.position
    · rw [Histogram.getElem?_ranges, hkeeps.counts, Option.map_some, hwindow]

/-- A channel that reads its band at the band's first position, and scales it by the range of the
buckets there. -/
def Channel.Follows (h : Histogram) (s : StretchSettings) (order : BandOrder)
    (c : Array Float × Band) (channel : Channel) : Prop :=
  ∃ i buckets low high, h.Keeps order c.2 i buckets ∧ h.window s buckets = ⟨some low, some high⟩ ∧
    channel.position = i ∧ channel.entries = c.1 ∧ channel.low = low.toFloat ∧
    channel.factor = scale c.1.size low high

/-- A channel that was bound follows its band. -/
theorem Channel.follows (hlength : order.length ≤ 256) {channel : Channel}
    (hbind : Channel.bind c.1 c.2 (h.ranges s.lowPercent s.highPercent) order.map = .ok channel) :
    channel.Follows h s order c := by
  obtain ⟨low, high, hposition, hrange, hentries, hlow, hfactor⟩ := bind_eq_ok hbind
  rw [Histogram.getElem?_ranges, Option.map_eq_some_iff] at hrange
  obtain ⟨buckets, hbuckets, hwindow⟩ := hrange
  rw [BandOrder.map, BandMap.position?_of_length hlength] at hposition
  exact ⟨_, buckets, low, high, ⟨hposition, hbuckets⟩, hwindow, rfl, hentries, hlow, hfactor⟩

end LookupTable

namespace StyleSource

open Program (Reads Parser.reference atBand)
open LookupTable (Channel)

variable {tiles : List Tile} {order : BandOrder} {s : StretchSettings} {depth : Nat}

theorem resolve_program (h : Histogram) (s : StretchSettings) (text : String) :
    (StyleSource.program text []).resolve h s =
      .program text (h.ranges s.lowPercent s.highPercent) := rfl

theorem resolve_table (h : Histogram) (s : StretchSettings) (table : LookupTable) :
    (StyleSource.table table []).resolve h s =
      .table table (h.ranges s.lowPercent s.highPercent) := rfl

theorem build_table_eq_ok {table : LookupTable} {ranges : List BandRange} {bands : BandMap}
    {style : Style} : (StyleSource.table table ranges).build bands = .ok style ↔
      ∃ b, table.bind ranges bands = .ok b ∧ .table b = style := by
  rw [build, map_eq_ok_iff]

/-- Tiles that share an order of at most as many bands as a byte can count have one histogram, and the
styles that it fills in find each band where it is. A program that asks for the bounds of a band by
letter gets those of the band's own buckets, unless too few pixels are in them, and it is never told
that there is no such range. A table can be built if its three bands are filled, and each is scaled by
the range of its own buckets. -/
theorem resolve_aligned (hne : tiles ≠ []) (htiles : ∀ t ∈ tiles, t.isBlank = false ∧ t.bands = order)
    (hlength : order.length ≤ 256) (hdepth : depth ≤ 2 ^ 32) (hlow : 0 ≤ s.lowPercent)
    (hhigh : 0 ≤ s.highPercent) :
    ∃ h, viewportHistogram tiles depth = .ok (some h) ∧ (h.count.val < 2 ^ 53 → ∀ t ∈ tiles,
      (∀ text, ∃ ranges, (StyleSource.program text []).resolve h s = .program text ranges ∧
        ∀ b ∈ order, ∃ i buckets, h.Keeps order b i buckets ∧ ∀ earlier rest,
          (h.Filled s buckets → ∃ low high, h.window s buckets = ⟨some low, some high⟩ ∧
            Reads (Parser.reference ⟨ranges, t.map, earlier⟩ "vmin" (atBand b rest))
              (.number low.toFloat) rest ∧
            Reads (Parser.reference ⟨ranges, t.map, earlier⟩ "vmax" (atBand b rest))
              (.number high.toFloat) rest) ∧
          (¬ h.Filled s buckets →
            Parser.reference ⟨ranges, t.map, earlier⟩ "vmin" (atBand b rest) =
              .error (.rangeUnavailable i) ∧
            Parser.reference ⟨ranges, t.map, earlier⟩ "vmax" (atBand b rest) =
              .error (.rangeUnavailable i))) ∧
      ∀ table : LookupTable,
        ((∃ style, ((StyleSource.table table []).resolve h s).build t.map = .ok style) ↔
          ∀ c ∈ table.channels, c.1.size ≠ 0 ∧
            ∃ i buckets, h.Keeps order c.2 i buckets ∧ h.Filled s buckets) ∧
        ∀ style, ((StyleSource.table table []).resolve h s).build t.map = .ok style →
          ∃ bound : LookupTable.Bound, style = .table bound ∧
            List.Forall₂ (Channel.Follows h s order) table.channels bound.channels) := by
  obtain ⟨x, hx, hview⟩ := Histogram.exists_viewportHistogram (d := depth) hne fun t ht =>
    ⟨(htiles t ht).1, congrArg List.length (htiles t ht).2⟩
  refine ⟨_, hview, fun hexact t ht => ?_⟩
  have hs : (Histogram.ofTally x).Measured s := ⟨hexact, hx.countable hdepth hexact, hlow, hhigh⟩
  have hmap : t.map = order.map := congrArg BandOrder.map (htiles t ht).2
  rw [hmap]
  refine ⟨fun text => ⟨_, resolve_program .., fun b hb => ?_⟩,
    fun table => ⟨?_, fun style hbuild => ?_⟩⟩
  · obtain ⟨i, buckets, hkeeps⟩ := Histogram.exists_keeps (Histogram.bandCount_ofTally x) hb
    exact ⟨i, buckets, hkeeps, Program.reference_ranges hlength hs hkeeps⟩
  · rw [resolve_table]
    simp only [build_table_eq_ok, ← LookupTable.bindable_ranges_iff hlength hs,
      ← LookupTable.bindable_iff]
    exact ⟨fun ⟨_, b, hb, _⟩ => ⟨b, hb⟩, fun ⟨b, hb⟩ => ⟨_, b, hb, rfl⟩⟩
  · rw [resolve_table] at hbuild
    obtain ⟨b, hbind, rfl⟩ := build_table_eq_ok.1 hbuild
    obtain ⟨hred, hgreen, hblue⟩ := LookupTable.bind_eq_ok.1 hbind
    refine ⟨b, rfl, .cons ?_ (.cons ?_ (.cons ?_ .nil))⟩
    · exact Channel.follows (c := (table.red, .red)) hlength hred
    · exact Channel.follows (c := (table.green, .green)) hlength hgreen
    · exact Channel.follows (c := (table.blue, .blue)) hlength hblue

/-- One pixel of an order with two greens, of which the second one is beyond the buckets. -/
def twoGreens : Tile :=
  ⟨some ⟨.u8, 4, 1, 1, #[1, 3, 9, 2], rfl⟩, [.green, .red, .green, .blue], by simp⟩

def twoGreensCounted : Histogram where
  bands := [#[.zero, .succ .zero, .zero, .zero], #[.zero, .zero, .zero, .succ .zero],
    #[.zero, .zero, .zero, .zero], #[.zero, .zero, .succ .zero, .zero]]
  count := .succ .zero

theorem filled_twoGreens {buckets : Array Bucket} (hmass : Histogram.mass buckets = 1) :
    twoGreensCounted.Filled ⟨0, 0, none⟩ buckets := by
  have hthreshold : ExactValue.extended? (twoGreensCounted.threshold 0) = some ((0 : Nat) : EReal) :=
    ExactValue.extended?_natCast ((ExactValue.value?_eq_natCast_iff (by decide)).1 (by decide +kernel))
  have habove : ((0 : Nat) : EReal) < Histogram.mass buckets :=
    Nat.cast_lt.2 (hmass ▸ Nat.zero_lt_one)
  exact ⟨by decide, ⟨_, hthreshold, habove⟩, _, hthreshold, habove⟩

/-- The first green is meant, by a program as by a table. -/
theorem resolve_aligned_twoGreens :
    viewportHistogram [twoGreens] 4 = .ok (some twoGreensCounted) ∧
    (∃ ranges, (StyleSource.program "" []).resolve twoGreensCounted ⟨0, 0, none⟩ =
        .program "" ranges ∧
      Reads (Parser.reference ⟨ranges, twoGreens.map, []⟩ "vmin" (atBand .green []))
        (.number (1 : UInt32).toFloat) []) ∧
    ∃ style, ((StyleSource.table ⟨#[10], #[20, 30], #[5]⟩ []).resolve twoGreensCounted
      ⟨0, 0, none⟩).build twoGreens.map = .ok style := by
  have hpercent : (0 : Float) ≤ 0 := by decide +kernel
  have hview : viewportHistogram [twoGreens] 4 = .ok (some twoGreensCounted) := by decide +kernel
  have hne : [twoGreens] ≠ [] := List.cons_ne_nil _ _
  obtain ⟨h, hview', haligned⟩ := resolve_aligned (s := ⟨0, 0, none⟩) hne
    (List.forall_mem_singleton.2 ⟨rfl, rfl⟩) (by decide) (by decide : 4 ≤ 2 ^ 32) hpercent hpercent
  cases hview.symm.trans hview'
  obtain ⟨hprogram, htable⟩ := haligned (by decide) twoGreens (List.mem_singleton_self _)
  refine ⟨hview, ?_, (htable _).1.2 ?_⟩
  · obtain ⟨ranges, hresolve, hreferences⟩ := hprogram ""
    obtain ⟨i, buckets, hkeeps, hbounds⟩ := hreferences .green (by decide)
    obtain rfl : i = 0 := Option.some.inj (hkeeps.position.symm.trans (by decide))
    obtain rfl := Option.some.inj hkeeps.counts
    obtain ⟨low, high, hwindow, hlow, -⟩ := (hbounds [] []).1 (filled_twoGreens (by decide))
    have hfirst : twoGreensCounted.window ⟨0, 0, none⟩
        #[.zero, .succ .zero, .zero, .zero] = ⟨some 1, some 1⟩ := by decide +kernel
    cases hfirst.symm.trans hwindow
    exact ⟨ranges, hresolve, hlow⟩
  · exact List.forall_mem_cons.2 ⟨⟨by decide, 1, _, ⟨by decide, rfl⟩, filled_twoGreens (by decide)⟩,
      List.forall_mem_cons.2 ⟨⟨by decide, 0, _, ⟨by decide, rfl⟩, filled_twoGreens (by decide)⟩,
        List.forall_mem_singleton.2
          ⟨by decide, 3, _, ⟨by decide, rfl⟩, filled_twoGreens (by decide)⟩⟩⟩

end StyleSource

end RasterTile
