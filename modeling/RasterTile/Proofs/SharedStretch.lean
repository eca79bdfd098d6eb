import RasterTile.Proofs.Histogram.Viewport
import RasterTile.Proofs.Tile.Decoding

/-!
# One stretch for all tiles of an order

Every tile that is decoded with one order has the same bands: those of the order, and the validity band
if the order has none. There is at least one of them, so all histograms can be merged, whatever the
buffers hold; their sum depends neither on the order of the buffers nor on those that hold no tensor.
A style looks at a tile's bands only, so it is built for all of these tiles or for none.
-/
namespace RasterTile

namespace Tile

def decodeAll (order : BandOrder) (buffers : List (List UInt8)) : List Tile :=
  present (buffers.filterMap fun bytes => (decode bytes order).toOption)

variable {order : BandOrder} {t : Tile} {bytes : List UInt8} {buffers others extra : List (List UInt8)}

/-- A tile with pixels comes from one of the buffers. -/
theorem mem_decodeAll_iff :
    t ∈ decodeAll order buffers ↔ t.isBlank = false ∧ ∃ bytes ∈ buffers, decode bytes order = .ok t := by
  simp [decodeAll, present, toOption_eq_some_iff, and_comm]

theorem bands_of_mem_decodeAll (h : t ∈ decodeAll order buffers) : t.bands = order.validated := by
  obtain ⟨ht, bytes, -, hdecode⟩ := mem_decodeAll_iff.1 h
  exact bands_of_decode_eq_ok hdecode ht

theorem decodeAll_append (extra buffers : List (List UInt8)) :
    decodeAll order (extra ++ buffers) = decodeAll order extra ++ decodeAll order buffers := by
  simp [decodeAll, present]

/-- The order of the buffers makes no difference to which tiles there are. -/
theorem decodeAll_perm (order : BandOrder) (h : others.Perm buffers) :
    (decodeAll order others).Perm (decodeAll order buffers) :=
  (h.filterMap _).filter _

/-- Buffers without bytes, and those that cannot be decoded, hold no tile with a tensor. -/
theorem decodeAll_eq_nil (h : ∀ bytes ∈ extra, bytes = [] ∨ ∃ e, decode bytes order = .error e) :
    decodeAll order extra = [] := by
  rw [List.eq_nil_iff_forall_not_mem]
  intro t ht
  obtain ⟨hblank, bytes, hbytes, hdecode⟩ := mem_decodeAll_iff.1 ht
  rcases h bytes hbytes with rfl | ⟨e, herror⟩
  · cases hdecode
    cases hblank
  · rw [herror] at hdecode
    cases hdecode

end Tile

theorem Reduction.leaves_ne_nil {α : Type} (r : Reduction α) : r.leaves ≠ [] := by
  induction r with
  | one a => simp [leaves]
  | both l r ihl _ => simp [leaves, ihl]

namespace StyleSource

variable {n : Nat} {tiles ts : List Tile}

/-- The style that tiles of `n` bands share: what it leaves open is filled in from the total of all. -/
def sharedBy (source : StyleSource) (n : Nat) (tiles : List Tile) :
    Option StretchSettings → StyleSource
  | none => source
  | some s =>
    if tiles = [] then source
    else source.resolve (.ofTally (total n (source.histogramDepth s) tiles)) s

/-- Tiles of one number of bands are stretched by what their total gives. -/
theorem stretched_eq (source : StyleSource) (s : Option StretchSettings) (hn : 0 < n)
    (h : ∀ t ∈ tiles, t.isBlank = false ∧ t.bandCount = n) :
    source.stretched tiles s = .ok (source.sharedBy n tiles s) := by
  have hpresent : present tiles = tiles := List.filter_eq_self.2 fun t ht => by rw [(h t ht).1]; rfl
  cases s with
  | none => rfl
  | some s =>
    by_cases hne : tiles = []
    · subst hne
      rfl
    · have htotal : viewportHistogram tiles (source.histogramDepth s) =
          .ok (some (.ofTally (total n (source.histogramDepth s) (present tiles)))) :=
        viewportHistogram_eq hn (hpresent.symm ▸ fun t ht => (h t ht).2) (hpresent.symm ▸ hne)
      rw [sharedBy, if_neg hne, stretched, htotal, hpresent]
      rfl

/-- The order of the tiles makes no difference to their style. -/
theorem sharedBy_perm (source : StyleSource) (s : Option StretchSettings) (h : ts.Perm tiles) :
    source.sharedBy n ts s = source.sharedBy n tiles s := by
  cases s with
  | none => rfl
  | some s =>
    have hempty : ts = [] ↔ tiles = [] :=
      ⟨fun hts => (hts ▸ h).nil_eq.symm, fun htiles => (htiles ▸ h).eq_nil⟩
    simp only [sharedBy, hempty, total_perm h]

theorem sharedBy_eq_self (source : StyleSource) {s : Option StretchSettings}
    (h : s = none ∨ tiles = []) : source.sharedBy n tiles s = source := by
  rcases h with rfl | rfl
  · rfl
  · cases s with
    | none => rfl
    | some s => rw [sharedBy, if_pos rfl]

/-- Tiles of one order can always be stretched. -/
theorem stretched_decoded (source : StyleSource) (order : BandOrder) (s : Option StretchSettings)
    (h : ∀ t ∈ tiles, t.isBlank = false ∧ t.bands = order.validated) :
    source.stretched tiles s = .ok (source.sharedBy order.validated.length tiles s) :=
  stretched_eq source s order.length_validated_pos fun t ht =>
    ⟨(h t ht).1, congrArg List.length (h t ht).2⟩

/-- Whatever buffers hold, their tiles with a tensor can be stretched. The style is the same for every
order of the buffers, and with any others among them that are blank or cannot be decoded; however the
histograms are merged, it is the given style filled in from the outcome. It is built for all tiles or
fails on all of them alike. -/
theorem stretched_decodeAll (order : BandOrder) (buffers : List (List UInt8)) (source : StyleSource)
    (s : Option StretchSettings) :
    ∃ style : StyleSource,
      (∀ extra others, (∀ bytes ∈ extra, bytes = [] ∨ ∃ e, Tile.decode bytes order = .error e) →
        others.Perm (extra ++ buffers) →
        source.stretched (Tile.decodeAll order others) s = .ok style) ∧
      (∀ settings ∈ s, ∀ r : Reduction Tile, r.leaves.Perm (Tile.decodeAll order buffers) →
        ∃ h, r.histogram (source.histogramDepth settings) = .ok h ∧
          style = source.resolve h settings) ∧
      (s = none ∨ Tile.decodeAll order buffers = [] → style = source) ∧
      ∃ built, ∀ t ∈ Tile.decodeAll order buffers, style.build t.map = built := by
  have hbands : ∀ t ∈ Tile.decodeAll order buffers, t.bands = order.validated :=
    fun t ht => Tile.bands_of_mem_decodeAll ht
  obtain ⟨style, hstyle⟩ : ∃ style, style =
    source.sharedBy order.validated.length (Tile.decodeAll order buffers) s := ⟨_, rfl⟩
  refine ⟨style, ?_, ?_, fun h => hstyle.trans (source.sharedBy_eq_self h),
    style.build order.validated.map, ?_⟩
  · intro extra others hextra hothers
    have hperm := Tile.decodeAll_perm order hothers
    rw [Tile.decodeAll_append, Tile.decodeAll_eq_nil hextra, List.nil_append] at hperm
    rw [hstyle, ← sharedBy_perm source s hperm]
    exact source.stretched_decoded order s fun t ht =>
      ⟨(Tile.mem_decodeAll_iff.1 ht).1, Tile.bands_of_mem_decodeAll ht⟩
  · rintro settings rfl r hr
    refine ⟨_, r.histogram_eq order.length_validated_pos fun t ht => ?_, ?_⟩
    · exact congrArg List.length (hbands t (hr.mem_iff.1 ht))
    · have hne : Tile.decodeAll order buffers ≠ [] :=
        fun hnil => r.leaves_ne_nil (List.perm_nil.1 (hnil ▸ hr))
      rw [hstyle, sharedBy, if_neg hne, total_perm hr]
  · intro t ht
    rw [Tile.map, hbands t ht]

/-- One pixel of bytes and two of words, in two bands each. -/
def bytesAndWords : List (List UInt8) :=
  [ArrayFile.encode ⟨.u8, 2, 1, 1, #[3, 4], rfl⟩, ArrayFile.encode ⟨.u16, 2, 1, 2, #[1, 2, 5, 0], rfl⟩]

theorem stretched_decodeAll_bytesAndWords :
    (Tile.decodeAll [.red, .green] bytesAndWords).length = 2 ∧ ∃ style : StyleSource,
      default.stretched (Tile.decodeAll [.red, .green] bytesAndWords) (some ⟨0, 0, some 8⟩) =
        .ok style ∧
      default.stretched (Tile.decodeAll [.red, .green] ([0x93] :: [] :: bytesAndWords.reverse))
        (some ⟨0, 0, some 8⟩) = .ok style := by
  obtain ⟨style, hsame, -⟩ :=
    stretched_decodeAll [.red, .green] bytesAndWords default (some ⟨0, 0, some 8⟩)
  have hextra : ∀ bytes ∈ [[0x93], []], bytes = [] ∨
      ∃ e, Tile.decode bytes [.red, .green] = .error e := by
    intro bytes hbytes
    rcases List.mem_pair.1 hbytes with rfl | rfl
    · exact .inr ⟨_, rfl⟩
    · exact .inl rfl
  refine ⟨by decide +kernel, style, hsame [] _ (by simp) (List.Perm.refl _), ?_⟩
  exact hsame [[0x93], []] _ hextra (((List.reverse_perm _).cons _).cons _)

end StyleSource

end RasterTile
