import RasterTile.Proofs.Difference
import RasterTile.Proofs.Outcome
import RasterTile.Proofs.RoundingDown
import RasterTile.Style.LookupTable

/-!
# Lookup tables

A table can be bound if its three channels can, and the first channel that cannot is reported with the
first thing that it lacks. Once it is bound, a raw value is scaled and rounded down, and what is not
positive selects the first entry and what is too large the last one. A range without width, or one that
is upside down, is scaled by infinity: then values above its low end are infinitely far up, and all
others are NaNs or infinitely far down.
-/
namespace RasterTile.LookupTable

open ExactValue (value? IsFloor infinite pos_iff_not)

/-! ## Indices -/

/-- The whole number that a double gives as an index: none below one, as many as 64 bits can hold, and
zero for a NaN. -/
def ordinal (f : Float) : Nat :=
  if f.isNaN ∨ f ≤ 0 then 0
  else (value? f).elim (2 ^ 64 - 1) fun q => min ⌊q⌋₊ (2 ^ 64 - 1)

theorem ordinal_of_not_pos {f : Float} (h : ¬ 0 < f) : ordinal f = 0 :=
  if_pos (not_not.1 (mt (pos_iff_not f).2 h))

/-- An index is the whole part, cut off at the last entry. -/
theorem index_eq (last : Nat) (f : Float) : Scalar.index last f = min (ordinal f) last := by
  have hdefinition : Scalar.index last f = if 0 < f then min f.toUInt64.toNat last else 0 := by
    simp [Scalar.index, Scalar.less, Scalar.whole]
  rw [hdefinition]
  by_cases hpos : 0 < f
  · rw [if_pos hpos, ordinal, if_neg ((pos_iff_not f).1 hpos)]
    cases hf : value? f with
    | none => rw [Option.elim_none, ExactValue.toNat_toUInt64_of_none hf hpos]
    | some q => rw [Option.elim_some,
        ExactValue.toNat_toUInt64_of_value hf ((ExactValue.pos_iff_value hf).1 hpos)]
  · rw [if_neg hpos, ordinal_of_not_pos hpos, Nat.zero_min]

/-! ## Ranges -/

theorem toFloat_lt_iff (low high : UInt32) : low.toFloat < high.toFloat ↔ low < high := by
  have hlow := low.toNat_lt
  have hhigh := high.toNat_lt
  rw [WholeNumber.toFloat_uint32, WholeNumber.toFloat_uint32,
    ExactValue.lt_iff_value (ExactValue.value?_whole (by omega)) (ExactValue.value?_whole (by omega)),
    Nat.cast_lt, UInt32.lt_iff_toNat_lt]

/-- Entries per raw value, and infinitely many if the range has no width. -/
def scale (entries : Nat) (low high : UInt32) : Float :=
  if low < high then Float.ofNat entries / (high.toFloat - low.toFloat) else infinite

theorem scale_of_le {entries : Nat} {low high : UInt32} (h : high ≤ low) :
    scale entries low high = infinite := if_neg (UInt32.not_lt.2 h)

theorem factorOf_eq (entries : Nat) (low high : UInt32) :
    Channel.factorOf entries low high = scale entries low high := by
  simp only [Channel.factorOf, scale, toFloat_lt_iff]
  rfl

/-- What a raw value selects from a table that is stretched over a range. -/
structure Selects (entries : Array Float) (low high : UInt32) (raw out : Float) : Prop where
  entry : ∃ f, IsFloor (scale entries.size low high * (raw - low.toFloat)) f ∧
    entries[min (ordinal f) (entries.size - 1)]? = some out
  above : high ≤ low → low.toFloat < raw → entries.size ≤ 2 ^ 64 → entries[entries.size - 1]? = some out
  below : high ≤ low → ¬ low.toFloat < raw → entries[0]? = some out

/-- Scaled by infinity, a difference is infinite if it is positive, and otherwise it stays below one. -/
theorem ordinal_infinite_mul (x : Float) :
    (0 < x → ordinal (Rounding.down (infinite * x)) = 2 ^ 64 - 1) ∧
      (¬ 0 < x → ordinal (Rounding.down (infinite * x)) = 0) := by
  obtain ⟨hnone, hpos⟩ := ExactValue.infinite_mul x
  rw [ExactValue.down_of_value?_none hnone, ← hpos]
  refine ⟨fun h => ?_, ordinal_of_not_pos⟩
  rw [ordinal, if_neg ((pos_iff_not _).1 h), hnone, Option.elim_none]

theorem selects_entry {entries : Array Float} {low high : UInt32} {raw out : Float}
    (hout : entries[Scalar.index (entries.size - 1)
      (Rounding.down (scale entries.size low high * (raw - low.toFloat)))]? = some out) :
    Selects entries low high raw out := by
  rw [index_eq] at hout
  refine ⟨⟨_, ExactValue.isFloor_down _, hout⟩, fun hrange hraw hsize => ?_, fun hrange hraw => ?_⟩
  all_goals
    have hlow : value? low.toFloat = some (low.toNat : ℚ) :=
      ExactValue.value?_whole (low.toNat_lt.trans (by decide))
    rw [scale_of_le hrange] at hout
    rw [← ExactValue.pos_sub_iff hlow] at hraw
  · rwa [(ordinal_infinite_mul _).1 hraw, Nat.min_eq_right (by omega)] at hout
  · rwa [(ordinal_infinite_mul _).2 hraw, Nat.zero_min] at hout

/-! ## Binding -/

variable {ranges : List BandRange} {bands : BandMap}

def channels (t : LookupTable) : List (Array Float × Band) :=
  [(t.red, .red), (t.green, .green), (t.blue, .blue)]

/-- A table with entries whose band has a position and a range there. -/
structure Bindable (ranges : List BandRange) (bands : BandMap) (c : Array Float × Band) : Prop where
  filled : c.1.size ≠ 0
  placed : ∃ position low high, bands.position? c.2 = some position ∧
    ranges[position]? = some ⟨some low, some high⟩

inductive Lacks (ranges : List BandRange) (bands : BandMap) : Array Float × Band → Error → Prop
  | entries {entries band} (h : entries.size = 0) : Lacks ranges bands (entries, band) (.emptyTable band)
  | position {entries band} (h : entries.size ≠ 0) (hband : bands.position? band = none) :
      Lacks ranges bands (entries, band) (.missingBand band)
  | range {entries band position} (h : entries.size ≠ 0) (hband : bands.position? band = some position)
      (hrange : ∀ low high, ranges[position]? ≠ some ⟨some low, some high⟩) :
      Lacks ranges bands (entries, band) (.rangeUnavailable band)

theorem Bindable.not_lacks {c : Array Float × Band} {e : Error} (h : Bindable ranges bands c) :
    ¬ Lacks ranges bands c e := by
  obtain ⟨hfilled, position, low, high, hposition, hrange⟩ := h
  rintro (hempty | ⟨-, hnone⟩ | ⟨-, hposition', hnone⟩)
  · exact hfilled hempty
  · rw [hposition] at hnone
    cases hnone
  · rw [hposition] at hposition'
    cases hposition'
    exact hnone low high hrange

/-- There is one first thing that is missing. -/
theorem Lacks.unique {c : Array Float × Band} {e e' : Error} (h : Lacks ranges bands c e)
    (h' : Lacks ranges bands c e') : e = e' := by
  cases h with
  | entries hempty =>
    cases h' with
    | entries => rfl
    | position hfilled | range hfilled => exact absurd hempty hfilled
  | position hfilled hnone =>
    cases h' with
    | entries hempty => exact absurd hempty hfilled
    | position => rfl
    | range _ hposition =>
      rw [hnone] at hposition
      cases hposition
  | range hfilled hposition hnone =>
    cases h' with
    | entries hempty => exact absurd hempty hfilled
    | position _ hmissing =>
      rw [hposition] at hmissing
      cases hmissing
    | range => rfl

/-- A table lacks something, or it is bound to the position and the range of its band. -/
theorem Channel.bind_cases (c : Array Float × Band) (ranges : List BandRange) (bands : BandMap) :
    (∃ e, Lacks ranges bands c e ∧ Channel.bind c.1 c.2 ranges bands = .error e) ∨
    ∃ channel low high, Channel.bind c.1 c.2 ranges bands = .ok channel ∧
      bands.position? c.2 = some channel.position ∧
      ranges[channel.position]? = some ⟨some low, some high⟩ ∧ channel.entries = c.1 ∧
      channel.low = low.toFloat ∧ channel.factor = scale c.1.size low high := by
  obtain ⟨entries, band⟩ := c
  by_cases hempty : entries.size = 0
  · exact .inl ⟨_, .entries hempty, dif_pos hempty⟩
  simp only [Channel.bind, dif_neg hempty]
  cases hposition : bands.position? band with
  | none => exact .inl ⟨_, .position hempty hposition, rfl⟩
  | some position =>
    cases hbounds : ranges[position]?.bind BandRange.bounds with
    | none =>
      refine .inl ⟨_, .range hempty hposition fun low high hrange => ?_, by simp only [hbounds]⟩
      rw [hrange] at hbounds
      cases hbounds
    | some bounds =>
      obtain ⟨low, high⟩ := bounds
      obtain ⟨range, hrange, hends⟩ := Option.bind_eq_some_iff.1 hbounds
      rw [BandRange.bounds_eq_some_iff.1 hends] at hrange
      refine .inr ⟨⟨position, low.toFloat, Channel.factorOf entries.size low high, entries, hempty⟩,
        low, high, ?_, rfl, hrange, rfl, rfl, factorOf_eq ..⟩
      simp only [hbounds]

/-- A channel that was bound has its position and the range there. -/
theorem Channel.bind_eq_ok {c : Array Float × Band} {channel : Channel}
    (h : Channel.bind c.1 c.2 ranges bands = .ok channel) :
    ∃ low high, bands.position? c.2 = some channel.position ∧
      ranges[channel.position]? = some ⟨some low, some high⟩ ∧ channel.entries = c.1 ∧
      channel.low = low.toFloat ∧ channel.factor = scale c.1.size low high := by
  rcases bind_cases c ranges bands with ⟨e, -, herror⟩ | ⟨channel', low, high, hok, hbound⟩
  · rw [herror] at h
    cases h
  · rw [hok] at h
    cases h
    exact ⟨low, high, hbound⟩

/-- The error of a channel names what is missing first. -/
theorem Channel.bind_eq_error_iff {c : Array Float × Band} {e : Error} :
    Channel.bind c.1 c.2 ranges bands = .error e ↔ Lacks ranges bands c e := by
  rcases bind_cases c ranges bands with ⟨e', hlacks, herror⟩ |
    ⟨channel, low, high, hok, hposition, hrange, hentries, -⟩
  · rw [herror, Except.error.injEq]
    constructor
    · rintro rfl
      exact hlacks
    · exact hlacks.unique
  · have hbindable : Bindable ranges bands c :=
      ⟨hentries ▸ channel.entries_ne, _, low, high, hposition, hrange⟩
    rw [hok]
    exact iff_of_false nofun hbindable.not_lacks

/-- A channel can be bound if nothing is missing. -/
theorem Channel.bindable_iff {c : Array Float × Band} :
    (∃ channel, Channel.bind c.1 c.2 ranges bands = .ok channel) ↔ Bindable ranges bands c := by
  constructor
  · rintro ⟨channel, h⟩
    obtain ⟨low, high, hposition, hrange, hentries, -⟩ := bind_eq_ok h
    exact ⟨hentries ▸ channel.entries_ne, _, low, high, hposition, hrange⟩
  · intro h
    rcases bind_cases c ranges bands with ⟨e, hlacks, -⟩ | ⟨channel, -, -, hok, -⟩
    · exact absurd hlacks h.not_lacks
    · exact ⟨channel, hok⟩

variable {t : LookupTable} {b : Bound} {e : Error}

theorem bind_eq_ok : t.bind ranges bands = .ok b ↔
    Channel.bind t.red .red ranges bands = .ok b.red ∧
      Channel.bind t.green .green ranges bands = .ok b.green ∧
      Channel.bind t.blue .blue ranges bands = .ok b.blue := by
  simp only [bind, bind_eq_ok_iff, pure_eq_ok_iff]
  constructor
  · rintro ⟨red, hred, green, hgreen, blue, hblue, rfl⟩
    exact ⟨hred, hgreen, hblue⟩
  · rintro ⟨hred, hgreen, hblue⟩
    exact ⟨_, hred, _, hgreen, _, hblue, rfl⟩

theorem bindable_iff :
    (∃ b, t.bind ranges bands = .ok b) ↔ ∀ c ∈ t.channels, Bindable ranges bands c := by
  simp only [channels, List.forall_mem_cons, List.not_mem_nil, false_implies, implies_true, and_true,
    ← Channel.bindable_iff, bind_eq_ok]
  constructor
  · rintro ⟨b, hred, hgreen, hblue⟩
    exact ⟨⟨_, hred⟩, ⟨_, hgreen⟩, ⟨_, hblue⟩⟩
  · rintro ⟨⟨red, hred⟩, ⟨green, hgreen⟩, ⟨blue, hblue⟩⟩
    exact ⟨⟨red, green, blue⟩, hred, hgreen, hblue⟩

/-- The first table that lacks something is reported. -/
theorem bind_eq_error_iff_first :
    t.bind ranges bands = .error e ↔ ∃ done c rest, t.channels = done ++ c :: rest ∧
      (∀ d ∈ done, Bindable ranges bands d) ∧ Lacks ranges bands c e := by
  simp only [bind, bind_eq_error_iff]
  constructor
  · rintro (hred | ⟨red, hred, hgreen | ⟨green, hgreen, hblue | ⟨blue, hblue, hpure⟩⟩⟩)
    · exact ⟨[], (t.red, .red), _, rfl, nofun, Channel.bind_eq_error_iff.1 hred⟩
    · have hred := Channel.bindable_iff (c := (t.red, .red)).1 ⟨red, hred⟩
      exact ⟨[(t.red, .red)], (t.green, .green), _, rfl, by simpa using hred,
        Channel.bind_eq_error_iff.1 hgreen⟩
    · have hred := Channel.bindable_iff (c := (t.red, .red)).1 ⟨red, hred⟩
      have hgreen := Channel.bindable_iff (c := (t.green, .green)).1 ⟨green, hgreen⟩
      exact ⟨[(t.red, .red), (t.green, .green)], (t.blue, .blue), _, rfl,
        by simpa using ⟨hred, hgreen⟩, Channel.bind_eq_error_iff.1 hblue⟩
    · cases hpure
  · rintro ⟨done, c, rest, hsplit, hdone, hlacks⟩
    rcases done with _ | ⟨d, _ | ⟨d', _ | ⟨d'', done⟩⟩⟩
    · obtain ⟨rfl, -⟩ := List.cons.inj hsplit
      exact .inl (Channel.bind_eq_error_iff.2 hlacks)
    · obtain ⟨rfl, htail⟩ := List.cons.inj hsplit
      obtain ⟨rfl, -⟩ := List.cons.inj htail
      obtain ⟨red, hred⟩ := Channel.bindable_iff.2 (hdone (t.red, .red) (by simp))
      exact .inr ⟨red, hred, .inl (Channel.bind_eq_error_iff.2 hlacks)⟩
    · obtain ⟨rfl, htail⟩ := List.cons.inj hsplit
      obtain ⟨rfl, hlast⟩ := List.cons.inj htail
      obtain ⟨rfl, -⟩ := List.cons.inj hlast
      obtain ⟨red, hred⟩ := Channel.bindable_iff.2 (hdone (t.red, .red) (by simp))
      obtain ⟨green, hgreen⟩ := Channel.bindable_iff.2 (hdone (t.green, .green) (by simp))
      exact .inr ⟨red, hred, .inr ⟨green, hgreen, .inl (Channel.bind_eq_error_iff.2 hlacks)⟩⟩
    · have hlength := congrArg List.length hsplit
      simp [channels] at hlength

/-! ## Painting -/

/-- The output is the entry at the index of the raw value. -/
theorem Channel.output_eq (c : Channel) (pixel : List Float) :
    c.entries[c.index (pixel[c.position]?.getD 0)]? = some (c.output pixel) :=
  Array.getElem?_eq_getElem (c.index_lt _)

/-- A channel that was bound selects from its own table, by the range of its own band. -/
theorem Channel.paints {c : Array Float × Band} {channel : Channel}
    (h : Channel.bind c.1 c.2 ranges bands = .ok channel) (pixel : List Float) :
    channel.output pixel ∈ c.1 ∧ ∃ position low high, bands.position? c.2 = some position ∧
      ranges[position]? = some ⟨some low, some high⟩ ∧
      Selects c.1 low high (pixel[position]?.getD 0) (channel.output pixel) := by
  obtain ⟨low, high, hposition, hrange, hentries, hlow, hfactor⟩ := bind_eq_ok h
  have hout := channel.output_eq pixel
  refine ⟨hentries ▸ Array.mem_of_getElem? hout, _, low, high, hposition, hrange, selects_entry ?_⟩
  rw [index, hentries, hlow, hfactor] at hout
  exact hout

theorem Bound.apply_of_length_lt {pixel : List Float} (h : pixel.length < 3) :
    b.apply pixel = pixel := by
  rcases pixel with _ | ⟨x, _ | ⟨y, _ | ⟨z, rest⟩⟩⟩
  · rfl
  · rfl
  · rfl
  · simp only [List.length_cons] at h
    omega

/-- All three outputs come from the pixel as it was. -/
theorem Bound.apply_eq_append {pixel : List Float} (h : 3 ≤ pixel.length) :
    b.apply pixel =
      [b.red.output pixel, b.green.output pixel, b.blue.output pixel] ++ pixel.drop 3 := by
  rcases pixel with _ | ⟨x, _ | ⟨y, _ | ⟨z, rest⟩⟩⟩
  · simp at h
  · simp at h
  · simp at h
  · rfl

/-- A slot after the first three is left alone. -/
theorem Bound.getElem?_apply_of_le (b : Bound) (pixel : List Float) {i : Nat} (h : 3 ≤ i) :
    (b.apply pixel)[i]? = pixel[i]? := by
  obtain ⟨k, rfl⟩ := Nat.exists_eq_add_of_le' h
  rcases pixel with _ | ⟨x, _ | ⟨y, _ | ⟨z, rest⟩⟩⟩
  all_goals rfl

/-- A table can be bound if each of red, green and blue has entries, a position and a range there, and
the first of them that lacks something is reported otherwise. A bound table leaves pixels of fewer than
three slots alone. In all others it changes the first three slots: each becomes an entry of its own
table, the one that the value of its band selects. -/
theorem bind_and_apply (t : LookupTable) (ranges : List BandRange) (bands : BandMap) :
    ((∃ b, t.bind ranges bands = .ok b) ↔ ∀ c ∈ t.channels, Bindable ranges bands c) ∧
    (∀ e, t.bind ranges bands = .error e ↔ ∃ done c rest, t.channels = done ++ c :: rest ∧
      (∀ d ∈ done, Bindable ranges bands d) ∧ Lacks ranges bands c e) ∧
    ∀ b, t.bind ranges bands = .ok b → ∀ pixel,
      (pixel.length < 3 → b.apply pixel = pixel) ∧
      (3 ≤ pixel.length → ∃ colours, b.apply pixel = colours ++ pixel.drop 3 ∧
        List.Forall₂ (fun c out => out ∈ c.1 ∧ ∃ position low high,
          bands.position? c.2 = some position ∧ ranges[position]? = some ⟨some low, some high⟩ ∧
          Selects c.1 low high (pixel[position]?.getD 0) out) t.channels colours) := by
  refine ⟨bindable_iff, fun e => bind_eq_error_iff_first, fun b h pixel => ?_⟩
  refine ⟨Bound.apply_of_length_lt, fun hthree => ⟨_, Bound.apply_eq_append hthree, ?_⟩⟩
  obtain ⟨hred, hgreen, hblue⟩ := bind_eq_ok.1 h
  refine .cons ?_ (.cons ?_ (.cons ?_ .nil))
  · exact Channel.paints (c := (t.red, .red)) hred pixel
  · exact Channel.paints (c := (t.green, .green)) hgreen pixel
  · exact Channel.paints (c := (t.blue, .blue)) hblue pixel

def threeTables : LookupTable := ⟨#[10, 20], #[1, 2], #[7, 8, 9]⟩

theorem bind_and_apply_threeTables :
    (∃ b, threeTables.bind [⟨some 0, some 10⟩, ⟨some 5, some 5⟩, ⟨some 9, some 3⟩]
        (BandOrder.map [.red, .green, .blue]) = .ok b ∧ b.apply [4, 6] = [4, 6] ∧
      ∃ colours, b.apply [4, 6, 8, 100] = colours ++ [100] ∧ colours.length = 3) ∧
    threeTables.bind [⟨some 0, some 10⟩] (BandOrder.map [.red, .green, .blue]) =
      .error (.rangeUnavailable .green) := by
  constructor
  · obtain ⟨hbindable, -, hpaint⟩ := bind_and_apply threeTables
      [⟨some 0, some 10⟩, ⟨some 5, some 5⟩, ⟨some 9, some 3⟩] (BandOrder.map [.red, .green, .blue])
    obtain ⟨b, hb⟩ := hbindable.2 (List.forall_mem_cons.2 ⟨⟨by decide, 0, 0, 10, by decide, rfl⟩,
      List.forall_mem_cons.2 ⟨⟨by decide, 1, 5, 5, by decide, rfl⟩,
        List.forall_mem_singleton.2 ⟨by decide, 2, 9, 3, by decide, rfl⟩⟩⟩)
    obtain ⟨colours, hcolours, hthree⟩ := (hpaint b hb [4, 6, 8, 100]).2 (by decide)
    exact ⟨b, hb, (hpaint b hb [4, 6]).1 (by decide), colours, hcolours, hthree.length_eq.symm⟩
  · refine ((bind_and_apply threeTables _ _).2.1 _).2
      ⟨[(threeTables.red, .red)], (threeTables.green, .green), _, rfl, ?_, ?_⟩
    · exact List.forall_mem_singleton.2 ⟨by decide, 0, 0, 10, by decide, rfl⟩
    · have hposition : (BandOrder.map [.red, .green, .blue]).position? .green = some 1 := by decide
      exact .range (by decide) hposition nofun

end RasterTile.LookupTable
