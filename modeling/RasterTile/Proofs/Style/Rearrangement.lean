import RasterTile.Proofs.Program.Rearrangement
import RasterTile.Proofs.Style.Safety
import RasterTile.Proofs.Style.Slots

/-!
# Where the bands are stored

A tile may store its bands in another order, with the stretch ranges in the same order as the bands.
Styles that ask for bands by letter do not notice: a preset that takes its colours from letters paints
the same picture, a lookup table is bound to the same ranges or fails, and a program that names its
bands compiles for both orders or for neither. What differs is what such a style leaves alone: a slot
beyond the colours holds whatever band is stored there.
-/
namespace RasterTile

variable {order order' : BandOrder}

/-! ## Presets -/

section

variable {α : Type} [Scalar α] {slots slots' : List α}

/-- The first four slots of a preset that takes its colours from letters. -/
theorem ConfiguredPreset.take_apply_rearranged (c : ConfiguredPreset α)
    (hpreset : c.preset = .rgb ∨ c.preset = .onlyRed) (hread : c.readBands = none)
    (h : order.Rearranges order') (hslots : order.Aligned order' slots slots')
    (hfour : 4 ≤ slots.length) (hfour' : 4 ≤ slots'.length) :
    (c.apply order.map slots).take 4 = (c.apply order'.map slots').take 4 := by
  have hvalue := h.value_eq hslots
  obtain ⟨x, y, z, w, rest, rfl⟩ := Checked.exists_four hfour
  obtain ⟨x', y', z', w', rest', rfl⟩ := Checked.exists_four hfour'
  have hcolor : c.preset.color order.map (x :: y :: z :: w :: rest) x y z =
      c.preset.color order'.map (x' :: y' :: z' :: w' :: rest') x' y' z' := by
    rcases hpreset with hp | hp
    · simp only [hp, Preset.color, hvalue]
    · simp only [hp, Preset.color, hvalue]
  have hvalid : Preset.isValid order.map (x :: y :: z :: w :: rest) =
      Preset.isValid order'.map (x' :: y' :: z' :: w' :: rest') :=
    congrArg Scalar.isNonzero (hvalue .alpha)
  simp only [apply_eq_finish, hread, Option.getD_none, Preset.apply_cons, hcolor, hvalid]
  generalize c.preset.color order'.map (x' :: y' :: z' :: w' :: rest') x' y' z' = painted
  obtain ⟨r, g, b, hfinish⟩ := c.finish_cons painted.1 painted.2.1 painted.2.2
  rw [hfinish, hfinish]
  rfl

end

/-! ## Lookup tables -/

namespace LookupTable

variable {ranges ranges' : List BandRange} {slots slots' : List Float}

/-- A channel fails in the same way for both orders, or it has the same output for both. -/
theorem Channel.bind_rearranged (entries : Array Float) (band : Band) (h : order.Rearranges order')
    (hranges : order.Aligned order' ranges ranges') :
    EndAlike (fun c c' => ∀ {slots slots'}, order.Aligned order' slots slots' →
        c.output slots = c'.output slots')
      (bind entries band ranges order.map) (bind entries band ranges' order'.map) := by
  unfold bind
  by_cases hempty : entries.size = 0
  · exact .inl ⟨.emptyTable band, dif_pos hempty, dif_pos hempty⟩
  simp only [dif_neg hempty]
  rcases h.position? band with ⟨hi, hj⟩ | ⟨i, j, hi, hj, hb, hb'⟩
  · simp only [hi, hj]
    exact .inl ⟨_, rfl, rfl⟩
  · simp only [hi, hj, hranges band i j hb hb']
    cases ranges'[j]?.bind BandRange.bounds with
    | none => exact .inl ⟨_, rfl, rfl⟩
    | some bounds =>
      refine .inr ⟨_, _, rfl, rfl, fun hslots => ?_⟩
      simp only [output, index, hslots band i j hb hb']

theorem Bound.getElem?_apply (b : Bound) (hthree : 3 ≤ slots.length) :
    (b.apply slots)[0]? = some (b.red.output slots) ∧
      (b.apply slots)[1]? = some (b.green.output slots) ∧
      (b.apply slots)[2]? = some (b.blue.output slots) := by
  rcases slots with _ | ⟨x, _ | ⟨y, _ | ⟨z, rest⟩⟩⟩
  · cases hthree
  · simp at hthree
  · simp at hthree
  · exact ⟨rfl, rfl, rfl⟩

/-- Tables are bound alike, to channels that read the same bands. -/
theorem bind_rearranged (t : LookupTable) (h : order.Rearranges order')
    (hranges : order.Aligned order' ranges ranges') :
    EndAlike (fun b b' => ∀ {slots slots'}, order.Aligned order' slots slots' → 3 ≤ slots.length →
        3 ≤ slots'.length → ∀ c < 3, (b.apply slots)[c]? = (b'.apply slots')[c]?)
      (t.bind ranges order.map) (t.bind ranges' order'.map) := by
  refine (Channel.bind_rearranged t.red .red h hranges).bind fun {r r'} hred =>
    (Channel.bind_rearranged t.green .green h hranges).bind fun {g g'} hgreen =>
      (Channel.bind_rearranged t.blue .blue h hranges).bind fun {b b'} hblue =>
        .inr ⟨_, _, rfl, rfl, fun hslots hthree hthree' c hc => ?_⟩
  obtain ⟨h0, h1, h2⟩ := Bound.getElem?_apply ⟨r, g, b⟩ hthree
  obtain ⟨h0', h1', h2'⟩ := Bound.getElem?_apply ⟨r', g', b'⟩ hthree'
  match c with
  | 0 => rw [h0, h0', hred hslots]
  | 1 => rw [h1, h1', hgreen hslots]
  | 2 => rw [h2, h2', hblue hslots]

end LookupTable

/-! ## Pictures -/

/-- Channel `c` of the pixel in column `x` of row `y`. -/
def Picture.byte? (p : Picture) (x y c : Nat) : Option UInt8 := p.rgba[(y * p.width + x) * 4 + c]?

/-- Pictures of one size that have the same bytes in some channels of every pixel. -/
structure Picture.AgreesOn (channels : List Nat) (p q : Picture) : Prop where
  width : p.width = q.width
  height : p.height = q.height
  bytes : ∀ x < p.width, ∀ y < p.height, ∀ c ∈ channels,
    ∃ v, p.byte? x y c = some v ∧ q.byte? x y c = some v

namespace Tile

/-- The same bands, plane by plane, in another order. -/
structure Rearranges (t t' : Tile) : Prop where
  order : t.bands.Rearranges t'.bands
  width : t.width = t'.width
  height : t.height = t'.height
  plane : ∀ (b : Band) (i j : Nat), t.bands[i]? = some b → t'.bands[j]? = some b →
    ∀ x < t.width, ∀ y < t.height, t.sample? i x y = t'.sample? j x y

variable {t t' : Tile}

/-- The slots of a pixel hold the same values by band. -/
theorem Rearranges.slots {x y : Nat} (h : t.Rearranges t') (hx : x < t.width) (hy : y < t.height) :
    t.bands.Aligned t'.bands (t.slots (y * t.width + x)) (t'.slots (y * t.width + x)) := by
  intro b i j hi hj
  have hi' : i < t.bandCount := (List.getElem?_eq_some_iff.1 hi).1
  have hj' : j < t'.bandCount := (List.getElem?_eq_some_iff.1 hj).1
  have hright : (t'.slots (y * t.width + x))[j]? = t'.sample? j x y := by
    rw [h.width]
    exact getElem?_slots_band (h.width ▸ hx) y hj'
  rw [getElem?_slots_band hx y hi', hright]
  exact h.plane b i j hi hj x hx y hy

/-- What styles leave in some slots of every pixel, their drawings have in these channels. -/
theorem Rearranges.agreesOn_draw {channels : List Nat} {style style' : Style} (h : t.Rearranges t')
    (hchannels : ∀ c ∈ channels, c < 4)
    (hstyles : ∀ x < t.width, ∀ y < t.height, ∀ c ∈ channels,
      (style.apply t.map (t.slots (y * t.width + x)))[c]? =
        (style'.apply t'.map (t'.slots (y * t.width + x)))[c]?) :
    Picture.AgreesOn channels ⟨t.width, t.height, t.draw fun bands pixel => style.apply bands pixel⟩
      ⟨t'.width, t'.height, t'.draw fun bands pixel => style'.apply bands pixel⟩ := by
  refine ⟨h.width, h.height, fun x hx y hy c hc => ?_⟩
  have hslot : c < (style.apply t.map (t.slots (y * t.width + x))).length := by
    rw [style.keepsSlots]
    exact lt_of_lt_of_le (hchannels c hc) (t.four_le_length_slots _)
  have hleft := getElem?_draw style.keepsSlots hx hy (hchannels c hc)
  have hright := getElem?_draw style'.keepsSlots (h.width ▸ hx) (h.height ▸ hy) (hchannels c hc)
  rw [← h.width, ← hstyles x hx y hy c hc] at hright
  rw [List.getElem?_eq_getElem hslot, Option.map_some] at hleft hright
  refine ⟨_, hleft, ?_⟩
  rw [Picture.byte?, ← h.width]
  exact hright

/-! ## Rendering -/

/-- Presets show the same picture. -/
theorem Rearranges.render_preset (h : t.Rearranges t') {p : Preset} {options : PresetOptions Float}
    (hp : p = .rgb ∨ p = .onlyRed) (hread : options.readBands = none) :
    t.render (.preset p options) = t'.render (.preset p options) := by
  cases hc : p.configure options with
  | error e =>
    have hbuild (bands : BandMap) : (StyleSource.preset p options).build bands = .error e :=
      congrArg (Except.map Style.preset) hc
    rw [render_of_build_error (hbuild _), render_of_build_error (hbuild _)]
  | ok c =>
    have hbuild (bands : BandMap) : (StyleSource.preset p options).build bands = .ok (.preset c) :=
      congrArg (Except.map Style.preset) hc
    obtain ⟨hpreset, hbands⟩ := Preset.configure_eq_ok hc
    rw [hread] at hbands
    have hdraw : t.draw (fun bands pixel => (Style.preset c).apply bands pixel) =
        t'.draw fun bands pixel => (Style.preset c).apply bands pixel :=
      draw_congr (Style.preset c).keepsSlots (Style.preset c).keepsSlots h.width h.height
        fun x hx y hy => c.take_apply_rearranged (hpreset.symm ▸ hp) hbands h.order
          (h.slots hx hy) (t.four_le_length_slots _) (t'.four_le_length_slots _)
    rw [render_of_build (hbuild _), render_of_build (hbuild _), h.width, h.height, hdraw]

/-- Tables show the same colours. -/
theorem Rearranges.render_table (h : t.Rearranges t') {ranges ranges' : List BandRange}
    (hranges : t.bands.Aligned t'.bands ranges ranges') (table : LookupTable) :
    EndAlike (Picture.AgreesOn [0, 1, 2]) (t.render (.table table ranges))
      (t'.render (.table table ranges')) := by
  rcases table.bind_rearranged h.order hranges with ⟨e, hb, hb'⟩ | ⟨b, b', hb, hb', houtputs⟩
  · exact .inl ⟨e, render_of_build_error (congrArg (Except.map Style.table) hb),
      render_of_build_error (congrArg (Except.map Style.table) hb')⟩
  · refine .inr ⟨_, _, render_of_build (congrArg (Except.map Style.table) hb),
      render_of_build (congrArg (Except.map Style.table) hb'),
      h.agreesOn_draw (by decide) fun x hx y hy c hc => ?_⟩
    have hthree (t : Tile) (p : Nat) : 3 ≤ (t.slots p).length :=
      le_trans (by decide) (t.four_le_length_slots p)
    exact houtputs (h.slots hx hy) (hthree _ _) (hthree _ _) c (by simp at hc; omega)

/-- What a program compiles to for the two orders. -/
theorem Rearranges.compile (h : t.Rearranges t') {ranges ranges' : List BandRange}
    (hranges : t.bands.Aligned t'.bands ranges ranges') {source : String}
    (hletter : Program.ByLetter source) :
    ((∃ e, Program.compile source ranges t.map = .error e) ∧
      ∃ e, Program.compile source ranges' t'.map = .error e) ∨
    ∃ p p', Program.compile source ranges t.map = .ok p ∧
      Program.compile source ranges' t'.map = .ok p' ∧ p'.bindsAlpha = p.bindsAlpha := by
  cases hc : Program.compile source ranges t.map with
  | ok p =>
    obtain ⟨p', hc', halpha⟩ := Program.compile_rearranged h.order hranges hletter hc
    exact .inr ⟨p, p', rfl, hc', halpha⟩
  | error e =>
    cases hc' : Program.compile source ranges' t'.map with
    | error e' => exact .inl ⟨⟨e, rfl⟩, e', rfl⟩
    | ok p' =>
      obtain ⟨p, hp, -⟩ := Program.compile_rearranged h.order.symm hranges.symm hletter hc'
      exact absurd (hc.symm.trans hp) (by simp)

/-- Programs by letter show the same colours, and the same alpha if they bind it. -/
theorem Rearranges.render_program (h : t.Rearranges t') {ranges ranges' : List BandRange}
    (hranges : t.bands.Aligned t'.bands ranges ranges') {source : String} {p p' : Program}
    (hletter : Program.ByLetter source) (hc : Program.compile source ranges t.map = .ok p)
    (hc' : Program.compile source ranges' t'.map = .ok p') :
    ∃ q q', t.render (.program source ranges) = .ok q ∧
      t'.render (.program source ranges') = .ok q' ∧ q.AgreesOn [0, 1, 2] q' ∧
      (p.bindsAlpha = true → q.AgreesOn [3] q') := by
  have hbuild {t : Tile} {ranges : List BandRange} {p : Program}
      (hc : Program.compile source ranges t.map = .ok p) :
      (StyleSource.program source ranges).build t.map = .ok (.program p) := by
    rw [StyleSource.build, hc]
  have hwrites {x y : Nat} (hx : x < t.width) (hy : y < t.height) :=
    have hsetting : Program.Setting.Rearranges ⟨ranges, t.bands, t.slots (y * t.width + x)⟩
        ⟨ranges', t'.bands, t'.slots (y * t.width + x)⟩ := ⟨h.order, hranges, h.slots hx hy⟩
    hsetting.apply_eq hletter hc hc' (t.length_slots _).ge (t'.length_slots _).ge
  refine ⟨_, _, render_of_build (hbuild hc), render_of_build (hbuild hc'),
    h.agreesOn_draw (by decide) fun x hx y hy c hchannel => (hwrites hx hy).1 c ?_,
    fun halpha => h.agreesOn_draw (by decide) fun x hx y hy c hchannel => ?_⟩
  · simp only [List.mem_cons, List.not_mem_nil, or_false] at hchannel
    omega
  · rw [List.mem_singleton.1 hchannel]
    exact (hwrites hx hy).2 halpha

/-- Rendering by letter does not depend on where the bands are stored. A preset with the colours of
letters renders two such tiles to one result; a lookup table cannot be bound for either of them or
gives both the same colours; a program that names its bands compiles for neither of them or gives both
the same colours, and the same alpha if it binds it. -/
theorem render_rearranged (h : t.Rearranges t') {ranges ranges' : List BandRange}
    (hranges : t.bands.Aligned t'.bands ranges ranges') :
    (∀ (p : Preset) (options : PresetOptions Float), p = .rgb ∨ p = .onlyRed →
      options.readBands = none → t.render (.preset p options) = t'.render (.preset p options)) ∧
    (∀ table : LookupTable,
      (∃ e, t.render (.table table ranges) = .error e ∧
        t'.render (.table table ranges') = .error e) ∨
      ∃ q q', t.render (.table table ranges) = .ok q ∧ t'.render (.table table ranges') = .ok q' ∧
        q.AgreesOn [0, 1, 2] q') ∧
    ∀ source : String, Program.ByLetter source →
      ((∃ e, Program.compile source ranges t.map = .error e) ∧
        ∃ e, Program.compile source ranges' t'.map = .error e) ∨
      ∃ p p' q q', Program.compile source ranges t.map = .ok p ∧
        Program.compile source ranges' t'.map = .ok p' ∧
        t.render (.program source ranges) = .ok q ∧ t'.render (.program source ranges') = .ok q' ∧
        q.AgreesOn [0, 1, 2] q' ∧ p'.bindsAlpha = p.bindsAlpha ∧
        (p.bindsAlpha = true → q.AgreesOn [3] q') := by
  refine ⟨fun p options => h.render_preset, h.render_table hranges, fun source hletter => ?_⟩
  rcases h.compile hranges hletter with hfails | ⟨p, p', hc, hc', halpha⟩
  · exact .inl hfails
  · obtain ⟨q, q', hq, hq', hcolors, hopacity⟩ := h.render_program hranges hletter hc hc'
    exact .inr ⟨p, p', q, q', hc, hc', hq, hq', hcolors, halpha, hopacity⟩

/-- The pixel of `dot` with its bands the other way round. -/
def turned : Tile := ⟨some ⟨.u8, 2, 1, 1, #[9, 7], rfl⟩, [.red, .blue], by simp⟩

def dotRanges : List BandRange := [⟨some 1, some 100⟩, ⟨some 2, some 200⟩]

def turnedRanges : List BandRange := [⟨some 2, some 200⟩, ⟨some 1, some 100⟩]

theorem rearranges_turned : dot.Rearranges turned := by
  refine ⟨⟨by decide, .swap _ _ _⟩, rfl, rfl, ?_⟩
  have hplanes : ∀ i < 2, ∀ j < 2, dot.bands[i]? = turned.bands[j]? →
      dot.sample? i 0 0 = turned.sample? j 0 0 := by decide +kernel
  intro b i j hi hj x hx y hy
  have hx' : x < 1 := hx
  have hy' : y < 1 := hy
  rw [Nat.lt_one_iff.1 hx', Nat.lt_one_iff.1 hy']
  exact hplanes i (List.getElem?_eq_some_iff.1 hi).1 j (List.getElem?_eq_some_iff.1 hj).1
    (hi.trans hj.symm)

theorem aligned_dotRanges : dot.bands.Aligned turned.bands dotRanges turnedRanges := by
  have haligned : ∀ i < 2, ∀ j < 2, dot.bands[i]? = turned.bands[j]? →
      dotRanges[i]? = turnedRanges[j]? := by decide
  intro b i j hi hj
  exact haligned i (List.getElem?_eq_some_iff.1 hi).1 j (List.getElem?_eq_some_iff.1 hj).1
    (hi.trans hj.symm)

theorem render_rearranged_turned :
    dot.Rearranges turned ∧ dot.bands.Aligned turned.bands dotRanges turnedRanges ∧
      Program.ByLetter Program.lettered ∧
      dot.render (.preset .rgb .default) = turned.render (.preset .rgb .default) ∧
      ∃ q q', dot.render (.program Program.lettered dotRanges) = .ok q ∧
        turned.render (.program Program.lettered turnedRanges) = .ok q' ∧
        q.rgba = [7, 100, 7, 0] ∧ q.AgreesOn [0, 1, 2] q' := by
  obtain ⟨hpreset, -, hprogram⟩ := render_rearranged rearranges_turned aligned_dotRanges
  refine ⟨rearranges_turned, aligned_dotRanges, Program.byLetter_lettered,
    hpreset .rgb .default (.inl rfl) rfl, ?_⟩
  have hcompiles : (Program.compile Program.lettered dotRanges dot.map).isOk = true := by
    decide +kernel
  have hbytes : (dot.render (.program Program.lettered dotRanges)).map Picture.rgba =
      .ok [7, 100, 7, 0] := by decide +kernel
  rcases hprogram Program.lettered Program.byLetter_lettered with
    ⟨⟨e, he⟩, -⟩ | ⟨-, -, q, q', -, -, hq, hq', hcolors, -⟩
  · rw [he] at hcompiles
    cases hcompiles
  · rw [hq] at hbytes
    exact ⟨q, q', hq, hq', Except.ok.inj hbytes, hcolors⟩

end Tile
end RasterTile
