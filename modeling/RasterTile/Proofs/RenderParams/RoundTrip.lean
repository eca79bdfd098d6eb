import RasterTile.Proofs.Json
import RasterTile.RenderParams.Json

/-!
# Parameters that are read back as they were written

Every reader recovers what the writer beside it has written, from single bands up to whole rendering
parameters. Two things are needed for this. Every number is finite, since JSON has no other numbers. And
counts and curves have the widths that they are kept in, 64 bits for a count and single precision for a
curve; wider ones are not parameters at all.

A style is read as the first kind that fits. The three kinds are written with three different fields to
tell them apart, and each kind needs its own field, so no kind is taken for an earlier one.
-/
namespace RasterTile

open Json (present)

theorem Band.ofJson?_toJson (b : Band) : Band.ofJson? b.toJson = some b := by
  have hletter : b.letter.toString.toList = [b.letter] := by simp [Char.toString]
  simp only [Band.ofJson?, Band.toJson, Json.string?, Option.bind_eq_bind, Option.bind_some, hletter]
  exact dif_pos b.isLower

theorem BandOrder.ofJson?_toJson (order : BandOrder) : ofJson? order.toJson = some order :=
  Json.list?_ofList fun b _ => b.ofJson?_toJson

theorem BandOrder.shallow_toJson (order : BandOrder) : Json.Shallow 1 order.toJson :=
  Json.shallow_ofList fun b _ => Json.shallow_string 0 b.letter.toString

namespace BandRange

theorem boundOfJson?_ofNat (n : UInt32) : boundOfJson? (.ofNat n.toNat) = some n := by
  have hbound : n.toNat < wordLimit := n.toNat_lt
  rw [boundOfJson?, Json.nat?_ofNat hbound, Option.map_some, UInt32.ofNat_toNat]

theorem ofJson?_toJson (r : BandRange) : ofJson? r.toJson = some r := by
  have hbound (b : Option UInt32) :
      (Json.ofOption (fun n => .ofNat n.toNat) b).nullable? boundOfJson? = some b :=
    Json.nullable?_ofOption rfl fun n _ => boundOfJson?_ofNat n
  simp only [toJson, ofJson?, hbound]
  rfl

theorem shallow_toJson (r : BandRange) : Json.Shallow 1 r.toJson := by
  refine Json.shallow_array fun v hv => ?_
  have hbound (b : Option UInt32) : Json.Shallow 0 (Json.ofOption (fun n => .ofNat n.toNat) b) :=
    Json.shallow_ofOption fun n _ => Json.shallow_ofNat 0 n.toNat
  rcases List.mem_pair.1 hv with rfl | rfl
  · exact hbound r.low
  · exact hbound r.high

end BandRange

namespace Curve

variable {c : Curve Float}

def IsFinite (c : Curve Float) : Prop := ∀ x ∈ c.values.toList, x.isFinite = true

def IsSingle (c : Curve Float) : Prop := ∀ x ∈ c.values.toList, Rounding.IsSingle x

theorem ofJson?_toJson (hsingle : c.IsSingle) (hfinite : c.IsFinite) : ofJson? c.toJson = some c := by
  have hvalues : Json.list? Json.single? (.ofList .ofFloat c.values.toList) = some c.values.toList :=
    Json.list?_ofList fun x hx => Json.single?_ofFloat (hsingle x hx) (hfinite x hx)
  rw [ofJson?, toJson, hvalues, Option.map_some, Array.toArray_toList]

theorem shallow_toJson (c : Curve Float) : Json.Shallow 1 c.toJson :=
  Json.shallow_ofList fun x _ => Json.shallow_ofFloat 0 x

end Curve

namespace ColorSettings

variable {c : ColorSettings Float}

structure IsFinite (c : ColorSettings Float) : Prop where
  brightness : c.brightness.isFinite = true
  contrast : c.contrast.isFinite = true
  saturation : c.saturation.isFinite = true

def entries (c : ColorSettings Float) : List (String × Option Json) :=
  [("brightness", some (.ofFloat c.brightness)), ("contrast", some (.ofFloat c.contrast)),
    ("saturation", some (.ofFloat c.saturation))]

theorem toJson_eq (c : ColorSettings Float) : c.toJson = .object (present c.entries) := rfl

theorem ofJson?_toJson (h : c.IsFinite) : ofJson? c.toJson = some c := by
  have hrecord : c.toJson.record? ["brightness", "contrast", "saturation"] =
      some (c.entries.map Prod.snd) := by
    rw [toJson_eq]
    exact Json.record?_present c.entries (by simp [entries])
  rw [ofJson?, hrecord]
  simp only [entries, List.map_cons, List.map_nil, Option.bind_eq_bind, Option.bind_some,
    Json.float?_ofFloat h.brightness, Json.float?_ofFloat h.contrast,
    Json.float?_ofFloat h.saturation]
  rfl

theorem shallow_toJson (c : ColorSettings Float) : Json.Shallow 1 c.toJson := by
  rw [toJson_eq]
  exact Json.shallow_present (by simp [entries, Json.shallow_ofFloat])

end ColorSettings

theorem Preset.ofJson?_toJson (p : Preset) : ofJson? p.toJson = some p := ofName?_name p

theorem countOfJson?_ofNat {n : Nat} (h : n < countLimit) : countOfJson? (.ofNat n) = some n :=
  Json.nat?_ofNat h

namespace PresetOptions

variable {o : PresetOptions Float}

structure IsFinite (o : PresetOptions Float) : Prop where
  curves : ∀ curves ∈ o.curves, ∀ c ∈ curves, c.IsFinite
  color : ∀ color ∈ o.color, color.IsFinite

structure FitsWidths (o : PresetOptions Float) : Prop where
  pixelDepth : o.pixelDepth < countLimit
  curves : ∀ curves ∈ o.curves, ∀ c ∈ curves, c.IsSingle

def entries (o : PresetOptions Float) : List (String × Option Json) :=
  [("pixelDepth", some (.ofNat o.pixelDepth)), ("curves", o.curves.map (.ofList Curve.toJson)),
    ("readBands", o.readBands.map BandOrder.toJson),
    ("brightnessContrastSaturation", o.color.map ColorSettings.toJson)]

theorem toJson_eq (o : PresetOptions Float) : o.toJson = .object (present o.entries) := by
  rcases o with ⟨_, _ | _, _ | _, _ | _⟩ <;> rfl

theorem ofJson?_of_record {v : Json} {depth curves readBands color : Option Json}
    (hrecord : v.record? ["pixelDepth", "curves", "readBands", "brightnessContrastSaturation"] =
      some [depth, curves, readBands, color])
    (hdepth : Json.withDefault? defaultDepth countOfJson? depth = some o.pixelDepth)
    (hcurves : Json.optional? (·.list? Curve.ofJson?) curves = some o.curves)
    (hbands : Json.optional? BandOrder.ofJson? readBands = some o.readBands)
    (hcolor : Json.optional? ColorSettings.ofJson? color = some o.color) : ofJson? v = some o := by
  rw [ofJson?, hrecord]
  simp only [Option.bind_eq_bind, Option.bind_some, hdepth, hcurves, hbands, hcolor]
  rfl

theorem ofJson?_toJson (hwidths : o.FitsWidths) (hfinite : o.IsFinite) :
    ofJson? o.toJson = some o := by
  have hcurve : ∀ curves ∈ o.curves, ∀ c ∈ curves, Curve.ofJson? c.toJson = some c :=
    fun curves hcurves c hc =>
      Curve.ofJson?_toJson (hwidths.curves curves hcurves c hc) (hfinite.curves curves hcurves c hc)
  rw [toJson_eq]
  refine ofJson?_of_record (Json.record?_present o.entries (by simp [entries])) ?_ ?_ ?_ ?_
  · rw [Json.withDefault?_some]
    exact countOfJson?_ofNat hwidths.pixelDepth
  · exact Json.optional?_map rfl fun curves hcurves => Json.list?_ofList (hcurve curves hcurves)
  · exact Json.optional?_map rfl fun order _ => order.ofJson?_toJson
  · exact Json.optional?_map rfl fun color hcolor =>
      ColorSettings.ofJson?_toJson (hfinite.color color hcolor)

theorem shallow_toJson (o : PresetOptions Float) : Json.Shallow 3 o.toJson := by
  have hcurves (curves : List (Curve Float)) : Json.Shallow 2 (.ofList Curve.toJson curves) :=
    Json.shallow_ofList fun c _ => c.shallow_toJson
  have hbands (order : BandOrder) : Json.Shallow 2 order.toJson := order.shallow_toJson.mono (by decide)
  have hcolor (c : ColorSettings Float) : Json.Shallow 2 c.toJson := c.shallow_toJson.mono (by decide)
  rw [toJson_eq]
  apply Json.shallow_present
  simp [entries, Json.shallow_ofNat, hcurves, hbands, hcolor]

end PresetOptions

namespace LookupTable

variable {t : LookupTable}

def IsFinite (t : LookupTable) : Prop :=
  ∀ channel ∈ [t.red, t.green, t.blue], ∀ x ∈ channel.toList, x.isFinite = true

theorem channelOfJson?_ofList {channel : Array Float} (h : ∀ x ∈ channel.toList, x.isFinite = true) :
    channelOfJson? (.ofList .ofFloat channel.toList) = some channel := by
  have hentries : Json.list? Json.float? (.ofList .ofFloat channel.toList) = some channel.toList :=
    Json.list?_ofList fun x hx => Json.float?_ofFloat (h x hx)
  rw [channelOfJson?, hentries, Option.map_some]

theorem ofJson?_toJson (h : t.IsFinite) : ofJson? t.toJson = some t := by
  have hred := channelOfJson?_ofList (h t.red (by simp))
  have hgreen := channelOfJson?_ofList (h t.green (by simp))
  have hblue := channelOfJson?_ofList (h t.blue (by simp))
  simp only [toJson, Json.ofList, ofJson?, List.map_cons, List.map_nil] at hred hgreen hblue ⊢
  rw [hred, hgreen, hblue]
  rfl

theorem shallow_toJson (t : LookupTable) : Json.Shallow 2 t.toJson :=
  Json.shallow_ofList fun _ _ => Json.shallow_ofList fun x _ => Json.shallow_ofFloat 0 x

end LookupTable

namespace StyleSource

variable {s : StyleSource} {v : Json} {other : Option Json}

def IsFinite : StyleSource → Prop
  | .preset _ options => options.IsFinite
  | .program _ _ => True
  | .table t _ => t.IsFinite

def FitsWidths : StyleSource → Prop
  | .preset _ options => options.FitsWidths
  | _ => True

def entries : StyleSource → List (String × Option Json)
  | .preset p options =>
    [("name", some p.toJson), ("options", some options.toJson), ("source", none),
      ("lookupTable", none), ("ranges", none)]
  | .program text ranges =>
    [("name", none), ("options", none), ("source", some (.string text)), ("lookupTable", none),
      ("ranges", some (.ofList BandRange.toJson ranges))]
  | .table t ranges =>
    [("name", none), ("options", none), ("source", none), ("lookupTable", some t.toJson),
      ("ranges", some (.ofList BandRange.toJson ranges))]

theorem toJson_eq (s : StyleSource) : s.toJson = .object (present s.entries) := by
  cases s <;> rfl

/-- Whatever fields a style is asked for, it gives its own. -/
theorem fields?_toJson (asked : List (String × Option Json)) (h : asked ⊆ s.entries) :
    s.toJson.fields? (asked.map Prod.fst) = some (asked.map Prod.snd) := by
  have hnames : (s.entries.map Prod.fst).Nodup := by cases s <;> simp [entries]
  rw [toJson_eq]
  exact Json.fields?_present asked hnames h

theorem rangesOfJson?_ofList (ranges : List BandRange) :
    rangesOfJson? (some (.ofList BandRange.toJson ranges)) = some ranges :=
  Json.list?_ofList fun r _ => r.ofJson?_toJson

/-! A kind of style is recognized by its own field, which the other kinds leave out. -/

theorem presetOfJson?_eq_some {p : Preset} {options : PresetOptions Float}
    (hfields : v.fields? ["name", "options"] = some [some p.toJson, some options.toJson])
    (hwidths : options.FitsWidths) (hfinite : options.IsFinite) :
    presetOfJson? v = some (.preset p options) := by
  rw [presetOfJson?, hfields]
  simp only [Option.bind_eq_bind, Option.bind_some, Preset.ofJson?_toJson, Json.withDefault?_some,
    PresetOptions.ofJson?_toJson hwidths hfinite]
  rfl

theorem presetOfJson?_eq_none (hfields : v.fields? ["name", "options"] = some [none, other]) :
    presetOfJson? v = none := by
  rw [presetOfJson?, hfields]
  rfl

theorem programOfJson?_eq_some {text : String} {ranges : List BandRange}
    (hfields : v.fields? ["source", "ranges"] =
      some [some (.string text), some (.ofList BandRange.toJson ranges)]) :
    programOfJson? v = some (.program text ranges) := by
  rw [programOfJson?, hfields]
  simp only [Option.bind_eq_bind, Option.bind_some, Json.string?, rangesOfJson?_ofList]
  rfl

theorem programOfJson?_eq_none (hfields : v.fields? ["source", "ranges"] = some [none, other]) :
    programOfJson? v = none := by
  rw [programOfJson?, hfields]
  rfl

theorem tableOfJson?_eq_some {t : LookupTable} {ranges : List BandRange}
    (hfields : v.fields? ["lookupTable", "ranges"] =
      some [some t.toJson, some (.ofList BandRange.toJson ranges)])
    (hfinite : t.IsFinite) : tableOfJson? v = some (.table t ranges) := by
  rw [tableOfJson?, hfields]
  simp only [Option.bind_eq_bind, Option.bind_some, LookupTable.ofJson?_toJson hfinite,
    rangesOfJson?_ofList]
  rfl

theorem ofJson?_toJson (hwidths : s.FitsWidths) (hfinite : s.IsFinite) :
    ofJson? s.toJson = some s := by
  cases s with
  | preset p options =>
    have hfields := fields?_toJson (s := .preset p options)
      [("name", some p.toJson), ("options", some options.toJson)] (by simp [entries])
    rw [ofJson?, presetOfJson?_eq_some hfields hwidths hfinite]
    rfl
  | program text ranges =>
    have hname := fields?_toJson (s := .program text ranges)
      [("name", none), ("options", none)] (by simp [entries])
    have hfields := fields?_toJson (s := .program text ranges)
      [("source", some (.string text)), ("ranges", some (.ofList BandRange.toJson ranges))]
      (by simp [entries])
    rw [ofJson?, presetOfJson?_eq_none hname, programOfJson?_eq_some hfields]
    rfl
  | table t ranges =>
    have hname := fields?_toJson (s := .table t ranges)
      [("name", none), ("options", none)] (by simp [entries])
    have hsource := fields?_toJson (s := .table t ranges)
      [("source", none), ("ranges", some (.ofList BandRange.toJson ranges))] (by simp [entries])
    have hfields := fields?_toJson (s := .table t ranges)
      [("lookupTable", some t.toJson), ("ranges", some (.ofList BandRange.toJson ranges))]
      (by simp [entries])
    rw [ofJson?, presetOfJson?_eq_none hname, programOfJson?_eq_none hsource,
      tableOfJson?_eq_some hfields hfinite]
    rfl

theorem shallow_toJson (s : StyleSource) : Json.Shallow 4 s.toJson := by
  have hranges (ranges : List BandRange) : Json.Shallow 3 (.ofList BandRange.toJson ranges) :=
    (Json.shallow_ofList fun r _ => r.shallow_toJson).mono (by decide)
  rw [toJson_eq]
  apply Json.shallow_present
  cases s with
  | preset p options => simp [entries, Preset.toJson, Json.shallow_string, options.shallow_toJson]
  | program text ranges => simp [entries, Json.shallow_string, hranges]
  | table t ranges => simp [entries, t.shallow_toJson.mono, hranges]

/-- A written style is far from the limit on nesting. -/
theorem ofText?_toJson {outer : Nat} (houter : outer + 4 ≤ nestingLimit) (hwidths : s.FitsWidths)
    (hfinite : s.IsFinite) : ofText? outer s.toJson = some s := by
  have hshallow := s.shallow_toJson
  have hdepth : s.toJson.depth + outer ≤ nestingLimit := by
    have := hshallow.depth
    omega
  rw [ofText?, hshallow.readable, decide_eq_true hdepth, ofJson?_toJson hwidths hfinite]
  rfl

end StyleSource

namespace StretchSettings

variable {s : StretchSettings}

structure IsFinite (s : StretchSettings) : Prop where
  lowPercent : s.lowPercent.isFinite = true
  highPercent : s.highPercent.isFinite = true

def FitsWidths (s : StretchSettings) : Prop := ∀ depth ∈ s.pixelDepth, depth < countLimit

def entries (s : StretchSettings) : List (String × Option Json) :=
  [("lowPct", some (.ofFloat s.lowPercent)), ("highPct", some (.ofFloat s.highPercent)),
    ("pixelDepth", s.pixelDepth.map .ofNat)]

theorem toJson_eq (s : StretchSettings) : s.toJson = .object (present s.entries) := by
  rcases s with ⟨_, _, _ | _⟩ <;> rfl

theorem ofJson?_toJson (hwidths : s.FitsWidths) (hfinite : s.IsFinite) :
    ofJson? s.toJson = some s := by
  have hrecord : s.toJson.record? ["lowPct", "highPct", "pixelDepth"] =
      some (s.entries.map Prod.snd) := by
    rw [toJson_eq]
    exact Json.record?_present s.entries (by simp [entries])
  have hdepth : Json.optional? countOfJson? (s.pixelDepth.map .ofNat) = some s.pixelDepth :=
    Json.optional?_map rfl fun depth hd => countOfJson?_ofNat (hwidths depth hd)
  rw [ofJson?, hrecord]
  simp only [entries, List.map_cons, List.map_nil, Option.bind_eq_bind, Option.bind_some,
    Json.float?_ofFloat hfinite.lowPercent, Json.float?_ofFloat hfinite.highPercent, hdepth]
  rfl

end StretchSettings

namespace RenderParams

variable {p : RenderParams}

/-- All numbers in the style and in the stretch are finite. -/
structure IsFinite (p : RenderParams) : Prop where
  style : p.style.IsFinite
  stretch : ∀ s ∈ p.stretch, s.IsFinite

/-- Counts are below `2 ^ 64`, and curves are singles. -/
structure FitsWidths (p : RenderParams) : Prop where
  style : p.style.FitsWidths
  stretch : ∀ s ∈ p.stretch, s.FitsWidths

def entries (p : RenderParams) : List (String × Option Json) :=
  [("bands", some (BandOrder.toJson p.bands)), ("style", some p.style.toJson),
    ("stretch", p.stretch.map StretchSettings.toJson)]

theorem toJson_eq (p : RenderParams) : p.toJson = .object (present p.entries) := by
  rcases p with ⟨_, _, _ | _⟩ <;> rfl

theorem ofJson?_of_record {v : Json} {bands style stretch : Option Json}
    (hrecord : v.record? ["bands", "style", "stretch"] = some [bands, style, stretch])
    (hbands : Json.withDefault? BandOrder.rgba BandOrder.ofJson? bands = some p.bands)
    (hstyle : Json.withDefault? StyleSource.default (StyleSource.ofText? 1) style = some p.style)
    (hstretch : Json.optional? StretchSettings.ofJson? stretch = some p.stretch) :
    ofJson? v = some p := by
  rw [ofJson?, hrecord]
  simp only [Option.bind_eq_bind, Option.bind_some, hbands, hstyle, hstretch]
  rfl

/-- Parameters are read back from what they are written as, and so is their style where it is
written by itself. -/
theorem written_reads_back (hwidths : p.FitsWidths) (hfinite : p.IsFinite) :
    ofJson? p.toJson = some p ∧ StyleSource.ofText? 0 p.style.toJson = some p.style := by
  have hstyle (outer : Nat) (houter : outer + 4 ≤ StyleSource.nestingLimit) :
      StyleSource.ofText? outer p.style.toJson = some p.style :=
    StyleSource.ofText?_toJson houter hwidths.style hfinite.style
  refine ⟨?_, hstyle 0 (by decide)⟩
  rw [toJson_eq]
  refine ofJson?_of_record (Json.record?_present p.entries (by simp [entries])) ?_ ?_ ?_
  · exact p.bands.ofJson?_toJson
  · exact hstyle 1 (by decide)
  · exact Json.optional?_map rfl fun s hs =>
      StretchSettings.ofJson?_toJson (hwidths.stretch s hs) (hfinite.stretch s hs)

/-- No band, a preset with an empty curve and with an empty band order, and a stretch. -/
def grayscale : RenderParams where
  bands := []
  style := .preset .gray
    { pixelDepth := 3000
      curves := some [⟨#[]⟩, ⟨#[0, Rounding.ofSingle 0x3dcccccd, 1]⟩]
      readBands := some []
      color := none }
  stretch := some ⟨0.25, 0.5, none⟩

theorem written_reads_back_grayscale :
    grayscale.FitsWidths ∧ grayscale.IsFinite ∧ ofJson? grayscale.toJson = some grayscale ∧
    StyleSource.ofText? 0 grayscale.style.toJson = some grayscale.style := by
  have hentries : ∀ x ∈ [0, Rounding.ofSingle 0x3dcccccd, 1],
      Rounding.IsSingle x ∧ x.isFinite = true := by
    intro x hx
    simp only [List.mem_cons, List.not_mem_nil, or_false] at hx
    rcases hx with rfl | rfl | rfl
    · exact ⟨⟨0, by decide +kernel⟩, by decide⟩
    · exact ⟨⟨_, rfl⟩, by decide +kernel⟩
    · exact ⟨⟨0x3f800000, by decide +kernel⟩, by decide⟩
  have hcurves : ∀ curves ∈ some [⟨#[]⟩, ⟨#[0, Rounding.ofSingle 0x3dcccccd, 1]⟩],
      ∀ c ∈ curves, Curve.IsSingle c ∧ c.IsFinite := by
    rintro _ ⟨⟩ c hc
    rcases List.mem_pair.1 hc with rfl | rfl
    · exact ⟨List.forall_mem_nil _, List.forall_mem_nil _⟩
    · exact ⟨fun x hx => (hentries x hx).1, fun x hx => (hentries x hx).2⟩
  have hwidths : grayscale.FitsWidths :=
    { style :=
        { pixelDepth := by decide
          curves := fun curves hc c hmem => (hcurves curves hc c hmem).1 }
      stretch := by
        rintro _ ⟨⟩ depth hdepth
        cases hdepth }
  have hfinite : grayscale.IsFinite :=
    { style :=
        { curves := fun curves hc c hmem => (hcurves curves hc c hmem).2
          color := by
            intro color hcolor
            cases hcolor }
      stretch := by
        rintro _ ⟨⟩
        exact ⟨by decide, by decide⟩ }
  exact ⟨hwidths, hfinite, written_reads_back hwidths hfinite⟩

end RenderParams
end RasterTile
