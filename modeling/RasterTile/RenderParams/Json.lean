import RasterTile.Json.Text
import RasterTile.RenderParams

/-!
# Rendering parameters as JSON

Every reader comes with the writer beside it. A record may be written as an object or as the list
of its fields in order; unknown fields are ignored and repeated ones refused. A style is read as
the first of preset, program and lookup table that fits, and only as an object.
-/
namespace RasterTile

namespace Band

def ofJson? (v : Json) : Option Band := do
  let s ← v.string?
  match s.toList with
  | [c] => ofChar? c
  | _ => none

def toJson (b : Band) : Json := .string b.letter.toString

end Band

namespace BandOrder

def ofJson? (v : Json) : Option BandOrder := v.list? Band.ofJson?

def toJson (order : BandOrder) : Json := .ofList Band.toJson order

end BandOrder

namespace BandRange

def wordLimit : Nat := UInt32.size

def boundOfJson? (v : Json) : Option UInt32 := (v.nat? wordLimit).map UInt32.ofNat

/-- A pair of bounds, where null stands for a missing one. -/
def ofJson? : Json → Option BandRange
  | .array [low, high] => do
    return ⟨← low.nullable? boundOfJson?, ← high.nullable? boundOfJson?⟩
  | _ => none

def toJson (r : BandRange) : Json :=
  let bound (b : Option UInt32) : Json := .ofOption (fun n => .ofNat n.toNat) b
  .array [bound r.low, bound r.high]

end BandRange

namespace Curve

def ofJson? (v : Json) : Option (Curve Float) :=
  (v.list? Json.single?).map fun values => ⟨values.toArray⟩

def toJson (c : Curve Float) : Json := .ofList .ofFloat c.values.toList

end Curve

namespace ColorSettings

def ofJson? (v : Json) : Option (ColorSettings Float) := do
  match ← v.record? ["brightness", "contrast", "saturation"] with
  | [some brightness, some contrast, some saturation] =>
    return ⟨← brightness.float?, ← contrast.float?, ← saturation.float?⟩
  | _ => none

def toJson (c : ColorSettings Float) : Json :=
  .object [("brightness", .ofFloat c.brightness), ("contrast", .ofFloat c.contrast),
    ("saturation", .ofFloat c.saturation)]

end ColorSettings

namespace Preset

/-- A name, or an object whose only key is the name and whose value is null. -/
def ofJson? : Json → Option Preset
  | .string name => ofName? name
  | .object [(name, .null)] => ofName? name
  | _ => none

def toJson (p : Preset) : Json := .string p.name

end Preset

def countLimit : Nat := UInt64.size

def countOfJson? (v : Json) : Option Nat := v.nat? countLimit

namespace PresetOptions

def ofJson? (v : Json) : Option (PresetOptions Float) := do
  match ← v.record? ["pixelDepth", "curves", "readBands", "brightnessContrastSaturation"] with
  | [depth, curves, readBands, color] =>
    return {
      pixelDepth := ← Json.withDefault? defaultDepth countOfJson? depth
      curves := ← Json.optional? (·.list? Curve.ofJson?) curves
      readBands := ← Json.optional? BandOrder.ofJson? readBands
      color := ← Json.optional? ColorSettings.ofJson? color }
  | _ => none

/-- A field that is left out when there is no value. -/
def field (name : String) (write : α → Json) (x : Option α) : List (String × Json) :=
  (x.map fun y => (name, write y)).toList

def toJson (o : PresetOptions Float) : Json :=
  .object ([("pixelDepth", .ofNat o.pixelDepth)] ++ field "curves" (.ofList Curve.toJson) o.curves ++
    field "readBands" BandOrder.toJson o.readBands ++
    field "brightnessContrastSaturation" ColorSettings.toJson o.color)

end PresetOptions

namespace LookupTable

def channelOfJson? (v : Json) : Option (Array Float) := (v.list? Json.float?).map List.toArray

def ofJson? : Json → Option LookupTable
  | .array [red, green, blue] => do
    return ⟨← channelOfJson? red, ← channelOfJson? green, ← channelOfJson? blue⟩
  | _ => none

def toJson (t : LookupTable) : Json :=
  .ofList (fun channel : Array Float => .ofList .ofFloat channel.toList) [t.red, t.green, t.blue]

end LookupTable

namespace StyleSource

def presetOfJson? (v : Json) : Option StyleSource := do
  match ← v.fields? ["name", "options"] with
  | [some name, options] =>
    return .preset (← Preset.ofJson? name)
      (← Json.withDefault? PresetOptions.default PresetOptions.ofJson? options)
  | _ => none

def rangesOfJson? (v : Option Json) : Option (List BandRange) :=
  Json.withDefault? [] (·.list? BandRange.ofJson?) v

def programOfJson? (v : Json) : Option StyleSource := do
  match ← v.fields? ["source", "ranges"] with
  | [some text, ranges] => return .program (← text.string?) (← rangesOfJson? ranges)
  | _ => none

def tableOfJson? (v : Json) : Option StyleSource := do
  match ← v.fields? ["lookupTable", "ranges"] with
  | [some tables, ranges] => return .table (← LookupTable.ofJson? tables) (← rangesOfJson? ranges)
  | _ => none

def ofJson? (v : Json) : Option StyleSource :=
  ((presetOfJson? v).or (programOfJson? v)).or (tableOfJson? v)

/-- Arrays and objects nest at most this deep in a text. -/
def nestingLimit : Nat := 127

/-- The style in a value that stands `outer` levels deep in a text. All of the value has to be
readable, even what is ignored. -/
def ofText? (outer : Nat) (v : Json) : Option StyleSource :=
  if v.isReadable && v.depth + outer ≤ nestingLimit then ofJson? v else none

def read (text : List Char) : Except Error StyleSource :=
  match (Json.parse text).bind (ofText? 0) with
  | some source => .ok source
  | none => .error .json

def toJson : StyleSource → Json
  | .preset p options => .object [("name", p.toJson), ("options", options.toJson)]
  | .program text ranges =>
    .object [("source", .string text), ("ranges", .ofList BandRange.toJson ranges)]
  | .table t ranges =>
    .object [("lookupTable", t.toJson), ("ranges", .ofList BandRange.toJson ranges)]

end StyleSource

namespace StretchSettings

def ofJson? (v : Json) : Option StretchSettings := do
  match ← v.record? ["lowPct", "highPct", "pixelDepth"] with
  | [some low, some high, depth] =>
    return ⟨← low.float?, ← high.float?, ← Json.optional? countOfJson? depth⟩
  | _ => none

def toJson (s : StretchSettings) : Json :=
  .object ([("lowPct", .ofFloat s.lowPercent), ("highPct", .ofFloat s.highPercent)] ++
    PresetOptions.field "pixelDepth" .ofNat s.pixelDepth)

end StretchSettings

namespace RenderParams

def ofJson? (v : Json) : Option RenderParams := do
  match ← v.record? ["bands", "style", "stretch"] with
  | [bands, style, stretch] =>
    return {
      bands := ← Json.withDefault? BandOrder.rgba BandOrder.ofJson? bands
      style := ← Json.withDefault? StyleSource.default (StyleSource.ofText? 1) style
      stretch := ← Json.optional? StretchSettings.ofJson? stretch }
  | _ => none

def read (text : List Char) : Except Error RenderParams :=
  match (Json.parse text).bind ofJson? with
  | some params => .ok params
  | none => .error .json

def toJson (p : RenderParams) : Json :=
  .object ([("bands", BandOrder.toJson p.bands), ("style", p.style.toJson)] ++
    PresetOptions.field "stretch" StretchSettings.toJson p.stretch)

end RenderParams
end RasterTile
