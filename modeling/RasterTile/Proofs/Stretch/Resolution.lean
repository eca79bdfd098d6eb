import RasterTile.Proofs.Stretch.Automatic

/-!
# Filling in what a style leaves open

A style that brings its own curves or ranges keeps them. One that does not is given those of a
histogram, and nothing else about it changes. There may be nothing to give: no window that a preset
could be stretched over, or no band at all. The style is then as open as before, and filling it in once
more has the same outcome; as soon as it was given something, no histogram changes it any more.
-/
namespace RasterTile.StyleSource

/-- Whether nothing is left to fill in: curves count even if there are none in the list, ranges only if
there are some. -/
def isFilled : StyleSource → Bool
  | .preset _ options => options.curves.isSome
  | .program _ ranges | .table _ ranges => !ranges.isEmpty

def bare : StyleSource → StyleSource
  | .preset p options => .preset p { options with curves := none }
  | .program text _ => .program text []
  | .table t _ => .table t []

/-- Whether a histogram has anything to give to the style: curves of its depth to a preset, a range for
some band to the others. -/
def isFillable (h : Histogram) (s : StretchSettings) : StyleSource → Bool
  | .preset _ options => (autoCurves h options.pixelDepth s).isSome
  | .program _ _ | .table _ _ => !h.bands.isEmpty

variable {source : StyleSource} {h : Histogram} {s : StretchSettings}

/-- Whatever is filled in, the rest of the style stays. -/
theorem bare_resolve (source : StyleSource) (h : Histogram) (s : StretchSettings) :
    (source.resolve h s).bare = source.bare := by
  cases source with
  | preset p options =>
    simp only [resolve, bare]
    split <;> rfl
  | program text ranges => rfl
  | table t ranges => rfl

theorem resolve_of_isFilled (hfilled : source.isFilled = true) : source.resolve h s = source := by
  cases source with
  | preset p options =>
    have hcurves : options.curves.isNone = false := Option.isNone_eq_false_iff.2 hfilled
    rw [resolve, hcurves]
    rfl
  | program _ ranges | table _ ranges =>
    have hranges : ranges.isEmpty = false := by simpa [isFilled] using hfilled
    rw [resolve, hranges]
    rfl

theorem isEmpty_given (ranges : List BandRange) (h : Histogram) (s : StretchSettings) :
    (if ranges.isEmpty then h.ranges s.lowPercent s.highPercent else ranges).isEmpty =
      (ranges.isEmpty && h.bands.isEmpty) := by
  cases ranges with
  | nil => exact List.isEmpty_map
  | cons range ranges => rfl

/-- A style is filled in as soon as the histogram has something for it. -/
theorem isFilled_resolve (source : StyleSource) (h : Histogram) (s : StretchSettings) :
    (source.resolve h s).isFilled = (source.isFilled || source.isFillable h s) := by
  cases source with
  | preset p options =>
    cases hcurves : options.curves with
    | none =>
      rw [resolve_preset h s p hcurves, isFilled, isFilled, isFillable, hcurves]
      rfl
    | some curves =>
      have hfilled : (preset p options).isFilled = true := by rw [isFilled, hcurves, Option.isSome_some]
      rw [resolve_of_isFilled hfilled, hfilled, Bool.true_or]
  | program _ ranges | table _ ranges =>
    rw [resolve, isFilled, isFilled, isFillable, isEmpty_given, Bool.not_and]

/-- What is still open was given nothing. -/
theorem resolve_of_not_isFilled (hopen : (source.resolve h s).isFilled = false) :
    source.resolve h s = source := by
  rw [isFilled_resolve, Bool.or_eq_false_iff] at hopen
  obtain ⟨hbefore, hnothing⟩ := hopen
  cases source with
  | preset p options =>
    have hcurves : options.curves = none := by simpa [isFilled] using hbefore
    have hauto : autoCurves h options.pixelDepth s = none := by simpa [isFillable] using hnothing
    rw [resolve_preset h s p hcurves, hauto, ← hcurves]
  | program _ ranges | table _ ranges =>
    have hranges : ranges = [] := by simpa [isFilled] using hbefore
    have hbands : h.bands = [] := by simpa [isFillable] using hnothing
    rw [resolve, hranges, Histogram.ranges, hbands]
    rfl

/-- Filling in leaves alone what a style brings along, its kind, its preset, depth, bands and colours, its
text and its tables. What is open gets what the histogram has for it, if anything. Doing it again changes
nothing, and once something was filled in, no other histogram and no other settings do. -/
theorem resolve_fills_gaps (source : StyleSource) (h : Histogram) (s : StretchSettings) :
    (source.resolve h s).bare = source.bare ∧
    (source.isFilled = true → source.resolve h s = source) ∧
    (source.resolve h s).isFilled = (source.isFilled || source.isFillable h s) ∧
    (source.resolve h s).resolve h s = source.resolve h s ∧
    ((source.resolve h s).isFilled = true → ∀ (h' : Histogram) (s' : StretchSettings),
      (source.resolve h s).resolve h' s' = source.resolve h s) ∧
    ((source.resolve h s).isFilled = false → source.resolve h s = source) := by
  refine ⟨bare_resolve source h s, resolve_of_isFilled, isFilled_resolve source h s, ?_,
    fun hfilled h' s' => resolve_of_isFilled hfilled, resolve_of_not_isFilled⟩
  cases hfilled : (source.resolve h s).isFilled with
  | true => exact resolve_of_isFilled hfilled
  | false =>
    -- the second time starts where the first one did
    have hsame := resolve_of_not_isFilled hfilled
    rw [hsame, hsame]

def unstretched : StyleSource := .preset .rgb ⟨4, none, none, none⟩

/-- A preset is given a window and keeps it; a program gets nothing from a histogram without bands; a
preset with an empty list of curves is not given any. -/
theorem resolve_fills_gaps_fourBands :
    (unstretched.resolve fourBands ⟨25, 25, none⟩).isFilled = true ∧
    (unstretched.resolve fourBands ⟨25, 25, none⟩).resolve (.empty 2 4) ⟨0, 0, none⟩ =
      unstretched.resolve fourBands ⟨25, 25, none⟩ ∧
    ((program "" []).resolve (.empty 0 4) ⟨0, 0, none⟩).isFilled = false ∧
    (program "" []).resolve (.empty 0 4) ⟨0, 0, none⟩ = program "" [] ∧
    (preset .rgb ⟨4, some [], none, none⟩).isFilled = true ∧
    (preset .rgb ⟨4, some [], none, none⟩).resolve fourBands ⟨25, 25, none⟩ =
      preset .rgb ⟨4, some [], none, none⟩ := by
  have hfilled : (unstretched.resolve fourBands ⟨25, 25, none⟩).isFilled = true := by
    decide +kernel
  obtain ⟨-, -, -, -, hkept, -⟩ := resolve_fills_gaps unstretched fourBands ⟨25, 25, none⟩
  obtain ⟨-, -, -, -, -, hopen⟩ := resolve_fills_gaps (program "" []) (.empty 0 4) ⟨0, 0, none⟩
  obtain ⟨-, hbrought, -⟩ :=
    resolve_fills_gaps (preset .rgb ⟨4, some [], none, none⟩) fourBands ⟨25, 25, none⟩
  exact ⟨hfilled, hkept hfilled _ _, rfl, hopen rfl, rfl, hbrought rfl⟩

end RasterTile.StyleSource
