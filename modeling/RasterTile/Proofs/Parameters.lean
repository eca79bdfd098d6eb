import RasterTile.CommandLine
import RasterTile.Proofs.FileTree
import RasterTile.Proofs.Stretch.Alignment

/-!
# The parameters of a run

A run starts from a configuration file or from the defaults, and whatever the arguments give takes the
place of what is there. A pixel depth is the exception: it is not a parameter of its own, but goes into a
preset's options and into the stretch, wherever those come from. Both are told the same depth, so a preset
is stretched with curves that are as long as the histogram behind them is deep.
-/
namespace RasterTile

/-! ## As many curve values as buckets -/

namespace Histogram

variable {d : Nat} {h other sum : Histogram}

def IsDeep (d : Nat) (h : Histogram) : Prop := ∀ buckets ∈ h.bands, buckets.size = d

theorem isDeep_ofTile {t : Tile} (h : ofTile t d t.bands none = .ok sum) : sum.IsDeep d := by
  obtain ⟨x, -, hx⟩ := exists_ofTile (d := d) (rfl : t.bandCount = _)
  cases hx.symm.trans h
  exact (hasShape_ofTally x).depth

theorem IsDeep.merge (hh : h.IsDeep d) (hother : other.IsDeep d) (hsum : h.merge other = .ok sum) :
    sum.IsDeep d := by
  unfold Histogram.merge at hsum
  split at hsum
  · cases hsum
  · cases hsum
    intro buckets hmem
    obtain ⟨i, hi, rfl⟩ := List.mem_iff_getElem.1 hmem
    have hleft := hh _ (List.getElem_mem (by simp at hi; omega : i < h.bands.length))
    have hright := hother _ (List.getElem_mem (by simp at hi; omega : i < other.bands.length))
    simp [hleft, hright]

theorem IsDeep.foldlM_merge {tiles : List Tile} (hh : h.IsDeep d)
    (hsum : tiles.foldlM (fun h t => do h.merge (← ofTile t d t.bands none)) h = .ok sum) :
    sum.IsDeep d := by
  induction tiles generalizing h with
  | nil =>
    cases hsum
    exact hh
  | cons t tiles ih =>
    rw [List.foldlM_cons] at hsum
    obtain ⟨next, hnext, hrest⟩ := bind_eq_ok_iff.1 hsum
    obtain ⟨single, hsingle, hmerge⟩ := bind_eq_ok_iff.1 hnext
    exact ih (hh.merge (isDeep_ofTile hsingle) hmerge) hrest

/-- Statistics of a viewport have as many buckets as were asked for. -/
theorem isDeep_viewportHistogram {tiles : List Tile}
    (h : viewportHistogram tiles d = .ok (some sum)) : sum.IsDeep d := by
  unfold viewportHistogram at h
  dsimp only at h
  split at h
  · cases h
  · obtain ⟨first, hfirst, h⟩ := bind_eq_ok_iff.1 h
    obtain ⟨rest, hrest, h⟩ := bind_eq_ok_iff.1 h
    cases h
    exact (isDeep_ofTile hfirst).foldlM_merge hrest

end Histogram

/-- The automatic curves have a value for every raw value below the depth. -/
theorem size_of_mem_autoCurves {h : Histogram} {d : Nat} {s : StretchSettings}
    {curves : List (Curve Float)} (hcurves : autoCurves h d s = some curves) :
    ∀ c ∈ curves, c.values.size = d := by
  rw [autoCurves_eq] at hcurves
  split at hcurves
  · obtain ⟨window, -, rfl⟩ := Option.map_eq_some_iff.1 hcurves
    intro c hc
    rw [List.eq_of_mem_replicate hc, Curve.size_ofLevels]
  · cases hcurves

namespace CommandLine

variable {t t' : FileTree} {a : Arguments} {p base : RenderParams} {given : Option StyleSource}
  {depth : Option Nat} {values : List Float} {s : StretchSettings}

/-! ## Stretches -/

theorem isShare_iff {x : Float} : isShare x = true ↔ x.isFinite = true ∧ 0 ≤ x := by
  simp [isShare]

/-- The stretch stands for one or two percentages, each finite and not negative. One percentage stands
for both ends. -/
structure Clips (values : List Float) (s : StretchSettings) : Prop where
  ends : values = [s.lowPercent] ∧ s.highPercent = s.lowPercent ∨
    values = [s.lowPercent, s.highPercent]
  low : s.lowPercent.isFinite = true ∧ 0 ≤ s.lowPercent
  high : s.highPercent.isFinite = true ∧ 0 ≤ s.highPercent

/-- The percentages of a stretch are taken if they clip. -/
theorem stretchSettings_eq_ok_iff :
    stretchSettings values depth = .ok s ↔ Clips values s ∧ s.pixelDepth = depth := by
  obtain ⟨low, high, pixelDepth⟩ := s
  constructor
  · intro h
    unfold stretchSettings at h
    dsimp only at h
    split at h
    · rename_i hends
      split at h
      · rename_i hshare
        cases h
        simp only [Bool.and_eq_true, isShare_iff] at hshare
        refine ⟨⟨?_, hshare.1, hshare.2⟩, rfl⟩
        split at hends <;> cases hends
        · exact .inl ⟨rfl, rfl⟩
        · exact .inr rfl
      · cases h
    · cases h
  · rintro ⟨⟨hends, hlow, hhigh⟩, rfl⟩
    rw [← isShare_iff] at hlow hhigh
    dsimp only at hends hlow hhigh ⊢
    rcases hends with ⟨rfl, rfl⟩ | rfl <;> simp [stretchSettings, hlow, hhigh]

/-! ## What is there before -/

def fileText (t : FileTree) (path : RawText) : Option String := (t.read path).bind FileAccess.text?

/-- Reading a text leaves the tree as it is. -/
theorem runOn_readText {e : Failure} {path : RawText} {text : String} :
    t.runOn (FileAccess.demand e (FileAccess.readText path)) = (.ok text, t') ↔
      t' = t ∧ fileText t path = some text := by
  rw [FileTree.runOn_demand_ok]
  change (fileText t path, t) = (some text, t') ↔ _
  rw [Prod.mk.injEq, and_comm, eq_comm (a := t)]

theorem runOn_mapError {α : Type} {x : Except Error α} {v : α} :
    t.runOn (liftM (x.mapError Failure.rendering) : ExceptT Failure (StateM FileTree) α) = (.ok v, t') ↔
      t' = t ∧ x = .ok v := by
  rw [FileTree.runOn_liftM, Prod.mk.injEq, and_comm, eq_comm (a := t)]
  cases x <;> simp [Except.mapError]

inductive StartsFrom (t : FileTree) (a : Arguments) : RenderParams → Prop
  | default : a.config = none → StartsFrom t a .default
  | file {path text base} : a.config = some path → fileText t path = some text →
      RenderParams.read text.toList = .ok base → StartsFrom t a base

/-- Reading the configuration gives what the run starts from, and changes nothing. -/
theorem runOn_configured :
    t.runOn (a.configured : ExceptT Failure (StateM FileTree) RenderParams) = (.ok base, t') ↔
      t' = t ∧ StartsFrom t a base := by
  constructor
  · intro h
    unfold Arguments.configured at h
    split at h
    · cases h
      exact ⟨rfl, .default ‹_›⟩
    · obtain ⟨text, _, htext, hread⟩ := FileTree.runOn_bind_ok.1 h
      obtain ⟨rfl, htext⟩ := runOn_readText.1 htext
      obtain ⟨rfl, hbase⟩ := runOn_mapError.1 hread
      exact ⟨rfl, .file ‹_› htext hbase⟩
  · rintro ⟨rfl, hdefault | ⟨hconfig, htext, hread⟩⟩
    · rw [Arguments.configured, hdefault]
      rfl
    · simp only [Arguments.configured, hconfig]
      exact FileTree.runOn_bind_ok.2
        ⟨_, _, runOn_readText.2 ⟨rfl, htext⟩, runOn_mapError.2 ⟨rfl, hread⟩⟩

/-! ## What the arguments give -/

/-- The style that the arguments give, the first one that is there. -/
inductive Gives (t : FileTree) (a : Arguments) : Option StyleSource → Prop
  | json {text style} : a.styleJson = some text → StyleSource.read text.toList = .ok style →
      Gives t a (some style)
  | program {path text} : a.styleJson = none → a.program = some path → fileText t path = some text →
      Gives t a (some (.program text []))
  | preset {kind} : a.styleJson = none → a.program = none → a.preset = some kind →
      Gives t a (some (.preset kind .default))
  | nothing : a.styleJson = none → a.program = none → a.preset = none → Gives t a none

/-- Reading the style that the arguments give changes nothing either. -/
theorem runOn_style? :
    t.runOn (a.style? : ExceptT Failure (StateM FileTree) (Option StyleSource)) = (.ok given, t') ↔
      t' = t ∧ Gives t a given := by
  constructor
  · intro h
    unfold Arguments.style? at h
    split at h
    · obtain ⟨style, _, hread, hpure⟩ := FileTree.runOn_bind_ok.1 h
      obtain ⟨rfl, hstyle⟩ := runOn_mapError.1 hread
      cases hpure
      exact ⟨rfl, .json ‹_› hstyle⟩
    · obtain ⟨text, _, hread, hpure⟩ := FileTree.runOn_bind_ok.1 h
      obtain ⟨rfl, htext⟩ := runOn_readText.1 hread
      cases hpure
      exact ⟨rfl, .program ‹_› ‹_› htext⟩
    · cases h
      exact ⟨rfl, .preset ‹_› ‹_› ‹_›⟩
    · cases h
      exact ⟨rfl, .nothing ‹_› ‹_› ‹_›⟩
  · rintro ⟨rfl, ⟨hjson, hread⟩ | ⟨hjson, hprogram, htext⟩ | ⟨hjson, hprogram, hpreset⟩ |
      ⟨hjson, hprogram, hpreset⟩⟩
    · simp only [Arguments.style?, hjson]
      exact FileTree.runOn_bind_ok.2 ⟨_, _, runOn_mapError.2 ⟨rfl, hread⟩, rfl⟩
    · simp only [Arguments.style?, hjson, hprogram]
      exact FileTree.runOn_bind_ok.2 ⟨_, _, runOn_readText.2 ⟨rfl, htext⟩, rfl⟩
    · simp only [Arguments.style?, hjson, hprogram, hpreset]
      rfl
    · simp only [Arguments.style?, hjson, hprogram, hpreset]
      rfl

/-- Words that give two styles are refused. -/
theorem conflict_of_ofWords {words : List String} (h : Arguments.ofWords words = .ok a) :
    a.conflict = false := by
  obtain ⟨b, -, hb⟩ := bind_eq_ok_iff.1 h
  split at hb
  · cases hb
  · rename_i hconflict
    cases hb
    exact Bool.eq_false_of_not_eq_true hconflict

/-! ## Adjusting -/

/-- The same style, with another depth if it is a preset and there is one. -/
inductive Refits (depth : Option Nat) : StyleSource → StyleSource → Prop
  | preset {kind options} : Refits depth (.preset kind options)
      (.preset kind { options with pixelDepth := depth.getD options.pixelDepth })
  | program {text ranges} : Refits depth (.program text ranges) (.program text ranges)
  | table {table ranges} : Refits depth (.table table ranges) (.table table ranges)

theorem refits_preset_iff {kind : Preset} {options : PresetOptions Float} {style : StyleSource} :
    Refits depth (.preset kind options) style ↔
      style = .preset kind { options with pixelDepth := depth.getD options.pixelDepth } := by
  constructor
  · rintro ⟨⟩
    rfl
  · rintro rfl
    exact .preset

theorem refits_program_iff {text : String} {ranges : List BandRange} {style : StyleSource} :
    Refits depth (.program text ranges) style ↔ style = .program text ranges := by
  constructor
  · rintro ⟨⟩
    rfl
  · rintro rfl
    exact .program

/-- What becomes of a stretch. One that the arguments give takes the place of the one that is there, of
which otherwise only the depth changes. -/
structure Restretches (a : Arguments) (before after : Option StretchSettings) : Prop where
  given : ∀ values ∈ a.stretch, ∃ s, after = some s ∧ Clips values s ∧ s.pixelDepth = a.pixelDepth
  kept : a.stretch = none →
    after = before.map fun s => { s with pixelDepth := a.pixelDepth <|> s.pixelDepth }

/-- The style with the depth that the arguments give, which has to tell two values apart. -/
def refit (a : Arguments) (source : StyleSource) : Except Failure StyleSource :=
  match a.pixelDepth with
  | none => .ok source
  | some d => if d < 2 then .error (.pixelDepth d) else .ok (withDepth d source)

/-- The stretch that the arguments give, or the one that is there with their depth. -/
def restretch (a : Arguments) (before : Option StretchSettings) :
    Except Failure (Option StretchSettings) :=
  match a.stretch with
  | some values => (stretchSettings values a.pixelDepth).map some
  | none => .ok (before.map fun s => { s with pixelDepth := a.pixelDepth <|> s.pixelDepth })

theorem adjust_eq (a : Arguments) (p : RenderParams) : a.adjust p = do
    let style ← refit a p.style
    let stretch ← restretch a p.stretch
    return { p with style, stretch } := by
  unfold Arguments.adjust refit restretch
  cases a.pixelDepth with
  | none => cases a.stretch <;> rfl
  | some d =>
    by_cases hd : d < 2
    · simp only [if_pos hd]
      rfl
    · simp only [if_neg hd]
      cases a.stretch <;> rfl

theorem refit_eq_ok {source style : StyleSource} (h : refit a source = .ok style) :
    Refits a.pixelDepth source style ∧ ∀ d ∈ a.pixelDepth, 2 ≤ d := by
  unfold refit at h
  split at h
  · rename_i hnone
    cases h
    rw [hnone]
    exact ⟨by cases source <;> constructor, by simp⟩
  · rename_i d hsome
    split at h
    · cases h
    · rename_i hd
      cases h
      rw [hsome]
      exact ⟨by cases source <;> constructor, by simpa using Nat.le_of_not_lt hd⟩

theorem restretch_eq_ok {before after : Option StretchSettings} (h : restretch a before = .ok after) :
    Restretches a before after := by
  unfold restretch at h
  split at h
  · rename_i values hvalues
    obtain ⟨s, hs, rfl⟩ := map_eq_ok_iff.1 h
    refine ⟨fun values' h' => ?_, fun hnone => by simp [hvalues] at hnone⟩
    cases hvalues.symm.trans h'
    exact ⟨s, rfl, stretchSettings_eq_ok_iff.1 hs⟩
  · rename_i hnone
    cases h
    exact ⟨by simp [hnone], fun _ => rfl⟩

/-- The parameters of a run are the base with what the arguments give, and reading them changes nothing.
-/
theorem runOn_parameters
    (hrun : t.runOn (a.parameters : ExceptT Failure (StateM FileTree) RenderParams) = (.ok p, t')) :
    t' = t ∧ ∃ base given, StartsFrom t a base ∧ Gives t a given ∧
      p.bands = a.bands.getD base.bands ∧ Refits a.pixelDepth (given.getD base.style) p.style ∧
      Restretches a base.stretch p.stretch ∧ ∀ d ∈ a.pixelDepth, 2 ≤ d := by
  obtain ⟨base, _, hconfigured, hrest⟩ := FileTree.runOn_bind_ok.1 hrun
  obtain ⟨rfl, hbase⟩ := runOn_configured.1 hconfigured
  obtain ⟨given, _, hstyle, hadjust⟩ := FileTree.runOn_bind_ok.1 hrest
  obtain ⟨rfl, hgiven⟩ := runOn_style?.1 hstyle
  rw [adjust_eq, FileTree.runOn_liftM, Prod.mk.injEq] at hadjust
  obtain ⟨hadjust, rfl⟩ := hadjust
  obtain ⟨style, hrefit, hnext⟩ := bind_eq_ok_iff.1 hadjust
  obtain ⟨stretch, hstretch, hlast⟩ := bind_eq_ok_iff.1 hnext
  cases hlast
  obtain ⟨hrefits, hdepth⟩ := refit_eq_ok hrefit
  exact ⟨rfl, base, given, hbase, hgiven, rfl, hrefits, restretch_eq_ok hstretch, hdepth⟩

/-! ## Coherence -/

/-- The parameters are those that the arguments give, and otherwise those of the base. Only the depth of
a preset and of a stretch may be another one. -/
structure Overrides (t : FileTree) (a : Arguments) (base p : RenderParams) : Prop where
  bands : p.bands = a.bands.getD base.bands
  json : ∀ text ∈ a.styleJson, ∃ style, StyleSource.read text.toList = .ok style ∧
    Refits a.pixelDepth style p.style
  program : ∀ path ∈ a.program, ∃ text, fileText t path = some text ∧ p.style = .program text []
  preset : ∀ kind ∈ a.preset, p.style =
    .preset kind { PresetOptions.default with pixelDepth := a.pixelDepth.getD defaultDepth }
  kept : a.styleJson = none → a.program = none → a.preset = none →
    Refits a.pixelDepth base.style p.style
  stretch : Restretches a base.stretch p.stretch

/-- Counting and stretching go by one depth: a preset has it, the statistics of any stretch have as many
buckets, and the curves that they give to a preset have as many values. -/
structure AgreesOn (d : Nat) (p : RenderParams) : Prop where
  two_le : 2 ≤ d
  preset : ∀ kind options, p.style = .preset kind options → options.pixelDepth = d
  depth : ∀ s ∈ p.stretch, p.style.histogramDepth s = d
  buckets : ∀ s ∈ p.stretch, ∀ tiles h,
    viewportHistogram tiles (p.style.histogramDepth s) = .ok (some h) → h.IsDeep d
  curves : ∀ s ∈ p.stretch, ∀ kind options, p.style = .preset kind options → options.curves = none →
    ∀ h, ∃ curves, p.style.resolve h s = .preset kind { options with curves } ∧
      ∀ cs ∈ curves, ∀ c ∈ cs, c.values.size = d

/-- Each parameter is that of the arguments if they have one, else that of the base. -/
theorem overrides_of_gives (hconflict : a.conflict = false) (hgiven : Gives t a given)
    (hbands : p.bands = a.bands.getD base.bands)
    (hstyle : Refits a.pixelDepth (given.getD base.style) p.style)
    (hstretch : Restretches a base.stretch p.stretch) : Overrides t a base p := by
  simp only [Arguments.conflict, Bool.or_eq_false_iff, Bool.and_eq_false_iff] at hconflict
  refine ⟨hbands, fun text htext => ?_, fun path hpath => ?_, fun kind hkind => ?_,
    fun hjson hprogram hpreset => ?_, hstretch⟩
  · have hstyle' : ∃ style, StyleSource.read text.toList = .ok style ∧ given = some style := by
      cases hgiven <;> simp_all
    obtain ⟨style, hread, rfl⟩ := hstyle'
    exact ⟨style, hread, hstyle⟩
  · have hprogram : ∃ text, fileText t path = some text ∧ given = some (.program text []) := by
      cases hgiven <;> simp_all
    obtain ⟨text, htext, rfl⟩ := hprogram
    exact ⟨text, htext, refits_program_iff.1 hstyle⟩
  · obtain rfl : given = some (.preset kind .default) := by
      cases hgiven <;> simp_all
    exact refits_preset_iff.1 hstyle
  · obtain rfl : given = none := by
      cases hgiven <;> simp_all
    exact hstyle

/-- Whatever the style was before its depth was set, and whichever of the two stretches is taken. -/
theorem agreesOn_of_refits {d : Nat} (hd : a.pixelDepth = some d) (htwo : 2 ≤ d) {source : StyleSource}
    {before : Option StretchSettings} (hstyle : Refits a.pixelDepth source p.style)
    (hstretch : Restretches a before p.stretch) : AgreesOn d p := by
  have hpreset : ∀ kind options, p.style = .preset kind options → options.pixelDepth = d := by
    intro kind options hkind
    rw [hd, hkind] at hstyle
    cases hstyle
    rfl
  have hdepth : ∀ s ∈ p.stretch, s.pixelDepth = some d := by
    intro s hs
    cases hvalues : a.stretch with
    | some values =>
      obtain ⟨s', hs', -, hdepth⟩ := hstretch.given values hvalues
      cases hs'.symm.trans hs
      rw [hdepth, hd]
    | none =>
      have hkept := hstretch.kept hvalues
      rw [hs, eq_comm, Option.map_eq_some_iff] at hkept
      obtain ⟨s', -, rfl⟩ := hkept
      rw [hd]
      rfl
  have hhistogram : ∀ s ∈ p.stretch, p.style.histogramDepth s = d := by
    intro s hs
    simp only [StyleSource.histogramDepth, hdepth s hs, Option.getD_some]
  refine ⟨htwo, hpreset, hhistogram, fun s hs tiles h hview => ?_,
    fun s _ kind options hkind hnone h => ?_⟩
  · rw [hhistogram s hs] at hview
    exact Histogram.isDeep_viewportHistogram hview
  · rw [hkind, StyleSource.resolve_preset h s kind hnone, hpreset kind options hkind]
    exact ⟨_, rfl, fun curves hcurves => size_of_mem_autoCurves hcurves⟩

/-- Whatever is in the files and whichever words a command line has: if there are parameters to run with,
then bands, style and stretch are those of the arguments that give them, and are otherwise kept from the
configuration or the defaults. A depth among the arguments is the depth that the style and the stretch
agree on, from wherever they come. -/
theorem parameters_coherent {words : List String} (hparsed : Arguments.ofWords words = .ok a)
    (hrun : t.runOn (a.parameters : ExceptT Failure (StateM FileTree) RenderParams) = (.ok p, t')) :
    t' = t ∧ (∃ base, StartsFrom t a base ∧ Overrides t a base p) ∧
      ∀ d ∈ a.pixelDepth, AgreesOn d p := by
  obtain ⟨rfl, base, given, hbase, hgiven, hbands, hstyle, hstretch, htwo⟩ := runOn_parameters hrun
  have hconflict := conflict_of_ofWords hparsed
  exact ⟨rfl, ⟨base, hbase, overrides_of_gives hconflict hgiven hbands hstyle hstretch⟩,
    fun d hd => agreesOn_of_refits hd (htwo d hd) hstyle hstretch⟩

def stretching : FileTree :=
  ⟨[(["c"], .file (.bytes
    "\x7b\"stretch\":\x7b\"lowPct\":1,\"highPct\":2\x7d\x7d".toUTF8.data.toList))]⟩

def grayInDepth : Arguments :=
  { Arguments.empty with config := "c", preset := some .gray, pixelDepth := some 8 }

def grayStretched : RenderParams :=
  ⟨.rgba, .preset .gray { PresetOptions.default with pixelDepth := 8 }, some ⟨1, 2, some 8⟩⟩

/-- The preset comes from the words, the stretch from the file, and the depth of both from the words. -/
theorem parameters_coherent_grayInDepth :
    Arguments.ofWords ["--config", "c", "--preset", "gray", "--pixel-depth", "8"] = .ok grayInDepth ∧
    (∃ base, StartsFrom stretching grayInDepth base ∧
      Overrides stretching grayInDepth base grayStretched) ∧ AgreesOn 8 grayStretched := by
  have hparsed : Arguments.ofWords ["--config", "c", "--preset", "gray", "--pixel-depth", "8"] =
      .ok grayInDepth := by
    decide +kernel
  have hvalue : (stretching.runOn (grayInDepth.parameters :
      ExceptT Failure (StateM FileTree) RenderParams)).1.toOption = some grayStretched := by
    decide +kernel
  obtain ⟨-, hbase, hdepth⟩ :=
    parameters_coherent hparsed (Prod.ext (toOption_eq_some_iff.1 hvalue) rfl)
  exact ⟨hparsed, hbase, hdepth 8 rfl⟩

end CommandLine

end RasterTile
