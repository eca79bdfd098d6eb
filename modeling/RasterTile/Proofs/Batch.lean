import RasterTile.Batch
import RasterTile.Proofs.Rendering

/-!
# What rendering a directory leaves behind

The picture of an array file is named for the stem of the file. Stems do not tell apart files whose
extensions differ in letter case only, and such files count as many times as they are rendered while
their pictures replace one another. Where the stems differ, every file that is counted has its picture.
-/
namespace RasterTile

/-! ## Names of pictures -/

namespace FileName

/-- A stem has no slash that the name has not. -/
theorem slash_mem_of_mem_stem {name : RawText} (h : '/' ∈ (stem name).toList) :
    RawText.slash ∈ name.bytes := by
  have hsplit : ∀ b ∈ (split name).1.bytes, b ∈ name.bytes := by
    unfold split
    dsimp only
    split
    · rename_i head b rest hdrop
      intro c hc
      have hmem : c ∈ name.bytes.reverse :=
        List.mem_of_mem_drop (hdrop ▸ List.mem_cons_of_mem _ (List.mem_reverse.1 hc))
      exact List.mem_reverse.1 hmem
    · exact fun _ hb => hb
  rw [stem, RawText.text, String.toList_ofList] at h
  exact hsplit _ (RawText.slash_mem_of_mem_chars h)

theorem stem_injective_of_png {name name' : RawText}
    (h : RawText.ofText (stem name ++ ".png") = RawText.ofText (stem name' ++ ".png")) :
    stem name = stem name' := by
  have hlist := congrArg String.toList (RawText.ofText_injective h)
  rw [String.toList_append, String.toList_append] at hlist
  exact String.toList_injective (List.append_cancel_right hlist)

end FileName

namespace Batch

variable {t t' s : FileTree} {style : StyleSource} {output path name name' : RawText} {here : Location}
  {tile : Tile} {e : Error}

/-- The location of a picture tells the stem of its file. -/
theorem getLast?_picturePath (hname : RawText.slash ∉ name.bytes)
    (h : t.locate? (picturePath output name) = some here) :
    here.getLast? = some (RawText.ofText (FileName.stem name ++ ".png")) := by
  have hlong : 4 ≤ (FileName.stem name ++ ".png").toList.length := by
    rw [String.toList_append, List.length_append]
    exact Nat.le_add_left _ _
  refine FileTree.getLast?_locate?_join ?_ ?_ ?_ ?_ h
  · intro hmem
    have hslash := RawText.mem_of_slash_mem_ofText hmem
    rw [String.toList_append, List.mem_append] at hslash
    rcases hslash with hslash | hslash
    · exact hname (FileName.slash_mem_of_mem_stem hslash)
    · exact absurd hslash (by decide)
  all_goals
    intro hshort
    rw [RawText.ofText_injective hshort] at hlong
    exact absurd hlong (by decide)

/-- Pictures that go to one place have one stem. -/
theorem stem_eq_of_locate? (hname : RawText.slash ∉ name.bytes) (hname' : RawText.slash ∉ name'.bytes)
    (h : t.locate? (picturePath output name) = some here)
    (h' : t.locate? (picturePath output name') = some here) :
    FileName.stem name = FileName.stem name' := by
  have hlast := getLast?_picturePath hname h
  rw [getLast?_picturePath hname' h'] at hlast
  exact FileName.stem_injective_of_png (Option.some.inj hlast).symm

/-! ## One tile -/

/-- What a failure may leave: all files as they are, or an empty file where the picture was to go. -/
def AfterFailure (t : FileTree) (path : RawText) (s : FileTree) : Prop :=
  s = t ∨ ∃ here, t.place? path = some here ∧ s = t.set here (.file (.bytes []))

/-- A failure changes no directory, and nothing but the place of the picture. -/
theorem AfterFailure.frame (h : AfterFailure t path s) :
    t.SameDirectories s ∧ ∀ there, t.locate? path ≠ some there → s.find? there = t.find? there := by
  rcases h with rfl | ⟨here, hplace, rfl⟩
  · exact ⟨.refl s, fun _ _ => rfl⟩
  · exact FileTree.set_frame hplace _

/-- Nothing is saved before there is a picture. -/
theorem renderTile_run (style : StyleSource) (path : RawText) (tile : Tile) (t : FileTree) :
    t.runOn (renderTile style path tile) =
      match tile.render style with
      | .error e => (.error e, t)
      | .ok q => t.runOn (q.save path) := by
  unfold renderTile
  rw [FileTree.runOn_bind, FileTree.runOn_liftM]
  cases tile.render style <;> rfl

/-- A tile that was rendered has its picture at the place of the path. -/
theorem renderTile_ok (h : t.runOn (renderTile style path tile) = (.ok (), t')) :
    ∃ q here, tile.render style = .ok q ∧ t.place? path = some here ∧
      t' = t.set here (.file (.picture q)) := by
  rw [renderTile_run] at h
  cases hq : tile.render style with
  | error e =>
    rw [hq] at h
    cases h
  | ok q =>
    rw [hq] at h
    obtain ⟨here, hplace, ht'⟩ := Picture.save_ok h
    exact ⟨q, here, rfl, hplace, ht'⟩

theorem renderTile_failed (h : t.runOn (renderTile style path tile) = (.error e, t')) :
    AfterFailure t path t' := by
  rw [renderTile_run] at h
  cases hq : tile.render style with
  | error e =>
    rw [hq] at h
    cases h
    exact .inl rfl
  | ok q =>
    rw [hq] at h
    exact (Picture.save_failed h).imp_right fun ⟨here, hplace, _, _, ht'⟩ => ⟨here, hplace, ht'⟩

/-! ## One tile after another -/

/-- A run from a tree to another one, with the tiles that are left and the pictures that come of them. -/
inductive Saves (style : StyleSource) (output : RawText) :
    FileTree → List (RawText × Tile) → List (RawText × Picture) → FileTree → Prop where
  | nil (t : FileTree) : Saves style output t [] [] t
  | fail {t s t' : FileTree} {name : RawText} {tile : Tile} {tiles : List (RawText × Tile)}
      {saved : List (RawText × Picture)} :
      AfterFailure t (picturePath output name) s → Saves style output s tiles saved t' →
      Saves style output t ((name, tile) :: tiles) saved t'
  | save {t t' : FileTree} {name : RawText} {tile : Tile} {q : Picture} {here : Location}
      {tiles : List (RawText × Tile)} {saved : List (RawText × Picture)} :
      tile.render style = .ok q → t.place? (picturePath output name) = some here →
      Saves style output (t.set here (.file (.picture q))) tiles saved t' →
      Saves style output t ((name, tile) :: tiles) ((name, q) :: saved) t'

variable {keepGoing : Bool} {report report' : BatchReport} {tiles : List (RawText × Tile)}
  {saved : List (RawText × Picture)}

theorem renderTiles_cons (style : StyleSource) (output : RawText) (keepGoing : Bool)
    (report : BatchReport) (name : RawText) (tile : Tile) (tiles : List (RawText × Tile))
    (t : FileTree) :
    t.runOn (renderTiles style output keepGoing report ((name, tile) :: tiles)) =
      match t.runOn (renderTile style (picturePath output name) tile) with
      | (.ok (), s) =>
        s.runOn (renderTiles style output keepGoing
          { report with processed := report.processed + 1 } tiles)
      | (.error e, s) =>
        if keepGoing then
          s.runOn (renderTiles style output keepGoing { report with errors := report.errors + 1 } tiles)
        else (.error e, s) := by
  rw [renderTiles, FileTree.runOn_bind, FileTree.runOn_lift_run]
  rcases t.runOn (renderTile style (picturePath output name) tile) with ⟨_ | _, s⟩
  · cases keepGoing <;> rfl
  · rfl

/-- A batch that ends well counts the pictures that come of its tiles. -/
theorem renderTiles_saves
    (h : t.runOn (renderTiles style output keepGoing report tiles) = (.ok report', t')) :
    ∃ saved, Saves style output t tiles saved t' ∧
      report'.processed = report.processed + saved.length := by
  induction tiles generalizing t report with
  | nil =>
    cases h
    exact ⟨[], .nil _, rfl⟩
  | cons head tiles ih =>
    obtain ⟨name, tile⟩ := head
    rw [renderTiles_cons] at h
    rcases hrun : t.runOn (renderTile style (picturePath output name) tile) with ⟨e | _, s⟩
    · rw [hrun] at h
      dsimp only at h
      split at h
      · obtain ⟨saved, hsaves, hcount⟩ := ih h
        exact ⟨saved, .fail (renderTile_failed hrun) hsaves, hcount⟩
      · cases h
    · rw [hrun] at h
      obtain ⟨q, here, hq, hplace, rfl⟩ := renderTile_ok hrun
      obtain ⟨saved, hsaves, hcount⟩ := ih h
      refine ⟨(name, q) :: saved, .save hq hplace hsaves, ?_⟩
      rw [hcount, List.length_cons, Nat.add_assoc, Nat.add_comm 1]

/-! ## What comes of it -/

namespace Saves

/-- Files are put where no directory is, so no path changes. -/
theorem sameDirectories (h : Saves style output t tiles saved t') : t.SameDirectories t' := by
  induction h with
  | nil t => exact .refl t
  | fail hs _ ih => exact hs.frame.1.trans ih
  | save _ hplace _ ih => exact (FileTree.set_frame hplace _).1.trans ih

/-- Pictures come of tiles, in the order of these. -/
theorem sublist (h : Saves style output t tiles saved t') :
    (saved.map Prod.fst).Sublist (tiles.map Prod.fst) := by
  induction h with
  | nil => exact .slnil
  | fail _ _ ih => exact ih.cons _
  | save _ _ _ ih => exact ih.cons_cons _

/-- Each picture is that of its tile, and there is a place for it. -/
theorem exists_tile (h : Saves style output t tiles saved t') :
    ∀ d ∈ saved, (∃ tile, (d.1, tile) ∈ tiles ∧ tile.render style = .ok d.2) ∧
      ∃ here, t.place? (picturePath output d.1) = some here := by
  induction h with
  | nil => simp
  | fail hs _ ih =>
    intro d hd
    obtain ⟨⟨tile, htile, hq⟩, here, hplace⟩ := ih d hd
    rw [hs.frame.1.place?_eq] at hplace
    exact ⟨⟨tile, List.mem_cons_of_mem _ htile, hq⟩, here, hplace⟩
  | @save t _ name tile q here _ _ hq hplace _ ih =>
    intro d hd
    rcases List.mem_cons.1 hd with rfl | hd
    · exact ⟨⟨tile, List.mem_cons_self, hq⟩, here, hplace⟩
    · obtain ⟨⟨tile, htile, hq⟩, here, hrest⟩ := ih d hd
      rw [(FileTree.set_frame hplace _).1.place?_eq] at hrest
      exact ⟨⟨tile, List.mem_cons_of_mem _ htile, hq⟩, here, hrest⟩

/-- A location that no picture path leads to keeps its entry. -/
theorem find?_eq (h : Saves style output t tiles saved t')
    (hhere : ∀ x ∈ tiles, t.locate? (picturePath output x.1) ≠ some here) :
    t'.find? here = t.find? here := by
  induction h with
  | nil => rfl
  | fail hs _ ih =>
    obtain ⟨hsame, hframe⟩ := hs.frame
    obtain ⟨hhead, hrest⟩ := List.forall_mem_cons.1 hhere
    rw [ih fun x hx => by rw [hsame.locate?_eq]; exact hrest x hx, hframe here hhead]
  | save _ hplace _ ih =>
    obtain ⟨hsame, hframe⟩ := FileTree.set_frame hplace (.picture _)
    obtain ⟨hhead, hrest⟩ := List.forall_mem_cons.1 hhere
    rw [ih fun x hx => by rw [hsame.locate?_eq]; exact hrest x hx, hframe here hhead]

/-- If all stems differ, no picture is replaced. -/
theorem at?_eq (h : Saves style output t tiles saved t') (hslash : ∀ x ∈ tiles, RawText.slash ∉ x.1.bytes)
    (hstems : (tiles.map fun x => FileName.stem x.1).Nodup) :
    ∀ d ∈ saved, t'.at? (picturePath output d.1) = some (.file (.picture d.2)) := by
  induction h with
  | nil => simp
  | fail _ _ ih =>
    exact ih (List.forall_mem_cons.1 hslash).2 (List.nodup_cons.1 hstems).2
  | @save t t' name tile q here tiles saved hq hplace hsaves ih =>
    obtain ⟨hname, hslash⟩ := List.forall_mem_cons.1 hslash
    obtain ⟨hstem, hstems⟩ := List.nodup_cons.1 hstems
    have hsame := (FileTree.set_frame hplace (.picture q)).1
    obtain ⟨hlocate, -⟩ := FileTree.place?_eq_some_iff.1 hplace
    intro d hd
    rcases List.mem_cons.1 hd with rfl | hd
    · have hkept : t'.find? here = (t.set here (.file (.picture q))).find? here := by
        refine hsaves.find?_eq fun x hx hlater => hstem (List.mem_map.2 ⟨x, hx, ?_⟩)
        rw [hsame.locate?_eq] at hlater
        exact stem_eq_of_locate? (hslash x hx) hname hlater hlocate
      have hput := FileTree.at?_set hplace (.picture q)
      rw [FileTree.at?, hsame.locate?_eq, hlocate] at hput
      rw [FileTree.at?, hsaves.sameDirectories.locate?_eq, hsame.locate?_eq, hlocate]
      exact hkept.trans hput
    · exact ih hslash hstems d hd

/-- The pictures are in different places exactly if the stems of their files differ. -/
theorem nodup_locations_iff (h : Saves style output t tiles saved t')
    (hslash : ∀ x ∈ tiles, RawText.slash ∉ x.1.bytes) :
    (saved.map fun d => t'.locate? (picturePath output d.1)).Nodup ↔
      (saved.map fun d => FileName.stem d.1).Nodup := by
  have hlocated : ∀ d ∈ saved, RawText.slash ∉ d.1.bytes ∧
      ∃ here, t'.locate? (picturePath output d.1) = some here := by
    intro d hd
    obtain ⟨⟨tile, htile, -⟩, here, hplace⟩ := h.exists_tile d hd
    refine ⟨hslash _ htile, here, ?_⟩
    rw [h.sameDirectories.locate?_eq]
    exact (FileTree.place?_eq_some_iff.1 hplace).1
  rw [List.Nodup, List.Nodup, List.pairwise_map, List.pairwise_map]
  refine List.Pairwise.iff_of_mem fun {d d'} hd hd' => not_congr ⟨fun hsame => ?_, fun hsame => ?_⟩
  · obtain ⟨hd, here, hlocate⟩ := hlocated d hd
    obtain ⟨hd', -⟩ := hlocated d' hd'
    exact stem_eq_of_locate? hd hd' hlocate (hsame.symm.trans hlocate)
  · rw [picturePath, hsame, picturePath]

/-- Of files with different stems, each one that is counted has a place of its own. -/
theorem nodup_locations (h : Saves style output t tiles saved t')
    (hslash : ∀ x ∈ tiles, RawText.slash ∉ x.1.bytes)
    (hstems : (tiles.map fun x => FileName.stem x.1).Nodup) :
    (saved.map fun d => t'.locate? (picturePath output d.1)).Nodup := by
  have hsub := h.sublist.map FileName.stem
  rw [List.map_map, List.map_map] at hsub
  exact (h.nodup_locations_iff hslash).2 (hstems.sublist hsub)

end Saves

/-! ## Loading -/

def tileIn (t : FileTree) (bands : BandOrder) (path : RawText) : Except Error Tile :=
  (t.read path).elim (.error .fileAccess) (Tile.decode · bands)

theorem tileIn_eq_ok_iff {bands : BandOrder} :
    tileIn t bands path = .ok tile ↔
      ∃ bytes, t.read path = some bytes ∧ Tile.decode bytes bands = .ok tile := by
  unfold tileIn
  cases t.read path with
  | none => simp
  | some bytes => simp

def resultsIn (t : FileTree) (bands : BandOrder) (directory : RawText) (names : List RawText) :
    List (RawText × Except Error Tile) :=
  names.map fun name => (name, tileIn t bands (FileAccess.join directory name))

/-- Loading reads the tree and leaves it as it is. -/
theorem loadAll_run (t : FileTree) (directory : RawText) (bands : BandOrder) (names : List RawText) :
    StateT.run (loadAll directory bands names : StateM FileTree _) t =
      (resultsIn t bands directory names, t) := by
  have hload (path : RawText) :
      StateT.run (load path bands : StateM FileTree _) t = (tileIn t bands path, t) := by
    have hread : StateT.run (FileAccess.read path : StateM FileTree _) t = (t.read path, t) := rfl
    unfold load tileIn
    rw [StateT.run_bind, hread]
    cases t.read path <;> rfl
  have hone (name : RawText) : StateT.run (do
      return (name, ← load (FileAccess.join directory name) bands) : StateM FileTree _) t =
        ((name, tileIn t bands (FileAccess.join directory name)), t) := by
    rw [StateT.run_bind, hload]
    rfl
  unfold loadAll resultsIn
  induction names with
  | nil => rfl
  | cons name names ih =>
    rw [List.mapM_cons, StateT.run_bind, hone]
    change StateT.run (_ >>= _) t = _
    rw [StateT.run_bind, ih]
    rfl

/-- The tile that a file turned out to hold, if it has pixels at all. -/
def present? : RawText × Except Error Tile → Option (RawText × Tile)
  | (_, .error _) => none
  | (name, .ok tile) => if tile.isBlank then none else some (name, tile)

theorem arrayNames_of_sorted {names : List RawText} (h : ∀ name ∈ names, FileName.isArray name = true)
    (hsorted : names.Pairwise (· ≤ ·)) : arrayNames names = names := by
  rw [arrayNames, List.filter_eq_self.2 h]
  exact List.mergeSort_of_pairwise (by simpa using hsorted)

theorem present?_eq_some_iff {x : RawText × Except Error Tile} {y : RawText × Tile} :
    present? x = some y ↔ x.1 = y.1 ∧ x.2 = .ok y.2 ∧ y.2.isBlank = false := by
  obtain ⟨name, e | tile⟩ := x
  · simp [present?]
  · obtain ⟨name', tile'⟩ := y
    cases hblank : tile.isBlank with
    | true =>
      simp only [present?, hblank, if_true]
      constructor
      · intro h
        cases h
      · rintro ⟨-, ⟨⟩, hpresent⟩
        rw [hpresent] at hblank
        cases hblank
    | false =>
      simp only [present?, hblank, Bool.false_eq_true, if_false]
      constructor
      · rintro ⟨⟩
        exact ⟨rfl, rfl, hblank⟩
      · rintro ⟨⟨⟩, ⟨⟩, -⟩
        rfl

/-- Whatever is left out, the tiles are those with pixels, in order. -/
theorem Loaded.ofResults_tiles {results : List (RawText × Except Error Tile)} {l : Loaded}
    (h : Loaded.ofResults keepGoing results = .ok l) : l.tiles = results.filterMap present? := by
  induction results generalizing l with
  | nil =>
    cases h
    rfl
  | cons head results ih =>
    obtain ⟨name, e | tile⟩ := head
    · rw [Loaded.ofResults] at h
      split at h
      · obtain ⟨l', hl', rfl⟩ := map_eq_ok_iff.1 h
        have htiles : l'.tiles = results.filterMap present? := ih hl'
        exact htiles
      · cases h
    · obtain ⟨l', hl', rfl⟩ := map_eq_ok_iff.1 h
      rw [List.filterMap_cons, present?, ← ih hl']
      cases tile.isBlank <;> rfl

/-- The tiles with pixels among the array files of a directory, with the names of the files. -/
def tilesIn (t : FileTree) (bands : BandOrder) (directory : RawText) (names : List RawText) :
    List (RawText × Tile) :=
  (arrayNames names).filterMap fun name =>
    present? (name, tileIn t bands (FileAccess.join directory name))

theorem tilesIn_eq {bands : BandOrder} {directory : RawText} {names : List RawText} :
    tilesIn t bands directory names =
      (resultsIn t bands directory (arrayNames names)).filterMap present? := by
  rw [resultsIn, List.filterMap_map]
  rfl

theorem mem_tilesIn_iff {bands : BandOrder} {directory : RawText} {names : List RawText}
    {x : RawText × Tile} :
    x ∈ tilesIn t bands directory names ↔
      x.1 ∈ arrayNames names ∧ tileIn t bands (FileAccess.join directory x.1) = .ok x.2 ∧
        x.2.isBlank = false := by
  simp only [tilesIn, List.mem_filterMap, present?_eq_some_iff]
  constructor
  · rintro ⟨name, hname, rfl, htile⟩
    exact ⟨hname, htile⟩
  · rintro ⟨hname, htile⟩
    exact ⟨x.1, hname, rfl, htile⟩

theorem mem_arrayNames_iff {names : List RawText} :
    name ∈ arrayNames names ↔ name ∈ names ∧ FileName.isArray name = true := by
  rw [arrayNames, List.mem_mergeSort, List.mem_filter]

theorem mem_names_of_mem_tilesIn {bands : BandOrder} {directory : RawText} {names : List RawText} :
    ∀ x ∈ tilesIn t bands directory names, x.1 ∈ names :=
  fun _ hx => (mem_arrayNames_iff.1 (mem_tilesIn_iff.1 hx).1).1

end Batch

/-! ## A directory -/

namespace RenderParams

variable {params : RenderParams} {input output : RawText} {keepGoing : Bool} {report : BatchReport}
  {t made t' : FileTree} {names : List RawText}

/-- What is left of rendering a directory when its array files are listed. -/
def renderNames {m : Type → Type} [Monad m] [FileAccess m] (params : RenderParams)
    (input output : RawText) (keepGoing : Bool) (names : List RawText) :
    ExceptT Error m BatchReport := do
  let results ← ExceptT.lift (Batch.loadAll input params.bands names)
  let loaded ← Batch.Loaded.ofResults keepGoing results
  let style ← params.style.stretched (loaded.tiles.map (·.2)) params.stretch
  Batch.renderTiles style output keepGoing ⟨0, loaded.skipped, loaded.errors⟩ loaded.tiles

/-- Once the output directory is made, what is left is to render the array files that are listed. -/
theorem renderDirectory_eq (hmade : t.makeDirectories output = (made, true))
    (hnames : made.fileNames input = some names) :
    t.runOn (params.renderDirectory input output keepGoing) =
      made.runOn (params.renderNames input output keepGoing (Batch.arrayNames names)) := by
  have hmake : StateT.run (FileAccess.makeDirectories output : StateM FileTree _) t = (true, made) :=
    congrArg Prod.swap hmade
  have hlist : StateT.run (FileAccess.fileNames input : StateM FileTree _) made =
      (some names, made) := congrArg (·, made) hnames
  unfold renderDirectory
  rw [FileTree.runOn_bind, FileTree.runOn_ensure, hmake]
  dsimp only
  rw [if_pos rfl]
  dsimp only
  rw [FileTree.runOn_bind, FileTree.runOn_demand, hlist]
  rfl

/-- A batch ends well if its directory is made, its files are listed, and these are rendered. -/
theorem renderDirectory_ok_iff :
    t.runOn (params.renderDirectory input output keepGoing) = (.ok report, t') ↔
      ∃ made names, t.makeDirectories output = (made, true) ∧ made.fileNames input = some names ∧
        made.runOn (params.renderNames input output keepGoing (Batch.arrayNames names)) =
          (.ok report, t') := by
  have hmake (made : FileTree) :
      StateT.run (FileAccess.makeDirectories output : StateM FileTree _) t = (true, made) ↔
        t.makeDirectories output = (made, true) := Prod.swap_eq_iff_eq_swap
  have hlist (made : FileTree) (names : List RawText) (s : FileTree) :
      StateT.run (FileAccess.fileNames input : StateM FileTree _) made = (some names, s) ↔
        made.fileNames input = some names ∧ made = s := Prod.mk_inj
  constructor
  · intro h
    unfold renderDirectory at h
    obtain ⟨_, made, hmade, h⟩ := FileTree.runOn_bind_ok.1 h
    obtain ⟨names, s, hdemand, h⟩ := FileTree.runOn_bind_ok.1 h
    obtain ⟨hnames, rfl⟩ := (hlist made names s).1 (FileTree.runOn_demand_ok.1 hdemand)
    exact ⟨made, names, (hmake made).1 (FileTree.runOn_ensure_ok.1 hmade), hnames, h⟩
  · rintro ⟨made, names, hmade, hnames, h⟩
    rw [renderDirectory_eq hmade hnames]
    exact h

/-- The listed files are loaded, their tiles get one style, and the tiles become pictures. -/
theorem renderNames_eq (names : List RawText) :
    made.runOn (params.renderNames input output keepGoing names) =
      match Batch.Loaded.ofResults keepGoing (Batch.resultsIn made params.bands input names) with
      | .error e => (.error e, made)
      | .ok loaded =>
        match params.style.stretched (loaded.tiles.map (·.2)) params.stretch with
        | .error e => (.error e, made)
        | .ok style => made.runOn (Batch.renderTiles style output keepGoing
            ⟨0, loaded.skipped, loaded.errors⟩ loaded.tiles) := by
  unfold renderNames
  rw [FileTree.runOn_bind, FileTree.runOn_lift, Batch.loadAll_run]
  dsimp only
  rw [FileTree.runOn_bind, FileTree.runOn_liftM]
  cases Batch.Loaded.ofResults keepGoing (Batch.resultsIn made params.bands input names) with
  | error e => rfl
  | ok loaded =>
    dsimp only
    rw [FileTree.runOn_bind, FileTree.runOn_liftM]
    cases params.style.stretched (loaded.tiles.map (·.2)) params.stretch <;> rfl

/-- Rendering the listed files ends with the pictures of the tiles in their one style. -/
theorem renderNames_ok
    (h : made.runOn (params.renderNames input output keepGoing (Batch.arrayNames names)) =
      (.ok report, t')) :
    ∃ style saved,
      params.style.stretched ((Batch.tilesIn made params.bands input names).map (·.2)) params.stretch =
        .ok style ∧
      Batch.Saves style output made (Batch.tilesIn made params.bands input names) saved t' ∧
      report.processed = saved.length := by
  rw [renderNames_eq] at h
  split at h
  · cases h
  · rename_i loaded hloaded
    rw [Batch.Loaded.ofResults_tiles hloaded, ← Batch.tilesIn_eq] at h
    split at h
    · cases h
    · rename_i style hstyle
      obtain ⟨saved, hsaves, hcount⟩ := Batch.renderTiles_saves h
      exact ⟨style, saved, hstyle, hsaves, hcount.trans (Nat.zero_add _)⟩

/-- A batch that ends well has counted some of the tiles with pixels in its directory, and each of them
was rendered with the one style of all of them. If the stems of the files differ, each picture is where
its stem says, and there are as many pictures as were counted; there are fewer places than that as soon
as two counted files have one stem. Whatever is at no picture's place is as it was when the output
directory was made. -/
theorem renderDirectory_outputs (hslash : t.SlashFree)
    (h : t.runOn (params.renderDirectory input output keepGoing) = (.ok report, t')) :
    ∃ (made : FileTree) (names : List RawText) (style : StyleSource) (saved : List (RawText × Picture)),
      t.makeDirectories output = (made, true) ∧ made.fileNames input = some names ∧
      params.style.stretched ((Batch.tilesIn made params.bands input names).map (·.2))
        params.stretch = .ok style ∧
      report.processed = saved.length ∧
      (saved.map Prod.fst).Sublist ((Batch.tilesIn made params.bands input names).map Prod.fst) ∧
      (∀ d ∈ saved, ∃ tile, (d.1, tile) ∈ Batch.tilesIn made params.bands input names ∧
        tile.render style = .ok d.2) ∧
      (((Batch.tilesIn made params.bands input names).map fun x => FileName.stem x.1).Nodup →
        (∀ d ∈ saved, t'.at? (Batch.picturePath output d.1) = some (.file (.picture d.2))) ∧
        (saved.map fun d => t'.locate? (Batch.picturePath output d.1)).Nodup) ∧
      ((saved.map fun d => t'.locate? (Batch.picturePath output d.1)).Nodup ↔
        (saved.map fun d => FileName.stem d.1).Nodup) ∧
      ∀ here, (∀ x ∈ Batch.tilesIn made params.bands input names,
        made.locate? (Batch.picturePath output x.1) ≠ some here) → t'.find? here = made.find? here := by
  obtain ⟨made, names, hmade, hnames, hrun⟩ := renderDirectory_ok_iff.1 h
  obtain ⟨style, saved, hstyle, hsaves, hcount⟩ := renderNames_ok hrun
  have hmadeSlash : made.SlashFree := by
    have hdirectories := hslash.makeDirectories output
    rwa [hmade] at hdirectories
  have htiles : ∀ x ∈ Batch.tilesIn made params.bands input names, RawText.slash ∉ x.1.bytes :=
    fun x hx => hmadeSlash.fileNames hnames x.1 (Batch.mem_names_of_mem_tilesIn x hx)
  exact ⟨made, names, style, saved, hmade, hnames, hstyle, hcount, hsaves.sublist,
    fun d hd => (hsaves.exists_tile d hd).1,
    fun hstems => ⟨hsaves.at?_eq htiles hstems, hsaves.nodup_locations htiles hstems⟩,
    hsaves.nodup_locations_iff htiles, fun here => hsaves.find?_eq⟩

/-- A run that is put together from its steps, for names that are listed in order. -/
theorem renderDirectory_run (names : List RawText) (hmade : (t.makeDirectories output).2 = true)
    (hnames : (t.makeDirectories output).1.fileNames input = some names)
    (hsorted : Batch.arrayNames names = names)
    (hrun : ((t.makeDirectories output).1.runOn
      (params.renderNames input output keepGoing names)).1 = .ok report) :
    t.runOn (params.renderDirectory input output keepGoing) =
      (.ok report, ((t.makeDirectories output).1.runOn
        (params.renderNames input output keepGoing names)).2) := by
  refine renderDirectory_ok_iff.2 ⟨_, names, Prod.ext rfl hmade, hnames, ?_⟩
  rw [hsorted]
  exact Prod.ext hrun rfl

def filesOf (files : List (RawText × BitVec 8)) : FileTree :=
  ⟨(["in"], .directory) :: files.map fun f =>
    (["in", f.1], .file (.bytes (ArrayFile.encode ⟨.u8, 1, 1, 1, #[f.2], rfl⟩)))⟩

def twoStems : FileTree := filesOf [("a.npy", 5), ("b.npy", 7)]

def oneStem : FileTree := filesOf [("a.NPY", 5), ("a.npy", 7)]

theorem renderDirectory_outputs_twoStems :
    twoStems.SlashFree ∧ ∃ (t' : FileTree) (saved : List (RawText × Picture)),
      twoStems.runOn (redOnly.renderDirectory "in" "out" false) = (.ok ⟨2, 0, 0⟩, t') ∧
      saved.length = 2 ∧
      (∀ d ∈ saved, t'.at? (Batch.picturePath "out" d.1) = some (.file (.picture d.2))) ∧
      (saved.map fun d => t'.locate? (Batch.picturePath "out" d.1)).Nodup := by
  have hslash : twoStems.SlashFree := by
    unfold FileTree.SlashFree
    decide +kernel
  have hlisted : (twoStems.makeDirectories "out").1.fileNames "in" =
      some (["a.npy", "b.npy"] : List RawText) := by decide +kernel
  have hsorted : Batch.arrayNames ["a.npy", "b.npy"] = (["a.npy", "b.npy"] : List RawText) :=
    Batch.arrayNames_of_sorted (by decide +kernel) (by decide)
  have hreport : ((twoStems.makeDirectories "out").1.runOn
      (redOnly.renderNames "in" "out" false ["a.npy", "b.npy"])).1 = .ok ⟨2, 0, 0⟩ := by
    decide +kernel
  have hstems : ((Batch.tilesIn (twoStems.makeDirectories "out").1 redOnly.bands "in"
      ["a.npy", "b.npy"]).map fun x => FileName.stem x.1).Nodup := by
    rw [Batch.tilesIn, hsorted]
    decide +kernel
  have hrun := renderDirectory_run ["a.npy", "b.npy"] (by decide +kernel) hlisted hsorted hreport
  obtain ⟨made, names, style, saved, hmade, hnames, -, hcount, -, -, hkept, -⟩ :=
    renderDirectory_outputs hslash hrun
  rw [show made = (twoStems.makeDirectories "out").1 from (congrArg Prod.fst hmade).symm] at hnames hkept
  rw [hlisted, Option.some.injEq] at hnames
  rw [← hnames] at hkept
  obtain ⟨hpictures, hplaces⟩ := hkept hstems
  exact ⟨hslash, _, saved, hrun, hcount.symm, hpictures, hplaces⟩

/-- Two files, two counted, and one picture: the second one has replaced the first. -/
theorem renderDirectory_replaces :
    ∃ t', oneStem.runOn (redOnly.renderDirectory "in" "out" false) = (.ok ⟨2, 0, 0⟩, t') ∧
      t'.pictures = [(["out", "a.png"], ⟨1, 1, [7, 0, 0, 255]⟩)] := by
  have hsorted : Batch.arrayNames ["a.NPY", "a.npy"] = (["a.NPY", "a.npy"] : List RawText) :=
    Batch.arrayNames_of_sorted (by decide +kernel) (by decide)
  refine ⟨_, renderDirectory_run ["a.NPY", "a.npy"] ?_ ?_ hsorted ?_, ?_⟩
  · decide +kernel
  · decide +kernel
  · decide +kernel
  · decide +kernel

end RenderParams
end RasterTile
