import RasterTile.Proofs.Batch
import RasterTile.Proofs.SharedStretch

/-!
# What a batch counts

A batch that keeps going ends well whatever its files hold: what cannot be loaded or rendered is counted,
and the stretch of the tiles that were loaded cannot fail. Every array file is counted once, as a picture,
as blank or as a failure. A batch that does not keep going stops before anything is written if a file
cannot be loaded, and the first such file in the order of names gives the error.
-/
namespace RasterTile

theorem countP_add_countP {α : Type} {p q r : α → Bool} {xs : List α}
    (h : ∀ x ∈ xs, r x = (p x || q x) ∧ (p x && q x) = false) :
    xs.countP p + xs.countP q = xs.countP r := by
  induction xs with
  | nil => rfl
  | cons x xs ih =>
    obtain ⟨⟨hor, hand⟩, hxs⟩ := List.forall_mem_cons.1 h
    have hcounts := ih hxs
    rw [List.countP_cons, List.countP_cons, List.countP_cons, hor]
    cases hp : p x with
    | false => simp only [Bool.false_or, Bool.false_eq_true, if_false]; omega
    | true =>
      rw [hp, Bool.true_and] at hand
      simp only [hand, Bool.true_or, if_true, Bool.false_eq_true, if_false]
      omega

/-- What passes one test, what passes another one, and what passes neither is all there is. -/
theorem countP_parts {α : Type} {p q : α → Bool} {xs : List α} (h : ∀ x ∈ xs, (p x && q x) = false) :
    xs.countP p + xs.countP q + xs.countP (fun x => !q x && !p x) = xs.length := by
  have hleft : xs.countP q + xs.countP (fun x => !q x && !p x) = xs.countP fun x => !p x := by
    refine countP_add_countP fun x hx => ?_
    have hone := h x hx
    cases hq : q x <;> cases hp : p x <;> simp_all
  have hnot : xs.countP (fun x => !p x) = xs.countP fun x => decide ¬p x = true :=
    List.countP_congr fun x _ => by simp
  rw [Nat.add_assoc, hleft, hnot, ← List.length_eq_countP_add_countP]

namespace Batch

variable {t s : FileTree} {style : StyleSource} {output path directory name : RawText} {e : Error}
  {tile : Tile} {bands : BandOrder} {names : List RawText}
  {results front back : List (RawText × Except Error Tile)}

/-! ## Loading -/

def isBlank (x : RawText × Except Error Tile) : Bool := x.2.toOption.any Tile.isBlank

def isBroken (x : RawText × Except Error Tile) : Bool := !x.2.isOk

@[simp] theorem isBlank_ok : isBlank (name, .ok tile) = tile.isBlank := rfl
@[simp] theorem isBlank_error : isBlank (name, .error e) = false := rfl
@[simp] theorem isBroken_ok : isBroken (name, .ok tile) = false := rfl
@[simp] theorem isBroken_error : isBroken (name, .error e) = true := rfl

/-- Only files without bytes are blank. -/
theorem isBlank_tileIn : isBlank (name, tileIn t bands path) = decide (t.read path = some []) := by
  rw [Bool.eq_iff_iff, decide_eq_true_iff, tileIn]
  cases t.read path with
  | none => simp
  | some bytes =>
    rw [Option.elim_some, Option.some.injEq]
    cases hdecode : Tile.decode bytes bands with
    | error e =>
      have hne : bytes ≠ [] := by
        rintro rfl
        cases hdecode
      simp [hne]
    | ok tile => rw [isBlank_ok, Tile.isBlank_iff_of_decode hdecode]

/-- Keeping going, what is left out is counted: the blank files and those without a tile. -/
theorem Loaded.ofResults_of_keepGoing (results : List (RawText × Except Error Tile)) :
    ofResults true results =
      .ok ⟨results.filterMap present?, results.countP isBlank, results.countP isBroken⟩ := by
  induction results with
  | nil => rfl
  | cons head results ih =>
    obtain ⟨name, e | tile⟩ := head
    · rw [ofResults, if_pos rfl, ih, List.countP_cons_of_neg (by simp), List.countP_cons_of_pos rfl]
      rfl
    · rw [ofResults, ih]
      cases hblank : tile.isBlank <;> simp [Except.map, present?, hblank]

/-- If the batch is to stop, the first file without a tile gives the error. -/
theorem Loaded.ofResults_of_broken (hfront : ∀ x ∈ front, isBroken x = false) :
    ofResults false (front ++ (name, .error e) :: back) = .error e := by
  induction front with
  | nil => rfl
  | cons head front ih =>
    obtain ⟨hhead, hrest⟩ := List.forall_mem_cons.1 hfront
    obtain ⟨name', e' | tile⟩ := head
    · cases hhead
    · rw [List.cons_append, ofResults, ih hrest]
      rfl

theorem pairwise_arrayNames (names : List RawText) : (arrayNames names).Pairwise (· ≤ ·) := by
  have htrans (a b c : RawText) (hab : decide (a ≤ b) = true) (hbc : decide (b ≤ c) = true) :
      decide (a ≤ c) = true := by
    rw [decide_eq_true_iff] at hab hbc ⊢
    exact RawText.le_trans hab hbc
  have htotal (a b : RawText) : (decide (a ≤ b) || decide (b ≤ a)) = true := by
    simpa using RawText.le_total a b
  have hsorted := List.pairwise_mergeSort htrans htotal (names.filter FileName.isArray)
  simpa [arrayNames] using hsorted

/-- Among sorted names, the first one to pass a test is the least one that does. -/
theorem exists_first {p : RawText → Bool} (hsorted : names.Pairwise (· ≤ ·))
    (h : ∃ name ∈ names, p name = true) :
    ∃ front first back, names = front ++ first :: back ∧ p first = true ∧
      (∀ other ∈ front, p other = false) ∧ ∀ other ∈ names, p other = true → first ≤ other := by
  obtain ⟨first, hfirst⟩ := Option.isSome_iff_exists.1 (List.find?_isSome.2 h)
  obtain ⟨hpass, front, back, rfl, hfront⟩ := List.find?_eq_some_iff_append.1 hfirst
  have hfail (other : RawText) (hother : other ∈ front) : p other = false := by
    simpa using hfront other hother
  refine ⟨front, first, back, rfl, hpass, hfail, fun other hother hp => ?_⟩
  obtain ⟨-, hback, -⟩ := List.pairwise_append.1 hsorted
  rcases List.mem_append.1 hother with hother | hother
  · rw [hfail other hother] at hp
    cases hp
  · rcases List.mem_cons.1 hother with rfl | hother
    · exact RawText.le_refl other
    · exact (List.pairwise_cons.1 hback).1 other hother

theorem countP_filterMap_present? (results : List (RawText × Except Error Tile))
    (p : RawText × Tile → Bool) :
    (results.filterMap present?).countP p = results.countP fun x => (present? x).any p := by
  rw [List.countP_filterMap]
  congr 1
  funext x
  cases present? x <;> rfl

/-- The tiles of a directory have the bands of one order, so they can be stretched. -/
theorem exists_stretched_tilesIn (source : StyleSource) (s : Option StretchSettings) :
    ∃ style, source.stretched ((tilesIn t bands directory names).map (·.2)) s = .ok style := by
  refine ⟨_, source.stretched_decoded bands s fun tile htile => ?_⟩
  obtain ⟨x, hx, rfl⟩ := List.mem_map.1 htile
  obtain ⟨-, htile, hblank⟩ := mem_tilesIn_iff.1 hx
  obtain ⟨bytes, -, hdecode⟩ := tileIn_eq_ok_iff.1 htile
  exact ⟨hblank, Tile.bands_of_decode_eq_ok hdecode hblank⟩

/-! ## Rendering -/

/-- Whether a tile becomes a picture: the style is built for it, there is a place for the picture, and
the picture has pixels and extents that fit 32 bits. -/
def isSaved (t : FileTree) (style : StyleSource) (output : RawText) (x : RawText × Tile) : Bool :=
  (style.build x.2.map).isOk && (t.place? (picturePath output x.1)).isSome &&
    decide (0 < x.2.width ∧ x.2.width < 2 ^ 32 ∧ 0 < x.2.height ∧ x.2.height < 2 ^ 32)

/-- A tile is saved or fails on grounds that are known beforehand. -/
theorem renderTile_eq_ok_iff {x : RawText × Tile} :
    (t.runOn (renderTile style (picturePath output x.1) x.2)).1 = .ok () ↔
      isSaved t style output x = true := by
  rw [renderTile_run, isSaved]
  cases hbuild : style.build x.2.map with
  | error e =>
    rw [Tile.render_of_build_error hbuild]
    constructor <;> intro h <;> cases h
  | ok built =>
    have hrender := Tile.render_of_build hbuild
    rw [hrender]
    dsimp only
    rw [Picture.save_eq_ok_iff, Picture.checkBytes_eq_ok_iff (Tile.length_rgba_of_render hrender)]
    simp only [Picture.isEncodable, Except.isOk, Except.toBool, Bool.true_and, Bool.and_eq_true,
      decide_eq_true_eq, Nat.pos_iff_ne_zero]
    tauto

def settle (style : StyleSource) (output : RawText) (t : FileTree) (x : RawText × Tile) : FileTree :=
  (t.runOn (renderTile style (picturePath output x.1) x.2)).2

/-- Rendering a tile changes no directory, and nothing but the place of its picture. -/
theorem settle_frame (style : StyleSource) (output : RawText) (t : FileTree) (x : RawText × Tile) :
    t.SameDirectories (settle style output t x) ∧
      ∀ there, t.locate? (picturePath output x.1) ≠ some there →
        (settle style output t x).find? there = t.find? there := by
  unfold settle
  rcases hrun : t.runOn (renderTile style (picturePath output x.1) x.2) with ⟨e | ⟨⟩, s⟩
  · exact (renderTile_failed hrun).frame
  · obtain ⟨q, here, -, hplace, rfl⟩ := renderTile_ok hrun
    exact FileTree.set_frame hplace _

/-- Pictures of other tiles make no difference. -/
theorem isSaved_congr (h : t.SameDirectories s) : isSaved s style output = isSaved t style output := by
  funext x
  rw [isSaved, isSaved, h.place?_eq]

/-- A batch that keeps going goes through all tiles, and counts those that become pictures. -/
theorem renderTiles_of_keepGoing (style : StyleSource) (output : RawText) (report : BatchReport)
    (tiles : List (RawText × Tile)) (t : FileTree) :
    t.runOn (renderTiles style output true report tiles) =
      (.ok { report with
          processed := report.processed + tiles.countP (isSaved t style output)
          errors := report.errors + tiles.countP (!isSaved t style output ·) },
        tiles.foldl (settle style output) t) := by
  induction tiles generalizing t report with
  | nil => rfl
  | cons x tiles ih =>
    have hrendered : _ ↔ isSaved t style output x = true := renderTile_eq_ok_iff
    have hsame : isSaved (settle style output t x) style output = isSaved t style output :=
      isSaved_congr (settle_frame style output t x).1
    rw [settle] at hsame
    obtain ⟨name, tile⟩ := x
    rw [renderTiles_cons, List.foldl_cons, settle]
    rcases hrun : t.runOn (renderTile style (picturePath output name) tile) with ⟨e | ⟨⟩, s⟩
    · rw [hrun] at hrendered hsame
      have hsaved : isSaved t style output (name, tile) = false := by
        rw [← Bool.not_eq_true, ← hrendered]
        rintro ⟨⟩
      dsimp only
      rw [if_pos rfl, ih, hsame, List.countP_cons_of_neg (by simp [hsaved]),
        List.countP_cons_of_pos (by simp [hsaved])]
      simp only [Nat.add_assoc, Nat.add_comm 1]
    · rw [hrun] at hrendered hsame
      have hsaved : isSaved t style output (name, tile) = true := hrendered.1 rfl
      dsimp only
      rw [ih, hsame, List.countP_cons_of_pos hsaved, List.countP_cons_of_neg (by simp [hsaved])]
      simp only [Nat.add_assoc, Nat.add_comm 1]

/-! ## Counting -/

/-- Files without a tile, and files with a tile that does not pass: all that are neither blank nor do. -/
theorem countP_broken (results : List (RawText × Except Error Tile)) (p : RawText × Tile → Bool) :
    results.countP isBroken + (results.filterMap present?).countP (!p ·) =
      results.countP fun x => !isBlank x && !(present? x).any p := by
  rw [countP_filterMap_present?]
  refine countP_add_countP fun x _ => ?_
  obtain ⟨name, e | tile⟩ := x
  · exact ⟨rfl, rfl⟩
  · cases hblank : tile.isBlank <;> simp [present?, hblank]

def becomesPicture (t : FileTree) (bands : BandOrder) (style : StyleSource)
    (directory output name : RawText) : Bool :=
  (present? (name, tileIn t bands (FileAccess.join directory name))).any (isSaved t style output)

theorem becomesPicture_blank (h : t.read (FileAccess.join directory name) = some []) :
    becomesPicture t bands style directory output name = false := by
  rw [becomesPicture, tileIn, h]
  rfl

end Batch

/-! ## A directory -/

namespace RenderParams

variable {params : RenderParams} {input output : RawText} {t made : FileTree} {names : List RawText}
  {style : StyleSource}

/-- A batch that keeps going ends well. -/
theorem renderDirectory_of_keepGoing (hmade : t.makeDirectories output = (made, true))
    (hnames : made.fileNames input = some names)
    (hstyle : params.style.stretched ((Batch.tilesIn made params.bands input names).map (·.2))
      params.stretch = .ok style) :
    t.runOn (params.renderDirectory input output true) =
      (.ok {
        processed := (Batch.arrayNames names).countP
          (Batch.becomesPicture made params.bands style input output)
        skipped := (Batch.arrayNames names).countP fun name =>
          made.read (FileAccess.join input name) = some []
        errors := (Batch.arrayNames names).countP fun name =>
          !decide (made.read (FileAccess.join input name) = some []) &&
            !Batch.becomesPicture made params.bands style input output name },
        (Batch.tilesIn made params.bands input names).foldl (Batch.settle style output) made) := by
  rw [renderDirectory_eq hmade hnames, renderNames_eq, Batch.Loaded.ofResults_of_keepGoing]
  dsimp only
  rw [← Batch.tilesIn_eq, hstyle]
  dsimp only
  rw [Batch.renderTiles_of_keepGoing, Nat.zero_add, Batch.tilesIn_eq, Batch.countP_broken,
    Batch.countP_filterMap_present?, Batch.resultsIn]
  simp only [List.countP_map, Function.comp_def, Batch.isBlank_tileIn]
  rfl

/-- A batch that does not keep going stops at the first file that cannot be loaded, before any tile is
rendered. -/
theorem renderDirectory_of_broken (hmade : t.makeDirectories output = (made, true))
    (hnames : made.fileNames input = some names) {broken : RawText}
    (hbroken : broken ∈ Batch.arrayNames names)
    (herror : (Batch.tileIn made params.bands (FileAccess.join input broken)).isOk = false) :
    ∃ first e, first ∈ Batch.arrayNames names ∧
      Batch.tileIn made params.bands (FileAccess.join input first) = .error e ∧
      (∀ other ∈ Batch.arrayNames names,
        (Batch.tileIn made params.bands (FileAccess.join input other)).isOk = false → first ≤ other) ∧
      t.runOn (params.renderDirectory input output false) = (.error e, made) := by
  obtain ⟨front, first, back, hsplit, hfails, hfront, hleast⟩ :=
    Batch.exists_first (p := fun name =>
      !(Batch.tileIn made params.bands (FileAccess.join input name)).isOk)
      (Batch.pairwise_arrayNames names) ⟨broken, hbroken, by rw [herror]; rfl⟩
  cases htile : Batch.tileIn made params.bands (FileAccess.join input first) with
  | ok tile =>
    rw [htile] at hfails
    cases hfails
  | error e =>
    have hresults : Batch.resultsIn made params.bands input (Batch.arrayNames names) =
        Batch.resultsIn made params.bands input front ++
          (first, .error e) :: Batch.resultsIn made params.bands input back := by
      rw [hsplit, Batch.resultsIn, List.map_append, List.map_cons, htile]
      rfl
    have hloads : ∀ x ∈ Batch.resultsIn made params.bands input front, Batch.isBroken x = false := by
      intro x hx
      obtain ⟨name, hname, rfl⟩ := List.mem_map.1 hx
      exact hfront name hname
    refine ⟨first, e, ?_, htile, fun other hother hfails => hleast other hother ?_, ?_⟩
    · rw [hsplit]
      exact List.mem_append_right _ List.mem_cons_self
    · rw [hfails]
      rfl
    · rw [renderDirectory_eq hmade hnames, renderNames_eq, hresults,
        Batch.Loaded.ofResults_of_broken hloads]

/-- A batch that keeps going ends well, whatever the files of its directory hold. The files without bytes
are skipped, those that become pictures in the one style of all tiles are processed, all others are
errors, and together they are all array files. A batch that does not keep going gives the error of the
first file in the order of names that cannot be loaded, and then no file is created or changed. -/
theorem renderDirectory_accounts (params : RenderParams) (hmade : t.makeDirectories output = (made, true))
    (hnames : made.fileNames input = some names) :
    (∃ style report t',
      params.style.stretched ((Batch.tilesIn made params.bands input names).map (·.2))
        params.stretch = .ok style ∧
      t.runOn (params.renderDirectory input output true) = (.ok report, t') ∧
      report.processed + report.skipped + report.errors = (names.filter FileName.isArray).length ∧
      report.skipped = (names.filter FileName.isArray).countP
        (fun name => made.read (FileAccess.join input name) = some []) ∧
      report.processed = (names.filter FileName.isArray).countP
        (Batch.becomesPicture made params.bands style input output) ∧
      report.errors = (names.filter FileName.isArray).countP (fun name =>
        made.read (FileAccess.join input name) ≠ some [] ∧
          ¬ Batch.becomesPicture made params.bands style input output name)) ∧
    ((∃ name ∈ names, FileName.isArray name = true ∧
        (Batch.tileIn made params.bands (FileAccess.join input name)).isOk = false) →
      ∃ first e, first ∈ names ∧ FileName.isArray first = true ∧
        Batch.tileIn made params.bands (FileAccess.join input first) = .error e ∧
        (∀ other ∈ names, FileName.isArray other = true →
          (Batch.tileIn made params.bands (FileAccess.join input other)).isOk = false →
          first ≤ other) ∧
        t.runOn (params.renderDirectory input output false) = (.error e, made) ∧
        t.SameFiles made) := by
  constructor
  · obtain ⟨style, hstyle⟩ : ∃ style, params.style.stretched
        ((Batch.tilesIn made params.bands input names).map (·.2)) params.stretch = .ok style :=
      Batch.exists_stretched_tilesIn params.style params.stretch
    have hcount (p : RawText → Bool) :
        (Batch.arrayNames names).countP p = (names.filter FileName.isArray).countP p :=
      (List.mergeSort_perm _ _).countP_eq p
    have hblank (name : RawText) :
        (Batch.becomesPicture made params.bands style input output name &&
          decide (made.read (FileAccess.join input name) = some [])) = false := by
      rw [← Bool.not_eq_true, Bool.and_eq_true, decide_eq_true_iff]
      rintro ⟨hpicture, hread⟩
      rw [Batch.becomesPicture_blank hread] at hpicture
      cases hpicture
    refine ⟨style, _, _, hstyle, renderDirectory_of_keepGoing hmade hnames hstyle, ?_, hcount _,
      hcount _, ?_⟩
    · dsimp only
      rw [countP_parts fun name _ => hblank name]
      exact (List.mergeSort_perm _ _).length_eq
    · rw [← hcount]
      exact List.countP_congr fun name _ => by simp
  · rintro ⟨broken, hbroken, harray, herror⟩
    obtain ⟨first, e, hfirst, htile, hleast, hrun⟩ :=
      renderDirectory_of_broken hmade hnames (Batch.mem_arrayNames_iff.2 ⟨hbroken, harray⟩) herror
    obtain ⟨hfirst, hfirstArray⟩ := Batch.mem_arrayNames_iff.1 hfirst
    have hfiles : t.SameFiles made := by
      have hmakes := t.sameFiles_makeDirectories output
      rwa [hmade] at hmakes
    exact ⟨first, e, hfirst, hfirstArray, htile,
      fun other hother hotherArray => hleast other (Batch.mem_arrayNames_iff.2 ⟨hother, hotherArray⟩),
      hrun, hfiles⟩

/-- A pixel, a file without bytes and a file that is no array file. -/
def oneOfEach : FileTree := ⟨[
  (["in"], .directory),
  (["in", "a.npy"], .file (.bytes (ArrayFile.encode ⟨.u8, 1, 1, 1, #[5], rfl⟩))),
  (["in", "b.npy"], .file (.bytes [])),
  (["in", "c.npy"], .file (.bytes [0x93]))]⟩

theorem renderDirectory_accounts_oneOfEach :
    (∃ t', oneOfEach.runOn (redOnly.renderDirectory "in" "out" true) = (.ok ⟨1, 1, 1⟩, t')) ∧
      ∃ e made, oneOfEach.runOn (redOnly.renderDirectory "in" "out" false) = (.error e, made) ∧
        Batch.tileIn made redOnly.bands "in/c.npy" = .error e ∧ oneOfEach.SameFiles made := by
  have hmade : oneOfEach.makeDirectories "out" = ((oneOfEach.makeDirectories "out").1, true) :=
    Prod.ext rfl (by decide +kernel)
  have hnames : (oneOfEach.makeDirectories "out").1.fileNames "in" =
      some (["a.npy", "b.npy", "c.npy"] : List RawText) := by decide +kernel
  have hbroken : ∀ name ∈ (["a.npy", "b.npy", "c.npy"] : List RawText),
      (Batch.tileIn (oneOfEach.makeDirectories "out").1 redOnly.bands
        (FileAccess.join "in" name)).isOk = false ↔ name = "c.npy" := by decide +kernel
  obtain ⟨⟨style, ⟨processed, skipped, errors⟩, t', hstyle, hrun, -, hskipped, hprocessed, herrors⟩,
    hstops⟩ := renderDirectory_accounts redOnly hmade hnames
  constructor
  · cases hstyle
    obtain rfl : skipped = 1 := hskipped.trans (by decide +kernel)
    obtain rfl : processed = 1 := hprocessed.trans (by decide +kernel)
    obtain rfl : errors = 1 := herrors.trans (by decide +kernel)
    exact ⟨t', hrun⟩
  · obtain ⟨first, e, hfirst, -, htile, -, hrun, hfiles⟩ :=
      hstops ⟨"c.npy", by decide, by decide +kernel, (hbroken _ (by decide)).2 rfl⟩
    obtain rfl : first = "c.npy" := (hbroken first hfirst).1 (by rw [htile]; rfl)
    exact ⟨e, _, hrun, htile, hfiles⟩

end RenderParams
end RasterTile
