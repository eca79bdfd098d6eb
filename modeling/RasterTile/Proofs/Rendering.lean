import RasterTile.Proofs.FileTree
import RasterTile.Proofs.Style.Safety
import RasterTile.Rendering

/-!
# What rendering a file leaves behind

Everything that is wrong with the tile, the style or the extents is found before the output is created,
so it leaves all files as they are. One failure comes later: a picture without pixels is not encoded,
and by then the output has been emptied.
-/
namespace RasterTile

variable {t t' : FileTree} {path input output : RawText}

/-! ## Saving -/

/-- How saving a picture ends. -/
theorem Picture.save_run (p : Picture) (path : RawText) (t : FileTree) :
    t.runOn (p.save path) =
      match p.checkBytes, t.place? path with
      | .error e, _ => (.error e, t)
      | .ok (), none => (.error .fileAccess, t)
      | .ok (), some here =>
        if p.isEncodable then (.ok (), t.set here (.file (.picture p)))
        else (.error .pictureEncoding, t.set here (.file (.bytes []))) := by
  unfold save
  rw [FileTree.runOn_bind, FileTree.runOn_liftM]
  cases p.checkBytes with
  | error e => rfl
  | ok =>
    dsimp only
    rw [FileTree.runOn_bind, FileTree.runOn_ensure_write rfl]
    cases hplace : t.place? path with
    | none => rfl
    | some here =>
      rw [Option.elim_some]
      dsimp only
      cases p.isEncodable with
      | false => rfl
      | true =>
        -- the empty file is no directory, so the path still leads there
        obtain ⟨-, hfree⟩ := FileTree.place?_eq_some_iff.1 hplace
        rw [if_pos rfl, if_pos rfl, FileTree.runOn_ensure_write rfl,
          (FileTree.sameDirectories_set hfree _).place?_eq, hplace, Option.elim_some, FileTree.set_set]

/-- Saving fails without a trace, or after the file was created. -/
theorem Picture.save_failed {p : Picture} {e : Error} (h : t.runOn (p.save path) = (.error e, t')) :
    t' = t ∨ ∃ here, t.place? path = some here ∧ p.checkBytes = .ok () ∧ p.isEncodable = false ∧
      t' = t.set here (.file (.bytes [])) := by
  rw [save_run] at h
  split at h
  · cases h
    exact .inl rfl
  · cases h
    exact .inl rfl
  · rename_i here hbytes hplace
    split at h
    · cases h
    · rename_i hpixels
      cases h
      exact .inr ⟨here, hplace, hbytes, Bool.not_eq_true _ ▸ hpixels, rfl⟩

/-- A picture that was saved is at the place of its path. -/
theorem Picture.save_ok {p : Picture} (h : t.runOn (p.save path) = (.ok (), t')) :
    ∃ here, t.place? path = some here ∧ t' = t.set here (.file (.picture p)) := by
  rw [save_run] at h
  split at h
  · cases h
  · cases h
  · rename_i here hbytes hplace
    split at h
    · cases h
      exact ⟨here, hplace, rfl⟩
    · cases h

/-- A picture is saved if its bytes are all there, there is a place for it, and it has pixels. -/
theorem Picture.save_eq_ok_iff {p : Picture} :
    (t.runOn (p.save path)).1 = .ok () ↔
      p.checkBytes = .ok () ∧ (t.place? path).isSome = true ∧ p.isEncodable = true := by
  rw [save_run]
  cases p.checkBytes with
  | error e => simp
  | ok =>
    cases t.place? path with
    | none => simp
    | some here => cases p.isEncodable <;> simp

theorem Picture.save_of_not_isEncodable {p : Picture} {here : Location}
    (hplace : t.place? path = some here) (hbytes : p.checkBytes = .ok ())
    (hpixels : p.isEncodable = false) :
    t.runOn (p.save path) = (.error .pictureEncoding, t.set here (.file (.bytes []))) := by
  rw [save_run, hbytes, hplace, hpixels]
  rfl

/-! ## Pictures of tiles -/

/-- A rendered tile has four bytes for each pixel. -/
theorem Tile.length_rgba_of_render {t : Tile} {source : StyleSource} {q : Picture}
    (h : t.render source = .ok q) : q.rgba.length = q.width * q.height * 4 := by
  obtain ⟨style, -, hq⟩ := bind_eq_ok_iff.1 h
  cases hq
  exact length_draw style.keepsSlots

/-- With all its bytes, a picture can be started if its extents fit 32 bits. -/
theorem Picture.checkBytes_eq_ok_iff {q : Picture} (h : q.rgba.length = q.width * q.height * 4) :
    q.checkBytes = .ok () ↔ q.width < 2 ^ 32 ∧ q.height < 2 ^ 32 := by
  have hlimit : extentLimit = 2 ^ 32 := rfl
  have hchecked : q.checkBytes = q.checkExtents := if_neg (not_not_intro h)
  rw [hchecked, checkExtents, hlimit]
  split
  · simp; omega
  · split
    · simp; omega
    · simp; omega

theorem Picture.isEncodable_eq_false_iff {q : Picture} :
    q.isEncodable = false ↔ q.width = 0 ∨ q.height = 0 := by
  simp [isEncodable, Decidable.imp_iff_not_or]

theorem RenderParams.length_rgba_of_picture {params : RenderParams} {bytes : List UInt8} {q : Picture}
    (h : params.picture path bytes = .ok q) : q.rgba.length = q.width * q.height * 4 := by
  obtain ⟨tile, -, h⟩ := bind_eq_ok_iff.1 h
  split at h
  · cases h
  · obtain ⟨style, -, h⟩ := bind_eq_ok_iff.1 h
    exact Tile.length_rgba_of_render h

/-! ## Rendering a file -/

namespace RenderParams

variable {params : RenderParams} {e : Error}

/-- There is a place for the output and a picture to put there, whose extents fit 32 bits but which has
no pixels. -/
def EmptiesOutput (params : RenderParams) (t : FileTree) (input output : RawText) : Prop :=
  (∃ here, t.place? output = some here) ∧
    ∃ bytes q, t.read input = some bytes ∧ params.picture input bytes = .ok q ∧
      q.width < 2 ^ 32 ∧ q.height < 2 ^ 32 ∧ (q.width = 0 ∨ q.height = 0)

/-- A file is rendered in three steps, of which only the last one writes. -/
theorem renderFile_eq (params : RenderParams) (input output : RawText) (t : FileTree) :
    t.runOn (params.renderFile input output) =
      (t.read input).elim (.error .fileAccess, t) fun bytes =>
        match params.picture input bytes with
        | .error e => (.error e, t)
        | .ok q => t.runOn (q.save output) := by
  have hread : StateT.run (FileAccess.read input : StateM FileTree _) t = (t.read input, t) := rfl
  unfold renderFile
  rw [FileTree.runOn_bind, FileTree.runOn_demand, hread]
  cases t.read input with
  | none => rfl
  | some bytes =>
    dsimp only [Option.elim_some]
    rw [FileTree.runOn_bind, FileTree.runOn_liftM]
    cases params.picture input bytes <;> rfl

theorem renderFile_run {bytes : List UInt8} {q : Picture} (hread : t.read input = some bytes)
    (hpicture : params.picture input bytes = .ok q) :
    t.runOn (params.renderFile input output) = t.runOn (q.save output) := by
  rw [renderFile_eq, hread, Option.elim_some, hpicture]

/-- Nothing is touched before there is a picture to save. -/
theorem renderFile_failed_save (h : t.runOn (params.renderFile input output) = (.error e, t')) :
    t' = t ∨ ∃ bytes q, t.read input = some bytes ∧ params.picture input bytes = .ok q ∧
      t.runOn (q.save output) = (.error e, t') := by
  rw [renderFile_eq] at h
  cases hread : t.read input with
  | none =>
    rw [hread] at h
    cases h
    exact .inl rfl
  | some bytes =>
    rw [hread, Option.elim_some] at h
    split at h
    · cases h
      exact .inl rfl
    · rename_i q hpicture
      exact .inr ⟨bytes, q, rfl, hpicture, h⟩

/-- A failed rendering leaves all files as they are, unless a picture without pixels was to be saved:
then the output is empty, whatever it was before, and all other files are as they were. -/
theorem renderFile_failed (h : t.runOn (params.renderFile input output) = (.error e, t')) :
    (¬ params.EmptiesOutput t input output → t' = t) ∧
      (params.EmptiesOutput t input output →
        e = .pictureEncoding ∧ t'.at? output = some (.file (.bytes [])) ∧
          ∀ here, t.locate? output ≠ some here → t'.find? here = t.find? here) := by
  constructor
  · intro hfills
    rcases renderFile_failed_save h with hsame | ⟨bytes, q, hread, hpicture, hsave⟩
    · exact hsame
    rcases Picture.save_failed hsave with hsame | ⟨here, hplace, hbytes, hpixels, -⟩
    · exact hsame
    obtain ⟨hwidth, hheight⟩ :=
      (Picture.checkBytes_eq_ok_iff (length_rgba_of_picture hpicture)).1 hbytes
    exact absurd ⟨⟨here, hplace⟩, bytes, q, hread, hpicture, hwidth, hheight,
      Picture.isEncodable_eq_false_iff.1 hpixels⟩ hfills
  · rintro ⟨⟨here, hplace⟩, bytes, q, hread, hpicture, hwidth, hheight, hpixels⟩
    have hbytes := (Picture.checkBytes_eq_ok_iff (length_rgba_of_picture hpicture)).2 ⟨hwidth, hheight⟩
    rw [renderFile_run hread hpicture,
      Picture.save_of_not_isEncodable hplace hbytes (Picture.isEncodable_eq_false_iff.2 hpixels)] at h
    cases h
    exact ⟨rfl, FileTree.at?_set hplace _, (FileTree.set_frame hplace _).2⟩

def redOnly : RenderParams := ⟨[.red], .default, none⟩

/-- A tile without pixels, and a file that is there already. -/
def pixelless : FileTree := ⟨[
  (["tile.npy"], .file (.bytes (ArrayFile.encode ⟨.u8, 1, 0, 3, #[], by decide⟩))),
  (["out.png"], .file (.bytes [1, 2, 3]))]⟩

theorem renderFile_failed_pixelless :
    (∃ t', pixelless.runOn (redOnly.renderFile "missing.npy" "out.png") = (.error .fileAccess, t') ∧
      t' = pixelless) ∧
    ∃ t', pixelless.runOn (redOnly.renderFile "tile.npy" "out.png") = (.error .pictureEncoding, t') ∧
      t'.at? "out.png" = some (.file (.bytes [])) ∧
      t'.find? ["tile.npy"] = pixelless.find? ["tile.npy"] := by
  constructor
  · have herror : (pixelless.runOn (redOnly.renderFile "missing.npy" "out.png")).1 =
        .error .fileAccess := by decide +kernel
    have hmissing : pixelless.read "missing.npy" = none := by decide +kernel
    rcases hrun : pixelless.runOn (redOnly.renderFile "missing.npy" "out.png") with ⟨r, t'⟩
    rw [hrun] at herror
    obtain rfl : r = .error .fileAccess := herror
    refine ⟨t', rfl, (renderFile_failed hrun).1 ?_⟩
    rintro ⟨-, bytes, -, hread, -⟩
    rw [hmissing] at hread
    cases hread
  · have herror : (pixelless.runOn (redOnly.renderFile "tile.npy" "out.png")).1 =
        .error .pictureEncoding := by decide +kernel
    have hempties : redOnly.EmptiesOutput pixelless "tile.npy" "out.png" :=
      ⟨⟨["out.png"], by decide +kernel⟩, ArrayFile.encode ⟨.u8, 1, 0, 3, #[], rfl⟩, ⟨3, 0, []⟩,
        by decide +kernel, by decide +kernel, by decide, by decide, .inr rfl⟩
    rcases hrun : pixelless.runOn (redOnly.renderFile "tile.npy" "out.png") with ⟨r, t'⟩
    rw [hrun] at herror
    obtain rfl : r = .error .pictureEncoding := herror
    obtain ⟨-, hempty, hothers⟩ := (renderFile_failed hrun).2 hempties
    exact ⟨t', rfl, hempty, hothers _ (by decide +kernel)⟩

/-- The file that was there is lost. -/
theorem renderFile_loses_output :
    pixelless.at? "out.png" = some (.file (.bytes [1, 2, 3])) ∧
      (pixelless.runOn (redOnly.renderFile "tile.npy" "out.png")).1 = .error .pictureEncoding ∧
      (pixelless.runOn (redOnly.renderFile "tile.npy" "out.png")).2.at? "out.png" =
        some (.file (.bytes [])) := by
  refine ⟨?_, ?_, ?_⟩
  · decide +kernel
  · decide +kernel
  · decide +kernel

end RenderParams
end RasterTile
