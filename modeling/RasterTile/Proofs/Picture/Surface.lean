import RasterTile.Proofs.Picture.Drawing

/-!
# Drawing onto a surface

A tile is drawn onto a surface of its size or not at all. The size is looked at before anything is drawn,
and a tile has as many bytes as a surface of its size, whatever the style makes of its pixels and even if
there are none. So the bytes always fit once the size does: a drawing that fails has not touched the
surface, and one that succeeds has replaced every byte of it.
-/
namespace RasterTile.OnSurface

open Tile (KeepsSlots)

variable {t : Tile} {style : BandMap → List Float → List Float} {p : Picture}

/-- Work that looks at the surface first sees it as it is. -/
theorem run_get {α : Type} (work : Picture → OnSurface α) (p : Picture) :
    (get >>= work : OnSurface α).run p = (work p).run p := rfl

theorem put_run (rgba : List UInt8) (p : Picture) :
    (put rgba).run p =
      if rgba.length = p.rgba.length then (.ok (), { p with rgba })
      else (.error (.surfaceBytes rgba.length p.width p.height), p) := by
  rw [put, run_get]
  by_cases h : rgba.length = p.rgba.length
  · rw [if_neg (not_not_intro h), if_pos h]
    rfl
  · rw [if_pos h, if_neg h]
    rfl

/-- How drawing a tile ends, up to the bytes. -/
theorem drawTile_run (t : Tile) (style : BandMap → List Float → List Float) (p : Picture) :
    (drawTile t style).run p =
      if t.isBlank = true then (.ok (), p)
      else if p.width = t.width ∧ p.height = t.height then (put (t.draw style)).run p
      else (.error (.surfaceSize t.width t.height p.width p.height), p) := by
  rw [drawTile]
  by_cases hblank : t.isBlank = true
  · rw [if_pos hblank, if_pos hblank]
    rfl
  · rw [if_neg hblank, if_neg hblank, run_get]
    by_cases hsize : p.width = t.width ∧ p.height = t.height
    · have hsame : ¬ (p.width ≠ t.width ∨ p.height ≠ t.height) := by tauto
      rw [if_neg hsame, if_pos hsize]
    · rw [if_pos (not_and_or.1 hsize), if_neg hsize]
      rfl

/-- A surface of a tile's size has room for exactly its bytes. -/
theorem length_draw_of_size (hstyle : KeepsSlots style)
    (hbytes : p.rgba.length = p.width * p.height * 4) (hwidth : p.width = t.width)
    (hheight : p.height = t.height) : (t.draw style).length = p.rgba.length := by
  rw [Tile.length_draw hstyle, hbytes, hwidth, hheight]

/-- A tile of the surface's size replaces all of its bytes. -/
theorem drawTile_run_of_size (hstyle : KeepsSlots style)
    (hbytes : p.rgba.length = p.width * p.height * 4) (hblank : t.isBlank = false)
    (hwidth : p.width = t.width) (hheight : p.height = t.height) :
    (drawTile t style).run p = (.ok (), { p with rgba := t.draw style }) := by
  have hlength := length_draw_of_size hstyle hbytes hwidth hheight
  rw [drawTile_run, if_neg (Bool.eq_false_iff.1 hblank), if_pos ⟨hwidth, hheight⟩, put_run,
    if_pos hlength]

/-- Drawing succeeds exactly if the tile is blank or has the size of the surface. A blank tile leaves the
surface as it is; any other one that is drawn leaves its own bytes, all of them and nothing else. The only
failure is that the sizes differ, not that the bytes do not fit, and the surface is then as it was. -/
theorem drawTile_all_or_nothing (t : Tile) (style : BandMap → List Float → List Float)
    (hstyle : KeepsSlots style) (p : Picture) (hbytes : p.rgba.length = p.width * p.height * 4) :
    ∃ result q, (drawTile t style).run p = (result, q) ∧
      (result = .ok () ↔ t.isBlank = true ∨ (p.width = t.width ∧ p.height = t.height)) ∧
      (result = .ok () → t.isBlank = true → q = p) ∧
      (result = .ok () → t.isBlank = false →
        q = { p with rgba := t.draw style } ∧ q.rgba.length = q.width * q.height * 4) ∧
      (∀ e, result = .error e →
        q = p ∧ e = .surfaceSize t.width t.height p.width p.height) ∧
      (p.width = t.width → p.height = t.height →
        ((put (t.draw style)).run p).1 = .ok ()) := by
  have hput (hwidth : p.width = t.width) (hheight : p.height = t.height) :
      ((put (t.draw style)).run p).1 = .ok () := by
    rw [put_run, if_pos (length_draw_of_size hstyle hbytes hwidth hheight)]
  cases hblank : t.isBlank with
  | true =>
    refine ⟨_, _, by rw [drawTile_run, if_pos hblank], by simp, fun _ _ => rfl, ?_, ?_, hput⟩
    · rintro - ⟨⟩
    · rintro e ⟨⟩
  | false =>
    by_cases hsize : p.width = t.width ∧ p.height = t.height
    · refine ⟨_, _, drawTile_run_of_size hstyle hbytes hblank hsize.1 hsize.2, by simp [hsize], ?_, ?_,
        ?_, hput⟩
      · rintro - ⟨⟩
      · intro _ _
        exact ⟨rfl, (length_draw_of_size hstyle hbytes hsize.1 hsize.2).trans hbytes⟩
      · rintro e ⟨⟩
    · refine ⟨_, _, by rw [drawTile_run, if_neg (Bool.eq_false_iff.1 hblank), if_neg hsize], ?_, ?_,
        ?_, ?_, hput⟩
      · simp [hsize]
      · rintro ⟨⟩
      · rintro ⟨⟩
      · rintro e ⟨⟩
        exact ⟨rfl, rfl⟩

def upright : Tile := ⟨some ⟨.u8, 1, 2, 1, #[7, 200], rfl⟩, [.red], by simp⟩

/-- Three rows without a pixel. -/
def hollow : Tile := ⟨some ⟨.u16, 2, 3, 0, #[], rfl⟩, [.red, .alpha], by simp⟩

def untouched (_ : BandMap) (slots : List Float) : List Float := slots

theorem keepsSlots_untouched : KeepsSlots untouched := fun _ _ => rfl

def speckled (width height : Nat) : Picture :=
  ⟨width, height, (List.replicate (width * height) [1, 2, 3, 4]).flatten⟩

theorem drawTile_all_or_nothing_upright :
    KeepsSlots untouched ∧
    ((speckled 1 2).rgba.length = 1 * 2 * 4 ∧
      (drawTile upright untouched).run (speckled 1 2) = (.ok (), ⟨1, 2, [7, 0, 0, 0, 200, 0, 0, 0]⟩)) ∧
    ((speckled 2 1).rgba.length = 2 * 1 * 4 ∧
      (drawTile upright untouched).run (speckled 2 1) =
        (.error (.surfaceSize 1 2 2 1), speckled 2 1)) ∧
    (drawTile hollow untouched).run (speckled 0 3) = (.ok (), ⟨0, 3, []⟩) ∧
    (drawTile (.blank [.red]) untouched).run (speckled 2 1) = (.ok (), speckled 2 1) := by
  have hbytes (width height : Nat) : (speckled width height).rgba.length =
      (speckled width height).width * (speckled width height).height * 4 := by
    simp [speckled]
  have hupright : upright.draw untouched = [7, 0, 0, 0, 200, 0, 0, 0] := by decide +kernel
  have hhollow : hollow.draw untouched = [] := by decide +kernel
  obtain ⟨r, q, hrun, hok, -, hdrawn, -, -⟩ :=
    drawTile_all_or_nothing upright _ keepsSlots_untouched _ (hbytes 1 2)
  obtain ⟨r', q', hrun', hok', -, -, hfailed', -⟩ :=
    drawTile_all_or_nothing upright _ keepsSlots_untouched _ (hbytes 2 1)
  obtain ⟨r₀, q₀, hrun₀, hok₀, -, hdrawn₀, -, -⟩ :=
    drawTile_all_or_nothing hollow _ keepsSlots_untouched _ (hbytes 0 3)
  obtain ⟨r₁, q₁, hrun₁, hok₁, hkept₁, -, -, -⟩ :=
    drawTile_all_or_nothing (.blank [.red]) _ keepsSlots_untouched _ (hbytes 2 1)
  have hr := hok.2 (.inr ⟨rfl, rfl⟩)
  have hr₀ := hok₀.2 (.inr ⟨rfl, rfl⟩)
  have hr₁ := hok₁.2 (.inl rfl)
  refine ⟨keepsSlots_untouched, ⟨rfl, ?_⟩, ⟨rfl, ?_⟩, ?_, ?_⟩
  · rw [hrun, hr, (hdrawn hr rfl).1, hupright]
    rfl
  · cases r' with
    | ok _ => exact absurd (hok'.1 rfl) (by decide)
    | error e =>
      obtain ⟨rfl, rfl⟩ := hfailed' e rfl
      exact hrun'
  · rw [hrun₀, hr₀, (hdrawn₀ hr₀ rfl).1, hhollow]
    rfl
  · rw [hrun₁, hr₁, hkept₁ hr₁ rfl]

end RasterTile.OnSurface
