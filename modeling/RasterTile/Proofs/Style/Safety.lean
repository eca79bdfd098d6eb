import RasterTile.Proofs.Picture.Drawing
import RasterTile.Proofs.Program.Correctness
import RasterTile.Proofs.Style.Checked

/-!
# What building a style checks, drawing relies on

A program is compiled against the number of bands and the names of earlier lines, and a channel takes
its position from the band map, so all positions in a style that was built are within their bounds for
tiles of that map. The slots of a pixel are at least as many as the bands and never fewer than four.
So the checked style gives a result at every pixel, and it is the result of the style.
-/
namespace RasterTile

/-! ## Programs -/

namespace Program

variable {bands known : Nat}

theorem Code.within_neg {c : Code} (h : c.Within bands known) : (Code.neg c).Within bands known := by
  cases c with
  | number x => trivial
  | slot | result | negate | binary => exact h

theorem Code.within_bin {op : Operator} {l r : Code} (hl : l.Within bands known)
    (hr : r.Within bands known) : (Code.bin op l r).Within bands known := by
  cases l with
  | number x =>
    cases r with
    | number y => trivial
    | slot | result | negate | binary => exact ⟨hl, hr⟩
  | slot | result | negate | binary => exact ⟨hl, hr⟩

/-- The side conditions of the references are the bounds of the positions. -/
theorem Expr.within_fold {s : Scope} {e : Expr} (h : e.Admissible s) :
    (e.fold s).Within s.bands.count s.earlier.length := by
  induction e with
  | number x => trivial
  | plus e ih => exact ih h
  | negate e ih =>
    have he : e.Admissible s := h
    rw [Expr.fold_negate he]
    exact Code.within_neg (ih he)
  | binary op l r ihl ihr =>
    rw [Expr.fold_binary h.1 h.2]
    exact Code.within_bin (ihl h.1) (ihr h.2)
  | select table e ih =>
    obtain ⟨_, _, v, hv, n, hn, hentry⟩ := h
    rw [Expr.fold_select hv hn]
    cases hb : s.bound? table n.toNat with
    | some b => trivial
    | none =>
      obtain rfl := eq_bands_of_bound?_eq_none hentry hb
      exact hentry
  | position name => trivial
  | result name =>
    cases hl : Parser.lastIndex? name s.earlier with
    | none => exact absurd h (lastIndex?_eq_none_iff.1 hl)
    | some i =>
      rw [Expr.fold, hl]
      exact lastIndex?_lt hl

/-- A binding refers to those before it. -/
theorem Binds.within {ranges : List BandRange} {bands : BandMap} {names : List String}
    {sts : List Statement} {bs : List Binding} (h : Binds ranges bands names sts bs) :
    ∀ (k : Nat) (b : Binding), bs[k]? = some b → b.code.Within bands.count (names.length + k) := by
  induction h with
  | nil =>
    intro k b hb
    cases hb
  | @cons names st sts bs ha _ ih =>
    intro k b hb
    cases k with
    | zero =>
      cases hb
      exact Expr.within_fold ha
    | succ k =>
      have hk := ih k b hb
      rw [List.length_append, List.length_singleton, Nat.add_assoc, Nat.add_comm 1] at hk
      exact hk

/-- What is compiled stays within its bounds. -/
theorem within_of_compile {source : String} {ranges : List BandRange} {bands : BandMap}
    {p : Program} (h : compile source ranges bands = .ok p) : p.Within bands.count := by
  obtain ⟨sts, -, hbinds, hr, hg, hb, ha⟩ := compile_eq_ok_iff.1 h
  have hnames : p.names.length = p.bindings.length := List.length_map ..
  refine ⟨fun k b hk => by simpa using hbinds.within k b hk, fun i hi => ?_⟩
  rw [← hnames]
  simp only [Checked.outputs, List.cons_append, List.nil_append, List.mem_cons, Option.mem_toList] at hi
  rcases hi with rfl | rfl | rfl | hi
  · exact lastIndex?_lt hr
  · exact lastIndex?_lt hg
  · exact lastIndex?_lt hb
  · exact lastIndex?_lt (ha.trans hi)

end Program

/-! ## Lookup tables -/

namespace LookupTable

theorem Channel.within_of_bind {entries : Array Float} {band : Band} {ranges : List BandRange}
    {order : BandOrder} {c : Channel} (h : Channel.bind entries band ranges order.map = .ok c) :
    c.Within order.length := by
  unfold Channel.bind at h
  by_cases hempty : entries.size = 0
  · rw [dif_pos hempty] at h
    cases h
  rw [dif_neg hempty] at h
  cases hposition : order.map.position? band with
  | none =>
    rw [hposition] at h
    cases h
  | some position =>
    rw [hposition] at h
    have hlt : position < order.length := BandMap.position?_lt hposition
    dsimp only at h
    cases hbounds : ranges[position]?.bind BandRange.bounds with
    | none =>
      rw [hbounds] at h
      cases h
    | some bounds =>
      rw [hbounds] at h
      cases h
      exact ⟨hlt, Nat.pos_of_ne_zero hempty, Channel.index_lt _⟩

/-- What is bound stays within its bounds, in all three channels. -/
theorem within_of_bind {t : LookupTable} {ranges : List BandRange} {order : BandOrder} {b : Bound}
    (h : t.bind ranges order.map = .ok b) :
    b.red.Within order.length ∧ b.green.Within order.length ∧ b.blue.Within order.length := by
  simp only [bind, bind_eq_ok_iff, pure_eq_ok_iff] at h
  obtain ⟨red, hr, green, hg, blue, hb, rfl⟩ := h
  exact ⟨Channel.within_of_bind hr, Channel.within_of_bind hg, Channel.within_of_bind hb⟩

end LookupTable

/-! ## Styles -/

/-- Building a style for the map of an order bounds its positions by the order. -/
theorem StyleSource.within_of_build {source : StyleSource} {order : BandOrder} {style : Style}
    (h : source.build order.map = .ok style) : style.Within order.length := by
  cases source with
  | preset p options =>
    obtain ⟨s, -, rfl⟩ := map_eq_ok_iff.1 h
    trivial
  | program text ranges =>
    rw [build] at h
    cases hc : Program.compile text ranges order.map with
    | error e =>
      rw [hc] at h
      cases h
    | ok p =>
      rw [hc] at h
      cases h
      exact Program.within_of_compile hc
  | table t ranges =>
    obtain ⟨b, hb, rfl⟩ := map_eq_ok_iff.1 h
    exact LookupTable.within_of_bind hb

/-- A style within its bounds is applied without a fallback. -/
theorem Checked.style_eq {style : Style} {bands : BandMap} {slots : List Float}
    (h : style.Within bands.count) (hslots : bands.count ≤ slots.length)
    (hfour : 4 ≤ slots.length) : Checked.style bands slots style = some (style.apply bands slots) := by
  cases style with
  | preset s => exact configured_eq s bands slots
  | program p => exact program_eq h hslots hfour
  | table b => exact table_eq h.1 h.2.1 h.2.2 hslots hfour

/-! ## The number of slots -/

section

variable {α : Type} [Scalar α]

theorem Preset.length_apply (p : Preset) (bands : BandMap) (slots : List α) :
    (p.apply bands slots).length = slots.length := by
  rcases slots with _ | ⟨x, _ | ⟨y, _ | ⟨z, _ | ⟨a, rest⟩⟩⟩⟩ <;> rfl

theorem ColorMatrix.length_apply (m : ColorMatrix α) (slots : List α) :
    (m.apply slots).length = slots.length := by
  rcases slots with _ | ⟨x, _ | ⟨y, _ | ⟨z, rest⟩⟩⟩ <;> rfl

theorem ConfiguredPreset.length_apply (c : ConfiguredPreset α) (bands : BandMap) (slots : List α) :
    (c.apply bands slots).length = slots.length := by
  have hcurves (painted : List α) :
      (c.curves.elim painted (·.apply painted)).length = painted.length := by
    cases c.curves with
    | none => rfl
    | some s => exact Pixel.length_overwrite _ _
  have hcolor (scaled : List α) :
      (c.color.elim scaled (·.apply scaled)).length = scaled.length := by
    cases c.color with
    | none => rfl
    | some m => exact m.length_apply scaled
  unfold ConfiguredPreset.apply
  dsimp only
  rw [hcolor, rescale, Pixel.length_overwrite, hcurves, Preset.length_apply]

end

/-- Every style that a source describes keeps the number of slots, so it can be drawn with. -/
theorem Style.keepsSlots (style : Style) :
    Tile.KeepsSlots fun bands slots => style.apply bands slots := by
  intro bands slots
  cases style with
  | preset s => exact s.length_apply bands slots
  | program p => exact Pixel.length_overwrite _ _
  | table b => rcases slots with _ | ⟨x, _ | ⟨y, _ | ⟨z, rest⟩⟩⟩ <;> rfl

/-! ## Drawing with a style that was built -/

/-- A style that was built for a tile has its positions within the tile's bands, its earlier bindings
and its tables. So whatever values the slots hold, no access leaves them and nothing is made up; and the
slots that the style leaves behind are as many as before, so the next pixel is loaded into as many. -/
theorem Tile.build_checks {t : Tile} {source : StyleSource} {style : Style}
    (h : source.build t.map = .ok style) :
    style.Within t.bandCount ∧
    (∀ slots : List Float, slots.length = t.slotCount →
      Checked.style t.map slots style = some (style.apply t.map slots) ∧
      (style.apply t.map slots).length = t.slotCount) ∧
    ∀ p < t.pixelCount, ∀ scratch : List Float, scratch.length = t.slotCount →
      Checked.style t.map (t.load p scratch) style = some (style.apply t.map (t.load p scratch)) := by
  have hwithin : style.Within t.bandCount := StyleSource.within_of_build h
  have hslots (slots : List Float) (hlength : slots.length = t.slotCount) :
      Checked.style t.map slots style = some (style.apply t.map slots) := by
    have hmap : style.Within t.map.count := hwithin
    have hbands : t.map.count ≤ slots.length := hlength ▸ le_max_left _ _
    have hfour : 4 ≤ slots.length := hlength ▸ le_max_right _ _
    exact Checked.style_eq hmap hbands hfour
  refine ⟨hwithin, fun slots hlength => ⟨hslots slots hlength, ?_⟩, fun p _ scratch hscratch => ?_⟩
  · rw [style.keepsSlots, hlength]
  · exact hslots _ (by rw [length_load, hscratch])

def Tile.dot : Tile := ⟨some ⟨.u8, 2, 1, 1, #[7, 9], rfl⟩, [.blue, .red], by simp⟩

theorem Tile.build_checks_dot :
    (StyleSource.program Program.shadowing []).build dot.map =
        .ok (.program Program.shadowingCompiled) ∧
      Program.shadowingCompiled.Within 2 ∧
      Checked.style dot.map (dot.load 0 [1, 2, 3, 4]) (.program Program.shadowingCompiled) =
        some [8, 1, 8, 0] := by
  have hcompile : Program.compile Program.shadowing [] dot.map = .ok Program.shadowingCompiled := by
    decide +kernel
  have hbuild : (StyleSource.program Program.shadowing []).build dot.map =
      .ok (.program Program.shadowingCompiled) := by
    rw [StyleSource.build, hcompile]
  obtain ⟨hwithin, -, hpixel⟩ := build_checks hbuild
  have happly : Program.shadowingCompiled.apply (dot.load 0 [1, 2, 3, 4]) = [8, 1, 8, 0] := by
    decide +kernel
  exact ⟨hbuild, hwithin, (hpixel 0 (by decide) [1, 2, 3, 4] rfl).trans (congrArg some happly)⟩

end RasterTile
