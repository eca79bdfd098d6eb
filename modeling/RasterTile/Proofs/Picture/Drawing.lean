import RasterTile.Picture
import RasterTile.Proofs.Tile

/-!
# Drawing is a map over pixels

Drawing works through a buffer: row by row, and along a row with one set of slots, which a style may
leave in any state. None of this shows in the result. Whatever the slots held before, loading a pixel
leaves its band values and zeros in them, so each pixel has its bytes to itself; and since each row is
written to its own place, the rows may be drawn in any order.
-/
namespace RasterTile.Tile

variable {t : Tile} {style : BandMap → List Float → List Float}

/-! ## The slots of a pixel -/

/-- The value of band `b` in column `x` of row `y`; zero beyond the pixels that a word can count. -/
def sample? (t : Tile) (b x y : Nat) : Option Float :=
  t.tensor.map fun tensor =>
    let p := y * tensor.width + x
    if p < tensor.pixelCount then tensor.valueAt b p else 0

/-- What a style gets to see at a pixel. -/
def slots (t : Tile) (p : Nat) : List Float := t.load p (List.replicate t.slotCount 0)

@[simp] theorem length_load (p : Nat) (scratch : List Float) :
    (t.load p scratch).length = scratch.length := by
  rw [load, readPixel_eq]
  cases t.pixel? p <;> simp

@[simp] theorem length_slots (p : Nat) : (t.slots p).length = t.slotCount := by simp [slots]

theorem four_le_length_slots (t : Tile) (p : Nat) : 4 ≤ (t.slots p).length := by
  rw [length_slots]
  exact le_max_right _ _

/-- What the scratch held does not matter. -/
theorem load_eq_slots {scratch : List Float} (h : scratch.length = t.slotCount) (p : Nat) :
    t.load p scratch = t.slots p := by
  have hcleared : scratch.map (fun _ => (0 : Float)) =
      (List.replicate t.slotCount (0 : Float)).map fun _ => 0 := by
    simp [← h, List.map_const']
  unfold slots load
  rw [hcleared]

variable {tensor : Tensor} {b i p x y : Nat}

/-- The band values of a pixel, and zeros after them. -/
theorem slots_eq_overwrite (ht : t.tensor = some tensor) (hp : p < tensor.pixelCount) :
    t.slots p =
      Pixel.overwrite (List.replicate t.slotCount 0) ((bandValues tensor p).map some) := by
  simp [slots, load, readPixel_eq_some ht hp]

/-- Where there is no pixel, all slots are zero. -/
theorem slots_of_le (hp : t.pixelCount ≤ p) : t.slots p = List.replicate t.slotCount 0 := by
  simp [slots, load, readPixel_eq_none hp]

/-- The leading slots hold the values of the bands. -/
theorem getElem?_slots_index (ht : t.tensor = some tensor) (hp : p < tensor.pixelCount)
    (hb : b < t.bandCount) : (t.slots p)[b]? = some (tensor.valueAt b p) := by
  have hbands : tensor.bands = t.bandCount := t.bands_eq tensor ht
  have hslot : b < t.slotCount := lt_of_lt_of_le hb (le_max_left _ _)
  rw [slots_eq_overwrite ht hp, Pixel.getElem?_overwrite, List.getElem?_map,
    getElem?_bandValues (hbands ▸ hb)]
  simp [hslot]

/-- The slot of a band has the value of the band at the pixel. -/
theorem getElem?_slots_band (hx : x < t.width) (y : Nat) (hb : b < t.bandCount) :
    (t.slots (y * t.width + x))[b]? = t.sample? b x y := by
  obtain ⟨tensor, ht, hw, -⟩ := exists_tensor_of_width hx
  have hslot : b < t.slotCount := lt_of_lt_of_le hb (le_max_left _ _)
  rw [sample?, ht, Option.map_some, ← hw]
  dsimp only
  split_ifs with hp
  · exact getElem?_slots_index ht hp hb
  · rw [slots_of_le (pixelCount_of_tensor ht ▸ Nat.not_lt.1 hp)]
    simp [hslot]

/-- Bands are stored one after the other, and so are the rows of a band. -/
theorem sample?_eq_get? (ht : t.tensor = some tensor)
    (hfits : t.bandCount * t.height * t.width < 2 ^ 64) (hb : b < t.bandCount) (hx : x < t.width)
    (hy : y < t.height) :
    t.sample? b x y = tensor.get? ((b * t.height + y) * t.width + x) := by
  have hw : t.width = tensor.width := by rw [width, ht, Option.elim_some]
  have hh : t.height = tensor.height := by rw [height, ht, Option.elim_some]
  have hbands : tensor.bands = t.bandCount := t.bands_eq tensor ht
  rw [hw] at hx
  rw [hh] at hy
  rw [← hbands] at hb
  rw [← hbands, hw, hh, Nat.mul_assoc] at hfits
  have hle : tensor.height * tensor.width ≤ tensor.bands * (tensor.height * tensor.width) :=
    Nat.le_mul_of_pos_left _ (Nat.zero_lt_of_lt hb)
  have hpixels := Tensor.pixelCount_of_lt (lt_of_le_of_lt hle hfits)
  have hp : y * tensor.width + x < tensor.pixelCount := by
    have hrow : (y + 1) * tensor.width ≤ tensor.height * tensor.width := Nat.mul_le_mul_right _ hy
    rw [Nat.add_mul, Nat.one_mul] at hrow
    rw [hpixels]
    omega
  have hwhole : tensor.Fits := by rwa [Tensor.Fits, hpixels]
  obtain ⟨w, hsample, hvalue⟩ := hwhole.exists_sample hb hp
  have hplace : b * tensor.pixelCount + (y * tensor.width + x) =
      (b * tensor.height + y) * tensor.width + x := by
    rw [hpixels]
    ring
  rw [hplace] at hsample
  rw [sample?, ht, Option.map_some, hw, hh, Tensor.get?, hsample, Option.map_some, ← hvalue]
  exact congrArg some (if_pos hp)

/-- The slots after those of the bands are zero. -/
theorem getElem?_slots_padding (hb : t.bandCount ≤ i) (hi : i < t.slotCount) :
    (t.slots p)[i]? = some 0 := by
  by_cases hp : p < t.pixelCount
  · obtain ⟨tensor, ht, hin⟩ := exists_tensor hp
    have hbands : tensor.bands = t.bandCount := t.bands_eq tensor ht
    rw [slots_eq_overwrite ht hin,
      Pixel.getElem?_overwrite_of_le _ _ _ (by simpa [hbands] using hb)]
    simp [hi]
  · rw [slots_of_le (Nat.not_lt.1 hp)]
    simp [hi]

/-! ## Pixels along a row -/

def pixelBytes (t : Tile) (style : BandMap → List Float → List Float) (p : Nat) : List UInt8 :=
  ((style t.map (t.slots p)).take 4).map toByte

def KeepsSlots (style : BandMap → List Float → List Float) : Prop :=
  ∀ bands slots, (style bands slots).length = slots.length

theorem length_pixelBytes (hstyle : KeepsSlots style) (p : Nat) :
    (t.pixelBytes style p).length = 4 := by
  have hfour : 4 ≤ t.slotCount := le_max_right _ _
  simp [pixelBytes, hstyle t.map, hfour]

theorem getElem?_pixelBytes (p : Nat) {c : Nat} (hc : c < 4) :
    (t.pixelBytes style p)[c]? = (style t.map (t.slots p))[c]?.map toByte := by
  rw [pixelBytes, List.getElem?_map, List.getElem?_take_of_lt hc]

/-- Along a row each pixel has its own bytes, whatever scratch the row starts with: the style keeps
the number of slots, and more of the scratch does not matter to the next pixel. -/
theorem drawFrom_eq (hstyle : KeepsSlots style) (p count : Nat) {scratch : List Float}
    (h : scratch.length = t.slotCount) :
    t.drawFrom style p count scratch = (List.range' p count).flatMap (t.pixelBytes style) := by
  induction count generalizing p scratch with
  | zero => rfl
  | succ count ih =>
    have hnext : (style t.map (t.slots p)).length = t.slotCount := by
      rw [hstyle, length_slots]
    rw [drawFrom, load_eq_slots h, List.range'_succ, List.flatMap_cons]
    exact congrArg (t.pixelBytes style p ++ ·) (ih (p + 1) hnext)

/-- A row is its pixels one after the other, each by itself. -/
theorem drawRow_eq (hstyle : KeepsSlots style) (y : Nat) :
    t.drawRow style y = (List.range' (y * t.width) t.width).flatMap (t.pixelBytes style) :=
  drawFrom_eq hstyle _ _ (List.length_replicate ..)

theorem length_drawRow (hstyle : KeepsSlots style) (y : Nat) :
    (t.drawRow style y).length = t.width * 4 := by
  rw [drawRow_eq hstyle, List.length_flatMap,
    List.map_congr_left fun p _ => length_pixelBytes hstyle p]
  simp

/-! ## Rows in any order -/

/-- Rows that are set one after the other, each to a value of its own. -/
theorem getElem?_foldl_set {α : Type} (f : Nat → α) (order : List Nat) (rows : List α) (i : Nat) :
    (order.foldl (fun rows y => rows.set y (f y)) rows)[i]? =
      if i ∈ order then rows[i]?.map fun _ => f i else rows[i]? := by
  induction order generalizing rows with
  | nil => simp
  | cons y order ih =>
    rw [List.foldl_cons, ih, List.getElem?_set]
    by_cases hy : y = i
    · subst hy
      by_cases hin : y < rows.length <;> simp [hin]
    · simp [hy, Ne.symm hy]

/-- Rows may be drawn in any order. -/
theorem drawRows_eq {order : List Nat} (h : order.Perm (List.range t.height)) :
    t.drawRows style order = (List.range t.height).map (t.drawRow style) := by
  apply List.ext_getElem?
  intro i
  rw [drawRows, getElem?_foldl_set]
  by_cases hi : i < t.height
  · have hin : i ∈ order := h.mem_iff.2 (List.mem_range.2 hi)
    rw [if_pos hin]
    simp [hi]
  · have hin : i ∉ order := fun hin => hi (List.mem_range.1 (h.mem_iff.1 hin))
    rw [if_neg hin]
    simp [hi]

/-- A text of equally long pieces, read at a place in one of them. -/
theorem getElem?_flatMap {α β : Type} (f : α → List β) (size : Nat) (xs : List α)
    (hf : ∀ x ∈ xs, (f x).length = size) {i j : Nat} (hj : j < size) :
    (xs.flatMap f)[i * size + j]? = xs[i]?.bind fun x => (f x)[j]? := by
  induction xs generalizing i with
  | nil => simp
  | cons x xs ih =>
    have hx : (f x).length = size := hf x (by simp)
    rw [List.flatMap_cons]
    cases i with
    | zero => simp [List.getElem?_append_left (hx ▸ hj : j < (f x).length)]
    | succ i =>
      have hle : (f x).length ≤ (i + 1) * size + j := by
        rw [hx, Nat.succ_mul]
        omega
      have hsub : (i + 1) * size + j - (f x).length = i * size + j := by
        rw [hx, Nat.succ_mul]
        omega
      rw [List.getElem?_append_right hle, hsub, ih fun x' hx' => hf x' (by simp [hx'])]
      simp

theorem draw_eq : t.draw style = (List.range t.height).flatMap (t.drawRow style) := by
  unfold draw
  by_cases h : t.width * t.height * 4 = 0
  · rw [if_pos h, eq_comm, List.flatMap_eq_nil_iff]
    intro y hy
    have hw : t.width = 0 := by
      rw [List.mem_range] at hy
      rcases Nat.mul_eq_zero.1 h with h | h
      · rcases Nat.mul_eq_zero.1 h with h | h <;> omega
      · cases h
    rw [drawRow, hw, drawFrom]
  · rw [if_neg h, drawRows_eq (.refl _), List.flatMap_def]

/-- A style that keeps the number of slots gives four bytes for each pixel. -/
theorem length_draw (hstyle : KeepsSlots style) :
    (t.draw style).length = t.width * t.height * 4 := by
  rw [draw_eq, List.length_flatMap, List.map_congr_left fun y _ => length_drawRow hstyle y]
  simp
  ring

/-- Each byte is that of a slot of its own pixel. -/
theorem getElem?_draw (hstyle : KeepsSlots style) (hx : x < t.width) (hy : y < t.height) {c : Nat}
    (hc : c < 4) :
    (t.draw style)[(y * t.width + x) * 4 + c]? =
      (style t.map (t.slots (y * t.width + x)))[c]?.map toByte := by
  have hplace : (y * t.width + x) * 4 + c = y * (t.width * 4) + (x * 4 + c) := by ring
  rw [draw_eq, hplace, getElem?_flatMap _ (t.width * 4) _ (fun y _ => length_drawRow hstyle y)
    (by omega), List.getElem?_range hy, Option.bind_some, drawRow_eq hstyle,
    getElem?_flatMap _ 4 _ (fun p _ => length_pixelBytes hstyle p) hc,
    List.getElem?_range' hx, Option.bind_some, Nat.one_mul, getElem?_pixelBytes _ hc]

/-- The bytes of a pixel that is given by its index. -/
theorem getElem?_draw_index (hstyle : KeepsSlots style) (hp : p < t.height * t.width) {c : Nat}
    (hc : c < 4) : (t.draw style)[p * 4 + c]? = (style t.map (t.slots p))[c]?.map toByte := by
  have hwidth : 0 < t.width := Nat.pos_of_ne_zero fun h => by simp [h] at hp
  have hx : p % t.width < t.width := Nat.mod_lt _ hwidth
  have hy : p / t.width < t.height := Nat.div_lt_of_lt_mul (by rwa [Nat.mul_comm])
  have hdraw := getElem?_draw hstyle hx hy hc
  rwa [Nat.div_add_mod'] at hdraw

/-- A drawing is made of the first four slots that the style leaves at each pixel, and of nothing else. -/
theorem draw_congr {t' : Tile} {style' : BandMap → List Float → List Float} (hstyle : KeepsSlots style)
    (hstyle' : KeepsSlots style') (hwidth : t.width = t'.width) (hheight : t.height = t'.height)
    (h : ∀ x < t.width, ∀ y < t.height, (style t.map (t.slots (y * t.width + x))).take 4 =
      (style' t'.map (t'.slots (y * t.width + x))).take 4) : t.draw style = t'.draw style' := by
  rw [draw_eq, draw_eq, ← hheight, List.flatMap_congr]
  intro y hy
  rw [drawRow_eq hstyle, drawRow_eq hstyle', ← hwidth, List.flatMap_congr]
  intro p hp
  obtain ⟨x, hx, rfl⟩ := List.mem_range'.1 hp
  rw [Nat.one_mul, pixelBytes, pixelBytes, h x hx y (List.mem_range.1 hy)]

theorem render_of_build {source : StyleSource} {style : Style} (h : source.build t.map = .ok style) :
    t.render source =
      .ok ⟨t.width, t.height, t.draw fun bands pixel => style.apply bands pixel⟩ := by
  rw [render, h]
  rfl

theorem render_of_build_error {source : StyleSource} {e : Error}
    (h : source.build t.map = .error e) : t.render source = .error e := by
  rw [render, h]
  rfl

/-- Every pixel has four bytes to itself, which are those of the style at its band values and as many
zeros as it takes to fill four slots. The band values are the samples at the pixel's place, if the
samples can be counted. Neither what the scratch held before nor the order of the rows matters, and a
tile without pixels has no bytes. -/
theorem draw_pixelwise (t : Tile) (style : BandMap → List Float → List Float)
    (hstyle : KeepsSlots style) :
    (t.draw style).length = t.width * t.height * 4 ∧
    (∀ x < t.width, ∀ y < t.height, ∃ slots : List Float,
      slots.length = max t.bandCount 4 ∧
      (∀ b < t.bandCount, slots[b]? = t.sample? b x y) ∧
      (∀ i, t.bandCount ≤ i → i < slots.length → slots[i]? = some 0) ∧
      ∀ c < 4, ∃ v, (style t.map slots)[c]? = some v ∧
        (t.draw style)[(y * t.width + x) * 4 + c]? = some (toByte v)) ∧
    (∀ tensor, t.tensor = some tensor → t.bandCount * t.height * t.width < 2 ^ 64 →
      ∀ b < t.bandCount, ∀ x < t.width, ∀ y < t.height,
        t.sample? b x y = tensor.get? ((b * t.height + y) * t.width + x)) ∧
    (∀ p count (scratch scratch' : List Float), scratch.length = t.slotCount →
      scratch'.length = t.slotCount →
      t.drawFrom style p count scratch = t.drawFrom style p count scratch') ∧
    (∀ order : List Nat, order.Perm (List.range t.height) →
      (t.drawRows style order).flatten = t.draw style) ∧
    (t.isBlank = true ∨ t.width = 0 ∨ t.height = 0 → t.draw style = []) := by
  refine ⟨length_draw hstyle, ?_, fun tensor ht hfits b hb x hx y hy =>
    sample?_eq_get? ht hfits hb hx hy, ?_, ?_, ?_⟩
  · intro x hx y hy
    refine ⟨t.slots (y * t.width + x), length_slots _, fun b => getElem?_slots_band hx y, ?_, ?_⟩
    · intro i hb hi
      rw [length_slots] at hi
      exact getElem?_slots_padding hb hi
    · intro c hc
      have hslot : c < (style t.map (t.slots (y * t.width + x))).length := by
        rw [hstyle, length_slots]
        exact lt_of_lt_of_le hc (le_max_right _ _)
      refine ⟨_, List.getElem?_eq_getElem hslot, ?_⟩
      rw [getElem?_draw hstyle hx hy hc, List.getElem?_eq_getElem hslot, Option.map_some]
  · intro p count scratch scratch' h h'
    rw [drawFrom_eq hstyle p count h, drawFrom_eq hstyle p count h']
  · intro order horder
    rw [drawRows_eq horder, draw_eq, List.flatMap_def]
  · intro hempty
    have hsize : t.width * t.height = 0 := by
      rcases hempty with hblank | hw | hh
      · rw [width, tensor_of_isBlank hblank, Option.elim_none, Nat.zero_mul]
      · rw [hw, Nat.zero_mul]
      · rw [hh, Nat.mul_zero]
    exact List.eq_nil_of_length_eq_zero (by rw [length_draw hstyle, hsize])

def square : Tile := ⟨some ⟨.u8, 1, 2, 2, #[7, 9, 200, 0], rfl⟩, [.red], by simp⟩

/-- Adds to every slot, the ones after the band's too. -/
def raise (_ : BandMap) (slots : List Float) : List Float := slots.map (· + 1)

theorem keepsSlots_raise : KeepsSlots raise := fun _ _ => List.length_map ..

theorem draw_pixelwise_square :
    KeepsSlots raise ∧
      square.draw raise = [8, 1, 1, 1, 10, 1, 1, 1, 201, 1, 1, 1, 1, 1, 1, 1] ∧
      (square.draw raise).length = 16 ∧
      (square.drawRows raise [1, 0]).flatten = square.draw raise := by
  have hdraw := draw_pixelwise square raise keepsSlots_raise
  exact ⟨keepsSlots_raise, by decide +kernel, hdraw.1, hdraw.2.2.2.2.1 [1, 0] (by decide)⟩

end RasterTile.Tile
