import RasterTile.ArrayFile
import RasterTile.Proofs.Text

/-!
# The written header

The writer puts its entries into one dictionary, with the dimensions last, and fills it up with blanks.
The text is ASCII, and too short for its length to need a third byte.
-/
namespace RasterTile.ArrayFile

/-- What a header starts with, up to the dimensions. -/
def lead (e : ElementType) : List Char :=
  "\x7b'descr': '".toList ++ e.tag.toList ++ "', 'fortran_order': False, 'shape': (".toList

def dimensionText (bands height width : Nat) : List Char :=
  Nat.toDigits 10 bands ++ ',' :: ' ' ::
    (Nat.toDigits 10 height ++ ',' :: ' ' :: Nat.toDigits 10 width)

theorem toList_write_eq (e : ElementType) (dimensions : List Nat) :
    (Header.write e dimensions).toList =
      lead e ++ ((", ".intercalate (dimensions.map toString)).toList ++ [')', ',', ' ', '\x7d']) := by
  have hjoin (s₁ s₂ s₃ s₄ s₅ : String) : (s₁ ++ s₂ ++ s₃ ++ s₄ ++ s₅).toList =
      s₁.toList ++ s₂.toList ++ s₃.toList ++ (s₄.toList ++ s₅.toList) := by
    simp only [String.toList_append, List.append_assoc]
  exact hjoin _ _ _ _ _

theorem toList_write (e : ElementType) (b h w : Nat) :
    (Header.write e [b, h, w]).toList =
      lead e ++ (dimensionText b h w ++ [')', ',', ' ', '\x7d']) := by
  have hdimensions : (", ".intercalate ([b, h, w].map toString)).toList = dimensionText b h w := by
    simp [String.intercalate_cons_cons, dimensionText]
  rw [← hdimensions]
  exact toList_write_eq e [b, h, w]

/-! ## Its characters and its length -/

theorem mem_dimensionText {b h w : Nat} {c : Char} (hc : c ∈ dimensionText b h w) :
    c.isDigit = true ∨ c = ',' ∨ c = ' ' := by
  simp only [dimensionText, List.mem_append, List.mem_cons] at hc
  rcases hc with hc | rfl | rfl | hc | rfl | rfl | hc
  · exact .inl (Decimal.digit_of_mem hc)
  · exact .inr (.inl rfl)
  · exact .inr (.inr rfl)
  · exact .inl (Decimal.digit_of_mem hc)
  · exact .inr (.inl rfl)
  · exact .inr (.inr rfl)
  · exact .inl (Decimal.digit_of_mem hc)

theorem lead_ascii (e : ElementType) : ∀ c ∈ lead e, c.toNat < 128 := by
  have h : (lead e).all (fun c => c.toNat < 128) = true := by cases e <;> rfl
  simpa using h

theorem dimensionText_ascii (b h w : Nat) : ∀ c ∈ dimensionText b h w, c.toNat < 128 := by
  intro c hc
  rcases mem_dimensionText hc with hd | rfl | rfl
  · have hbounds := Decimal.digit_bounds hd
    omega
  · decide
  · decide

/-- A header is the dictionary and fewer blanks than the alignment, up to an offset at which samples may
start. -/
theorem headerText_eq (t : Tensor) :
    ∃ pad, headerText t =
        (Header.write t.element t.shape).toList ++ (List.replicate pad ' ' ++ ['\n']) ∧
      pad < alignment ∧ alignment ∣ preambleSize + (headerText t).length := by
  refine ⟨_, List.append_assoc _ _ _, Nat.mod_lt _ (by decide), ?_⟩
  unfold headerText
  dsimp only
  simp only [List.length_append, List.length_replicate, List.length_singleton, alignment,
    preambleSize]
  omega

theorem headerText_ascii (t : Tensor) : ∀ c ∈ headerText t, c.toNat < 128 := by
  obtain ⟨pad, htext, -, -⟩ := headerText_eq t
  intro c hc
  rw [htext, Tensor.shape, toList_write] at hc
  simp only [List.mem_append, List.mem_cons, List.mem_replicate, List.not_mem_nil, or_false] at hc
  rcases hc with (hc | hc | rfl | rfl | rfl | rfl) | ⟨-, rfl⟩ | rfl
  · exact lead_ascii t.element c hc
  · exact dimensionText_ascii _ _ _ c hc
  all_goals decide

theorem length_lead (e : ElementType) : (lead e).length ≤ 64 := by
  cases e <;> decide

theorem length_dimensionText {b h w : Nat} (hb : b < 2 ^ 64) (hh : h < 2 ^ 64) (hw : w < 2 ^ 64) :
    (dimensionText b h w).length ≤ 64 := by
  have hdigits {n : Nat} (hn : n < 2 ^ 64) : (Nat.toDigits 10 n).length ≤ 20 :=
    (Nat.length_toDigits_le_iff (by decide) (by decide)).2 (lt_trans hn (by decide))
  have hb := hdigits hb
  have hh := hdigits hh
  have hw := hdigits hw
  simp only [dimensionText, List.length_append, List.length_cons]
  omega

/-- Two bytes hold the length of any header. -/
theorem length_headerText (t : Tensor) (hb : t.bands < 2 ^ 64) (hh : t.height < 2 ^ 64)
    (hw : t.width < 2 ^ 64) : (headerText t).length < 256 ^ 2 := by
  obtain ⟨pad, htext, hpad, -⟩ := headerText_eq t
  have hlead := length_lead t.element
  have hdimensions := length_dimensionText hb hh hw
  rw [htext, Tensor.shape, toList_write]
  simp only [alignment] at hpad
  simp only [List.length_append, List.length_cons, List.length_nil, List.length_replicate]
  omega

end RasterTile.ArrayFile
