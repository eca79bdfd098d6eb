import RasterTile.Proofs.ArrayFile.Opening
import RasterTile.Proofs.ArrayFile.SpelledHeader

/-!
# Decoding what was encoded

The front of a file is everything before its samples. Its length field is the length of its header,
so the reader cuts the file where the writer joined it.
-/
namespace RasterTile.ArrayFile

def front (text : List Char) : List UInt8 :=
  magic ++ [1, 0] ++ littleEndian 2 text.length ++ text.map fun c => UInt8.ofNat c.toNat

theorem encode_eq (t : Tensor) : encode t = front (headerText t) ++ body t := rfl

theorem length_front (text : List Char) : (front text).length = preambleSize + text.length := by
  simp [front, magic, preambleSize]
  omega

/-- The bytes of an ASCII text are its characters. -/
theorem map_ofNat_toNat {text : List Char} (h : ∀ c ∈ text, c.toNat < 128) :
    (text.map fun c => UInt8.ofNat c.toNat).map (fun b => Char.ofNat b.toNat) = text := by
  rw [List.map_map]
  refine (List.map_congr_left fun c hc => ?_).trans (List.map_id text)
  have hbyte : (UInt8.ofNat c.toNat).toNat = c.toNat := by
    rw [UInt8.toNat_ofNat']
    exact Nat.mod_eq_of_lt (lt_trans (h c hc) (by decide))
  rw [Function.comp_apply, hbyte, Char.ofNat_toNat]
  rfl

variable {text : List Char}

theorem headerLength_front (samples : List UInt8) (h : text.length < 256 ^ 2) :
    headerLength (front text ++ samples) = text.length := by
  have hfield : ((front text ++ samples).drop 8).take 2 = littleEndian 2 text.length := rfl
  rw [headerLength, hfield, ofLittleEndian_littleEndian, Nat.mod_eq_of_lt h]

theorem bodyStart_front (samples : List UInt8) (h : text.length < 256 ^ 2) :
    bodyStart (front text ++ samples) = (front text).length := by
  rw [bodyStart, headerLength_front samples h, length_front]

theorem headerBytes_front (samples : List UInt8) :
    ((front text ++ samples).take (front text).length).drop preambleSize =
      text.map fun c => UInt8.ofNat c.toNat := by
  rw [List.take_left]
  rfl

/-- A front holds its header, whatever follows it. -/
theorem hasHeader_front (samples : List UInt8) (htext : ∀ c ∈ text, c.toNat < 128)
    (hlength : text.length < 256 ^ 2) : HasHeader (front text ++ samples) text := by
  have hstart := bodyStart_front samples hlength
  exact {
    marked := rfl
    whole := by
      rw [hstart, List.length_append]
      exact Nat.le_add_right _ _
    text_eq := by rw [hstart, headerBytes_front, map_ofNat_toNat htext] }

/-- The header of a written file says what the tensor is. -/
theorem opens_encode (t : Tensor) (hb : t.bands < 2 ^ 64) (hh : t.height < 2 ^ 64)
    (hw : t.width < 2 ^ 64) :
    Opens (encode t) ⟨t.element, t.shape, false⟩ t.bands t.height t.width := by
  have hfields : [Field.tag t.element, .order false, .shape t.shape].Perm
      (entries t.element t.shape (some false)) := .cons _ (.swap _ _ _)
  have hdimensions : ∀ d ∈ t.shape, d < 2 ^ 64 := by
    simpa [Tensor.shape] using ⟨hb, hh, hw⟩
  have hread := read_of_spells (spells_headerText t) hfields hdimensions
  have hheader := hasHeader_front (body t) (headerText_ascii t) (length_headerText t hb hh hw)
  exact hheader.opens (headerText_ascii t) hread rfl rfl

/-- What is written reads back, unless the size in bytes does not fit 64 bits at some factor. -/
theorem decode_encode_eq (t : Tensor) (hb : t.bands < 2 ^ 64) (hh : t.height < 2 ^ 64)
    (hw : t.width < 2 ^ 64) :
    decode (encode t) =
      match product64? t.element.size t.shape with
      | none => .error (.unsupportedShape t.shape)
      | some _ => .ok (some t) := by
  have hstart : bodyStart (encode t) = (front (headerText t)).length :=
    bodyStart_front _ (length_headerText t hb hh hw)
  rw [(opens_encode t hb hh hw).decode, hstart, encode_eq, List.drop_left, Tensor.shape,
    product64?_three]
  split_ifs with hfits
  · have hcount := t.size_of_lt (count_lt_of_size_lt hfits.2.2)
    have hlength : (body t).length = t.element.size * t.bands * t.height * t.width := by
      rw [length_body, hcount]
      ring
    dsimp only
    rw [if_pos hlength, readSamples_body]
  · rfl

/-- A tensor comes back if the products on the way to its size in bytes fit 64 bits, and its shape
is refused if not. Either way the length field is the length of the header and the samples start at
an aligned offset. -/
theorem decode_encode (t : Tensor) (hb : t.bands < 2 ^ 64) (hh : t.height < 2 ^ 64)
    (hw : t.width < 2 ^ 64) :
    decode (encode t) =
      (if t.element.size < 2 ^ 64 ∧ t.element.size * t.bands < 2 ^ 64 ∧
          t.element.size * t.bands * t.height < 2 ^ 64 ∧
          t.element.size * t.bands * t.height * t.width < 2 ^ 64 then .ok (some t)
        else .error (.unsupportedShape [t.bands, t.height, t.width])) ∧
      ofLittleEndian (((encode t).drop 8).take 2) = (headerText t).length ∧
      ((encode t).take (preambleSize + (headerText t).length)).drop preambleSize =
        (headerText t).map (fun c => UInt8.ofNat c.toNat) ∧
      (encode t).drop (preambleSize + (headerText t).length) = body t ∧
      alignment ∣ preambleSize + (headerText t).length := by
  refine ⟨?_, ?_, ?_, ?_, ?_⟩
  · have hsize : t.element.size < 2 ^ 64 := by cases t.element <;> decide
    have hword : UInt64.size = 2 ^ 64 := rfl
    rw [decode_encode_eq t hb hh hw, Tensor.shape, product64?_three, hword]
    split_ifs with hfits hall hall
    · rfl
    · exact absurd ⟨hsize, hfits⟩ hall
    · exact absurd hall.2 hfits
    · rfl
  · exact headerLength_front _ (length_headerText t hb hh hw)
  · rw [← length_front]
    exact headerBytes_front _
  · rw [← length_front, encode_eq, List.drop_left]
  · obtain ⟨pad, -, -, haligned⟩ := headerText_eq t
    exact haligned

def pair : Tensor := ⟨.u16, 1, 1, 2, #[0x0102#16, 0xfffe#16], rfl⟩

/-- No samples, in a shape whose first two extents overflow. -/
def wide : Tensor := ⟨.u8, 2 ^ 63, 2, 0, #[], rfl⟩

theorem decode_encode_pair_wide :
    decode (encode pair) = .ok (some pair) ∧
      decode (encode wide) = .error (.unsupportedShape [2 ^ 63, 2, 0]) := by
  constructor
  · exact (decode_encode pair (by decide) (by decide) (by decide)).1.trans (if_pos (by decide))
  · exact (decode_encode wide (by decide) (by decide) (by decide)).1.trans (if_neg (by decide))

end RasterTile.ArrayFile
