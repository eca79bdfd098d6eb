import RasterTile.Proofs.ArrayFile.Samples
import RasterTile.Proofs.Outcome

/-!
# Opening an array file

Everything the reader asks before it counts the samples, it asks of the first bytes: the magic bytes
and the length field lie in the first ten, and the header ends where the length field says. So two
buffers that agree up to there are opened the same way, however they go on.
-/
namespace RasterTile.ArrayFile

def headerLength (bytes : List UInt8) : Nat := ofLittleEndian ((bytes.drop 8).take 2)

def bodyStart (bytes : List UInt8) : Nat := preambleSize + headerLength bytes

/-- A header that is read from a file, with the shape it gives. -/
structure Opens (bytes : List UInt8) (header : Header) (bands height width : Nat) : Prop where
  marked : hasMagic bytes = true
  whole : bodyStart bytes ≤ bytes.length
  ascii : ((bytes.take (bodyStart bytes)).drop preambleSize).all (· < 128) = true
  reads : Header.read (((bytes.take (bodyStart bytes)).drop preambleSize).map fun b =>
    Char.ofNat b.toNat) = .ok header
  rowMajor : header.columnMajor = false
  shape : shape? header.dimensions = some (bands, height, width)

/-- A file that is marked as one and holds all of its header, which is this text. -/
structure HasHeader (bytes : List UInt8) (text : List Char) : Prop where
  marked : hasMagic bytes = true
  whole : bodyStart bytes ≤ bytes.length
  text_eq : ((bytes.take (bodyStart bytes)).drop preambleSize).map (fun b =>
    Char.ofNat b.toNat) = text

variable {bytes other : List UInt8} {header : Header} {bands height width n : Nat}
  {text : List Char}

/-- The bytes of an ASCII text are below 128. -/
theorem HasHeader.ascii (h : HasHeader bytes text) (htext : ∀ c ∈ text, c.toNat < 128) :
    ((bytes.take (bodyStart bytes)).drop preambleSize).all (· < 128) = true := by
  rw [List.all_eq_true]
  intro b hb
  have hmem : Char.ofNat b.toNat ∈ text := h.text_eq ▸ List.mem_map_of_mem hb
  have hvalid : b.toNat.isValidChar := .inl (b.toNat_lt.trans (by decide))
  have hlt := htext _ hmem
  rw [Char.toNat_ofNat, if_pos hvalid] at hlt
  rw [decide_eq_true_eq, UInt8.lt_iff_toNat_lt]
  exact hlt

/-- A file with a text that reads as a header has that header. -/
theorem HasHeader.opens (h : HasHeader bytes text) (htext : ∀ c ∈ text, c.toNat < 128)
    (hread : Header.read text = .ok header) (horder : header.columnMajor = false)
    (hshape : shape? header.dimensions = some (bands, height, width)) :
    Opens bytes header bands height width :=
  ⟨h.marked, h.whole, h.ascii htext, by rw [h.text_eq, hread], horder, hshape⟩

/-! ## The first bytes -/

theorem hasMagic_iff : hasMagic bytes = true ↔ bytes.take magic.length = magic := by
  rw [hasMagic, List.isPrefixOf_iff_prefix, List.prefix_iff_eq_take, eq_comm]

theorem length_of_hasMagic (h : hasMagic bytes = true) : magic.length ≤ bytes.length := by
  have htake := congrArg List.length (hasMagic_iff.1 h)
  rw [List.length_take] at htake
  omega

theorem isEmpty_of_hasMagic (h : hasMagic bytes = true) : bytes.isEmpty = false := by
  cases bytes with
  | nil => cases h
  | cons b bytes => rfl

theorem hasMagic_congr (hn : magic.length ≤ n) (h : other.take n = bytes.take n) :
    hasMagic other = hasMagic bytes := by
  have htake : other.take magic.length = bytes.take magic.length := by
    rw [← Nat.min_eq_left hn, ← List.take_take, h, List.take_take]
  rw [Bool.eq_iff_iff, hasMagic_iff, hasMagic_iff, htake]

theorem headerLength_congr (hn : preambleSize ≤ n) (h : other.take n = bytes.take n) :
    headerLength other = headerLength bytes := by
  have hfield (xs : List UInt8) : (xs.drop 8).take 2 = ((xs.take n).drop 8).take 2 := by
    have hle : 2 ≤ n - 8 := Nat.le_sub_of_add_le hn
    rw [List.drop_take, List.take_take, Nat.min_eq_left hle]
  rw [headerLength, headerLength, hfield other, h, ← hfield bytes]

theorem bodyStart_congr (hn : preambleSize ≤ n) (h : other.take n = bytes.take n) :
    bodyStart other = bodyStart bytes := by
  rw [bodyStart, bodyStart, headerLength_congr hn h]

theorem preambleSize_le_bodyStart (bytes : List UInt8) : preambleSize ≤ bodyStart bytes :=
  Nat.le_add_right _ _

theorem headerLength_lt (bytes : List UInt8) : headerLength bytes < 2 ^ 16 := by
  refine lt_of_lt_of_le (ofLittleEndian_lt _) ?_
  calc 256 ^ ((bytes.drop 8).take 2).length
      ≤ 256 ^ 2 := Nat.pow_le_pow_right (by decide) (List.length_take_le _ _)
    _ = 2 ^ 16 := by decide

/-- A file that starts like another one, up to its samples, is opened like it. -/
theorem Opens.congr (h : Opens bytes header bands height width)
    (hsame : other.take (bodyStart bytes) = bytes.take (bodyStart bytes)) :
    Opens other header bands height width := by
  have hstart : bodyStart other = bodyStart bytes :=
    bodyStart_congr (preambleSize_le_bodyStart bytes) hsame
  have hmagic : magic.length ≤ bodyStart bytes :=
    le_trans (by decide) (preambleSize_le_bodyStart bytes)
  have hlength := congrArg List.length hsame
  rw [List.length_take, List.length_take, Nat.min_eq_left h.whole] at hlength
  exact {
    marked := by rw [hasMagic_congr hmagic hsame, h.marked]
    whole := by omega
    ascii := by rw [hstart, hsame, h.ascii]
    reads := by rw [hstart, hsame, h.reads]
    rowMajor := h.rowMajor
    shape := h.shape }

/-! ## What follows from it -/

theorem decode_of_not_magic (hne : bytes ≠ []) (h : hasMagic bytes = false) :
    decode bytes = .error .badMagic := by
  have hempty : ¬ bytes.isEmpty = true := by simpa using hne
  unfold decode
  rw [if_neg hempty, h]
  rfl

/-- A file that ends within its preamble says how long that is. -/
theorem decode_of_cut_preamble (hmagic : hasMagic bytes = true)
    (h : bytes.length < preambleSize) :
    decode bytes = .error (.truncated preambleSize bytes.length) := by
  unfold decode
  rw [isEmpty_of_hasMagic hmagic, hmagic]
  exact if_pos h

/-- A file that ends within its header says how long the header is. -/
theorem decode_of_cut_header (hmagic : hasMagic bytes = true)
    (hpreamble : preambleSize ≤ bytes.length) (h : bytes.length < bodyStart bytes) :
    decode bytes = .error (.truncated (bodyStart bytes) bytes.length) := by
  unfold decode
  rw [isEmpty_of_hasMagic hmagic, hmagic]
  exact (if_neg (Nat.not_lt.2 hpreamble)).trans (if_pos h)

/-- An opened file is a tensor exactly if its data section has the size of its shape. -/
theorem Opens.decode (h : Opens bytes header bands height width) :
    decode bytes =
      match product64? header.element.size [bands, height, width] with
      | none => .error (.unsupportedShape [bands, height, width])
      | some expected =>
        if (bytes.drop (bodyStart bytes)).length = expected then
          .ok (some (readSamples header.element bands height width
            (bytes.drop (bodyStart bytes)).toArray))
        else .error (.dataLength [bands, height, width] header.element expected
          (bytes.drop (bodyStart bytes)).length) := by
  have hpreamble := Nat.not_lt.2 (le_trans (preambleSize_le_bodyStart bytes) h.whole)
  have hwhole := Nat.not_lt.2 h.whole
  have hascii := h.ascii
  have hreads := h.reads
  rw [bodyStart, headerLength] at hwhole hascii hreads ⊢
  unfold ArrayFile.decode
  simp only [isEmpty_of_hasMagic h.marked, h.marked, hpreamble, hwhole, hascii, hreads,
    Bool.false_eq_true, Bool.not_true, if_false]
  rw [ok_bind, h.rowMajor, if_neg Bool.false_ne_true, h.shape]
  dsimp only
  cases product64? header.element.size [bands, height, width] with
  | none => rfl
  | some expected =>
    dsimp only
    rw [List.size_toArray]
    by_cases hsize : (bytes.drop (bodyStart bytes)).length = expected
    · exact (if_neg (not_not_intro hsize)).trans (if_pos hsize).symm
    · exact (if_pos hsize).trans (if_neg hsize).symm

/-- A buffer with any bytes that is not refused was opened. -/
theorem opens_of_decode {result : Option Tensor} (hne : bytes ≠ [])
    (h : ArrayFile.decode bytes = .ok result) :
    ∃ header bands height width, Opens bytes header bands height width := by
  -- a check that fails ends in an error, so each of them holds, in the order they are made
  have hempty : ¬ bytes.isEmpty = true := by simpa using hne
  unfold ArrayFile.decode at h
  rw [if_neg hempty] at h
  by_cases hmagic : (!hasMagic bytes) = true
  · rw [if_pos hmagic] at h
    cases h
  rw [if_neg hmagic] at h
  by_cases hpreamble : bytes.length < preambleSize
  · rw [if_pos hpreamble] at h
    cases h
  rw [if_neg hpreamble] at h
  have hstart : preambleSize + ofLittleEndian ((bytes.drop 8).take 2) = bodyStart bytes := rfl
  dsimp only at h
  rw [hstart] at h
  by_cases hwhole : bytes.length < bodyStart bytes
  · rw [if_pos hwhole] at h
    cases h
  rw [if_neg hwhole] at h
  by_cases hascii : (!((bytes.take (bodyStart bytes)).drop preambleSize).all (· < 128)) = true
  · rw [if_pos hascii] at h
    cases h
  rw [if_neg hascii] at h
  obtain ⟨header, hreads, h⟩ := bind_eq_ok_iff.1 h
  by_cases horder : header.columnMajor = true
  · rw [if_pos horder] at h
    cases h
  rw [if_neg horder] at h
  cases hshape : shape? header.dimensions with
  | none =>
    rw [hshape] at h
    cases h
  | some shape =>
    obtain ⟨bands, height, width⟩ := shape
    exact ⟨header, bands, height, width, by simpa using hmagic, Nat.not_lt.1 hwhole,
      by simpa using hascii, hreads, by simpa using horder, hshape⟩

end RasterTile.ArrayFile
