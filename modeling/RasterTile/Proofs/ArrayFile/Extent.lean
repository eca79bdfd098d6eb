import RasterTile.Proofs.ArrayFile.RoundTrip
import RasterTile.Proofs.ArrayFile.Strict

/-!
# Where an array file ends

The length of a file that gives a tensor follows from its first bytes: the preamble, the header and
the samples fill it. So no file is the beginning of another, and every cut is seen by the check that
the cut falls under.
-/
namespace RasterTile.ArrayFile

def byteSize (t : Tensor) : Nat := t.element.size * t.bands * t.height * t.width

def piece (bytes : List UInt8) (e : ElementType) (i : Nat) : List UInt8 :=
  (bytes.drop (bodyStart bytes + i * e.size)).take e.size

/-- A file is filled by its preamble, its header and the samples of a tensor, whose size is counted
within 64 bits. -/
structure Filled (bytes : List UInt8) (t : Tensor) : Prop where
  headerLength_lt : headerLength bytes < 2 ^ 16
  fits : t.element.size * t.bands < 2 ^ 64 ∧ t.element.size * t.bands * t.height < 2 ^ 64 ∧
    byteSize t < 2 ^ 64
  length : bytes.length = 10 + headerLength bytes + byteSize t
  count : t.samples.size = t.bands * t.height * t.width
  sample : ∀ i < t.samples.size, (piece bytes t.element i).length = t.element.size ∧
    t.samples[i]? = some (BitVec.ofNat _ (ofLittleEndian (piece bytes t.element i)))

variable {bytes : List UInt8} {t : Tensor} {header : Header} {bands height width n : Nat}

/-! ## Files that give a tensor -/

/-- Only the file without bytes is blank. -/
theorem decode_eq_ok_none_iff : decode bytes = .ok none ↔ bytes = [] := by
  constructor
  · intro h
    by_contra hne
    obtain ⟨header, bands, height, width, hopen⟩ := opens_of_decode hne h
    rw [hopen.decode] at h
    split at h
    · cases h
    · split_ifs at h
      cases h
  · rintro rfl
    rfl

/-- The size that the reader counts is the size of the tensor. -/
theorem product64?_byteSize {expected : Nat}
    (h : product64? t.element.size [t.bands, t.height, t.width] = some expected) :
    (t.element.size * t.bands < 2 ^ 64 ∧ t.element.size * t.bands * t.height < 2 ^ 64 ∧
      byteSize t < 2 ^ 64) ∧ expected = byteSize t := by
  rw [product64?_three] at h
  split_ifs at h with hbounds
  exact ⟨hbounds, (Option.some.inj h).symm⟩

/-- What a file that gives a tensor was opened as. -/
theorem opens_of_tensor (h : decode bytes = .ok (some t)) :
    ∃ header, Opens bytes header t.bands t.height t.width ∧ header.element = t.element ∧
      product64? t.element.size [t.bands, t.height, t.width] = some (byteSize t) ∧
      bytes.length = bodyStart bytes + byteSize t ∧
      t = readSamples t.element t.bands t.height t.width (bytes.drop (bodyStart bytes)).toArray := by
  have hne : bytes ≠ [] := by
    rintro rfl
    cases h
  obtain ⟨header, bands, height, width, hopen⟩ := opens_of_decode hne h
  rw [hopen.decode] at h
  split at h
  · cases h
  · rename_i expected hfits
    split_ifs at h with hlength
    cases h
    refine ⟨header, hopen, rfl, ?_, ?_, rfl⟩
    · rw [← (product64?_byteSize hfits).2]
      exact hfits
    · rw [← (product64?_byteSize hfits).2, ← hlength, List.length_drop,
        Nat.add_sub_cancel' hopen.whole]

/-- A file that holds a tensor is filled by it to the last byte. -/
theorem filled_of_decode (h : decode bytes = .ok (some t)) : Filled bytes t := by
  obtain ⟨header, hopen, -, hproduct, hlength, ht⟩ := opens_of_tensor h
  have hfits := (product64?_byteSize hproduct).1
  have hcount := t.size_of_lt (count_lt_of_size_lt hfits.2.2)
  refine ⟨headerLength_lt bytes, hfits, hlength, hcount, fun i hi => ?_⟩
  have hend : (i + 1) * t.element.size ≤ byteSize t := by
    have hbytes : byteSize t = t.samples.size * t.element.size := by
      rw [hcount, byteSize]
      ring
    rw [hbytes]
    exact Nat.mul_le_mul_right _ hi
  rw [Nat.succ_mul] at hend
  constructor
  · rw [piece, List.length_take, List.length_drop]
    omega
  · rw [t.size_eq] at hi
    have hsample : t.samples[i]? =
        some (sampleAt t.element (bytes.drop (bodyStart bytes)).toArray i) := by
      rw [ht]
      exact getElem?_readSamples _ _ hi
    rw [hsample, sampleAt_toArray, List.drop_drop]
    rfl

/-! ## Files that are cut, and files that go on -/

theorem decode_take_of_magic (hn : 0 < n) (hlt : n < magic.length) (hne : bytes ≠ []) :
    decode (bytes.take n) = .error .badMagic := by
  have hempty : bytes.take n ≠ [] := by
    rw [Ne, List.take_eq_nil_iff, not_or]
    exact ⟨Nat.pos_iff_ne_zero.1 hn, hne⟩
  refine decode_of_not_magic hempty ?_
  by_contra hmagic
  have hlength := length_of_hasMagic (Bool.eq_true_of_not_eq_false hmagic)
  rw [List.length_take] at hlength
  omega

/-- A file that keeps its magic bytes, but not all of its front. -/
theorem decode_take_of_front (hopen : Opens bytes header bands height width)
    (hmagic : magic.length ≤ n) (hn : n < bodyStart bytes) :
    decode (bytes.take n) =
      .error (.truncated (if n < preambleSize then preambleSize else bodyStart bytes) n) := by
  have hsame : (bytes.take n).take n = bytes.take n := by rw [List.take_take, Nat.min_self]
  have hlength : (bytes.take n).length = n := by
    rw [List.length_take, Nat.min_eq_left (le_trans hn.le hopen.whole)]
  have hmarked : hasMagic (bytes.take n) = true := by
    rw [hasMagic_congr hmagic hsame, hopen.marked]
  split_ifs with hpreamble
  · rw [decode_of_cut_preamble hmarked (by rwa [hlength]), hlength]
  · have hstart := bodyStart_congr (Nat.not_lt.1 hpreamble) hsame
    rw [decode_of_cut_header hmarked (by rw [hlength]; omega) (by rwa [hlength, hstart]), hlength,
      hstart]

/-- No two files with the same front both give a tensor, unless they are equally long. -/
theorem decode_of_same_front {other : List UInt8} (h : decode bytes = .ok (some t))
    (hsame : other.take (bodyStart bytes) = bytes.take (bodyStart bytes))
    (hlength : other.length ≠ bytes.length) :
    decode other = .error (.dataLength [t.bands, t.height, t.width] t.element (byteSize t)
      (other.length - bodyStart bytes)) := by
  obtain ⟨header, hopen, helement, hfits, hbytes, -⟩ := opens_of_tensor h
  have hother := hopen.congr hsame
  have hwhole := hother.whole
  rw [bodyStart_congr (preambleSize_le_bodyStart bytes) hsame] at hwhole
  rw [hother.decode, bodyStart_congr (preambleSize_le_bodyStart bytes) hsame, helement, hfits]
  dsimp only
  rw [List.length_drop, if_neg (by omega)]

/-! ## The extent of a file -/

/-- The strict reader never stops for a reason of its own, and an array file without bytes is the
only blank one. A file that gives a tensor is filled by it: what is left of the file when it is cut
is refused by the first check that misses a byte, and the whole file with more bytes after it is
refused for the length of its data section. -/
theorem decode_delimits (bytes : List UInt8) :
    Strict.decode bytes = (decode bytes).mapError .format ∧
    (decode bytes = .ok none ↔ bytes = []) ∧
    ∀ t, decode bytes = .ok (some t) →
      Filled bytes t ∧
      (∀ n, 0 < n → n < bytes.length → decode (bytes.take n) = .error (
        if n < 6 then .badMagic
        else if n < 10 then .truncated 10 n
        else if n < 10 + headerLength bytes then .truncated (10 + headerLength bytes) n
        else .dataLength [t.bands, t.height, t.width] t.element (byteSize t)
          (n - (10 + headerLength bytes)))) ∧
      ∀ extra, extra ≠ [] → decode (bytes ++ extra) =
        .error (.dataLength [t.bands, t.height, t.width] t.element (byteSize t)
          (byteSize t + extra.length)) := by
  refine ⟨Strict.decode_eq bytes, decode_eq_ok_none_iff, fun t h => ⟨filled_of_decode h, ?_, ?_⟩⟩
  · intro n hn hlt
    obtain ⟨header, hopen, -, -, hlength, -⟩ := opens_of_tensor h
    split_ifs with hmagic hpreamble hfront
    · exact decode_take_of_magic hn hmagic (List.ne_nil_of_length_pos (lt_trans hn hlt))
    · rw [decode_take_of_front hopen (Nat.not_lt.1 hmagic)
        (lt_of_lt_of_le hpreamble (preambleSize_le_bodyStart bytes))]
      exact congrArg (fun needed => Except.error (Error.truncated needed n)) (if_pos hpreamble)
    · rw [decode_take_of_front hopen (Nat.not_lt.1 hmagic) hfront]
      exact congrArg (fun needed => Except.error (Error.truncated needed n)) (if_neg hpreamble)
    · have hstart : bodyStart bytes ≤ n := Nat.not_lt.1 hfront
      have hsame : (bytes.take n).take (bodyStart bytes) = bytes.take (bodyStart bytes) := by
        rw [List.take_take, Nat.min_eq_left hstart]
      have hcut : (bytes.take n).length = n := by rw [List.length_take, Nat.min_eq_left hlt.le]
      rw [decode_of_same_front h hsame (by omega), hcut]
      rfl
  · intro extra hextra
    obtain ⟨header, hopen, -, -, hlength, -⟩ := opens_of_tensor h
    have hsame : (bytes ++ extra).take (bodyStart bytes) = bytes.take (bodyStart bytes) :=
      List.take_append_of_le_length hopen.whole
    have hpos := List.length_pos_iff.2 hextra
    rw [decode_of_same_front h hsame (by rw [List.length_append]; omega), List.length_append,
      hlength, Nat.add_assoc, Nat.add_sub_cancel_left]

theorem decode_delimits_pair :
    decode (encode pair) = .ok (some pair) ∧ Filled (encode pair) pair ∧
      decode ((encode pair).take 130) = .error (.dataLength [1, 1, 2] .u16 4 2) := by
  have hpair : decode (encode pair) = .ok (some pair) :=
    decode_encode_eq pair (by decide) (by decide) (by decide)
  obtain ⟨hfilled, hcut, -⟩ := (decode_delimits (encode pair)).2.2 pair hpair
  refine ⟨hpair, hfilled, ?_⟩
  have hlength : (encode pair).length = 132 := by decide +kernel
  have hfield : headerLength (encode pair) = 118 := by decide +kernel
  have h := hcut 130 (by decide) (by rw [hlength]; decide)
  rw [hfield] at h
  exact h

end RasterTile.ArrayFile
