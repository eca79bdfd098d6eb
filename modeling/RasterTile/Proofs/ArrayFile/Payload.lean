import RasterTile.Proofs.ArrayFile.Extent

/-!
# Writing a file anew

A file that gives a tensor may spell its header in many ways, but its data section is that of the tensor,
bit for bit. So writing the tensor again changes at most the header. The extents that the reader took
from the header fit 64 bits each, which is why the written header is accepted wherever the first one was,
and writing what was written changes nothing.
-/
namespace RasterTile.ArrayFile

def payload (bytes : List UInt8) : List UInt8 := bytes.drop (bodyStart bytes)

def renew (bytes : List UInt8) : Except Error (Option (List UInt8)) :=
  (decode bytes).map (Option.map encode)

/-! ## Extents -/

namespace Header

variable {text : List Char} {header : Header} {n : Nat}

theorem dimension_lt (h : dimension text = .ok n) : n < 2 ^ 64 := by
  unfold dimension Decimal.readWord? at h
  dsimp only at h
  split_ifs at h with hword
  cases h
  rw [Bool.and_eq_true, decide_eq_true_eq] at hword
  exact hword.2

theorem dimensions_lt (h : read text = .ok header) : ∀ d ∈ header.dimensions, d < 2 ^ 64 := by
  unfold read at h
  dsimp only at h
  split at h
  · split at h
    · split at h
      · split at h
        · obtain ⟨dimensions, hdimensions, h⟩ := bind_eq_ok_iff.1 h
          cases h
          exact forall_mem_of_mapM (fun _ _ => dimension_lt) hdimensions
        · cases h
      · cases h
    · cases h
  · cases h

end Header

variable {bytes : List UInt8} {t : Tensor} {header : Header} {bands height width : Nat}

theorem of_shape? {p : Nat → Prop} {dimensions : List Nat}
    (h : shape? dimensions = some (bands, height, width)) (hp : ∀ d ∈ dimensions, p d) (hone : p 1) :
    p bands ∧ p height ∧ p width := by
  unfold shape? at h
  split at h <;> cases h
  · exact ⟨hp _ (by simp), hp _ (by simp), hp _ (by simp)⟩
  · exact ⟨hone, hp _ (by simp), hp _ (by simp)⟩

/-- Each extent fits 64 bits on its own, even if a zero keeps the product of all of them small. -/
theorem Opens.extents_lt (h : Opens bytes header bands height width) :
    bands < 2 ^ 64 ∧ height < 2 ^ 64 ∧ width < 2 ^ 64 :=
  of_shape? h.shape (Header.dimensions_lt h.reads) (by decide)

/-! ## Data sections -/

/-- The data section of a file is that of the tensor that was read from it. -/
theorem payload_of_decode (h : decode bytes = .ok (some t)) : payload bytes = body t := by
  obtain ⟨header, hopen, -, hproduct, hlength, ht⟩ := opens_of_tensor h
  have hfits := (product64?_byteSize hproduct).1
  have hsize : (payload bytes).length = wrap64 (t.bands * t.height * t.width) * t.element.size := by
    rw [payload, List.length_drop, hlength, Nat.add_sub_cancel_left, byteSize,
      wrap64_of_lt (count_lt_of_size_lt hfits.2.2)]
    ring
  rw [ht]
  exact (body_readSamples t.element hsize).symm

/-! ## Files that are written anew -/

/-- A tensor that a file gives is written to a file with the same data section and a header that says
the same, with the number of bands spelled out; that file gives the tensor back, and written anew it
stays as it is. -/
theorem renew_keeps_payload (h : decode bytes = .ok (some t)) :
    payload (encode t) = payload bytes ∧
    decode (encode t) = .ok (some t) ∧
    renew bytes = .ok (some (encode t)) ∧ renew (encode t) = .ok (some (encode t)) ∧
    ∃ header, Opens bytes header t.bands t.height t.width ∧
      Opens (encode t) { header with dimensions := [t.bands, t.height, t.width] }
        t.bands t.height t.width := by
  obtain ⟨header, hopen, helement, hfits, -, -⟩ := opens_of_tensor h
  obtain ⟨hb, hh, hw⟩ := hopen.extents_lt
  have hdecode : decode (encode t) = .ok (some t) := by
    rw [decode_encode_eq t hb hh hw, Tensor.shape, hfits]
  have hwritten := opens_encode t hb hh hw
  rw [← helement, ← hopen.rowMajor] at hwritten
  refine ⟨?_, hdecode, ?_, ?_, header, hopen, hwritten⟩
  · rw [payload_of_decode h, payload_of_decode hdecode]
  · rw [renew, h]
    rfl
  · rw [renew, hdecode]
    rfl

/-- Two rows of one single each, both NaNs with a payload, under a header of its own spelling. -/
def spelled : List UInt8 :=
  front "\x7b \"shape\" :(2 ,1,), \"descr\": '<f4' \x7d".toList ++
    [0x39, 0x30, 0xc0, 0x7f, 0x01, 0x00, 0x80, 0xff]

def payloads : Tensor := ⟨.f32, 1, 2, 1, #[0x7fc03039#32, 0xff800001#32], rfl⟩

theorem renew_keeps_payload_spelled :
    decode spelled = .ok (some payloads) ∧ renew spelled = .ok (some (encode payloads)) ∧
      payload (encode payloads) = [0x39, 0x30, 0xc0, 0x7f, 0x01, 0x00, 0x80, 0xff] ∧
      renew (encode payloads) = .ok (some (encode payloads)) := by
  have hdecode : decode spelled = .ok (some payloads) := by cbv
  obtain ⟨hpayload, -, hrenewed, hagain, -⟩ := renew_keeps_payload hdecode
  exact ⟨hdecode, hrenewed, hpayload.trans (by decide +kernel), hagain⟩

end RasterTile.ArrayFile
