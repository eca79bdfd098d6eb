import RasterTile.ArrayFile
import Mathlib

/-!
# Samples as bytes

The bytes of a number stand for it again, as far as their count goes. All samples of a tensor take
equally many bytes, so the data section has each sample where the reader looks for it.
-/
namespace RasterTile.ArrayFile

@[simp] theorem length_littleEndian (count n : Nat) : (littleEndian count n).length = count := by
  induction count generalizing n with
  | zero => rfl
  | succ count ih => rw [littleEndian, List.length_cons, ih]

/-- Of a number that needs more bytes the lowest ones are kept. -/
theorem ofLittleEndian_littleEndian (count n : Nat) :
    ofLittleEndian (littleEndian count n) = n % 256 ^ count := by
  induction count generalizing n with
  | zero => rw [pow_zero, Nat.mod_one]; rfl
  | succ count ih =>
    have hbyte : (UInt8.ofNat (n % 256)).toNat = n % 256 := by
      rw [UInt8.toNat_ofNat']
      exact Nat.mod_eq_of_lt (Nat.mod_lt n (by decide))
    change ofLittleEndian (littleEndian count (n / 256)) * 256 + (UInt8.ofNat (n % 256)).toNat = _
    rw [ih, hbyte, pow_succ', Nat.mod_mul]
    omega

theorem ofLittleEndian_lt (bytes : List UInt8) : ofLittleEndian bytes < 256 ^ bytes.length := by
  induction bytes with
  | nil => decide
  | cons b bytes ih =>
    have hb := b.toNat_lt
    change ofLittleEndian bytes * 256 + b.toNat < _
    rw [List.length_cons, pow_succ]
    omega

/-- Bytes are the bytes of the number that they stand for. -/
theorem littleEndian_ofLittleEndian (bytes : List UInt8) :
    littleEndian bytes.length (ofLittleEndian bytes) = bytes := by
  induction bytes with
  | nil => rfl
  | cons b bytes ih =>
    have hb : b.toNat < 256 := b.toNat_lt
    have hnumber : ofLittleEndian (b :: bytes) = ofLittleEndian bytes * 256 + b.toNat := rfl
    have hlow : (ofLittleEndian bytes * 256 + b.toNat) % 256 = b.toNat := by omega
    have hrest : (ofLittleEndian bytes * 256 + b.toNat) / 256 = ofLittleEndian bytes := by omega
    rw [List.length_cons, littleEndian, hnumber, hlow, hrest, ih, UInt8.ofNat_toNat]

/-- A text is put together from its pieces of equal length. -/
theorem flatMap_take_drop {α : Type} (xs : List α) (size count : Nat) :
    (List.range count).flatMap (fun i => (xs.drop (i * size)).take size) =
      xs.take (count * size) := by
  induction count with
  | zero => simp
  | succ count ih =>
    rw [List.range_succ, List.flatMap_append, ih, List.flatMap_singleton, Nat.succ_mul,
      List.take_add]

/-- A piece of a text of equally long pieces. -/
theorem take_drop_flatMap {α β : Type} (f : α → List β) (size : Nat) (xs : List α)
    (hf : ∀ x ∈ xs, (f x).length = size) (i : Nat) (hi : i < xs.length) :
    ((xs.flatMap f).drop (i * size)).take size = f xs[i] := by
  induction xs generalizing i with
  | nil => exact absurd hi (Nat.not_lt_zero i)
  | cons x xs ih =>
    have hx : (f x).length = size := hf x (by simp)
    have hxs : ∀ y ∈ xs, (f y).length = size := fun y hy => hf y (by simp [hy])
    cases i with
    | zero =>
      rw [Nat.zero_mul, List.drop_zero, List.flatMap_cons, ← hx]
      exact List.take_left
    | succ i =>
      have hlt : i < xs.length := Nat.lt_of_succ_lt_succ hi
      have hi := ih hxs i hlt
      rw [← hx] at hi ⊢
      rw [Nat.succ_mul, Nat.add_comm, List.flatMap_cons, List.drop_length_add_append]
      exact hi

/-- A product of three factors that stays below `2 ^ 64` on the way. -/
theorem product64?_three (n b h w : Nat) :
    product64? n [b, h, w] =
      if n * b < UInt64.size ∧ n * b * h < UInt64.size ∧ n * b * h * w < UInt64.size then
        some (n * b * h * w)
      else none := by
  rw [product64?]
  by_cases hb : n * b < UInt64.size
  · rw [if_pos hb, product64?]
    by_cases hh : n * b * h < UInt64.size
    · rw [if_pos hh, product64?]
      by_cases hw : n * b * h * w < UInt64.size
      · rw [if_pos hw, if_pos ⟨hb, hh, hw⟩, product64?]
      · rw [if_neg hw, if_neg fun hall => hw hall.2.2]
    · rw [if_neg hh, if_neg fun hall => hh hall.2.1]
  · rw [if_neg hb, if_neg fun hall => hb hall.1]

theorem size_pos (e : ElementType) : 0 < e.size := by cases e <;> decide

/-- Where the bytes can be counted, so can the samples. -/
theorem count_lt_of_size_lt {e : ElementType} {b h w : Nat}
    (hsize : e.size * b * h * w < UInt64.size) : b * h * w < UInt64.size := by
  refine lt_of_le_of_lt (Nat.le_mul_of_pos_left _ (size_pos e)) ?_
  rwa [← Nat.mul_assoc, ← Nat.mul_assoc]

variable (t : Tensor)

/-- The data section has as many bytes as the samples take. -/
theorem length_body : (body t).length = t.samples.size * t.element.size := by
  rw [body, List.length_flatMap]
  simp

theorem two_pow_bits (e : ElementType) : 2 ^ e.bits = 256 ^ e.size := by
  change 2 ^ (8 * e.size) = _
  rw [pow_mul]
  rfl

/-- A bit pattern is the number of its bytes. -/
theorem ofNat_littleEndian (e : ElementType) (w : BitVec e.bits) :
    BitVec.ofNat e.bits (ofLittleEndian (littleEndian e.size w.toNat)) = w := by
  have hw : w.toNat < 256 ^ e.size := by
    rw [← two_pow_bits]
    exact w.isLt
  rw [ofLittleEndian_littleEndian, Nat.mod_eq_of_lt hw, BitVec.ofNat_toNat]
  exact BitVec.setWidth_eq w

/-- A sample is read from its own bytes. -/
theorem sampleAt_toArray (e : ElementType) (bytes : List UInt8) (i : Nat) :
    sampleAt e bytes.toArray i =
      BitVec.ofNat e.bits (ofLittleEndian ((bytes.drop (i * e.size)).take e.size)) := by
  simp [sampleAt]

/-- The bytes of a sample are those that it is read from. -/
theorem littleEndian_sampleAt {e : ElementType} {bytes : List UInt8} {i : Nat}
    (h : (i + 1) * e.size ≤ bytes.length) :
    littleEndian e.size (sampleAt e bytes.toArray i).toNat =
      (bytes.drop (i * e.size)).take e.size := by
  have hlength : ((bytes.drop (i * e.size)).take e.size).length = e.size := by
    rw [Nat.succ_mul] at h
    rw [List.length_take, List.length_drop]
    omega
  have hlt := ofLittleEndian_lt ((bytes.drop (i * e.size)).take e.size)
  have hbytes := littleEndian_ofLittleEndian ((bytes.drop (i * e.size)).take e.size)
  rw [hlength] at hlt hbytes
  rw [sampleAt_toArray, BitVec.toNat_ofNat, two_pow_bits, Nat.mod_eq_of_lt hlt, hbytes]

/-- The samples of a data section hold all of its bytes, whatever they are. -/
theorem body_readSamples (e : ElementType) {bands height width : Nat} {bytes : List UInt8}
    (h : bytes.length = wrap64 (bands * height * width) * e.size) :
    body (readSamples e bands height width bytes.toArray) = bytes := by
  have hpieces : ∀ i ∈ List.range (wrap64 (bands * height * width)),
      littleEndian e.size (sampleAt e bytes.toArray i).toNat =
        (bytes.drop (i * e.size)).take e.size := by
    intro i hi
    refine littleEndian_sampleAt ?_
    rw [h]
    exact Nat.mul_le_mul_right _ (List.mem_range.1 hi)
  calc body (readSamples e bands height width bytes.toArray)
      = (Array.ofFn fun i : Fin (wrap64 (bands * height * width)) =>
          sampleAt e bytes.toArray i).toList.flatMap fun w => littleEndian e.size w.toNat := rfl
    _ = (List.range (wrap64 (bands * height * width))).flatMap fun i =>
          littleEndian e.size (sampleAt e bytes.toArray i).toNat := by
        rw [Array.toList_ofFn, List.ofFn_eq_map, List.flatMap_map, ← List.map_coe_finRange_eq_range,
          List.flatMap_map]
    _ = bytes.take (wrap64 (bands * height * width) * e.size) := by
        rw [List.flatMap_congr hpieces, flatMap_take_drop]
    _ = bytes := by rw [← h, List.take_length]

/-- Each sample is read from its own place in the data section. -/
theorem getElem?_readSamples (e : ElementType) {bands height width i : Nat} (body : Array UInt8)
    (hi : i < wrap64 (bands * height * width)) :
    (readSamples e bands height width body).samples[i]? = some (sampleAt e body i) := by
  have hofFn : (Array.ofFn fun i : Fin (wrap64 (bands * height * width)) => sampleAt e body i)[i]? =
      some (sampleAt e body i) := by
    rw [Array.getElem?_ofFn, dif_pos hi]
  exact hofFn

theorem sampleAt_body (i : Nat) (hi : i < t.samples.size) :
    sampleAt t.element (body t).toArray i = t.samples[i] := by
  have hpiece := take_drop_flatMap
    (fun w : BitVec t.element.bits => littleEndian t.element.size w.toNat)
    t.element.size t.samples.toList (fun _ _ => length_littleEndian _ _) i (by simpa using hi)
  rw [Array.getElem_toList] at hpiece
  rw [sampleAt_toArray, body, hpiece, ofNat_littleEndian]

/-- The data section of a tensor holds the tensor. -/
theorem readSamples_body :
    readSamples t.element t.bands t.height t.width (body t).toArray = t := by
  have hsamples : Array.ofFn (fun i : Fin (wrap64 (t.bands * t.height * t.width)) =>
      sampleAt t.element (body t).toArray i) = t.samples := by
    apply Array.ext
    · rw [Array.size_ofFn, t.size_eq]
    · intro i _ hi
      rw [Array.getElem_ofFn, sampleAt_body t i hi]
  cases t
  unfold readSamples
  congr

end RasterTile.ArrayFile
