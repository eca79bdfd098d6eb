import RasterTile.Proofs.ArrayFile.Samples
import RasterTile.Proofs.Outcome

/-!
# Reading with every place checked

The reader of array files cuts pieces out of bytes and text that come from anywhere. Here it is said
again with positions: a piece has to lie inside what it is cut from, a sample takes exactly its bytes,
the number of samples has to fit 64 bits, and the tensor has to accept them. Whatever breaks one of
these rules stops the strict reader, and nothing ever does: it does what the reader does.
-/
namespace RasterTile.ArrayFile

/-- Why a strict reader stops: the buffer is not an array file, or the reader itself went wrong. -/
inductive Stop where
  | format (e : Error)
  | outOfRange
  | overflow
  | refused (e : RasterTile.Error)
  deriving DecidableEq, Repr

namespace Strict

variable {α : Type}

def slice (xs : List α) (start stop : Nat) : Except Stop (List α) :=
  if start ≤ stop ∧ stop ≤ xs.length then .ok ((xs.take stop).drop start) else .error .outOfRange

def item (xs : List α) (i : Nat) : Except Stop α :=
  match xs[i]? with
  | some x => .ok x
  | none => .error .outOfRange

def find? (mark : List Char) : List Char → Option Nat
  | [] => if mark.isPrefixOf [] then some 0 else none
  | c :: cs => if mark.isPrefixOf (c :: cs) then some 0 else (find? mark cs).map (· + 1)

def entryQuoted (quote : Char) (key text : List Char) : Except Stop (Option (List Char)) :=
  let mark := quote :: (key ++ [quote])
  match find? mark text with
  | none => return none
  | some i => do
    let rest ← slice text (i + mark.length) text.length
    return (Text.afterLead [':'] (Text.trimStart rest)).map Text.trimStart

def entry (key : String) (text : List Char) : Except Stop (Option (List Char)) := do
  match ← entryQuoted '\'' key.toList text with
  | some value => return some value
  | none => entryQuoted '"' key.toList text

def unquote (text : List Char) : Except Stop (Option (List Char)) :=
  match text with
  | [] => return none
  | q :: _ =>
    if q = '\'' ∨ q = '"' then do
      let rest ← slice text 1 text.length
      match rest.idxOf? q with
      | none => return none
      | some i => return some (← slice rest 0 i)
    else return none

def items (text : List Char) : Except Stop (Option (List (List Char))) :=
  match Text.afterLead ['('] text with
  | none => return none
  | some rest =>
    match rest.idxOf? ')' with
    | none => return none
    | some i => do
      let inner ← slice rest 0 i
      return some (((Text.splitOn ',' inner).map Text.trim).filter (!·.isEmpty))

def header (text : List Char) : Except Stop Header := do
  let missing (key : String) : Stop := .format (.header (.missing key (Text.trim text)))
  let some described ← entry "descr" text | throw (missing "descr")
  let some tag ← unquote described | throw (missing "descr")
  let some element := ElementType.ofTag? (String.ofList tag)
    | throw (.format (.unsupportedElementType (String.ofList tag)))
  let some shape ← entry "shape" text | throw (missing "shape")
  let some parts ← items shape | throw (.format (.header (.notTuple shape)))
  let dimensions ← (parts.mapM Header.dimension).mapError Stop.format
  return ⟨element, dimensions, (← entry "fortran_order" text).any Header.isTrue⟩

/-- The sample in a piece of the data section, which has to have its size. -/
def sample (element : ElementType) (piece : List UInt8) : Except Stop (BitVec element.bits) :=
  if piece.length = element.size then .ok (BitVec.ofNat _ (ofLittleEndian piece))
  else .error .outOfRange

def samples (element : ElementType) (body : List UInt8) : Except Stop (List (BitVec element.bits)) :=
  (List.range (body.length / element.size)).mapM fun i => do
    sample element (← slice body (i * element.size) (i * element.size + element.size))

def tensor (bands height width : Nat) (element : ElementType) (samples : List (BitVec element.bits)) :
    Except Stop Tensor :=
  match product64? 1 [bands, height, width] with
  | none => .error .overflow
  | some _ => (Tensor.ofSamples bands height width element samples.toArray).mapError .refused

def decode (bytes : List UInt8) : Except Stop (Option Tensor) := do
  if bytes.isEmpty then return none
  if !hasMagic bytes then throw (.format .badMagic)
  if bytes.length < preambleSize then throw (.format (.truncated preambleSize bytes.length))
  let low ← item bytes 8
  let high ← item bytes 9
  let offset := preambleSize + (low.toNat + 256 * high.toNat)
  if bytes.length < offset then throw (.format (.truncated offset bytes.length))
  let text ← slice bytes preambleSize offset
  if !text.all (· < 128) then throw (.format (.header .notAscii))
  let header ← header (text.map fun b => Char.ofNat b.toNat)
  if header.columnMajor then throw (.format .columnMajor)
  let some (bands, height, width) := shape? header.dimensions
    | throw (.format (.unsupportedShape header.dimensions))
  let some expected := product64? header.element.size [bands, height, width]
    | throw (.format (.unsupportedShape [bands, height, width]))
  let body ← slice bytes offset bytes.length
  if body.length ≠ expected then
    throw (.format (.dataLength [bands, height, width] header.element expected body.length))
  return some (← tensor bands height width header.element (← samples header.element body))

/-! ## Pieces are in range -/

theorem slice_of_le {xs : List α} {start stop : Nat} (h : start ≤ stop) (h' : stop ≤ xs.length) :
    slice xs start stop = .ok ((xs.take stop).drop start) := if_pos ⟨h, h'⟩

theorem slice_to_end {xs : List α} {start : Nat} (h : start ≤ xs.length) :
    slice xs start xs.length = .ok (xs.drop start) := by
  rw [slice_of_le h (le_refl _), List.take_length]

theorem slice_from_start {xs : List α} {stop : Nat} (h : stop ≤ xs.length) :
    slice xs 0 stop = .ok (xs.take stop) := by
  rw [slice_of_le (Nat.zero_le _) h, List.drop_zero]

theorem item_of_lt {xs : List α} {i : Nat} (h : i < xs.length) : item xs i = .ok xs[i] := by
  rw [item, List.getElem?_eq_getElem h]

/-! ## Texts -/

theorem afterLead_eq (lead cs : List Char) :
    Text.afterLead lead cs = if lead.isPrefixOf cs then some (cs.drop lead.length) else none := by
  induction lead generalizing cs with
  | nil => simp [Text.afterLead]
  | cons l lead ih =>
    cases cs with
    | nil => simp [Text.afterLead]
    | cons c cs =>
      rw [Text.afterLead, ih]
      by_cases hc : l = c <;> simp [hc]

/-- A mark stands where the text is cut. -/
theorem find?_eq_cutAt (mark cs : List Char) :
    find? mark cs = (Text.cutAt mark cs).map (·.1.length) := by
  induction cs with
  | nil =>
    rw [find?, Text.cutAt, afterLead_eq]
    split <;> rfl
  | cons c cs ih =>
    rw [find?, Text.cutAt, afterLead_eq]
    split
    · rfl
    · rw [ih]
      cases Text.cutAt mark cs <;> rfl

theorem entryQuoted_eq (quote : Char) (key text : List Char) :
    entryQuoted quote key text = .ok (Header.entryQuoted quote key text) := by
  unfold entryQuoted Header.entryQuoted
  dsimp only
  rw [find?_eq_cutAt]
  cases hcut : Text.cutAt (quote :: (key ++ [quote])) text with
  | none => rfl
  | some cut =>
    obtain ⟨before, rest⟩ := cut
    have htext := Text.eq_append_of_cutAt hcut
    have hslice : slice text (before.length + (quote :: (key ++ [quote])).length) text.length =
        .ok rest := by
      rw [htext, ← List.length_append, slice_to_end (by simp), List.drop_left]
    rw [Option.map_some]
    dsimp only
    rw [hslice, ok_bind]
    change .ok _ = Except.ok ((Text.afterLead [':'] (Text.trimStart rest)).bind _)
    rw [Option.map_eq_bind]
    rfl

/-- The strict reader finds an entry without leaving its text. -/
theorem entry_eq (key : String) (text : List Char) :
    entry key text = .ok (Header.entry key text) := by
  rw [entry, Header.entry, entryQuoted_eq, entryQuoted_eq]
  cases Header.entryQuoted '\'' key.toList text <;> rfl

/-- The first place of a character ends the text before it. -/
theorem idxOf?_eq (q : Char) (cs : List Char) :
    cs.idxOf? q = if q ∈ cs then some (cs.takeWhile (· ≠ q)).length else none := by
  induction cs with
  | nil => rfl
  | cons c cs ih =>
    rw [List.idxOf?_cons, ih]
    by_cases hc : c = q
    · simp [hc]
    · have hc' : q ≠ c := Ne.symm hc
      by_cases hq : q ∈ cs <;> simp [hc, hc', hq]

/-- The text before the first place of a character lies within the text. -/
theorem slice_takeWhile (p : Char → Bool) (cs : List Char) :
    slice cs 0 (cs.takeWhile p).length = .ok (cs.takeWhile p) := by
  rw [slice_from_start (List.takeWhile_prefix p).length_le]
  exact congrArg _ (List.prefix_iff_eq_take.1 (List.takeWhile_prefix p)).symm

theorem unquote_eq (text : List Char) : unquote text = .ok (Header.unquote text) := by
  cases text with
  | nil => rfl
  | cons q rest =>
    rw [unquote, Header.unquote]
    by_cases hq : q = '\'' ∨ q = '"'
    · have htail : slice (q :: rest) 1 (q :: rest).length = .ok rest := slice_to_end (by simp)
      rw [if_pos hq, htail, ok_bind, idxOf?_eq]
      by_cases hmem : q ∈ rest
      · rw [if_pos hmem, if_pos ⟨hq, hmem⟩]
        dsimp only
        rw [slice_takeWhile]
        rfl
      · rw [if_neg hmem, if_neg fun h => hmem h.2]
        rfl
    · rw [if_neg hq, if_neg fun h => hq h.1]
      rfl

/-- The strict reader takes a list apart without leaving its text. -/
theorem items_eq (text : List Char) : items text = .ok (Header.items text) := by
  cases text with
  | nil => rfl
  | cons c rest =>
    by_cases hc : c = '('
    · subst hc
      change (match rest.idxOf? ')' with | none => _ | some i => _) = _
      rw [idxOf?_eq, Header.items]
      by_cases hmem : ')' ∈ rest
      · rw [if_pos hmem, if_pos hmem]
        dsimp only
        rw [slice_takeWhile]
        rfl
      · rw [if_neg hmem, if_neg hmem]
        rfl
    · have hlead : Text.afterLead ['('] (c :: rest) = none := if_neg (Ne.symm hc)
      have hitems : Header.items (c :: rest) = none := by
        rw [Header.items]
        rintro cs h
        exact hc (List.cons.inj h).1
      rw [items, hlead, hitems]
      rfl

/-- The header is found without leaving its text. -/
theorem header_eq (text : List Char) : header text = (Header.read text).mapError .format := by
  unfold header Header.read
  dsimp only
  rw [entry_eq, entry_eq, entry_eq]
  cases hdescr : Header.entry "descr" text with
  | none => rfl
  | some described =>
    simp only [Option.bind_some]
    change (unquote described >>= _) = _
    rw [unquote_eq]
    cases hunquote : Header.unquote described with
    | none => rfl
    | some tag =>
      dsimp only
      change (match ElementType.ofTag? (String.ofList tag) with | some _ => _ | _ => _) = _
      cases helement : ElementType.ofTag? (String.ofList tag) with
      | none => rfl
      | some element =>
        cases hshape : Header.entry "shape" text with
        | none => rfl
        | some shape =>
          dsimp only
          change (items shape >>= _) = _
          rw [items_eq]
          cases hitems : Header.items shape with
          | none => rfl
          | some parts =>
            dsimp only
            change ((parts.mapM Header.dimension).mapError Stop.format >>= _) = _
            cases parts.mapM Header.dimension <;> rfl

/-! ## Samples -/

theorem samples_eq (element : ElementType) (body : List UInt8) :
    samples element body =
      .ok ((List.range (body.length / element.size)).map (sampleAt element body.toArray)) := by
  refine mapM_eq_ok fun i hi => ?_
  have hend : i * element.size + element.size ≤ body.length := by
    rw [← Nat.succ_mul]
    exact (Nat.le_div_iff_mul_le (size_pos element)).1 (List.mem_range.1 hi)
  have hpiece : (body.take (i * element.size + element.size)).drop (i * element.size) =
      (body.drop (i * element.size)).take element.size := by
    rw [List.drop_take, Nat.add_sub_cancel_left]
  have hlength : ((body.drop (i * element.size)).take element.size).length = element.size := by
    rw [List.length_take, List.length_drop]
    omega
  rw [slice_of_le (Nat.le_add_right _ _) hend, hpiece, sampleAt_toArray]
  exact if_pos hlength

/-- A number of bytes that was counted in 64 bits is the number of samples that the tensor asks
for, and the tensor counts in 64 bits too. -/
theorem tensor_eq {element : ElementType} {bands height width expected : Nat}
    {body : List UInt8} (hfits : product64? element.size [bands, height, width] = some expected)
    (hlength : body.length = expected) :
    tensor bands height width element
        ((List.range (body.length / element.size)).map (sampleAt element body.toArray)) =
      .ok (readSamples element bands height width body.toArray) := by
  rw [product64?_three] at hfits
  split_ifs at hfits with hbounds
  obtain ⟨hb, hh, hw⟩ := hbounds
  have hexpected : body.length = element.size * (bands * height * width) := by
    rw [hlength, ← Option.some.inj hfits]
    ring
  have hcount : body.length / element.size = bands * height * width := by
    rw [hexpected, Nat.mul_div_cancel_left _ (size_pos element)]
  have hle (n : Nat) : n ≤ element.size * n := Nat.le_mul_of_pos_left n (size_pos element)
  have hproduct : product64? 1 [bands, height, width] = some (bands * height * width) := by
    rw [product64?_three, Nat.one_mul]
    refine if_pos ⟨lt_of_le_of_lt (hle _) hb, ?_, ?_⟩
    · exact lt_of_le_of_lt (hle _) (by rwa [← Nat.mul_assoc])
    · exact lt_of_le_of_lt (hle _) (by rwa [← Nat.mul_assoc, ← Nat.mul_assoc])
  have hwrap : wrap64 (bands * height * width) = bands * height * width :=
    wrap64_of_lt (count_lt_of_size_lt hw)
  have hsamples : ((List.range (bands * height * width)).map (sampleAt element body.toArray)).toArray =
      Array.ofFn fun i : Fin (wrap64 (bands * height * width)) =>
        sampleAt element body.toArray i := by
    apply Array.ext <;> simp [hwrap]
  rw [hcount, tensor, hproduct, hsamples]
  dsimp only
  rw [Tensor.ofSamples, dif_pos (by simp)]
  rfl

/-! ## The whole file -/

/-- The length field, byte by byte. -/
theorem lengthField {bytes : List UInt8} (h : preambleSize ≤ bytes.length) :
    ∃ low high, item bytes 8 = .ok low ∧ item bytes 9 = .ok high ∧
      ofLittleEndian ((bytes.drop 8).take 2) = low.toNat + 256 * high.toNat := by
  have h₈ : 8 < bytes.length := lt_of_lt_of_le (by decide) h
  have h₉ : 9 < bytes.length := lt_of_lt_of_le (by decide) h
  have hfield : (bytes.drop 8).take 2 = [bytes[8], bytes[9]] := by
    rw [List.drop_eq_getElem_cons h₈, List.drop_eq_getElem_cons h₉]
    rfl
  refine ⟨_, _, item_of_lt h₈, item_of_lt h₉, ?_⟩
  rw [hfield]
  simp [ofLittleEndian, Nat.mul_comm, Nat.add_comm]

/-- The strict reader stops only where the buffer is not an array file. -/
theorem decode_eq (bytes : List UInt8) :
    decode bytes = (ArrayFile.decode bytes).mapError .format := by
  -- both readers make the same checks in the same order, and a check that passes is what puts the
  -- next piece in range
  unfold decode ArrayFile.decode
  by_cases hempty : bytes.isEmpty = true
  · rw [if_pos hempty, if_pos hempty]
    rfl
  rw [if_neg hempty, if_neg hempty]
  by_cases hmagic : (!hasMagic bytes) = true
  · rw [if_pos hmagic, if_pos hmagic]
    rfl
  rw [if_neg hmagic, if_neg hmagic]
  by_cases hpreamble : bytes.length < preambleSize
  · rw [if_pos hpreamble, if_pos hpreamble]
    rfl
  rw [if_neg hpreamble, if_neg hpreamble]
  obtain ⟨low, high, hlow, hhigh, hfield⟩ := lengthField (Nat.not_lt.1 hpreamble)
  rw [hlow, hhigh, hfield, ok_bind, ok_bind]
  dsimp only
  have hoffset : preambleSize ≤ preambleSize + (low.toNat + 256 * high.toNat) := Nat.le_add_right _ _
  generalize preambleSize + (low.toNat + 256 * high.toNat) = offset at hoffset ⊢
  by_cases hwhole : bytes.length < offset
  · rw [if_pos hwhole, if_pos hwhole]
    rfl
  rw [if_neg hwhole, if_neg hwhole, slice_of_le hoffset (Nat.not_lt.1 hwhole), ok_bind]
  generalize (bytes.take offset).drop preambleSize = text
  by_cases hascii : (!text.all (· < 128)) = true
  · rw [if_pos hascii, if_pos hascii]
    rfl
  rw [if_neg hascii, if_neg hascii, header_eq]
  cases Header.read (text.map fun b => Char.ofNat b.toNat) with
  | error e => rfl
  | ok header =>
    rw [Except.mapError, ok_bind, ok_bind]
    by_cases horder : header.columnMajor = true
    · rw [if_pos horder, if_pos horder]
      rfl
    rw [if_neg horder, if_neg horder]
    cases shape? header.dimensions with
    | none => rfl
    | some shape =>
      obtain ⟨bands, height, width⟩ := shape
      dsimp only
      cases hfits : product64? header.element.size [bands, height, width] with
      | none => rfl
      | some expected =>
        dsimp only
        rw [slice_to_end (Nat.not_lt.1 hwhole), ok_bind, List.size_toArray]
        by_cases hlength : (bytes.drop offset).length ≠ expected
        · rw [if_pos hlength, if_pos hlength]
          rfl
        · rw [if_neg hlength, if_neg hlength]
          rw [samples_eq, ok_bind, tensor_eq hfits (not_not.1 hlength)]
          rfl

end Strict
end RasterTile.ArrayFile
