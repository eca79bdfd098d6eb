import RasterTile.Proofs.ArrayFile.Payload

/-!
# Which files are accepted

A file whose data section matches its header is accepted for what the header says: its order, its number
of dimensions, and the products that lead to the number of bytes. A zero among the dimensions does not
help: it makes the last product small, but not those before it.
-/
namespace RasterTile.ArrayFile

variable {bytes : List UInt8} {text : List Char} {header : Header} {dimensions : List Nat}
  {bands height width n m : Nat}

/-! ## The size in bytes -/

/-- A product is found exactly if all products on the way fit 64 bits. -/
theorem product64?_eq_some_iff (hn : n < 2 ^ 64) :
    product64? n dimensions = some m ↔
      m = n * dimensions.prod ∧ ∀ k ≤ dimensions.length, n * (dimensions.take k).prod < 2 ^ 64 := by
  induction dimensions generalizing n with
  | nil =>
    have hempty : ∀ k ≤ ([] : List Nat).length, n * (([] : List Nat).take k).prod < 2 ^ 64 := by
      intro k _
      rwa [List.take_nil, List.prod_nil, Nat.mul_one]
    rw [product64?, Option.some_inj, List.prod_nil, Nat.mul_one, eq_comm]
    exact ⟨fun h => ⟨h, hempty⟩, fun h => h.1⟩
  | cons d ds ih =>
    have hword : UInt64.size = 2 ^ 64 := rfl
    rw [product64?, hword, List.prod_cons, ← Nat.mul_assoc]
    split_ifs with hd
    · rw [ih hd]
      refine and_congr_right fun _ => ⟨fun h k hk => ?_, fun h k hk => ?_⟩
      · cases k with
        | zero => simpa using hn
        | succ k =>
          rw [List.take_succ_cons, List.prod_cons, ← Nat.mul_assoc]
          exact h k (Nat.le_of_succ_le_succ hk)
      · have hnext := h (k + 1) (Nat.succ_le_succ hk)
        rwa [List.take_succ_cons, List.prod_cons, ← Nat.mul_assoc] at hnext
    · simp only [false_iff, not_and]
      intro _ h
      have hfirst := h 1 (by simp)
      rw [List.take_succ_cons, List.take_zero, List.prod_singleton] at hfirst
      exact hd hfirst

theorem size_lt (e : ElementType) : e.size < 2 ^ 64 := by cases e <;> decide

/-- The band that two dimensions leave out does not change the size. -/
theorem product64?_shape (hn : n < 2 ^ 64) (h : shape? dimensions = some (bands, height, width)) :
    product64? n [bands, height, width] = product64? n dimensions := by
  unfold shape? at h
  split at h <;> cases h
  · rfl
  · have hone : n * 1 < UInt64.size := by rwa [Nat.mul_one]
    rw [product64?, if_pos hone, Nat.mul_one]

theorem shape?_isSome_iff :
    (∃ bands height width, shape? dimensions = some (bands, height, width)) ↔
      dimensions.length = 2 ∨ dimensions.length = 3 := by
  match dimensions with
  | [] => simp [shape?]
  | [_] => simp [shape?]
  | [_, _] => simp [shape?]
  | [_, _, _] => simp [shape?]
  | _ :: _ :: _ :: _ :: _ => simp [shape?]

/-! ## Accepted files -/

/-- What a header has to say for a file to be accepted whose data section matches it. -/
theorem decode_eq_ok_some_iff (h : HasHeader bytes text) (htext : ∀ c ∈ text, c.toNat < 128)
    (hread : Header.read text = .ok header)
    (hpayload : (payload bytes).length = header.element.size * header.dimensions.prod) :
    (∃ t, decode bytes = .ok (some t)) ↔ header.columnMajor = false ∧
      (header.dimensions.length = 2 ∨ header.dimensions.length = 3) ∧
      ∀ k ≤ header.dimensions.length,
        header.element.size * (header.dimensions.take k).prod < 2 ^ 64 := by
  constructor
  · rintro ⟨t, ht⟩
    obtain ⟨header', hopen, helement, hfits, -, -⟩ := opens_of_tensor ht
    have hreads := hopen.reads
    rw [h.text_eq, hread] at hreads
    cases hreads
    refine ⟨hopen.rowMajor, shape?_isSome_iff.1 ⟨_, _, _, hopen.shape⟩, ?_⟩
    rw [← helement, product64?_shape (size_lt _) hopen.shape] at hfits
    exact ((product64?_eq_some_iff (size_lt _)).1 hfits).2
  · rintro ⟨hrow, hlength, hfits⟩
    obtain ⟨bands, height, width, hshape⟩ := shape?_isSome_iff.2 hlength
    have hopen := h.opens htext hread hrow hshape
    rw [hopen.decode, product64?_shape (size_lt _) hshape,
      (product64?_eq_some_iff (size_lt _)).2 ⟨rfl, hfits⟩]
    exact ⟨_, if_pos hpayload⟩

variable {fields : List Field} {e : ElementType} {flag : Option Bool}

/-- However a header is spelled, the reader finds what it says. So a file with a matching data section
is accepted exactly if the samples are not said to be in column-major order, there are two or three
dimensions, and all products on the way to the number of bytes fit 64 bits. -/
theorem spelled_header (hspells : Spells fields text)
    (hfields : fields.Perm (entries e dimensions flag)) (hdimensions : ∀ d ∈ dimensions, d < 2 ^ 64)
    (htext : ∀ c ∈ text, c.toNat < 128) :
    Header.read text = .ok ⟨e, dimensions, flag == some true⟩ ∧
    ∀ bytes, HasHeader bytes text → (payload bytes).length = e.size * dimensions.prod →
      ((∃ t, decode bytes = .ok (some t)) ↔ flag ≠ some true ∧
        (dimensions.length = 2 ∨ dimensions.length = 3) ∧
        ∀ k ≤ dimensions.length, e.size * (dimensions.take k).prod < 2 ^ 64) := by
  have hread := read_of_spells hspells hfields hdimensions
  refine ⟨hread, fun bytes hheader hpayload => ?_⟩
  rw [decode_eq_ok_some_iff hheader htext hread hpayload, beq_eq_false_iff_ne]

/-! ## Two headers -/

/-- A header with its entries in an order of its own, both kinds of quotes, a zero in front of a number,
and commas at the end of both lists. -/
def oddText : List Char :=
  "\x7b\"shape\" :(2 ,01,),\t'fortran_order':False , \"descr\": '<f4',, \x7d\n".toList

theorem spells_oddText : Spells [.shape [2, 1], .order false, .tag .f32] oddText := by
  have htwo := Padded.pad (p := Digits 2) [] [' '] (by decide) (⟨rfl, rfl⟩ : Digits 2 ['2'])
    (by decide)
  have hone := Padded.of_core (p := Digits 1) (⟨rfl, rfl⟩ : Digits 1 ['0', '1'])
  have hnumbers := Listed.list (p := fun n => Padded (Digits n)) [[]]
    (.cons htwo (.cons hone .nil)) (by simp [Blank])
  have hcolon (before after : List Char) (hbefore : Blank before) (hafter : Blank after) :=
    Padded.pad (p := (· = [':'])) before after hbefore rfl hafter
  have hshape := WritesEntry.entry (q := '"') (.inr rfl) (hcolon [' '] [] (by decide) (by decide))
    (.shape hnumbers)
  have horder := WritesEntry.entry (q := '\'') (.inl rfl) (hcolon [] [] (by decide) (by decide))
    .rowMajor
  have htag := WritesEntry.entry (q := '"') (.inr rfl) (hcolon [] [' '] (by decide) (by decide))
    (.tag (q := '\'') .f32 (.inl rfl))
  have hlisted := Listed.list (p := fun f => Padded (WritesEntry f)) [[], [' ']]
    (.cons (.of_core hshape) (.cons (.pad ['\t'] [' '] (by decide) horder (by decide))
      (.cons (.of_blank htag) .nil))) (by simp [Blank]; decide)
  exact .pad [] ['\n'] (by decide) (WritesDictionary.dictionary hlisted) (by decide)

def oddFile : List UInt8 := front oddText ++ [0, 0, 0, 0, 0, 0, 0x80, 0x3f]

theorem spelled_header_oddText :
    Header.read oddText = .ok ⟨.f32, [2, 1], false⟩ ∧ ∃ t, decode oddFile = .ok (some t) := by
  have hfields : [Field.shape [2, 1], .order false, .tag .f32].Perm
      (entries .f32 [2, 1] (some false)) := by decide
  have htext : ∀ c ∈ oddText, c.toNat < 128 := by
    have hall : oddText.all (fun c => c.toNat < 128) = true := by rfl
    simpa using hall
  obtain ⟨hread, haccepts⟩ := spelled_header spells_oddText hfields (by decide) htext
  have hheader : HasHeader oddFile oddText := hasHeader_front _ htext (by decide)
  exact ⟨hread, (haccepts oddFile hheader (by decide)).2 (by decide)⟩

/-- No samples, in a shape whose first two dimensions overflow. -/
def vastFile : List UInt8 := front (Header.write .u8 [2 ^ 40, 2 ^ 40, 0]).toList

/-- A product of zero does fit 64 bits, and the file is refused all the same. -/
theorem spelled_header_vastFile :
    Spells [.tag .u8, .order false, .shape [2 ^ 40, 2 ^ 40, 0]]
        (Header.write .u8 [2 ^ 40, 2 ^ 40, 0]).toList ∧
      (payload vastFile).length = ElementType.u8.size * [2 ^ 40, 2 ^ 40, 0].prod ∧
      ElementType.u8.size * [2 ^ 40, 2 ^ 40, 0].prod < 2 ^ 64 ∧
      decode vastFile = .error (.unsupportedShape [2 ^ 40, 2 ^ 40, 0]) := by
  refine ⟨spells_write .u8 _, by decide +kernel, by decide, ?_⟩
  cbv

end RasterTile.ArrayFile
