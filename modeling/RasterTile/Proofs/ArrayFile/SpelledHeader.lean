import RasterTile.Proofs.ArrayFile.Spelling

/-!
# Reading a spelled header

However a header is spelled, the reader finds each entry where it stands and takes from it what it
says. So a file with a matching data section is accepted by what its header says alone.
-/
namespace RasterTile.ArrayFile

variable {fields : List Field} {f : Field} {text before colon value after xs : List Char} {q : Char}

/-! ## Finding an entry -/

theorem Writes.head_not_blank (h : Writes f value) :
    ∀ c ∈ (value ++ after).head?, Text.isBlank c = false := by
  cases h with
  | tag e hq =>
    rintro c hc
    obtain rfl := Option.some.inj hc
    rcases hq with rfl | rfl <;> rfl
  | shape _ =>
    rintro c hc
    obtain rfl := Option.some.inj hc
    rfl
  | columnMajor =>
    rintro c hc
    obtain rfl := Option.some.inj hc
    rfl
  | rowMajor =>
    rintro c hc
    obtain rfl := Option.some.inj hc
    rfl

/-- An entry is found by its key, whatever stands before it, as long as that is quiet. -/
theorem entryQuoted_eq (after : List Char) (hq : IsQuote q) (hbefore : Quiet q f.lead before)
    (hcolon : Padded (· = [':']) colon) (hvalue : Writes f value) :
    Header.entryQuoted q f.key (before ++ (inQuotes q f.key ++ (colon ++ (value ++ after)))) =
      some (value ++ after) := by
  obtain ⟨b, a, hb, rfl, ha⟩ := hcolon
  have hcut : Text.cutAt (q :: (f.key ++ [q]))
      (before ++ (inQuotes q f.key ++ (b ++ ([':'] ++ a) ++ (value ++ after)))) =
        some (before, b ++ ([':'] ++ a) ++ (value ++ after)) :=
    cutAt_append hbefore (IsStart.ne ⟨hq, f.isLower_lead⟩)
  have hcolon : Text.trimStart (b ++ ([':'] ++ a) ++ (value ++ after)) =
      [':'] ++ (a ++ (value ++ after)) := by
    rw [List.append_assoc, Text.trimStart_append hb, List.append_assoc]
    exact Text.trimStart_of_head (by simp; rfl)
  have hafter : Text.trimStart (a ++ (value ++ after)) = value ++ after := by
    rw [Text.trimStart_append ha, Text.trimStart_of_head hvalue.head_not_blank]
  unfold Header.entryQuoted
  rw [hcut, Option.bind_eq_bind, Option.bind_some]
  dsimp only
  rw [hcolon, Text.afterLead_append, Option.bind_eq_bind, Option.bind_some, hafter]

theorem entryQuoted_eq_none (hquiet : Quiet q f.lead text) :
    Header.entryQuoted q f.key text = none := by
  have hcut : Text.cutAt (q :: (f.key ++ [q])) text = none := cutAt_of_quiet hquiet
  unfold Header.entryQuoted
  rw [hcut]
  rfl

/-- The entry of a key is found, whatever quotes it stands in. -/
theorem entry_eq (key : String) (hspells : Spells fields text) (hleads : (fields.map Field.lead).Nodup)
    (hf : f ∈ fields) (hkey : key.toList = f.key) :
    ∃ value after, Writes f value ∧ Header.entry key text = some (value ++ after) := by
  obtain ⟨left, right, rfl⟩ := List.append_of_mem hf
  have hothers : ∀ g ∈ left ++ right, g.lead ≠ f.lead := by
    rw [List.map_append, List.map_cons, List.nodup_middle, List.nodup_cons, ← List.map_append] at hleads
    intro g hg hlead
    exact hleads.1 (hlead ▸ List.mem_map_of_mem hg)
  obtain ⟨q, before, colon, value, after, hq, hcolon, hvalue, rfl, hquiet⟩ := hspells.split
  have hfound {q'} (hq' : IsQuote q') : IsStart q' f.lead := ⟨hq', f.isLower_lead⟩
  have hown := entryQuoted_eq after hq (hquiet q f.lead (hfound hq) hothers).1 hcolon hvalue
  refine ⟨value, after, hvalue, ?_⟩
  rw [Header.entry, hkey]
  rcases hq with rfl | rfl
  · rw [hown]
    rfl
  · -- a key in double quotes does not stand in single ones
    have hsingle : IsStart '\'' f.lead := hfound (.inl rfl)
    obtain ⟨hbefore, hafter⟩ := hquiet _ _ hsingle hothers
    have hkeyword : Quiet '\'' f.lead (inQuotes '"' f.key) :=
      hsingle.quiet_key (.inr rfl) fun h => absurd h (by decide)
    have hrest := (hsingle.quiet_colon hcolon).append ((hsingle.quiet_value hvalue).append hafter)
    rw [entryQuoted_eq_none (hbefore.append (hkeyword.append hrest)), hown]
    rfl

/-- An entry that is not there is not found in another one. -/
theorem entry_eq_none (key : String) (hspells : Spells fields text) (hleads : ∀ g ∈ fields, g.lead ≠ f.lead)
    (hkey : key.toList = f.key) : Header.entry key text = none := by
  have hnone {q} (hq : IsQuote q) : Header.entryQuoted q f.key text = none :=
    entryQuoted_eq_none (hspells.quiet ⟨hq, f.isLower_lead⟩ hleads)
  rw [Header.entry, hkey, hnone (.inl rfl), hnone (.inr rfl)]
  rfl

/-! ## What an entry says -/

theorem unquote_inQuotes (hq : IsQuote q) (hxs : q ∉ xs) (after : List Char) :
    Header.unquote (inQuotes q xs ++ after) = some xs := by
  have hmem : q ∈ xs ++ q :: after := by simp
  rw [inQuotes, List.cons_append, List.append_assoc, List.singleton_append, Header.unquote,
    if_pos ⟨hq, hmem⟩, Text.takeWhile_ne hxs]

theorem unquote_tag {e : ElementType} (h : Writes (.tag e) value) (after : List Char) :
    Header.unquote (value ++ after) = some e.tag.toList := by
  cases h with
  | tag _ hq => exact unquote_inQuotes hq (fun hmem => not_quote_of_tag e _ hmem hq) after

theorem isTrue_order {b : Bool} (h : Writes (.order b) value) (after : List Char) :
    Header.isTrue (value ++ after) = b := by
  cases h <;> rfl

variable {dimensions : List Nat} {pieces words : List (List Char)}

theorem Digits.not_blank {n : Nat} (h : Digits n xs) : ∀ c ∈ xs, Text.isBlank c = false :=
  fun c hc => Decimal.not_blank_of_digit (h.all c hc)

theorem Digits.ne_nil {n : Nat} (h : Digits n xs) : xs ≠ [] := by
  rintro rfl
  cases h.1

theorem dimension_eq {n : Nat} (h : Digits n xs) (hn : n < 2 ^ 64) :
    Header.dimension xs = .ok n := by
  obtain ⟨hdigits, rfl⟩ := h
  rw [Header.dimension, Decimal.readWord?_digits hdigits hn]

theorem mapM_digits (h : List.Forall₂ Digits dimensions words)
    (hdimensions : ∀ d ∈ dimensions, d < 2 ^ 64) : words.mapM Header.dimension = .ok dimensions := by
  induction h with
  | nil => rfl
  | cons hword _ ih =>
    rw [List.forall_mem_cons] at hdimensions
    rw [List.mapM_cons, dimension_eq hword hdimensions.1, ih hdimensions.2]
    rfl

/-- Trimming takes the blanks from around a number. -/
theorem trim_digits {n : Nat} (h : Padded (Digits n) xs) : Digits n (Text.trim xs) := by
  obtain ⟨_, _, hbefore, hcore, hafter⟩ := h
  rwa [Text.trim_padded hbefore hcore.not_blank hafter]

theorem map_trim (h : List.Forall₂ (fun n => Padded (Digits n)) dimensions pieces) :
    List.Forall₂ Digits dimensions (pieces.map Text.trim) := by
  rw [List.forall₂_map_right_iff]
  exact h.imp fun _ _ => trim_digits

/-- The pieces of a list of numbers hold digits and blanks only. -/
theorem digit_or_blank (h : List.Forall₂ (fun n => Padded (Digits n)) dimensions pieces) :
    ∀ piece ∈ pieces, ∀ c ∈ piece, c.isDigit = true ∨ Text.isBlank c = true := by
  refine forall_mem_of_forall₂ h fun n _ piece hpiece => ?_
  obtain ⟨_, _, hbefore, hcore, hafter⟩ := hpiece
  intro c hc
  rw [List.mem_append, List.mem_append] at hc
  rcases hc with hc | hc | hc
  · exact .inr (hbefore c hc)
  · exact .inl (hcore.all c hc)
  · exact .inr (hafter c hc)

theorem not_mem_intercalate {c sep : Char} (hsep : c ≠ sep) (h : ∀ piece ∈ pieces, c ∉ piece) :
    c ∉ [sep].intercalate pieces := by
  induction pieces with
  | nil => simp
  | cons piece pieces ih =>
    rw [List.forall_mem_cons] at h
    cases pieces with
    | nil => simpa using h.1
    | cons next pieces =>
      rw [List.intercalate_cons_cons, List.mem_append, List.mem_append, List.mem_singleton]
      rintro ((hc | hc) | hc)
      · exact h.1 hc
      · exact hsep hc
      · exact ih h.2 hc

/-- Cutting a list at its commas and trimming leaves the numbers, and nothing of what trails. -/
theorem pieces_of_list {trailing : List (List Char)}
    (hpieces : List.Forall₂ (fun n => Padded (Digits n)) dimensions pieces)
    (htrailing : ∀ piece ∈ trailing, Blank piece)
    (hcomma : ∀ piece ∈ pieces ++ trailing, ',' ∉ piece) :
    ((Text.splitOn ',' ([','].intercalate (pieces ++ trailing))).map Text.trim).filter
      (!·.isEmpty) = pieces.map Text.trim := by
  by_cases hne : pieces ++ trailing = []
  · obtain ⟨rfl, rfl⟩ := List.append_eq_nil_iff.1 hne
    rfl
  · have hkept : ∀ word ∈ pieces.map Text.trim, (!word.isEmpty) = true :=
      forall_mem_of_forall₂ (map_trim hpieces) fun n _ word hword => by simpa using hword.ne_nil
    have hdropped : ∀ word ∈ trailing.map Text.trim, ¬ (!word.isEmpty) = true := by
      rw [List.forall_mem_map]
      intro piece hpiece
      rw [Text.trim_of_blank (htrailing piece hpiece)]
      exact Bool.false_ne_true
    rw [Text.splitOn_intercalate hne hcomma, List.map_append, List.filter_append,
      List.filter_eq_self.2 hkept, List.filter_eq_nil_iff.2 hdropped, List.append_nil]

/-- The items between parentheses: digits alone, and none for the commas at the end. -/
theorem items_of_listed {inner : List Char}
    (h : Listed (fun n => Padded (Digits n)) dimensions inner) (after : List Char) :
    ∃ words, List.Forall₂ Digits dimensions words ∧
      Header.items ('(' :: (inner ++ [')']) ++ after) = some words := by
  obtain @⟨trailing, pieces, hpieces, htrailing⟩ := h
  have hplain : ∀ piece ∈ pieces ++ trailing, ∀ c ∈ piece,
      c.isDigit = true ∨ Text.isBlank c = true :=
    List.forall_mem_append.2
      ⟨digit_or_blank hpieces, fun piece hpiece c hc => .inr (htrailing piece hpiece c hc)⟩
  have hnot {c : Char} (hdigit : c.isDigit = false) (hblank : Text.isBlank c = false) :
      ∀ piece ∈ pieces ++ trailing, c ∉ piece := by
    intro piece hpiece hc
    rcases hplain piece hpiece c hc with h | h
    · rw [hdigit] at h
      cases h
    · rw [hblank] at h
      cases h
  have hclose : ')' ∉ [','].intercalate (pieces ++ trailing) :=
    not_mem_intercalate (by decide) (hnot rfl rfl)
  refine ⟨pieces.map Text.trim, map_trim hpieces, ?_⟩
  rw [List.cons_append, List.append_assoc, List.singleton_append, Header.items, if_pos (by simp),
    Text.takeWhile_ne hclose,
    pieces_of_list hpieces htrailing (hnot rfl rfl)]

/-! ## The whole header -/

/-- The entries of a header, the last of them optional. -/
def entries (e : ElementType) (dimensions : List Nat) (flag : Option Bool) : List Field :=
  .tag e :: .shape dimensions :: (flag.map Field.order).toList

theorem nodup_entries (e : ElementType) (dimensions : List Nat) (flag : Option Bool) :
    ((entries e dimensions flag).map Field.lead).Nodup := by
  cases flag <;> simp [entries, Field.lead]

variable {e : ElementType} {flag : Option Bool}

/-- A header is read from each of its spellings, whatever the order of the entries. -/
theorem read_of_spells (hspells : Spells fields text)
    (hperm : fields.Perm (entries e dimensions flag)) (hdimensions : ∀ d ∈ dimensions, d < 2 ^ 64) :
    Header.read text = .ok ⟨e, dimensions, flag == some true⟩ := by
  have hleads := ((hperm.map Field.lead).nodup_iff).2 (nodup_entries e dimensions flag)
  have hmem {f : Field} (hf : f ∈ entries e dimensions flag) : f ∈ fields := hperm.mem_iff.2 hf
  obtain ⟨tag, after, htag, hdescr⟩ :=
    entry_eq "descr" hspells hleads (hmem (f := .tag e) (by simp [entries])) rfl
  obtain ⟨tuple, after', htuple, hshape⟩ :=
    entry_eq "shape" hspells hleads (hmem (f := .shape dimensions) (by simp [entries])) rfl
  have horder : (Header.entry "fortran_order" text).any Header.isTrue = (flag == some true) := by
    cases flag with
    | none =>
      have hothers : ∀ g ∈ fields, g.lead ≠ (Field.order true).lead := by
        intro g hg
        have hg := hperm.mem_iff.1 hg
        simp only [entries, Option.map_none, Option.toList_none, List.mem_cons, List.not_mem_nil,
          or_false] at hg
        rcases hg with rfl | rfl <;> simp [Field.lead]
      rw [entry_eq_none "fortran_order" hspells hothers rfl]
      rfl
    | some b =>
      obtain ⟨value, after, hvalue, hentry⟩ :=
        entry_eq "fortran_order" hspells hleads
          (hmem (f := .order b) (by simp [entries])) rfl
      rw [hentry, Option.any_some, isTrue_order hvalue]
      cases b <;> rfl
  cases htuple with
  | shape hlisted =>
    obtain ⟨words, hwords, hitems⟩ := items_of_listed hlisted after'
    unfold Header.read
    dsimp only
    rw [hdescr, hshape, horder, Option.bind_some, unquote_tag htag]
    dsimp only
    rw [String.ofList_toList, ElementType.ofTag?_tag]
    dsimp only
    rw [hitems]
    dsimp only
    rw [mapM_digits hwords hdimensions]
    rfl

end RasterTile.ArrayFile
