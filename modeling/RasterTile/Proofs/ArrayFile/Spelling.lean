import RasterTile.Proofs.ArrayFile.HeaderText

/-!
# Spellings of a header

A header may be spelled in many ways: its entries come in any order, keys and tags stand in either
kind of quotes, blanks may surround every token, and a list may end in commas. The reader does not
follow this grammar but looks for the first place where a key stands in quotes. That is the right
place, because nowhere else is a quote followed by the first letter of a key.
-/
namespace RasterTile.ArrayFile

/-- What an entry of a header says. -/
inductive Field where
  | tag (element : ElementType)
  | shape (dimensions : List Nat)
  | order (columnMajor : Bool)
  deriving DecidableEq, Repr

namespace Field

def lead : Field → Char
  | tag _ => 'd'
  | shape _ => 's'
  | order _ => 'f'

def more : Field → List Char
  | tag _ => "escr".toList
  | shape _ => "hape".toList
  | order _ => "ortran_order".toList

def key (f : Field) : List Char := f.lead :: f.more

end Field

/-! ## The grammar -/

def Blank (cs : List Char) : Prop := ∀ c ∈ cs, Text.isBlank c = true

-- characters are finitely many, and the instance found first goes through all of them
instance (cs : List Char) : Decidable (Blank cs) :=
  List.decidableBAll (fun c => Text.isBlank c = true) cs

def IsQuote (q : Char) : Prop := q = '\'' ∨ q = '"'

instance : DecidablePred IsQuote := fun q => inferInstanceAs (Decidable (q = '\'' ∨ q = '"'))

def inQuotes (q : Char) (cs : List Char) : List Char := q :: (cs ++ [q])

inductive Padded (p : List Char → Prop) : List Char → Prop
  | pad (before after : List Char) {core : List Char} (hbefore : Blank before) (hcore : p core)
      (hafter : Blank after) : Padded p (before ++ (core ++ after))

/-- Items with commas between them, and any number of commas after them. -/
inductive Listed {α : Type} (p : α → List Char → Prop) (items : List α) : List Char → Prop
  | list (trailing : List (List Char)) {pieces : List (List Char)}
      (hpieces : List.Forall₂ p items pieces) (htrailing : ∀ piece ∈ trailing, Blank piece) :
      Listed p items ([','].intercalate (pieces ++ trailing))

/-- The digits of a number, which zeros may precede. -/
def Digits (n : Nat) (cs : List Char) : Prop :=
  Decimal.isDigits cs = true ∧ Decimal.ofDigits cs = n

/-- The ways to write what an entry says. -/
inductive Writes : Field → List Char → Prop
  | tag {q : Char} (e : ElementType) (hq : IsQuote q) : Writes (.tag e) (inQuotes q e.tag.toList)
  | shape {dimensions : List Nat} {inner : List Char}
      (h : Listed (fun n => Padded (Digits n)) dimensions inner) :
      Writes (.shape dimensions) ('(' :: (inner ++ [')']))
  | columnMajor : Writes (.order true) "True".toList
  | rowMajor : Writes (.order false) "False".toList

/-- An entry without the blanks around it. -/
inductive WritesEntry (f : Field) : List Char → Prop
  | entry {q : Char} {colon value : List Char} (hq : IsQuote q)
      (hcolon : Padded (· = [':']) colon) (hvalue : Writes f value) :
      WritesEntry f (inQuotes q f.key ++ (colon ++ value))

/-- A dictionary without the blanks around it. -/
inductive WritesDictionary (fields : List Field) : List Char → Prop
  | dictionary {inner : List Char} (h : Listed (fun f => Padded (WritesEntry f)) fields inner) :
      WritesDictionary fields ('\x7b' :: (inner ++ ['\x7d']))

/-- The texts of a header with these entries, in this order. -/
def Spells (fields : List Field) : List Char → Prop := Padded (WritesDictionary fields)

/-- What holds of whatever is written for an item holds of all that is written. -/
theorem forall_mem_of_forall₂ {α β : Type} {r : α → β → Prop} {p : β → Prop} {items : List α}
    {pieces : List β} (h : List.Forall₂ r items pieces)
    (hr : ∀ x ∈ items, ∀ piece, r x piece → p piece) : ∀ piece ∈ pieces, p piece := by
  induction h with
  | nil => simp
  | cons hx _ ih =>
    rw [List.forall_mem_cons] at hr ⊢
    exact ⟨hr.1 _ hx, ih hr.2⟩

/-! ## First occurrences -/

/-- No quote of this kind is followed by a letter, nor does the text start with that letter. -/
structure Quiet (q k : Char) (cs : List Char) : Prop where
  pairs : cs.IsChain fun a b => ¬ (a = q ∧ b = k)
  head : cs.head? ≠ some k

variable {q k c : Char} {m before rest xs ys : List Char}

theorem afterLead_eq_none (h : ¬ (c = q ∧ xs.head? = some k)) :
    Text.afterLead (q :: k :: m) (c :: xs) = none := by
  by_cases hc : q = c
  · cases xs with
    | nil => rw [Text.afterLead, if_pos hc, Text.afterLead]
    | cons d xs =>
      have hd : ¬ k = d := by
        rintro rfl
        exact h ⟨hc.symm, rfl⟩
      rw [Text.afterLead, if_pos hc, Text.afterLead, if_neg hd]
  · rw [Text.afterLead, if_neg hc]

/-- A key in quotes does not stand in a quiet text. -/
theorem cutAt_of_quiet (h : Quiet q k xs) : Text.cutAt (q :: k :: m) xs = none := by
  obtain ⟨hpairs, -⟩ := h
  induction xs with
  | nil => rfl
  | cons c xs ih =>
    rw [List.isChain_cons] at hpairs
    have hhere : Text.afterLead (q :: k :: m) (c :: xs) = none := by
      refine afterLead_eq_none ?_
      rintro ⟨hc, hk⟩
      exact hpairs.1 k hk ⟨hc, rfl⟩
    rw [Text.cutAt, hhere, ih hpairs.2]
    rfl

/-- A key in quotes that follows a quiet text is found there. -/
theorem cutAt_append (h : Quiet q k before) (hne : q ≠ k) :
    Text.cutAt (q :: k :: m) (before ++ (q :: k :: m ++ rest)) = some (before, rest) := by
  obtain ⟨hpairs, -⟩ := h
  induction before with
  | nil =>
    have hhere := Text.afterLead_append (q :: k :: m) rest
    simp only [List.nil_append, List.cons_append] at hhere ⊢
    rw [Text.cutAt, hhere]
  | cons c before ih =>
    rw [List.isChain_cons] at hpairs
    have hhere : Text.afterLead (q :: k :: m) (c :: (before ++ (q :: k :: m ++ rest))) = none := by
      refine afterLead_eq_none ?_
      rintro ⟨hc, hk⟩
      cases before with
      | nil => exact hne (Option.some.inj hk)
      | cons d before => exact hpairs.1 k hk ⟨hc, rfl⟩
    rw [List.cons_append, Text.cutAt, hhere, ih hpairs.2]
    rfl

/-! ## Quiet texts -/

namespace Quiet

theorem nil : Quiet q k [] := ⟨.nil, nofun⟩

theorem append (h : Quiet q k xs) (h' : Quiet q k ys) : Quiet q k (xs ++ ys) := by
  refine ⟨List.isChain_append.2 ⟨h.pairs, h'.pairs, fun a _ b hb hab => ?_⟩, ?_⟩
  · exact h'.head (hab.2 ▸ hb)
  · cases xs with
    | nil => exact h'.head
    | cons c xs => exact h.head

theorem of_not_mem (hq : q ∉ xs) (hk : xs.head? ≠ some k) : Quiet q k xs := by
  refine ⟨?_, hk⟩
  clear hk
  induction xs with
  | nil => exact .nil
  | cons c xs ih =>
    rw [List.mem_cons, not_or] at hq
    exact List.isChain_cons.2 ⟨fun _ _ h => hq.1 h.1.symm, ih hq.2⟩

/-- A text in quotes is quiet if it does not start with the letter. -/
theorem inQuotes {q' : Char} (hq : q ∉ xs) (hhead : xs.head? ≠ some k) (hk : q' ≠ k) :
    Quiet q k (inQuotes q' xs) := by
  refine ⟨List.isChain_cons.2 ⟨fun b hb hab => ?_, ?_⟩, fun h => hk (Option.some.inj h)⟩
  · cases xs with
    | nil => exact hk ((Option.some.inj hb).trans hab.2)
    | cons c xs => exact hhead (hb.trans (congrArg some hab.2))
  · refine List.isChain_append.2 ⟨(of_not_mem hq hhead).pairs, .singleton _, ?_⟩
    intro a ha b _ hab
    exact hq (hab.1 ▸ List.mem_of_getLast? ha)

theorem flatMap {α : Type} {items : List α} {g : α → List Char}
    (h : ∀ x ∈ items, Quiet q k (g x)) : Quiet q k (items.flatMap g) := by
  induction items with
  | nil => exact nil
  | cons x items ih =>
    rw [List.forall_mem_cons] at h
    exact h.1.append (ih h.2)

end Quiet

/-! ## What is quiet -/

theorem lower_bounds (h : c.isLower = true) : 97 ≤ c.toNat ∧ c.toNat ≤ 122 := by
  rw [Char.isLower, Bool.and_eq_true, decide_eq_true_eq, decide_eq_true_eq, ge_iff_le,
    UInt32.le_iff_toNat_le, UInt32.le_iff_toNat_le] at h
  exact h

theorem not_isLower_of_blank (h : Text.isBlank c = true) : c.isLower = false := by
  by_contra hlower
  have hbounds := lower_bounds (Bool.eq_true_of_not_eq_false hlower)
  simp only [Text.isBlank, Bool.or_eq_true, Bool.and_eq_true, decide_eq_true_eq, beq_iff_eq] at h
  omega

theorem not_isLower_of_digit (h : c.isDigit = true) : c.isLower = false := by
  by_contra hlower
  have hbounds := lower_bounds (Bool.eq_true_of_not_eq_false hlower)
  have hdigit := Decimal.digit_bounds h
  omega

theorem not_quote_of_tag (e : ElementType) : ∀ c ∈ e.tag.toList, ¬ IsQuote c := by
  cases e <;> simp [ElementType.tag, IsQuote]

theorem Digits.all {n : Nat} (h : Digits n xs) : ∀ c ∈ xs, c.isDigit = true := by
  have hdigits := h.1
  rw [Decimal.isDigits, Bool.and_eq_true, List.all_eq_true] at hdigits
  exact hdigits.2

structure IsStart (q k : Char) : Prop where
  quote : IsQuote q
  lower : k.isLower = true

namespace IsStart

variable {α : Type} {p : List Char → Prop} {r : α → List Char → Prop} {items : List α} {f : Field}

theorem ne (h : IsStart q k) : q ≠ k := by
  rintro rfl
  have hlower := h.lower
  rcases h.quote with rfl | rfl <;> cases hlower

theorem quiet (h : IsStart q k) (hquote : ∀ c ∈ xs, ¬ IsQuote c)
    (hhead : ∀ c ∈ xs.head?, c.isLower = false) : Quiet q k xs := by
  refine .of_not_mem (fun hmem => hquote q hmem h.quote) fun hk => ?_
  have hlower := hhead k hk
  rw [h.lower] at hlower
  cases hlower

theorem quiet_single (h : IsStart q k) (hquote : ¬ IsQuote c) (hlower : c.isLower = false) :
    Quiet q k [c] := by
  refine h.quiet ?_ ?_
  · simpa using hquote
  · simpa using hlower

theorem quiet_blank (h : IsStart q k) (hxs : Blank xs) : Quiet q k xs := by
  refine h.quiet (fun c hc hquote => ?_) fun c hc => not_isLower_of_blank (hxs c ?_)
  · have hblank := hxs c hc
    rcases hquote with rfl | rfl <;> cases hblank
  · exact List.mem_of_head? hc

theorem quiet_padded (h : IsStart q k) (hp : ∀ core, p core → Quiet q k core)
    (hxs : Padded p xs) : Quiet q k xs := by
  obtain ⟨_, _, hbefore, hcore, hafter⟩ := hxs
  exact (h.quiet_blank hbefore).append ((hp _ hcore).append (h.quiet_blank hafter))

theorem quiet_comma (h : IsStart q k) : Quiet q k [','] :=
  h.quiet_single (by simp [IsQuote]) rfl

theorem quiet_intercalate (h : IsStart q k) {pieces : List (List Char)}
    (hpieces : ∀ piece ∈ pieces, Quiet q k piece) : Quiet q k ([','].intercalate pieces) := by
  induction pieces with
  | nil => exact .nil
  | cons piece pieces ih =>
    rw [List.forall_mem_cons] at hpieces
    cases pieces with
    | nil => simpa using hpieces.1
    | cons next pieces =>
      rw [List.intercalate_cons_cons]
      exact (hpieces.1.append h.quiet_comma).append (ih hpieces.2)

theorem quiet_listed (h : IsStart q k) (hr : ∀ x ∈ items, ∀ piece, r x piece → Quiet q k piece)
    (hxs : Listed r items xs) : Quiet q k xs := by
  obtain ⟨_, hpieces, htrailing⟩ := hxs
  refine h.quiet_intercalate (List.forall_mem_append.2 ⟨forall_mem_of_forall₂ hpieces hr, ?_⟩)
  exact fun piece hpiece => h.quiet_blank (htrailing piece hpiece)

theorem quiet_digits (h : IsStart q k) {n : Nat} (hxs : Digits n xs) : Quiet q k xs := by
  have hdigit : ∀ c ∈ xs, c.isDigit = true := hxs.all
  refine h.quiet (fun c hc hquote => ?_) fun c hc => ?_
  · have hd := hdigit c hc
    rcases hquote with rfl | rfl <;> cases hd
  · exact not_isLower_of_digit (hdigit c (List.mem_of_head? hc))

/-- Tags hold no quotes, and start with the order of their bytes. -/
theorem quiet_tag (h : IsStart q k) {q' : Char} (hq' : IsQuote q') (e : ElementType) :
    Quiet q k (inQuotes q' e.tag.toList) := by
  have hquote := not_quote_of_tag e
  have hhead : ∀ c ∈ e.tag.toList.head?, c.isLower = false := by
    cases e <;> simp [ElementType.tag]
  refine .inQuotes (fun hmem => hquote q hmem h.quote) (fun hk => ?_) (IsStart.ne ⟨hq', h.lower⟩)
  have hlower := hhead k hk
  rw [h.lower] at hlower
  cases hlower

/-- Values hold no quoted letter that starts a key. -/
theorem quiet_value (h : IsStart q k) (hxs : Writes f xs) : Quiet q k xs := by
  cases hxs with
  | tag e hq' => exact h.quiet_tag hq' e
  | shape hdimensions =>
    have hinner := h.quiet_listed (fun n _ _ hn =>
      h.quiet_padded (fun _ hdigits => h.quiet_digits hdigits) hn) hdimensions
    exact (h.quiet_single (c := '(') (by decide) rfl).append
      (hinner.append (h.quiet_single (c := ')') (by decide) rfl))
  | columnMajor => exact h.quiet (by simp [IsQuote]) (by simp)
  | rowMajor => exact h.quiet (by simp [IsQuote]) (by simp)

theorem quiet_colon (h : IsStart q k) (hxs : Padded (· = [':']) xs) : Quiet q k xs :=
  h.quiet_padded (p := (· = [':'])) (fun _ hcolon => hcolon ▸ h.quiet_single (by decide) rfl) hxs

/-- A key is quiet but for its own first letter in its own quotes. -/
theorem quiet_key (h : IsStart q k) {q' : Char} (hq' : IsQuote q') (hk : q = q' → f.lead ≠ k) :
    Quiet q k (inQuotes q' f.key) := by
  have hquote : ∀ c ∈ f.key, ¬ IsQuote c := by
    have hall : f.key.all (fun c => !decide (IsQuote c)) = true := by cases f <;> rfl
    simpa using hall
  have hne : q' ≠ k := IsStart.ne ⟨hq', h.lower⟩
  by_cases hsame : q = q'
  · refine .inQuotes (fun hmem => hquote q hmem h.quote) (fun hlead => ?_) hne
    exact hk hsame (Option.some.inj hlead)
  · refine .of_not_mem (fun hmem => ?_) fun hlead => hne (Option.some.inj hlead)
    simp only [RasterTile.ArrayFile.inQuotes, List.mem_cons, List.mem_append, List.not_mem_nil,
      or_false] at hmem
    rcases hmem with hmem | hmem | hmem
    · exact hsame hmem
    · exact hquote q hmem h.quote
    · exact hsame hmem

/-- An entry with another key is quiet. -/
theorem quiet_entry (h : IsStart q k) (hk : f.lead ≠ k) (hxs : Padded (WritesEntry f) xs) :
    Quiet q k xs := by
  refine h.quiet_padded (fun core hcore => ?_) hxs
  obtain ⟨hq', hcolon, hvalue⟩ := hcore
  exact (h.quiet_key hq' fun _ => hk).append ((h.quiet_colon hcolon).append (h.quiet_value hvalue))

end IsStart

/-! ## The place of an entry -/

theorem forall₂_middle {α β : Type} {r : α → β → Prop} {left right : List α} {x : α} {ys : List β}
    (h : List.Forall₂ r (left ++ x :: right) ys) : ∃ left' y right', ys = left' ++ y :: right' ∧
      List.Forall₂ r left left' ∧ r x y ∧ List.Forall₂ r right right' := by
  induction left generalizing ys with
  | nil =>
    cases h with
    | cons hx hright => exact ⟨[], _, _, rfl, .nil, hx, hright⟩
  | cons a left ih =>
    cases h with
    | cons ha hrest =>
      obtain ⟨left', y, right', rfl, hleft, hx, hright⟩ := ih hrest
      exact ⟨_ :: left', y, right', rfl, .cons ha hleft, hx, hright⟩

theorem intercalate_middle (left right : List (List Char)) (piece : List Char) :
    [','].intercalate (left ++ piece :: right) =
      left.flatMap (· ++ [',']) ++ (piece ++ right.flatMap (',' :: ·)) := by
  induction left with
  | nil =>
    induction right generalizing piece with
    | nil => simp
    | cons next right ih =>
      simp only [List.nil_append, List.flatMap_nil] at ih ⊢
      rw [List.intercalate_cons_cons, ih, List.flatMap_cons, List.append_assoc]
      rfl
  | cons first left ih =>
    cases left with
    | nil =>
      rw [List.cons_append, List.nil_append, List.intercalate_cons_cons]
      simpa using ih
    | cons second left =>
      rw [List.cons_append, List.cons_append, List.intercalate_cons_cons, ← List.cons_append, ih]
      simp

/-- A list is quiet on both sides of an item if the other items are. -/
theorem Listed.split {α : Type} {r : α → List Char → Prop} {left right : List α} {x : α}
    (h : Listed r (left ++ x :: right) xs) :
    ∃ front piece back, xs = front ++ (piece ++ back) ∧ r x piece ∧
      ∀ q k, IsStart q k → (∀ y ∈ left ++ right, ∀ piece, r y piece → Quiet q k piece) →
        Quiet q k front ∧ Quiet q k back := by
  obtain ⟨_, hpieces, htrailing⟩ := h
  obtain ⟨left', piece, right', rfl, hleft, hx, hright⟩ := forall₂_middle hpieces
  refine ⟨_, piece, _, by rw [List.append_assoc, List.cons_append, intercalate_middle], hx, ?_⟩
  intro q k hstart hothers
  rw [List.forall_mem_append] at hothers
  constructor
  · exact .flatMap fun piece hpiece =>
      (forall_mem_of_forall₂ hleft hothers.1 piece hpiece).append hstart.quiet_comma
  · refine .flatMap fun piece hpiece => hstart.quiet_comma.append ?_
    rcases List.mem_append.1 hpiece with hpiece | hpiece
    · exact forall_mem_of_forall₂ hright hothers.2 piece hpiece
    · exact hstart.quiet_blank (htrailing piece hpiece)

variable {fields left right : List Field} {f : Field} {text : List Char}

theorem Field.isLower_lead (f : Field) : f.lead.isLower = true := by cases f <;> rfl

/-- A key stands nowhere in a header without its entry. -/
theorem Spells.quiet (h : Spells fields text) (hstart : IsStart q k)
    (hleads : ∀ g ∈ fields, g.lead ≠ k) : Quiet q k text := by
  refine hstart.quiet_padded (fun core hcore => ?_) h
  obtain ⟨hinner⟩ := hcore
  have hquiet := hstart.quiet_listed (fun g hg _ => hstart.quiet_entry (hleads g hg)) hinner
  exact (hstart.quiet_single (c := '\x7b') (by decide) rfl).append
    (hquiet.append (hstart.quiet_single (c := '\x7d') (by decide) rfl))

/-- Where an entry stands. Whatever key is not among the others stands neither before nor after it. -/
theorem Spells.split (h : Spells (left ++ f :: right) text) :
    ∃ q before colon value after, IsQuote q ∧ Padded (· = [':']) colon ∧ Writes f value ∧
      text = before ++ (inQuotes q f.key ++ (colon ++ (value ++ after))) ∧
      ∀ q' k, IsStart q' k → (∀ g ∈ left ++ right, g.lead ≠ k) →
        Quiet q' k before ∧ Quiet q' k after := by
  obtain ⟨b, a, hbefore, ⟨hinner⟩, hafter⟩ := h
  obtain ⟨front, piece, back, rfl, hpiece, hquiet⟩ := hinner.split
  obtain ⟨pad, pad', hpad, @⟨q, colon, value, hq, hcolon, hvalue⟩, hpad'⟩ := hpiece
  refine ⟨q, b ++ ('\x7b' :: (front ++ pad)), colon, value,
    pad' ++ (back ++ ('\x7d' :: a)), hq, hcolon, hvalue, by simp, ?_⟩
  intro q' k hstart hleads
  obtain ⟨hfront, hback⟩ := hquiet q' k hstart fun g hg _ => hstart.quiet_entry (hleads g hg)
  constructor
  · exact (hstart.quiet_blank hbefore).append
      ((hstart.quiet_single (c := '\x7b') (by decide) rfl).append
        (hfront.append (hstart.quiet_blank hpad)))
  · exact (hstart.quiet_blank hpad').append (hback.append
      ((hstart.quiet_single (c := '\x7d') (by decide) rfl).append (hstart.quiet_blank hafter)))

/-! ## The spelling of the writer -/

/-- The numbers of a list, as the writer puts them between commas. -/
def writtenPieces : List Nat → List (List Char)
  | [] => []
  | n :: ns => Nat.toDigits 10 n :: ns.map fun n => ' ' :: Nat.toDigits 10 n

theorem toList_intercalate (dimensions : List Nat) :
    (", ".intercalate (dimensions.map toString)).toList =
      [','].intercalate (writtenPieces dimensions) := by
  induction dimensions with
  | nil => rfl
  | cons n ns ih =>
    cases ns with
    | nil => simp [writtenPieces]
    | cons m ns =>
      rw [List.map_cons, List.map_cons, String.intercalate_cons_cons, ← List.map_cons,
        String.toList_append, String.toList_append, ih]
      simp [writtenPieces, List.intercalate_cons_cons]

/-- Nothing needs to stand around a text. -/
theorem Padded.of_core {p : List Char → Prop} (h : p xs) : Padded p xs := by
  have hpad := Padded.pad [] [] (by decide) h (by decide)
  rwa [List.nil_append, List.append_nil] at hpad

/-- One blank before a text. -/
theorem Padded.of_blank {p : List Char → Prop} (h : p xs) : Padded p (' ' :: xs) := by
  have hpad := Padded.pad [' '] [] (by decide) h (by decide)
  rwa [List.append_nil] at hpad

/-- More blanks at the end. -/
theorem Padded.append {p : List Char → Prop} (h : Padded p xs) (hys : Blank ys) :
    Padded p (xs ++ ys) := by
  obtain ⟨before, after, hbefore, hcore, hafter⟩ := h
  rw [List.append_assoc, List.append_assoc]
  refine .pad before (after ++ ys) hbefore hcore fun c hc => ?_
  rcases List.mem_append.1 hc with hc | hc
  · exact hafter c hc
  · exact hys c hc

/-- The writer's list is one of those that the reader takes. -/
theorem listed_writtenPieces (dimensions : List Nat) :
    Listed (fun n => Padded (Digits n)) dimensions
      ([','].intercalate (writtenPieces dimensions)) := by
  have hdigits (n : Nat) : Digits n (Nat.toDigits 10 n) :=
    ⟨Decimal.isDigits_toDigits n, Decimal.ofDigits_toDigits n⟩
  rw [← List.append_nil (writtenPieces dimensions)]
  refine .list [] ?_ (by simp)
  cases dimensions with
  | nil => exact .nil
  | cons n ns =>
    refine .cons (.of_core (hdigits n)) ?_
    rw [List.forall₂_map_right_iff, List.forall₂_same]
    exact fun m _ => .of_blank (hdigits m)

/-- What the writer writes is a spelling, with a comma after the last entry. -/
theorem spells_write (e : ElementType) (dimensions : List Nat) :
    Spells [.tag e, .order false, .shape dimensions] (Header.write e dimensions).toList := by
  have hquote : IsQuote '\'' := .inl rfl
  have hcolon := Padded.pad (p := (· = [':'])) [] [' '] (by decide) rfl (by decide)
  have htag := Padded.of_core (WritesEntry.entry hquote hcolon (.tag e hquote))
  have horder := Padded.of_blank (WritesEntry.entry hquote hcolon .rowMajor)
  have hshape := Padded.of_blank
    (WritesEntry.entry hquote hcolon (.shape (listed_writtenPieces dimensions)))
  have hlisted := Listed.list (p := fun f => Padded (WritesEntry f)) [[' ']]
    (.cons htag (.cons horder (.cons hshape .nil))) (by simp [Blank]; decide)
  have hspells : Spells _ _ := Padded.of_core (WritesDictionary.dictionary hlisted)
  have hlead : lead e = '\x7b' :: (inQuotes '\'' (Field.tag e).key ++
      ([':', ' '] ++ inQuotes '\'' e.tag.toList) ++ ',' ::
        (' ' :: (inQuotes '\'' (Field.order false).key ++ ([':', ' '] ++ "False".toList)) ++ ',' ::
          ' ' :: (inQuotes '\'' (Field.shape dimensions).key ++ [':', ' ', '(']))) := by
    cases e <;> rfl
  rw [toList_write_eq, toList_intercalate, hlead]
  simpa [List.intercalate_cons_cons] using hspells

/-- So is the header of a tensor. -/
theorem spells_headerText (t : Tensor) :
    Spells [.tag t.element, .order false, .shape t.shape] (headerText t) := by
  obtain ⟨pad, hpadded, -, -⟩ := headerText_eq t
  rw [hpadded]
  refine (spells_write t.element t.shape).append fun c hc => ?_
  simp only [List.mem_append, List.mem_replicate, List.mem_singleton] at hc
  rcases hc with ⟨-, rfl⟩ | rfl <;> rfl

end RasterTile.ArrayFile
