import RasterTile.Proofs.Decimal.Numeral
import RasterTile.Proofs.Program.Diagnosis

/-!
# Scanning a line

A text is scanned in rounds. Each takes a blank or a whole lexeme from the front: as much as belongs
together, so what follows is nothing that the lexeme could have taken as well. The tokens of a text are
therefore those of the only layout of lexemes that it is, and a text that is no such layout has a character
that belongs to no lexeme, or digits with more than one point among them.
-/
namespace RasterTile.Program

variable {c : Char} {cs rest : List Char} {t : Token} {ts : List Token}

/-! ## Characters -/

/-- The characters that are tokens wherever they stand. -/
def symbols : List Char := ['+', '-', '*', '/', '(', ')', '[', ']']

/-- What a line may hold: blanks, ASCII letters and digits, underscores, symbols and points. -/
def IsLegal (c : Char) : Prop :=
  Text.isBlank c = true ∨ isWordPart c = true ∨ c ∈ symbols ∨ c = '.'

theorem wordStart_bounds (h : isWordStart c = true) :
    65 ≤ c.toNat ∧ c.toNat ≤ 90 ∨ c.toNat = 95 ∨ 97 ≤ c.toNat ∧ c.toNat ≤ 122 := by
  simp only [isWordStart, Char.isAlpha, Char.isUpper, Char.isLower, Bool.or_eq_true,
    Bool.and_eq_true, decide_eq_true_eq, beq_iff_eq, ge_iff_le, UInt32.le_iff_toNat_le] at h
  rcases h with (h | h) | rfl
  · exact .inl h
  · exact .inr (.inr h)
  · exact .inr (.inl rfl)

theorem wordPart_iff : isWordPart c = true ↔ isWordStart c = true ∨ c.isDigit = true := by
  simp only [isWordPart, isWordStart, Char.isAlphanum, Bool.or_eq_true]
  tauto

theorem not_blank_of_wordStart (h : isWordStart c = true) : Text.isBlank c = false := by
  have hc := wordStart_bounds h
  unfold Text.isBlank
  simp only [Bool.or_eq_false_iff, Bool.and_eq_false_iff, decide_eq_false_iff_not,
    beq_eq_false_iff_ne]
  omega

theorem not_blank_of_wordPart (h : isWordPart c = true) : Text.isBlank c = false :=
  (wordPart_iff.1 h).elim not_blank_of_wordStart Decimal.not_blank_of_digit

theorem not_blank_of_numberPart (h : isNumberPart c = true) : Text.isBlank c = false := by
  rcases Numeral.isNumberPart_iff.1 h with hdigit | rfl
  · exact Decimal.not_blank_of_digit hdigit
  · decide

/-- A word does not start like a number. -/
theorem not_numberPart_of_wordStart (h : isWordStart c = true) : isNumberPart c = false := by
  have hc := wordStart_bounds h
  refine Bool.eq_false_of_not_eq_true fun hpart => ?_
  rcases Numeral.isNumberPart_iff.1 hpart with hdigit | rfl
  · have := Decimal.digit_bounds hdigit
    omega
  · simp at hc

/-- No symbol belongs to a word or a number, or is a blank. -/
theorem of_mem_symbols (h : c ∈ symbols) :
    Text.isBlank c = false ∧ isWordPart c = false ∧ isNumberPart c = false := by
  simp only [symbols, List.mem_cons, List.not_mem_nil, or_false] at h
  rcases h with rfl | rfl | rfl | rfl | rfl | rfl | rfl | rfl <;> decide

theorem of_blank (h : Text.isBlank c = true) : isWordPart c = false ∧ isNumberPart c = false := by
  constructor <;> refine Bool.eq_false_of_not_eq_true fun hpart => ?_
  · rw [not_blank_of_wordPart hpart] at h
    cases h
  · rw [not_blank_of_numberPart hpart] at h
    cases h

/-! ## Lexemes -/

namespace Token

/-- The tokens that can be written: names, proper numerals, and the others. -/
def IsLexeme : Token → Prop
  | .number n => n.IsProper
  | .word name => isName name.toList = true
  | _ => True

/-- Whether a character would belong to the token if it came next. -/
def absorbs : Token → Char → Bool
  | .number _, c => isNumberPart c
  | .word _, c => isWordPart c
  | .dot, c => c.isDigit
  | _, _ => false

/-- A symbol is a token of one character that takes in nothing more. -/
theorem ofSymbol?_eq_some (h : ofSymbol? c = some t) :
    t.text = [c] ∧ c ∈ symbols ∧ t.IsLexeme ∧ ∀ d, t.absorbs d = false := by
  unfold ofSymbol? at h
  split at h <;> cases h <;> exact ⟨rfl, by decide, trivial, fun _ => rfl⟩

theorem ofSymbol?_eq_none_iff : ofSymbol? c = none ↔ c ∉ symbols := by
  constructor
  · intro hnone hc
    simp only [symbols, List.mem_cons, List.not_mem_nil, or_false] at hc
    rcases hc with rfl | rfl | rfl | rfl | rfl | rfl | rfl | rfl <;> cases hnone
  · intro hc
    cases hsymbol : ofSymbol? c with
    | none => rfl
    | some t => exact absurd (ofSymbol?_eq_some hsymbol).2.1 hc

theorem IsLexeme.text_ne_nil (h : t.IsLexeme) : t.text ≠ [] := by
  cases t with
  | number n => exact Numeral.IsProper.text_ne_nil h
  | word name =>
    intro hnil
    rw [IsLexeme, show name.toList = [] from hnil] at h
    cases h
  | _ => exact List.cons_ne_nil _ _

/-- Lexemes are written with legal characters that are not blank. -/
theorem IsLexeme.of_mem_text (h : t.IsLexeme) (hc : c ∈ t.text) :
    IsLegal c ∧ Text.isBlank c = false := by
  have hsymbol (hc : c ∈ symbols) : IsLegal c ∧ Text.isBlank c = false :=
    ⟨.inr (.inr (.inl hc)), (of_mem_symbols hc).1⟩
  cases t with
  | number n =>
    have hpart := Numeral.IsProper.text_parts h c hc
    refine ⟨?_, not_blank_of_numberPart hpart⟩
    exact (Numeral.isNumberPart_iff.1 hpart).elim
      (fun hdigit => .inr (.inl (wordPart_iff.2 (.inr hdigit)))) fun hpoint => .inr (.inr (.inr hpoint))
  | word name =>
    have hpart : isWordPart c = true := by
      cases hname : name.toList with
      | nil =>
        rw [text, hname] at hc
        cases hc
      | cons d word =>
        rw [IsLexeme, hname, isName, Bool.and_eq_true, List.all_eq_true] at h
        rw [text, hname] at hc
        rcases List.mem_cons.1 hc with rfl | hc
        · exact wordPart_iff.2 (.inl h.1)
        · exact h.2 c hc
    exact ⟨.inr (.inl hpart), not_blank_of_wordPart hpart⟩
  | dot =>
    obtain rfl := List.mem_singleton.1 hc
    exact ⟨.inr (.inr (.inr rfl)), by decide⟩
  | op o => exact hsymbol (by cases o <;> (obtain rfl := List.mem_singleton.1 hc; decide))
  | _ => exact hsymbol (by obtain rfl := List.mem_singleton.1 hc; decide)

end Token

/-! ## One round -/

/-- Taking stops where the text that is taken from does. -/
theorem takeWhile_append_eq {p : Char → Bool} {word : List Char} (hword : ∀ d ∈ word, p d = true)
    (hstop : ∀ d ∈ rest.head?, p d = false) :
    (word ++ rest).takeWhile p = word ∧ (word ++ rest).dropWhile p = rest := by
  rw [List.takeWhile_append_of_pos hword, List.dropWhile_append_of_pos hword]
  cases rest with
  | nil => simp
  | cons d rest => simp [hstop d rfl]

theorem not_of_mem_head?_dropWhile {p : Char → Bool} {d : Char}
    (h : d ∈ (cs.dropWhile p).head?) : p d = false := by
  have hhead := List.head?_dropWhile_not p cs
  rw [h] at hhead
  simpa using hhead

/-- One round of the scan: the token at the front, or nothing for a blank, and the text after it. -/
def scanStep (c : Char) (cs : List Char) : Except Fault (Option Token × List Char) :=
  if Text.isBlank c then .ok (none, cs)
  else match Token.ofSymbol? c with
    | some t => .ok (some t, cs)
    | none =>
      if startsNumber c cs then
        match Numeral.ofText? (c :: cs.takeWhile isNumberPart) with
        | some n => .ok (some (.number n), cs.dropWhile isNumberPart)
        | none => .error (.badNumber (c :: cs.takeWhile isNumberPart))
      else if c = '.' then .ok (some .dot, cs)
      else if isWordStart c then
        .ok (some (.word (String.ofList (c :: cs.takeWhile isWordPart))), cs.dropWhile isWordPart)
      else .error (.badCharacter c)

theorem tokenize_nil : tokenize [] = .ok [] := by rw [tokenize]

/-- Scanning goes round by round. -/
theorem tokenize_cons (c : Char) (cs : List Char) : tokenize (c :: cs) =
    scanStep c cs >>= fun step => (tokenize step.2).map (step.1.toList ++ ·) := by
  rw [tokenize, scanStep]
  by_cases hblank : Text.isBlank c = true
  · rw [if_pos hblank, if_pos hblank]
    cases htokens : tokenize cs <;> simp [ok_bind, htokens, Except.map]
  rw [if_neg hblank, if_neg hblank]
  cases Token.ofSymbol? c with
  | some t => rfl
  | none =>
    dsimp only
    by_cases hnumber : startsNumber c cs = true
    · rw [if_pos hnumber, if_pos hnumber]
      cases Numeral.ofText? (c :: cs.takeWhile isNumberPart) <;> rfl
    · rw [if_neg hnumber, if_neg hnumber]
      split_ifs <;> rfl

theorem startsNumber_eq_true (h : startsNumber c cs = true) :
    isNumberPart c = true ∧ ∃ d ∈ c :: cs.takeWhile isNumberPart, d.isDigit = true := by
  rw [startsNumber, Bool.or_eq_true, Bool.and_eq_true, beq_iff_eq] at h
  rcases h with hdigit | ⟨rfl, hnext⟩
  · exact ⟨Numeral.isNumberPart_iff.2 (.inl hdigit), c, by simp, hdigit⟩
  · obtain ⟨d, hd, hdigit⟩ := (Option.any_eq_true ..).1 hnext
    obtain ⟨cs, rfl⟩ := List.head?_eq_some_iff.1 hd
    exact ⟨by decide, d, by simp [Numeral.isNumberPart_iff.2 (.inl hdigit)], hdigit⟩

/-- A round takes a blank or a whole lexeme. -/
theorem scanStep_eq_ok {t? : Option Token} (h : scanStep c cs = .ok (t?, rest)) :
    (Text.isBlank c = true ∧ t? = none ∧ rest = cs) ∨
    ∃ t, t? = some t ∧ t.IsLexeme ∧ c :: cs = t.text ++ rest ∧
      ∀ d ∈ rest.head?, t.absorbs d = false := by
  unfold scanStep at h
  split at h
  · cases h
    exact .inl ⟨‹_›, rfl, rfl⟩
  refine .inr ?_
  split at h
  · rename_i t hsymbol
    cases h
    obtain ⟨htext, -, hlexeme, habsorbs⟩ := Token.ofSymbol?_eq_some hsymbol
    exact ⟨t, rfl, hlexeme, by rw [htext]; rfl, fun d _ => habsorbs d⟩
  split at h
  · rename_i hnumber
    obtain ⟨hc, hdigit⟩ := startsNumber_eq_true hnumber
    split at h
    · rename_i n hread
      cases h
      obtain ⟨hproper, htext⟩ := Numeral.ofText?_eq_some
        (List.forall_mem_cons.2 ⟨hc, fun d hd => List.mem_takeWhile_imp hd⟩) hread
      refine ⟨.number n, rfl, hproper, ?_, fun d => not_of_mem_head?_dropWhile⟩
      rw [Token.text, htext, List.cons_append, List.takeWhile_append_dropWhile]
    · cases h
  rename_i hnumber
  split at h
  · rename_i hpoint
    cases h
    subst hpoint
    refine ⟨.dot, rfl, trivial, rfl, fun d hd => ?_⟩
    simpa [startsNumber, Option.mem_def.1 hd, Token.absorbs] using hnumber
  split at h
  · rename_i hstart
    cases h
    refine ⟨.word _, rfl, ?_, ?_, fun d => not_of_mem_head?_dropWhile⟩
    · simp [Token.IsLexeme, isName, hstart]
    · rw [Token.text, String.toList_ofList, List.cons_append, List.takeWhile_append_dropWhile]
  · cases h

/-- What a text cannot be scanned for: a character of no lexeme, or digits with points among them. -/
inductive Spoils : Fault → List Char → Prop
  | character {c : Char} {text : List Char} : ¬ IsLegal c → c ∈ text → Spoils (.badCharacter c) text
  | number {run text : List Char} : run <:+: text → (∀ c ∈ run, isNumberPart c = true) →
      2 ≤ run.count '.' → Spoils (.badNumber run) text

/-- A scan fails at a text that is spoiled. -/
theorem scanStep_eq_error {fault : Fault} (h : scanStep c cs = .error fault) :
    Spoils fault (c :: cs) := by
  unfold scanStep at h
  split at h
  · cases h
  rename_i hblank
  split at h
  · cases h
  rename_i hsymbol
  split at h
  · rename_i hnumber
    obtain ⟨hc, hdigit⟩ := startsNumber_eq_true hnumber
    split at h
    · cases h
    · rename_i hread
      cases h
      refine .number (List.IsPrefix.isInfix ?_)
        (List.forall_mem_cons.2 ⟨hc, fun d hd => List.mem_takeWhile_imp hd⟩)
        (Numeral.ofText?_eq_none hdigit hread)
      exact List.cons_prefix_cons.2 ⟨rfl, List.takeWhile_prefix _⟩
  rename_i hnumber
  split at h
  · cases h
  rename_i hpoint
  split at h
  · cases h
  · rename_i hstart
    cases h
    refine .character ?_ (List.mem_cons_self)
    rintro (hlegal | hlegal | hlegal | hlegal)
    · exact hblank hlegal
    · rcases wordPart_iff.1 hlegal with hlegal | hlegal
      · exact hstart hlegal
      · simp [startsNumber, hlegal] at hnumber
    · exact Token.ofSymbol?_eq_none_iff.1 hsymbol hlegal
    · exact hpoint hlegal

theorem scanStep_blank (h : Text.isBlank c = true) (cs : List Char) :
    scanStep c cs = .ok (none, cs) := if_pos h

theorem scanStep_symbol (h : Token.ofSymbol? c = some t) (cs : List Char) :
    scanStep c cs = .ok (some t, cs) := by
  have hblank := (of_mem_symbols (Token.ofSymbol?_eq_some h).2.1).1
  rw [scanStep, if_neg (ne_true_of_eq_false hblank), h]

theorem scanStep_dot (h : ∀ d ∈ rest.head?, d.isDigit = false) :
    scanStep '.' rest = .ok (some .dot, rest) := by
  have hnumber : startsNumber '.' rest = false := by
    cases hhead : rest.head? with
    | none => simp [startsNumber, hhead]
    | some d => simp [startsNumber, hhead, h d hhead]
  rw [scanStep, if_neg (by decide)]
  simp [Token.ofSymbol?, hnumber]

theorem scanStep_word {word : List Char} (hc : isWordStart c = true)
    (hword : ∀ d ∈ word, isWordPart d = true) (hstop : ∀ d ∈ rest.head?, isWordPart d = false) :
    scanStep c (word ++ rest) = .ok (some (.word (String.ofList (c :: word))), rest) := by
  have hnumber := not_numberPart_of_wordStart hc
  rw [isNumberPart, Bool.or_eq_false_iff] at hnumber
  have hsymbol : Token.ofSymbol? c = none := Token.ofSymbol?_eq_none_iff.2 fun hmem =>
    ne_true_of_eq_false (of_mem_symbols hmem).2.1 (wordPart_iff.2 (.inl hc))
  have hstart : startsNumber c (word ++ rest) = false := by simp [startsNumber, hnumber]
  obtain ⟨htake, hdrop⟩ := takeWhile_append_eq hword hstop
  rw [scanStep, if_neg (ne_true_of_eq_false (not_blank_of_wordStart hc)), hsymbol]
  simp only [hstart, Bool.false_eq_true, if_false, if_neg (ne_of_beq_false hnumber.2), hc, if_true,
    htake, hdrop]

theorem startsNumber_of_isProper {n : Numeral} {text : List Char} (hn : n.IsProper)
    (htext : n.text = c :: text) (rest : List Char) : startsNumber c (text ++ rest) = true := by
  obtain ⟨_ | ⟨d, whole⟩, _ | fraction⟩ := n
  · cases htext
  · obtain ⟨hnonempty, -, hfraction⟩ := Numeral.isProper_pointed_iff.1 hn
    cases htext
    obtain ⟨d, fraction, rfl⟩ := List.exists_cons_of_ne_nil fun hnil => hnonempty ⟨rfl, hnil⟩
    simp [startsNumber, hfraction d]
  · cases htext
    simp [startsNumber, (Numeral.isProper_whole_iff.1 hn).2 c]
  · cases htext
    simp [startsNumber, (Numeral.isProper_pointed_iff.1 hn).2.1 c]

theorem scanStep_number {n : Numeral} {text : List Char} (hn : n.IsProper) (htext : n.text = c :: text)
    (hstop : ∀ d ∈ rest.head?, isNumberPart d = false) :
    scanStep c (text ++ rest) = .ok (some (.number n), rest) := by
  have hparts := hn.text_parts
  rw [htext, List.forall_mem_cons] at hparts
  have hsymbol : Token.ofSymbol? c = none := Token.ofSymbol?_eq_none_iff.2 fun hmem =>
    ne_true_of_eq_false (of_mem_symbols hmem).2.2 hparts.1
  obtain ⟨htake, hdrop⟩ := takeWhile_append_eq hparts.2 hstop
  rw [scanStep, if_neg (ne_true_of_eq_false (not_blank_of_numberPart hparts.1)), hsymbol]
  simp only [startsNumber_of_isProper hn htext rest, if_true, htake, hdrop, ← htext, hn.ofText?_text]

/-- A lexeme that stands at the front of a text which goes on differently is taken whole, and nothing
else is. -/
theorem scanStep_lexeme (ht : t.IsLexeme) (hstop : ∀ d ∈ rest.head?, t.absorbs d = false) :
    ∃ c cs, t.text ++ rest = c :: cs ∧ scanStep c cs = .ok (some t, rest) := by
  cases t with
  | number n =>
    obtain ⟨c, text, htext⟩ := List.exists_cons_of_ne_nil ht.text_ne_nil
    exact ⟨c, text ++ rest, by rw [htext]; rfl, scanStep_number ht htext hstop⟩
  | word name =>
    cases hname : name.toList with
    | nil =>
      rw [Token.IsLexeme, hname] at ht
      cases ht
    | cons c word =>
      rw [Token.IsLexeme, hname, isName, Bool.and_eq_true, List.all_eq_true] at ht
      refine ⟨c, word ++ rest, by rw [Token.text, hname]; rfl, ?_⟩
      rw [scanStep_word ht.1 ht.2 hstop, ← hname, String.ofList_toList]
  | op o => exact ⟨_, rest, rfl, scanStep_symbol (by cases o <;> rfl) rest⟩
  | openParen => exact ⟨_, rest, rfl, scanStep_symbol rfl rest⟩
  | closeParen => exact ⟨_, rest, rfl, scanStep_symbol rfl rest⟩
  | openBracket => exact ⟨_, rest, rfl, scanStep_symbol rfl rest⟩
  | closeBracket => exact ⟨_, rest, rfl, scanStep_symbol rfl rest⟩
  | dot => exact ⟨'.', rest, rfl, scanStep_dot hstop⟩

/-! ## Layouts -/

/-- The texts that lexemes can be laid out as, with blanks between them. Where two of them stand side by
side, the second does not start with a character that the first would take. -/
inductive Layout : List Char → List Token → Prop
  | done : Layout [] []
  | blank {c : Char} {cs : List Char} {ts : List Token} :
      Text.isBlank c = true → Layout cs ts → Layout (c :: cs) ts
  | token {t : Token} {cs : List Char} {ts : List Token} : t.IsLexeme →
      (∀ c ∈ cs.head?, t.absorbs c = false) → Layout cs ts → Layout (t.text ++ cs) (t :: ts)

/-- A layout is scanned into its tokens. -/
theorem Layout.tokenize (h : Layout cs ts) : tokenize cs = .ok ts := by
  induction h with
  | done => exact tokenize_nil
  | blank hblank _ ih =>
    rw [tokenize_cons, scanStep_blank hblank, ok_bind, ih]
    rfl
  | token ht hstop _ ih =>
    obtain ⟨c, cs, htext, hstep⟩ := scanStep_lexeme ht hstop
    rw [htext, tokenize_cons, hstep, ok_bind, ih]
    rfl

/-- Every round leaves less than there was. -/
theorem length_of_scanStep {t? : Option Token} (h : scanStep c cs = .ok (t?, rest)) :
    rest.length < (c :: cs).length := by
  rcases scanStep_eq_ok h with ⟨-, -, rfl⟩ | ⟨t, -, ht, htext, -⟩
  · exact Nat.lt_succ_self _
  · have hpos := List.length_pos_of_ne_nil ht.text_ne_nil
    rw [htext, List.length_append]
    omega

/-- What is true of a text if it is true of what a round leaves of it is true of all texts. -/
theorem scan_induction {p : List Char → Prop} (nil : p [])
    (cons : ∀ c cs, (∀ t? rest, scanStep c cs = .ok (t?, rest) → p rest) → p (c :: cs))
    (cs : List Char) : p cs := by
  induction hlength : cs.length using Nat.strong_induction_on generalizing cs with
  | _ n ih =>
    subst hlength
    cases cs with
    | nil => exact nil
    | cons c cs => exact cons c cs fun t? rest hstep => ih _ (length_of_scanStep hstep) rest rfl

/-- A text that was scanned is a layout of the tokens. -/
theorem layout_of_tokenize (h : tokenize cs = .ok ts) : Layout cs ts := by
  induction cs using scan_induction generalizing ts with
  | nil =>
    rw [tokenize_nil] at h
    cases h
    exact .done
  | cons c cs ih =>
    rw [tokenize_cons] at h
    obtain ⟨⟨t?, rest⟩, hstep, hrest⟩ := bind_eq_ok_iff.1 h
    obtain ⟨tokens, htokens, rfl⟩ := map_eq_ok_iff.1 hrest
    have hlayout := ih t? rest hstep htokens
    rcases scanStep_eq_ok hstep with ⟨hblank, rfl, rfl⟩ | ⟨t, rfl, ht, htext, hstop⟩
    · exact .blank hblank hlayout
    · rw [htext]
      exact .token ht hstop hlayout

/-- The tokens of a text are those that it is a layout of. -/
theorem tokenize_eq_ok_iff : tokenize cs = .ok ts ↔ Layout cs ts :=
  ⟨layout_of_tokenize, Layout.tokenize⟩

/-- The written forms of the tokens are the text without its blanks. -/
theorem Layout.flatMap_text (h : Layout cs ts) :
    ts.flatMap Token.text = cs.filter fun c => !Text.isBlank c := by
  induction h with
  | done => rfl
  | blank hblank _ ih => simp [hblank, ih]
  | @token t cs ts ht _ _ ih =>
    have htext : t.text.filter (fun c => !Text.isBlank c) = t.text := by
      rw [List.filter_eq_self]
      intro c hc
      rw [(ht.of_mem_text hc).2]
      rfl
    rw [List.filter_append, htext, ← ih, List.flatMap_cons]

theorem Layout.legal (h : Layout cs ts) : ∀ c ∈ cs, IsLegal c := by
  induction h with
  | done => simp
  | blank hblank _ ih => exact List.forall_mem_cons.2 ⟨.inl hblank, ih⟩
  | token ht _ _ ih => exact List.forall_mem_append.2 ⟨fun c hc => (ht.of_mem_text hc).1, ih⟩

theorem Spoils.append {fault : Fault} (h : Spoils fault cs) (front : List Char) :
    Spoils fault (front ++ cs) := by
  cases h with
  | character hc hmem => exact .character hc (List.mem_append_right _ hmem)
  | number hrun hparts hcount =>
    exact .number (hrun.trans (List.suffix_append _ _).isInfix) hparts hcount

/-- A text that cannot be scanned is spoiled somewhere. -/
theorem spoils_of_tokenize {fault : Fault} (h : tokenize cs = .error fault) : Spoils fault cs := by
  induction cs using scan_induction with
  | nil =>
    rw [tokenize_nil] at h
    cases h
  | cons c cs ih =>
    rw [tokenize_cons] at h
    rcases bind_eq_error_iff.1 h with hstep | ⟨⟨t?, rest⟩, hstep, hrest⟩
    · exact scanStep_eq_error hstep
    · have hspoils := ih t? rest hstep (map_eq_error_iff.1 hrest)
      rcases scanStep_eq_ok hstep with ⟨-, -, rfl⟩ | ⟨t, -, -, htext, -⟩
      · exact hspoils.append [c]
      · rw [htext]
        exact hspoils.append _

/-! ## All rounds -/

/-- A loop that takes tokens from the front, or nothing if so many rounds are too few. -/
def rounds (step : Char → List Char → Except Fault (Option Token × List Char)) :
    Nat → List Char → Option (Except Fault (List Token))
  | _, [] => some (.ok [])
  | 0, _ :: _ => none
  | n + 1, c :: cs =>
    match step c cs with
    | .error fault => some (.error fault)
    | .ok (t?, rest) => (rounds step n rest).map fun result => result.map (t?.toList ++ ·)

/-- A round for every character is enough. -/
theorem rounds_eq {n : Nat} (h : cs.length ≤ n) : rounds scanStep n cs = some (tokenize cs) := by
  induction n generalizing cs with
  | zero =>
    obtain rfl := List.length_eq_zero_iff.1 (Nat.le_zero.1 h)
    rw [rounds, tokenize_nil]
  | succ n ih =>
    cases cs with
    | nil => rw [rounds, tokenize_nil]
    | cons c cs =>
      rw [rounds, tokenize_cons]
      cases hstep : scanStep c cs with
      | error fault => rfl
      | ok step =>
        have hfewer := length_of_scanStep hstep
        rw [List.length_cons] at hfewer h
        dsimp only
        rw [ih (by omega), ok_bind]
        rfl

/-! ## Gaps -/

/-- Tokens, each of them after a gap, and one more gap at the end. -/
def layOut : List (List Char × Token) → List Char → List Char
  | [], last => last
  | (gap, t) :: pieces, last => gap ++ (t.text ++ layOut pieces last)

/-- Words and numerals do not touch each other, nor does a dot touch a numeral. -/
def Token.needsGap : Token → Token → Bool
  | .word _, .word _ | .word _, .number _ | .number _, .word _ | .number _, .number _ => true
  | .dot, .number _ | .number _, .dot => true
  | _, _ => false

/-- Lexemes with blanks between them, and with one at least where neighbours may not touch. -/
structure IsSpaced (pieces : List (List Char × Token)) (last : List Char) : Prop where
  lexeme : ∀ p ∈ pieces, p.2.IsLexeme
  gap : ∀ p ∈ pieces, ∀ c ∈ p.1, Text.isBlank c = true
  apart : pieces.IsChain fun p q => p.2.needsGap q.2 = true → q.1 ≠ []
  last : ∀ c ∈ last, Text.isBlank c = true

/-- Only what can be part of a word or a number is ever absorbed. -/
theorem Token.not_absorbs (t : Token) (h : isWordPart c = false ∧ isNumberPart c = false) :
    t.absorbs c = false := by
  cases t with
  | number n => exact h.2
  | word name => exact h.1
  | dot => exact (Bool.or_eq_false_iff.1 h.2).1
  | _ => rfl

/-- Neighbours that may touch do not run together. -/
theorem Token.not_absorbs_of_not_needsGap {u : Token} (hu : u.IsLexeme) (h : t.needsGap u = false) :
    ∀ c ∈ u.text.head?, t.absorbs c = false := by
  have hsymbol (hmem : ∀ c ∈ u.text.head?, c ∈ symbols) : ∀ c ∈ u.text.head?, t.absorbs c = false :=
    fun c hc => t.not_absorbs (of_mem_symbols (hmem c hc)).2
  cases u with
  | number n =>
    cases t with
    | number | word | dot => cases h
    | _ => exact fun _ _ => rfl
  | word name =>
    intro c hc
    obtain ⟨word, hname⟩ := List.head?_eq_some_iff.1 hc
    rw [IsLexeme, show name.toList = c :: word from hname, isName, Bool.and_eq_true] at hu
    have hnumber := not_numberPart_of_wordStart hu.1
    cases t with
    | number | word => cases h
    | dot => exact (Bool.or_eq_false_iff.1 hnumber).1
    | _ => rfl
  | dot =>
    rintro _ ⟨⟩
    cases t with
    | number => cases h
    | word => exact (by decide : isWordPart '.' = false)
    | _ => rfl
  | op o => exact hsymbol (by cases o <;> (rintro _ ⟨⟩; decide))
  | _ => exact hsymbol (by rintro _ ⟨⟩; decide)

theorem Layout.gap {gap : List Char} (hgap : ∀ c ∈ gap, Text.isBlank c = true) (h : Layout cs ts) :
    Layout (gap ++ cs) ts := by
  induction gap with
  | nil => exact h
  | cons c gap ih =>
    rw [List.forall_mem_cons] at hgap
    exact .blank hgap.1 (ih hgap.2)

/-- Texts with gaps are layouts. -/
theorem IsSpaced.layout {pieces : List (List Char × Token)} {last : List Char}
    (h : IsSpaced pieces last) : Layout (layOut pieces last) (pieces.map Prod.snd) := by
  induction pieces with
  | nil =>
    have hlast := Layout.gap h.last .done
    rwa [List.append_nil] at hlast
  | cons p pieces ih =>
    obtain ⟨hlexeme, hgap, hapart, hlast⟩ := h
    rw [List.forall_mem_cons] at hlexeme hgap
    refine .gap hgap.1 (.token hlexeme.1 ?_ (ih ⟨hlexeme.2, hgap.2, hapart.tail, hlast⟩))
    intro c hc
    cases pieces with
    | nil => exact p.2.not_absorbs (of_blank (hlast c (List.mem_of_mem_head? hc)))
    | cons q pieces =>
      rw [layOut] at hc
      by_cases hq : q.1 = []
      · obtain ⟨d, text, htext⟩ :=
          List.exists_cons_of_ne_nil (hlexeme.2 q List.mem_cons_self).text_ne_nil
        have hhead : c ∈ q.2.text.head? := by simpa [hq, htext] using hc
        have htouch : p.2.needsGap q.2 = false := Bool.eq_false_of_not_eq_true fun hneeds =>
          (List.isChain_cons_cons.1 hapart).1 hneeds hq
        exact Token.not_absorbs_of_not_needsGap (hlexeme.2 q List.mem_cons_self) htouch c hhead
      · obtain ⟨d, gap, hq⟩ := List.exists_cons_of_ne_nil hq
        obtain rfl : d = c := by simpa [hq] using hc
        exact p.2.not_absorbs (of_blank (hgap.2 q List.mem_cons_self d (by simp [hq])))

/-! ## Rejected lines -/

/-- The faults in how a line is written. The others are found where a reference or an index is resolved. -/
def Fault.isSyntax : Fault → Bool
  | .unknownBand _ | .unknownResult _ | .nonConstantIndex | .indexOutOfRange _ _ | .rangeUnavailable _ =>
    false
  | _ => true

theorem Spoils.isSyntax {fault : Fault} (h : Spoils fault cs) : fault.isSyntax = true := by
  cases h <;> rfl

/-- A character that is not legal spoils any text. -/
theorem exists_spoils_of_not_legal (h : ∃ c ∈ cs, ¬ IsLegal c) :
    ∃ fault, tokenize cs = .error fault ∧ Spoils fault cs := by
  obtain ⟨c, hc, hlegal⟩ := h
  cases htokens : tokenize cs with
  | ok ts => exact absurd ((layout_of_tokenize htokens).legal c hc) hlegal
  | error fault => exact ⟨fault, rfl, spoils_of_tokenize htokens⟩

/-- A line whose body cannot be scanned is reported under its number. -/
theorem bindLines_of_unreadable {ranges : List BandRange} {bands : BandMap} {line left body : List Char}
    {fault : Fault} (hcut : Text.cutAt [':', '='] (Text.trim line) = some (left, body))
    (hname : isName (Text.trim left) = true) (hbody : tokenize body = .error fault) (number : Nat)
    (made : List Binding) (lines : List (List Char)) :
    bindLines ranges bands number made (line :: lines) = .error (.line number fault) := by
  have hline (s : Scope) : bindLine s (Text.trim line) = .error fault :=
    bindLine_eq_error_iff.2 (.unreadable hcut hname hbody)
  have htrim : (Text.trim line).isEmpty = false := by
    refine Bool.eq_false_of_not_eq_true fun hempty => ?_
    rw [List.isEmpty_iff.1 hempty] at hcut
    cases hcut
  rw [bindLines]
  simp only [htrim, Bool.false_eq_true, if_false, hline]

/-- Scanning a layout of lexemes gives back the lexemes, with values that are as near as can be to what the
numerals denote. A text with another character than lexemes have is a syntax error on its line. The tokens
of any text that has some are the text without its blanks, and no more rounds are needed than there are
characters. -/
theorem tokenize_inverts_layout (text : List Char) :
    (∀ pieces last, IsSpaced pieces last → text = layOut pieces last →
      tokenize text = .ok (pieces.map Prod.snd) ∧
      ∀ n, Token.number n ∈ pieces.map Prod.snd → ExactValue.IsNearest n.denoted n.value) ∧
    ((∃ c ∈ text, ¬ IsLegal c) → ∃ fault, tokenize text = .error fault ∧ fault.isSyntax = true ∧
      ∀ ranges bands line left, Text.cutAt [':', '='] (Text.trim line) = some (left, text) →
        isName (Text.trim left) = true → ∀ number made lines,
          bindLines ranges bands number made (line :: lines) = .error (.line number fault)) ∧
    (∀ ts, tokenize text = .ok ts → ts.flatMap Token.text = text.filter fun c => !Text.isBlank c) ∧
    ∀ n, text.length ≤ n → rounds scanStep n text = some (tokenize text) := by
  refine ⟨?_, fun hillegal => ?_, fun ts h => (layout_of_tokenize h).flatMap_text, fun n => rounds_eq⟩
  · rintro pieces last hspaced rfl
    exact ⟨hspaced.layout.tokenize, fun n _ => n.isNearest_value⟩
  · obtain ⟨fault, hfault, hspoils⟩ := exists_spoils_of_not_legal hillegal
    exact ⟨fault, hfault, hspoils.isSyntax, fun ranges bands line left hcut hname =>
      bindLines_of_unreadable hcut hname hfault⟩

/-- Lexemes that touch where they may, and are one blank apart where they may not. -/
def closePieces : List (List Char × Token) :=
  [([], .word "results"), ([], .dot), ([], .word "x2"), ([], .op .mul), ([], .openParen),
    ([], .number ⟨['3'], some ['5']⟩), ([' '], .word "a4"), ([' '], .dot),
    ([' '], .number ⟨[], some ['5']⟩)]

theorem isSpaced_closePieces : IsSpaced closePieces ['\t'] where
  lexeme := by
    have hnumber : (⟨['3'], some ['5']⟩ : Numeral).IsProper ∧ (⟨[], some ['5']⟩ : Numeral).IsProper := by
      simp [Numeral.isProper_pointed_iff]
    have hname : ∀ name ∈ ["results", "x2", "a4"], isName name.toList = true := by decide +kernel
    simpa [closePieces, Token.IsLexeme, hnumber] using hname
  gap := by simp [closePieces, Text.isBlank]
  apart := by decide
  last := by simp [Text.isBlank]

theorem tokenize_inverts_layout_close :
    tokenize "results.x2*(3.5 a4 . .5\t".toList = .ok (closePieces.map Prod.snd) ∧
    ExactValue.IsNearest (7 / 2) (Numeral.value ⟨['3'], some ['5']⟩) ∧
    bindLines [] (BandOrder.map []) 4 [] ["red := 1 % 2".toList] = .error (.line 4 (.badCharacter '%')) ∧
    (closePieces.map Prod.snd).flatMap Token.text = "results.x2*(3.5a4..5".toList ∧
    rounds scanStep 24 "results.x2*(3.5 a4 . .5\t".toList = some (.ok (closePieces.map Prod.snd)) := by
  obtain ⟨hlayout, -, hwritten, hrounds⟩ := tokenize_inverts_layout "results.x2*(3.5 a4 . .5\t".toList
  obtain ⟨htokens, hnearest⟩ := hlayout closePieces ['\t'] isSpaced_closePieces (by decide)
  obtain ⟨fault, hfault, -, hline⟩ :=
    (tokenize_inverts_layout " 1 % 2".toList).2.1 ⟨'%', by decide, by unfold IsLegal; decide⟩
  have hcharacter : tokenize " 1 % 2".toList = .error (.badCharacter '%') := by decide +kernel
  obtain rfl : fault = .badCharacter '%' := by
    rw [hcharacter] at hfault
    cases hfault
    rfl
  have hdenoted : (Numeral.denoted ⟨['3'], some ['5']⟩) = 7 / 2 := by
    have hdigits : Decimal.ofDigits ['3', '5'] = 35 := rfl
    norm_num [Numeral.denoted, Numeral.digits, hdigits]
  refine ⟨htokens, ?_, ?_, ?_, ?_⟩
  · rw [← hdenoted]
    exact hnearest _ (by decide)
  · exact hline [] (BandOrder.map []) "red := 1 % 2".toList "red ".toList (by decide) (by decide) 4 [] []
  · rw [hwritten _ htokens]
    decide
  · rw [hrounds 24 (by decide), htokens]

end RasterTile.Program
