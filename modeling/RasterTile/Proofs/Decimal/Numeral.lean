import RasterTile.Style.Program.Lexer
import RasterTile.Proofs.DecimalFraction
import RasterTile.Proofs.Text

/-!
# Numerals and their texts

A proper numeral is digits with at most one point among them and at least one digit. These texts and no
others are read as numerals, each as the one that it is written from; digits and points that are no numeral
have more than one point. The value of a numeral is the double nearest to the number that it denotes.
-/
namespace RasterTile.Numeral

open Program (isNumberPart)

variable {n : Numeral} {cs : List Char}

def digits (n : Numeral) : List Char := n.whole ++ n.fraction.getD []

/-- There are digits, and nothing else beside the point. -/
structure IsProper (n : Numeral) : Prop where
  nonempty : n.digits ≠ []
  digit : ∀ c ∈ n.digits, c.isDigit = true

theorem isProper_whole_iff {whole : List Char} :
    (⟨whole, none⟩ : Numeral).IsProper ↔ whole ≠ [] ∧ ∀ c ∈ whole, c.isDigit = true := by
  constructor
  · rintro ⟨hnonempty, hdigit⟩
    simp only [digits, Option.getD_none, List.append_nil] at hnonempty hdigit
    exact ⟨hnonempty, hdigit⟩
  · rintro ⟨hnonempty, hdigit⟩
    constructor <;> simpa [digits]

theorem isProper_pointed_iff {whole fraction : List Char} :
    (⟨whole, some fraction⟩ : Numeral).IsProper ↔ ¬ (whole = [] ∧ fraction = []) ∧
      (∀ c ∈ whole, c.isDigit = true) ∧ ∀ c ∈ fraction, c.isDigit = true := by
  rw [← List.append_eq_nil_iff, ← List.forall_mem_append]
  constructor
  · rintro ⟨hnonempty, hdigit⟩
    exact ⟨hnonempty, hdigit⟩
  · rintro ⟨hnonempty, hdigit⟩
    exact ⟨hnonempty, hdigit⟩

/-- A number never takes in anything else than digits and points. -/
theorem isNumberPart_iff {c : Char} : isNumberPart c = true ↔ c.isDigit = true ∨ c = '.' := by
  simp [isNumberPart]

theorem not_mem_point {cs : List Char} (h : ∀ c ∈ cs, c.isDigit = true) : '.' ∉ cs := by
  intro hmem
  cases h _ hmem

theorem digit_of_part {part : List Char} (hcs : ∀ c ∈ cs, isNumberPart c = true) (hpart : part ⊆ cs)
    (hpoint : '.' ∉ part) : ∀ c ∈ part, c.isDigit = true := fun c hc =>
  (isNumberPart_iff.1 (hcs c (hpart hc))).resolve_right fun heq => hpoint (heq ▸ hc)

/-- With one point at most a text is cut at it, and with more it is no numeral. -/
theorem ofText?_cases (cs : List Char) :
    ('.' ∉ cs ∧ ofText? cs = if cs.isEmpty then none else some ⟨cs, none⟩) ∨
    (∃ whole fraction, cs = whole ++ '.' :: fraction ∧ '.' ∉ whole ∧ '.' ∉ fraction ∧
      ofText? cs = if whole.isEmpty && fraction.isEmpty then none else some ⟨whole, some fraction⟩) ∨
    2 ≤ cs.count '.' ∧ ofText? cs = none := by
  by_cases hpoint : '.' ∈ cs
  · obtain ⟨whole, fraction, rfl, hwhole⟩ := List.eq_append_cons_of_mem hpoint
    by_cases hsecond : '.' ∈ fraction
    · obtain ⟨middle, rest, rfl, hmiddle⟩ := List.eq_append_cons_of_mem hsecond
      refine .inr (.inr ⟨by simp; omega, ?_⟩)
      rw [ofText?, Text.splitOn_append hwhole, Text.splitOn_append hmiddle]
      cases hrest : Text.splitOn '.' rest with
      | nil => exact absurd hrest (Text.splitOn_ne_nil _ _)
      | cons piece pieces => rfl
    · refine .inr (.inl ⟨whole, fraction, rfl, hwhole, hsecond, ?_⟩)
      rw [ofText?, Text.splitOn_append hwhole, Text.splitOn_of_not_mem hsecond]
  · exact .inl ⟨hpoint, by rw [ofText?, Text.splitOn_of_not_mem hpoint]⟩

/-- A proper numeral is read from what it is written as. -/
theorem IsProper.ofText?_text (h : n.IsProper) : ofText? n.text = some n := by
  obtain ⟨whole, _ | fraction⟩ := n
  · obtain ⟨hnonempty, hdigit⟩ := isProper_whole_iff.1 h
    rw [text, ofText?, Text.splitOn_of_not_mem (not_mem_point hdigit)]
    simpa using hnonempty
  · obtain ⟨hnonempty, hwhole, hfraction⟩ := isProper_pointed_iff.1 h
    rw [text, ofText?, Text.splitOn_append (not_mem_point hwhole),
      Text.splitOn_of_not_mem (not_mem_point hfraction)]
    simpa using hnonempty

/-- What is read as a numeral is written like it. -/
theorem ofText?_eq_some (hcs : ∀ c ∈ cs, isNumberPart c = true) (h : ofText? cs = some n) :
    n.IsProper ∧ n.text = cs := by
  rcases ofText?_cases cs with ⟨hpoint, hread⟩ | ⟨whole, fraction, rfl, hwhole, hfraction, hread⟩ |
    ⟨-, hread⟩
  · rw [h] at hread
    split at hread
    · cases hread
    · rename_i hnonempty
      cases hread
      rw [List.isEmpty_iff] at hnonempty
      exact ⟨isProper_whole_iff.2 ⟨hnonempty, digit_of_part hcs (fun _ => id) hpoint⟩, rfl⟩
  · rw [h] at hread
    split at hread
    · cases hread
    · rename_i hnonempty
      cases hread
      rw [Bool.and_eq_true, List.isEmpty_iff, List.isEmpty_iff] at hnonempty
      exact ⟨isProper_pointed_iff.2 ⟨hnonempty, digit_of_part hcs (by simp) hwhole,
        digit_of_part hcs (by simp) hfraction⟩, rfl⟩
  · cases h.symm.trans hread

/-- Digits and points that are no numeral have too many points. -/
theorem ofText?_eq_none (hcs : ∃ c ∈ cs, c.isDigit = true) (h : ofText? cs = none) :
    2 ≤ cs.count '.' := by
  obtain ⟨c, hc, hdigit⟩ := hcs
  rcases ofText?_cases cs with ⟨-, hread⟩ | ⟨whole, fraction, rfl, -, -, hread⟩ | ⟨hcount, -⟩
  · rw [h] at hread
    split at hread
    · simp_all
    · cases hread
  · rw [h] at hread
    split at hread
    · rename_i hempty
      rw [Bool.and_eq_true, List.isEmpty_iff, List.isEmpty_iff] at hempty
      obtain ⟨rfl, rfl⟩ := hempty
      cases List.mem_singleton.1 hc
      cases hdigit
    · cases hread
  · exact hcount

theorem digits_subset_text (n : Numeral) : n.digits ⊆ n.text := by
  obtain ⟨whole, _ | fraction⟩ := n
  · simp [digits, text]
  · intro c hc
    rw [text, List.mem_append, List.mem_cons]
    exact (List.mem_append.1 hc).imp_right .inr

theorem IsProper.text_ne_nil (h : n.IsProper) : n.text ≠ [] := by
  obtain ⟨c, hc⟩ := List.exists_mem_of_ne_nil _ h.nonempty
  exact List.ne_nil_of_mem (n.digits_subset_text hc)

theorem IsProper.text_parts (h : n.IsProper) : ∀ c ∈ n.text, isNumberPart c = true := by
  intro c hc
  rw [isNumberPart_iff]
  obtain ⟨whole, _ | fraction⟩ := n
  · exact .inl ((isProper_whole_iff.1 h).2 c hc)
  · obtain ⟨-, hwhole, hfraction⟩ := isProper_pointed_iff.1 h
    rw [text, List.mem_append, List.mem_cons] at hc
    rcases hc with hc | hc | hc
    · exact .inl (hwhole c hc)
    · exact .inr hc
    · exact .inl (hfraction c hc)

/-! ## Values -/

def denoted (n : Numeral) : ℚ := Decimal.ofDigits n.digits / 10 ^ (n.fraction.getD []).length

/-- Cutting the exponent down changes nothing here: it is no smaller than the digits allow. -/
theorem value_eq (n : Numeral) : n.value = Float.ofScientific (Decimal.ofDigits n.digits)
    (0 < (n.fraction.getD []).length) (n.fraction.getD []).length := by
  have hlength : (n.fraction.getD []).length ≤ n.digits.length := by simp [digits]
  have hexponent : max (-(400 + (n.digits.length : Int)))
      (min (-((n.fraction.getD []).length : Int)) 400) = -((n.fraction.getD []).length : Int) := by
    omega
  change Float.ofScientific (Decimal.ofDigits n.digits)
    (max (-(400 + (n.digits.length : Int))) (min (-((n.fraction.getD []).length : Int)) 400) < 0 : Bool)
    (max (-(400 + (n.digits.length : Int)))
      (min (-((n.fraction.getD []).length : Int)) 400)).natAbs = _
  rw [hexponent, Int.natAbs_neg, Int.natAbs_natCast]
  simp only [Int.neg_neg_iff_pos, Int.natCast_pos]

/-- A numeral has the value that is nearest to the number it denotes. -/
theorem isNearest_value (n : Numeral) : ExactValue.IsNearest n.denoted n.value := by
  rw [value_eq, denoted]
  generalize (n.fraction.getD []).length = k
  rcases Nat.eq_zero_or_pos k with rfl | hk
  · rw [pow_zero, div_one]
    exact ExactValue.isNearest_ofNat _
  · rw [decide_eq_true hk]
    exact ExactValue.isNearest_ofScientific _ hk

end RasterTile.Numeral
