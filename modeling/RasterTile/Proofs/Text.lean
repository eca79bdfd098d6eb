import RasterTile.Decimal.Numeral
import Mathlib

/-!
# Pieces of text

What cutting at a separator and trimming do to text that is known, and what digits read back as.
-/
namespace RasterTile.Text

/-! ## Separators -/

section

variable {α : Type} [DecidableEq α] {sep : α} {piece cs : List α} {pieces : List (List α)}

theorem splitOn_of_not_mem (h : sep ∉ piece) : splitOn sep piece = [piece] := by
  induction piece with
  | nil => rfl
  | cons c cs ih =>
    rw [List.mem_cons, not_or] at h
    rw [splitOn, if_neg (Ne.symm h.1), ih h.2]

/-- A piece ends at the first separator. -/
theorem splitOn_append (h : sep ∉ piece) (rest : List α) :
    splitOn sep (piece ++ sep :: rest) = piece :: splitOn sep rest := by
  induction piece with
  | nil => rw [List.nil_append, splitOn, if_pos rfl]
  | cons c cs ih =>
    rw [List.mem_cons, not_or] at h
    rw [List.cons_append, splitOn, if_neg (Ne.symm h.1), ih h.2]

theorem splitOn_ne_nil (sep : α) (cs : List α) : splitOn sep cs ≠ [] := by
  cases cs with
  | nil => simp [splitOn]
  | cons c cs =>
    rw [splitOn]
    split
    · simp
    · split <;> simp

theorem not_mem_of_mem_splitOn : ∀ piece ∈ splitOn sep cs, sep ∉ piece := by
  induction cs with
  | nil => simp [splitOn]
  | cons c cs ih =>
    rw [splitOn]
    by_cases hc : c = sep
    · rw [if_pos hc]
      simpa using ih
    · rw [if_neg hc]
      cases hpieces : splitOn sep cs with
      | nil => exact absurd hpieces (splitOn_ne_nil sep cs)
      | cons first pieces =>
        rw [hpieces] at ih
        simp only [List.mem_cons, forall_eq_or_imp] at ih ⊢
        exact ⟨not_or.2 ⟨Ne.symm hc, ih.1⟩, ih.2⟩

/-- What stands before the first separator. -/
theorem takeWhile_ne (h : sep ∉ piece) (rest : List α) :
    (piece ++ sep :: rest).takeWhile (· ≠ sep) = piece := by
  rw [List.takeWhile_append_of_pos]
  · simp
  · intro c hc
    simpa using fun heq : c = sep => h (heq ▸ hc)

/-- The last piece starts after the last separator. -/
theorem splitOn_append_last (h : sep ∉ piece) (front : List α) :
    splitOn sep (front ++ sep :: piece) = splitOn sep front ++ [piece] := by
  induction front with
  | nil =>
    have hfirst : splitOn sep (sep :: piece) = [] :: splitOn sep piece := if_pos rfl
    rw [List.nil_append, hfirst, splitOn_of_not_mem h]
    rfl
  | cons c front ih =>
    rw [List.cons_append, splitOn, splitOn, ih]
    by_cases hc : c = sep
    · rw [if_pos hc, if_pos hc, List.cons_append]
    · rw [if_neg hc, if_neg hc]
      cases hpieces : splitOn sep front with
      | nil => exact absurd hpieces (splitOn_ne_nil sep front)
      | cons first pieces => rfl

/-- Pieces that are put together with separators come apart again. -/
theorem splitOn_intercalate (hne : pieces ≠ []) (h : ∀ piece ∈ pieces, sep ∉ piece) :
    splitOn sep ([sep].intercalate pieces) = pieces := by
  induction pieces with
  | nil => exact absurd rfl hne
  | cons piece pieces ih =>
    rw [List.forall_mem_cons] at h
    cases pieces with
    | nil => simpa using splitOn_of_not_mem h.1
    | cons next pieces =>
      rw [List.intercalate_cons_cons, List.append_assoc, List.singleton_append,
        splitOn_append h.1, ih (List.cons_ne_nil _ _) h.2]

end

/-! ## Trimming -/

theorem trim_of_not_blank {cs : List Char} (h : ∀ c ∈ cs, isBlank c = false) : trim cs = cs := by
  have hstart : trimStart cs = cs := by
    cases cs with
    | nil => rfl
    | cons c cs =>
      have hc := h c (by simp)
      simp [trimStart, hc]
  rw [trim, hstart]
  cases hr : cs.reverse with
  | nil =>
    rw [trimEnd, hr]
    exact (List.reverse_eq_nil_iff.1 hr).symm
  | cons c rest =>
    have hc := h c (by rw [← List.mem_reverse, hr]; simp)
    rw [trimEnd, hr, List.dropWhile_cons, hc]
    simp [← hr]

/-! ## Blanks around a text -/

variable {before core after cs : List Char}

theorem trimStart_append (h : ∀ c ∈ before, isBlank c = true) (cs : List Char) :
    trimStart (before ++ cs) = trimStart cs :=
  List.dropWhile_append_of_pos h

theorem trimStart_of_head (h : ∀ c ∈ cs.head?, isBlank c = false) : trimStart cs = cs := by
  cases cs with
  | nil => rfl
  | cons c cs => exact List.dropWhile_cons_of_neg (by rw [h c rfl]; exact Bool.false_ne_true)

theorem trimEnd_append (h : ∀ c ∈ after, isBlank c = true) (cs : List Char) :
    trimEnd (cs ++ after) = trimEnd cs := by
  rw [trimEnd, List.reverse_append, List.dropWhile_append_of_pos, trimEnd]
  simpa using h

theorem trim_of_blank (h : ∀ c ∈ cs, isBlank c = true) : trim cs = [] := by
  have hstart := trimStart_append h []
  rw [List.append_nil] at hstart
  rw [trim, hstart]
  rfl

/-- What stands between blanks is all that trimming leaves. -/
theorem trim_padded (hbefore : ∀ c ∈ before, isBlank c = true)
    (hcore : ∀ c ∈ core, isBlank c = false) (hafter : ∀ c ∈ after, isBlank c = true) :
    trim (before ++ (core ++ after)) = core := by
  have hwhole : trim (before ++ (core ++ after)) = trim (core ++ after) := by
    rw [trim, trimStart_append hbefore, trim]
  rw [hwhole]
  cases core with
  | nil => exact trim_of_blank hafter
  | cons c core =>
    have hstart (rest : List Char) : trimStart (c :: core ++ rest) = c :: core ++ rest := by
      refine trimStart_of_head fun d hd => hcore d ?_
      rw [← Option.some.inj hd]
      exact List.mem_cons_self
    have hown := trim_of_not_blank hcore
    rw [trim, ← List.append_nil (c :: core), hstart, List.append_nil] at hown
    rw [trim, hstart, trimEnd_append hafter, hown]

end RasterTile.Text

namespace RasterTile.Decimal

theorem digit_bounds {c : Char} (h : c.isDigit = true) : 48 ≤ c.toNat ∧ c.toNat ≤ 57 := by
  simp only [Char.isDigit, ge_iff_le, Bool.and_eq_true, decide_eq_true_eq,
    UInt32.le_iff_toNat_le] at h
  exact h

theorem not_blank_of_digit {c : Char} (h : c.isDigit = true) : Text.isBlank c = false := by
  have hc := digit_bounds h
  unfold Text.isBlank
  simp only [Bool.or_eq_false_iff, Bool.and_eq_false_iff, decide_eq_false_iff_not,
    beq_eq_false_iff_ne]
  omega

theorem digit_of_mem {n : Nat} {c : Char} (h : c ∈ Nat.toDigits 10 n) : c.isDigit = true :=
  Nat.isDigit_of_mem_toDigits (by decide) (by decide) h

theorem not_mem_of_isDigits {cs : List Char} {d : Char} (h : isDigits cs = true)
    (hd : d.isDigit = false) : d ∉ cs := by
  intro hmem
  rw [isDigits, Bool.and_eq_true, List.all_eq_true] at h
  rw [h.2 d hmem] at hd
  cases hd

/-- Digits read back as their number if it is below `2 ^ 64`, zeros in front or not. -/
theorem readWord?_digits {cs : List Char} (h : isDigits cs = true) (hn : ofDigits cs < 2 ^ 64) :
    readWord? cs = some (ofDigits cs) := by
  unfold readWord?
  split
  · exact absurd List.mem_cons_self (not_mem_of_isDigits (d := '+') h (by decide))
  · simp only [h, Bool.true_and, decide_eq_true_eq]
    exact if_pos hn

theorem ofDigits_toDigits (n : Nat) : ofDigits (Nat.toDigits 10 n) = n :=
  Nat.ofDigitChars_ten_toDigits

theorem isDigits_toDigits (n : Nat) : isDigits (Nat.toDigits 10 n) = true := by
  simp only [isDigits, Bool.and_eq_true, Bool.not_eq_true', List.isEmpty_eq_false_iff,
    List.all_eq_true]
  exact ⟨Nat.toDigits_ne_nil, fun _ => digit_of_mem⟩

end RasterTile.Decimal
