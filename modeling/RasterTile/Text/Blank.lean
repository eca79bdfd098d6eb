/-!
# Blanks, trimming and lines

The blank characters are those of Unicode's `White_Space` property. Text is
handled as a list of characters, so that cutting it is ordinary list recursion.
-/
namespace RasterTile.Text

/-- The `White_Space` characters, in code point order. -/
def isBlank (c : Char) : Bool :=
  (0x09 ≤ c.toNat && c.toNat ≤ 0x0d) || c.toNat == 0x20 || c.toNat == 0x85 || c.toNat == 0xa0 ||
  c.toNat == 0x1680 || (0x2000 ≤ c.toNat && c.toNat ≤ 0x200a) || c.toNat == 0x2028 ||
  c.toNat == 0x2029 || c.toNat == 0x202f || c.toNat == 0x205f || c.toNat == 0x3000

def trimStart (cs : List Char) : List Char := cs.dropWhile isBlank

def trimEnd (cs : List Char) : List Char := (cs.reverse.dropWhile isBlank).reverse

def trim (cs : List Char) : List Char := trimEnd (trimStart cs)

/-- The pieces between separators, of which there is always one more than separators. -/
def splitOn {α : Type} [DecidableEq α] (sep : α) : List α → List (List α)
  | [] => [[]]
  | c :: cs =>
    if c = sep then [] :: splitOn sep cs
    else match splitOn sep cs with
      | [] => [[c]]
      | piece :: pieces => (c :: piece) :: pieces

/-- The text that follows `lead`, if the text starts with it. -/
def afterLead : (lead cs : List Char) → Option (List Char)
  | [], cs => some cs
  | _ :: _, [] => none
  | l :: ls, c :: cs => if l = c then afterLead ls cs else none

/-- The text before and after the first occurrence of `mark`. -/
def cutAt (mark : List Char) : List Char → Option (List Char × List Char)
  | [] => (afterLead mark []).map (([], ·))
  | c :: cs =>
    match afterLead mark (c :: cs) with
    | some rest => some ([], rest)
    | none => (cutAt mark cs).map fun (before, rest) => (c :: before, rest)

@[simp] theorem afterLead_append (lead cs : List Char) : afterLead lead (lead ++ cs) = some cs := by
  induction lead with
  | nil => rfl
  | cons l ls ih => simp [afterLead, ih]

theorem eq_append_of_afterLead {lead cs rest : List Char} (h : afterLead lead cs = some rest) :
    cs = lead ++ rest := by
  induction lead generalizing cs with
  | nil => simpa [afterLead] using h
  | cons l ls ih =>
    cases cs with
    | nil => simp [afterLead] at h
    | cons c cs =>
      by_cases hc : l = c
      · subst hc
        simp only [afterLead, if_true] at h
        simp [ih h]
      · simp [afterLead, hc] at h

/-- Cutting loses nothing but the mark. -/
theorem eq_append_of_cutAt {mark cs before rest : List Char}
    (h : cutAt mark cs = some (before, rest)) : cs = before ++ mark ++ rest := by
  induction cs generalizing before with
  | nil =>
    simp only [cutAt, Option.map_eq_some_iff, Prod.mk.injEq] at h
    obtain ⟨r, hr, rfl, rfl⟩ := h
    simpa using eq_append_of_afterLead hr
  | cons c cs ih =>
    simp only [cutAt] at h
    split at h
    · rename_i r hr
      simp only [Option.some.injEq, Prod.mk.injEq] at h
      obtain ⟨rfl, rfl⟩ := h
      simpa using eq_append_of_afterLead hr
    · simp only [Option.map_eq_some_iff, Prod.mk.injEq] at h
      obtain ⟨⟨b, r⟩, hb, rfl, rfl⟩ := h
      simp [ih hb]

end RasterTile.Text
