import RasterTile.Text.Raw
import Mathlib

/-!
# Raw text as text

A text that is kept as bytes is shown as it was. What is shown of other bytes may have characters that do
not stand there, but a slash is shown only for a slash, and no other character has one among its bytes.
So a name stays a single name when it is shown and when it is kept. In front of a slash or a dot, a text
can be cut off.
-/
namespace RasterTile.RawText

variable {bytes : List UInt8} {byte : UInt8} {c : Char} {a b d : RawText} {s : String}

theorem bytes_ofText (s : String) : (ofText s).bytes = s.toList.flatMap String.utf8EncodeChar := by
  rw [ofText, ← String.utf8Encode_toList, List.utf8Encode]
  simp

/-- Bytes that belong to the character before are passed over. -/
theorem chars_append (front rest : List UInt8) :
    chars front.length (front ++ rest) = chars 0 rest := by
  induction front with
  | nil => rfl
  | cons b front ih => rw [List.cons_append, List.length_cons, chars, ih]

/-- The bytes of a character are shown as that character. -/
theorem chars_utf8EncodeChar (c : Char) (rest : List UInt8) :
    chars 0 (String.utf8EncodeChar c ++ rest) = c :: chars 0 rest := by
  have hdecode : (String.utf8EncodeChar c ++ rest).toByteArray.utf8DecodeChar? 0 = some c := by
    rw [List.toByteArray_append]
    exact ByteArray.utf8DecodeChar?_utf8EncodeChar_append
  have hlength := String.length_utf8EncodeChar c
  cases hbytes : String.utf8EncodeChar c with
  | nil => exact absurd hbytes String.utf8EncodeChar_ne_nil
  | cons b others =>
    rw [hbytes] at hdecode hlength
    rw [List.cons_append] at hdecode ⊢
    rw [chars, hdecode]
    dsimp only
    rw [← hlength, List.length_cons, Nat.add_sub_cancel, chars_append]

/-- A text that is kept as bytes is shown as it was. -/
theorem text_ofText (s : String) : (ofText s).text = s := by
  have hchars (cs : List Char) : chars 0 (cs.flatMap String.utf8EncodeChar) = cs := by
    induction cs with
    | nil => rfl
    | cons c cs ih => rw [List.flatMap_cons, chars_utf8EncodeChar, ih]
  rw [text, bytes_ofText, hchars, String.ofList_toList]

theorem ofText_injective : Function.Injective ofText :=
  Function.LeftInverse.injective text_ofText

/-- Two bytes that begin no character look the same. -/
example : (⟨[0xfe]⟩ : RawText) ≠ ⟨[0xff]⟩ ∧ text ⟨[0xfe]⟩ = text ⟨[0xff]⟩ := by decide +kernel

/-! ## Slashes -/

/-- A slash is shown only for a slash. -/
theorem slash_mem_of_mem_chars {skip : Nat} (h : '/' ∈ chars skip bytes) : slash ∈ bytes := by
  induction bytes generalizing skip with
  | nil =>
    rw [chars] at h
    cases h
  | cons b rest ih =>
    cases skip with
    | succ skip =>
      rw [chars] at h
      exact List.mem_cons_of_mem _ (ih h)
    | zero =>
      rw [chars] at h
      split at h
      · rename_i c hdecode
        rcases List.mem_cons.1 h with rfl | h
        · obtain ⟨others, hothers⟩ := ByteArray.exists_of_utf8DecodeChar?_eq_some hdecode
          have hslash : String.utf8EncodeChar '/' = [slash] := by decide
          have hbytes := congrArg (·.data.toList) hothers
          simp only [List.data_toByteArray, ByteArray.data_append, Array.toList_append] at hbytes
          rw [hslash, List.singleton_append] at hbytes
          exact List.mem_cons.2 (.inl (List.cons.inj hbytes).1.symm)
        · exact List.mem_cons_of_mem _ (ih h)
      · rcases List.mem_cons.1 h with h | h
        · exact absurd h (by decide)
        · exact List.mem_cons_of_mem _ (ih h)

/-- All bytes of a character beyond ASCII are large. -/
theorem le_of_mem_utf8EncodeChar (hc : 127 < c.toNat) :
    ∀ b ∈ String.utf8EncodeChar c, 128 ≤ b.toNat := by
  change 127 < c.val.toNat at hc
  unfold String.utf8EncodeChar
  dsimp only
  rw [if_neg (by omega)]
  split_ifs
  all_goals
    simp only [List.forall_mem_cons, List.not_mem_nil, false_implies, implies_true, and_true,
      UInt8.toNat_ofNat']
    omega

/-- A byte of ASCII is the only one of its character, and tells which it is. -/
theorem utf8EncodeChar_of_mem (hmem : byte ∈ String.utf8EncodeChar c) (hascii : byte.toNat ≤ 127) :
    String.utf8EncodeChar c = [byte] ∧ c.toNat = byte.toNat := by
  by_cases hlarge : 127 < c.toNat
  · have hle := le_of_mem_utf8EncodeChar hlarge byte hmem
    omega
  · have hone : String.utf8EncodeChar c = [UInt8.ofNat c.toNat] := if_pos (Nat.not_lt.1 hlarge)
    rw [hone, List.mem_singleton] at hmem
    have hnat := congrArg UInt8.toNat hmem
    rw [UInt8.toNat_ofNat', Nat.mod_eq_of_lt (by omega)] at hnat
    exact ⟨hmem ▸ hone, hnat.symm⟩

/-- A slash is among the bytes of a text only for a slash. -/
theorem mem_of_slash_mem_ofText (h : slash ∈ (ofText s).bytes) : '/' ∈ s.toList := by
  rw [bytes_ofText] at h
  obtain ⟨c, hc, hslash⟩ := List.mem_flatMap.1 h
  have hsame : c.toNat = '/'.toNat := (utf8EncodeChar_of_mem hslash (by decide)).2
  rwa [Char.toNat_inj.1 hsame] at hc

/-! ## Texts among raw texts -/

/-- Whether bytes are those of a text. -/
def IsText (r : RawText) : Prop := ∃ s, r = ofText s

theorem isText_iff :
    (⟨bytes⟩ : RawText).IsText ↔ ∃ cs : List Char, bytes = cs.flatMap String.utf8EncodeChar := by
  constructor
  · rintro ⟨s, hs⟩
    exact ⟨s.toList, by rw [← bytes_ofText, ← hs]⟩
  · rintro ⟨cs, rfl⟩
    refine ⟨String.ofList cs, ?_⟩
    rw [← String.toList_ofList (l := cs), ← bytes_ofText, String.toList_ofList]

/-- What stands in front of a byte of ASCII in a text is a text. -/
theorem IsText.before {front back : List UInt8} (h : (⟨front ++ byte :: back⟩ : RawText).IsText)
    (hascii : byte.toNat ≤ 127) : (⟨front⟩ : RawText).IsText := by
  obtain ⟨cs, hcs⟩ := isText_iff.1 h
  rw [isText_iff]
  clear h
  induction cs generalizing front with
  | nil => simp at hcs
  | cons c cs ih =>
    rw [List.flatMap_cons, List.append_eq_append_iff] at hcs
    rcases hcs with ⟨others, hchar, hrest⟩ | ⟨others, rfl, hrest⟩
    · -- the front ends in the first character; if the byte is of that character, there is no other
      cases others with
      | nil => exact ⟨[c], by simpa using hchar.symm⟩
      | cons b others =>
        obtain ⟨rfl, -⟩ := List.cons.inj hrest
        have hmem : byte ∈ String.utf8EncodeChar c := by simp [hchar]
        rw [(utf8EncodeChar_of_mem hmem hascii).1] at hchar
        cases front with
        | nil => exact ⟨[], rfl⟩
        | cons d front => simp at hchar
    · obtain ⟨ds, rfl⟩ := ih hrest.symm
      exact ⟨c :: ds, rfl⟩

/-! ## Order -/

theorem le_refl (a : RawText) : a ≤ a := List.le_refl a.bytes

theorem le_trans (hab : a ≤ b) (hbd : b ≤ d) : a ≤ d := List.le_trans hab hbd

theorem le_total (a b : RawText) : a ≤ b ∨ b ≤ a := List.le_total a.bytes b.bytes

end RasterTile.RawText
