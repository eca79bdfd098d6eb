import RasterTile.Text.Blank

/-!
# Bands

A band is named by a lower-case letter. A band order lists the bands of a tile as they are stored;
a band map answers at which position a letter first stands. The map is a table of one entry per
letter, and positions are single bytes: a band beyond position 255 cannot be addressed by letter.
-/
namespace RasterTile

structure Band where
  letter : Char
  isLower : letter.isLower = true
  deriving DecidableEq, Repr

namespace Band

def ofChar? (c : Char) : Option Band := if h : c.isLower = true then some ⟨c, h⟩ else none

def red : Band := ⟨'r', by decide⟩
def green : Band := ⟨'g', by decide⟩
def blue : Band := ⟨'b', by decide⟩
def alpha : Band := ⟨'a', by decide⟩

theorem letter_bounds (b : Band) : 97 ≤ b.letter.toNat ∧ b.letter.toNat ≤ 122 := by
  have h : (decide (97 ≤ b.letter.val) && decide (b.letter.val ≤ 122)) = true := b.isLower
  simp only [Bool.and_eq_true, decide_eq_true_eq, UInt32.le_iff_toNat_le] at h
  exact h

def place (b : Band) : Fin 26 :=
  ⟨b.letter.toNat - 97, by have := b.letter_bounds; omega⟩

theorem place_injective {a b : Band} (h : a.place = b.place) : a = b := by
  have ha := a.letter_bounds
  have hb := b.letter_bounds
  simp only [place, Fin.mk.injEq] at h
  have hn : a.letter.toNat = b.letter.toNat := by omega
  have hc : a.letter = b.letter := Char.ext (UInt32.toNat_inj.mp hn)
  cases a; cases b; simp_all

end Band

abbrev BandOrder := List Band

namespace BandOrder

inductive Fault where
  | notABand (letter : Char)
  | noBands (text : String)
  deriving DecidableEq, Repr

/-- The order that is assumed when none is given. -/
def rgba : BandOrder := [.red, .green, .blue, .alpha]

def text (order : BandOrder) : String := String.ofList (order.map Band.letter)

def ofChar (c : Char) : Except Fault Band :=
  match Band.ofChar? c with
  | some b => .ok b
  | none => .error (.notABand c)

/-- Blanks, commas and hyphens between the letters are skipped; at least one letter is needed. -/
def parse (text : String) : Except Fault BandOrder := do
  let letters := text.toList.filter fun c => !(Text.isBlank c || c == ',' || c == '-')
  let order ← letters.mapM ofChar
  if order.isEmpty then throw (.noBands text) else return order

end BandOrder

structure BandMap where
  /-- The position of each letter, in alphabetical order. -/
  positions : Vector (Option UInt8) 26
  count : Nat
  deriving DecidableEq, Repr

namespace BandMap

def entry (i : Nat) : Option UInt8 := if i < 256 then some (UInt8.ofNat i) else none

/-- Enters bands from position `i` on; an entry that is already there stays. -/
def enter (i : Nat) : List Band → Vector (Option UInt8) 26 → Vector (Option UInt8) 26
  | [], table => table
  | b :: order, table =>
    enter (i + 1) order (table.set b.place (table[b.place].or (entry i)))

def ofOrder (order : BandOrder) : BandMap := ⟨enter 0 order (Vector.replicate 26 none), order.length⟩

def position? (m : BandMap) (b : Band) : Option Nat := m.positions[b.place].map UInt8.toNat

/-- A band's value in a pixel; a band without a slot reads as zero. -/
def value [Zero α] (m : BandMap) (pixel : List α) (b : Band) : α :=
  ((m.position? b).bind (pixel[·]?)).getD 0

end BandMap

def BandOrder.map (order : BandOrder) : BandMap := .ofOrder order

end RasterTile
