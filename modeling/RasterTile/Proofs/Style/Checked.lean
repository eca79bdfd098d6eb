import RasterTile.Style
import Mathlib

/-!
# Styles with every access checked

A style reads slots, results, table entries and curve entries by position, and where nothing stands
it goes on with a default. Here nothing is made up: a place that does not exist, and a slot that cannot
be written, leave no result at all. When all positions are within their bounds, the checked style does
what the style does.
-/
namespace RasterTile.Checked

variable {α : Type}

/-- New values for the leading slots, all of which have to be there. -/
def write : (slots values : List α) → Option (List α)
  | slots, [] => some slots
  | [], _ :: _ => none
  | _ :: slots, v :: values => (write slots values).map (v :: ·)

def last : (size : Nat) → Option Nat
  | 0 => none
  | size + 1 => some size

/-- The raw value of one of so many bands; the slots after them are none. -/
def raw (bands : Nat) (slots : List Float) (i : Nat) : Option Float :=
  if i < bands then slots[i]? else none

/-! ## Programs -/

def code (bands : Nat) (slots results : List Float) : Program.Code → Option Float
  | .number x => some x
  | .slot i => raw bands slots i
  | .result i => results[i]?
  | .negate e => (code bands slots results e).map (- ·)
  | .binary op l r => (code bands slots results l).bind fun x =>
    (code bands slots results r).map fun y => op.apply x y

def results (bands : Nat) (slots known : List Float) : List Binding → Option (List Float)
  | [] => some known
  | b :: rest => (code bands slots known b.code).bind fun v =>
    results bands slots (known ++ [v]) rest

def outputs (p : Program) : List Nat := [p.red, p.green, p.blue] ++ p.alpha.toList

def program (bands : Nat) (slots : List Float) (p : Program) : Option (List Float) := do
  let results ← results bands slots [] p.bindings
  let colors ← (outputs p).mapM (results[·]?)
  write slots (colors.map Rounding.down)

/-! ## Lookup tables -/

def channel (bands : Nat) (slots : List Float) (c : LookupTable.Channel) : Option Float := do
  let raw ← raw bands slots c.position
  let last ← last c.entries.size
  c.entries[Scalar.index last (Rounding.down (c.factor * (raw - c.low)))]?

def table (bands : Nat) (slots : List Float) (b : LookupTable.Bound) : Option (List Float) := do
  let red ← channel bands slots b.red
  let green ← channel bands slots b.green
  let blue ← channel bands slots b.blue
  write slots [red, green, blue]

/-! ## Presets -/

section Presets

variable [Scalar α]

/-- An empty curve has an output without having entries. -/
def curve (c : Curve α) (x : α) : Option α :=
  match last c.values.size with
  | none => some 0
  | some last => c.values[Scalar.index last x]?

def stretch (top : α) : List (Curve α) → List α → Option (List α)
  | c :: curves, x :: slots => (curve c x).bind fun y =>
    (stretch top curves slots).map (y * top :: ·)
  | _, slots => some slots

/-- A band that the map does not have reads as zero, and so does one without a slot: that much a
preset leaves open. -/
def preset (p : Preset) (bands : BandMap) (slots : List α) : Option (List α) :=
  if slots.length < 4 then some slots
  else do
    let x ← slots[0]?
    let y ← slots[1]?
    let z ← slots[2]?
    let (r, g, b) := p.color bands slots x y z
    write slots [r, g, b, Scalar.nat (if Preset.isValid bands slots then p.opaqueAlpha else 0)]

def configured (c : ConfiguredPreset α) (bands : BandMap) (slots : List α) : Option (List α) := do
  let painted ← preset c.preset (c.readBands.getD bands) slots
  let stretched ← c.curves.elim (some painted) fun s => stretch s.top (s.curves.take 3) painted
  let scaled := ConfiguredPreset.rescale c.scale stretched
  return c.color.elim scaled (·.apply scaled)

end Presets

def style (bands : BandMap) (slots : List Float) : Style → Option (List Float)
  | .preset s => configured s bands slots
  | .program p => program bands.count slots p
  | .table b => table bands.count slots b

/-! ## Writing -/

theorem exists_four {slots : List α} (h : 4 ≤ slots.length) :
    ∃ x y z w rest, slots = x :: y :: z :: w :: rest := by
  rcases slots with _ | ⟨x, _ | ⟨y, _ | ⟨z, _ | ⟨w, rest⟩⟩⟩⟩
  · cases h
  · simp at h
  · simp at h
  · simp at h
  · exact ⟨x, y, z, w, rest, rfl⟩

theorem last_eq {size : Nat} (h : size ≠ 0) : last size = some (size - 1) := by
  cases size with
  | zero => exact absurd rfl h
  | succ size => rfl

theorem raw_eq {bands i : Nat} {slots : List Float} (hi : i < bands) (hslots : bands ≤ slots.length) :
    raw bands slots i = some (slots[i]?.getD 0) := by
  rw [raw, if_pos hi, List.getElem?_eq_getElem (lt_of_lt_of_le hi hslots)]
  rfl

end RasterTile.Checked

namespace RasterTile

/-! ## Positions within their bounds -/

/-- Slots below the number of bands, and results below the number of those known. -/
def Program.Code.Within (bands known : Nat) : Program.Code → Prop
  | .number _ => True
  | .slot i => i < bands
  | .result i => i < known
  | .negate e => e.Within bands known
  | .binary _ l r => l.Within bands known ∧ r.Within bands known

/-- Each binding reads bands and earlier bindings only, and each output is some binding. -/
structure Program.Within (bands : Nat) (p : Program) : Prop where
  bindings : ∀ (k : Nat) (b : Binding), p.bindings[k]? = some b → b.code.Within bands k
  outputs : ∀ i ∈ Checked.outputs p, i < p.bindings.length

/-- A channel reads a band, and no raw value leads outside of its entries. -/
structure LookupTable.Channel.Within (bands : Nat) (c : LookupTable.Channel) : Prop where
  position : c.position < bands
  nonempty : 0 < c.entries.size
  index : ∀ raw, c.index raw < c.entries.size

/-- What is known of a style before it sees a pixel. A preset has nothing of the kind. -/
def Style.Within (bands : Nat) : Style → Prop
  | .preset _ => True
  | .program p => p.Within bands
  | .table b => b.red.Within bands ∧ b.green.Within bands ∧ b.blue.Within bands

namespace Checked

variable {bands : Nat} {slots : List Float}

/-! ## Programs -/

/-- Code that reads known slots and results only is evaluated without a gap. -/
theorem code_eq {results : List Float} {c : Program.Code} (h : c.Within bands results.length)
    (hslots : bands ≤ slots.length) : code bands slots results c = some (c.eval slots results) := by
  induction c with
  | number x => rfl
  | slot i => exact raw_eq h hslots
  | result i =>
    have hi : i < results.length := h
    rw [code, Program.Code.eval, List.getElem?_eq_getElem hi]
    rfl
  | negate e ih =>
    rw [code, ih h]
    rfl
  | binary op l r ihl ihr =>
    rw [code, ihl h.1, ihr h.2]
    rfl

/-- Each binding finds the results of those before it. -/
theorem results_eq {known : List Float} {bs : List Binding}
    (h : ∀ (k : Nat) (b : Binding), bs[k]? = some b → b.code.Within bands (known.length + k))
    (hslots : bands ≤ slots.length) :
    results bands slots known bs = some (Program.evaluate slots known bs) := by
  induction bs generalizing known with
  | nil => rfl
  | cons b bs ih =>
    -- one result more is known, and the positions of the rest are one less
    have hrest : ∀ (k : Nat) (b' : Binding), bs[k]? = some b' →
        b'.code.Within bands ((known ++ [b.code.eval slots known]).length + k) := by
      intro k b' hb'
      have hk := h (k + 1) b' hb'
      rw [List.length_append, List.length_singleton, Nat.add_assoc, Nat.add_comm 1]
      exact hk
    rw [results, code_eq (h 0 b rfl) hslots, Option.bind_some, ih hrest]
    rfl

theorem length_evaluate (known : List Float) (bs : List Binding) :
    (Program.evaluate slots known bs).length = known.length + bs.length := by
  induction bs generalizing known with
  | nil => rfl
  | cons b bs ih =>
    rw [Program.evaluate, ih, List.length_append, List.length_singleton, List.length_cons]
    omega

/-- A program within its bounds runs without a fallback. -/
theorem program_eq {p : Program} (h : p.Within bands) (hslots : bands ≤ slots.length)
    (hfour : 4 ≤ slots.length) : program bands slots p = some (p.apply slots) := by
  have hresults : results bands slots [] p.bindings =
      some (Program.evaluate slots [] p.bindings) :=
    results_eq (fun k b hb => by simpa using h.bindings k b hb) hslots
  have hwritten (i : Nat) (hi : i ∈ outputs p) :
      ∃ v, (Program.evaluate slots [] p.bindings)[i]? = some v := by
    have hlength : (Program.evaluate slots [] p.bindings).length = p.bindings.length := by
      rw [length_evaluate, List.length_nil, Nat.zero_add]
    exact ⟨_, List.getElem?_eq_getElem (hlength ▸ h.outputs i hi)⟩
  obtain ⟨r, hr⟩ := hwritten p.red (by simp [outputs])
  obtain ⟨g, hg⟩ := hwritten p.green (by simp [outputs])
  obtain ⟨b, hb⟩ := hwritten p.blue (by simp [outputs])
  obtain ⟨x, y, z, w, rest, rfl⟩ := exists_four hfour
  cases ha : p.alpha with
  | none => simp [program, hresults, Program.apply, outputs, ha, hr, hg, hb, write, Pixel.overwrite]
  | some i =>
    obtain ⟨a, hi⟩ := hwritten i (by simp [outputs, ha])
    simp [program, hresults, Program.apply, outputs, ha, hr, hg, hb, hi, write, Pixel.overwrite]

/-! ## Lookup tables -/

theorem channel_eq {c : LookupTable.Channel} (h : c.Within bands) (hslots : bands ≤ slots.length) :
    channel bands slots c = some (c.output slots) := by
  rw [channel, raw_eq h.position hslots, last_eq c.entries_ne]
  exact Array.getElem?_eq_getElem (c.index_lt _)

/-- A table within its bounds is read without a fallback, whatever the raw values are. -/
theorem table_eq {b : LookupTable.Bound} (hr : b.red.Within bands) (hg : b.green.Within bands)
    (hb : b.blue.Within bands) (hslots : bands ≤ slots.length) (hfour : 4 ≤ slots.length) :
    table bands slots b = some (b.apply slots) := by
  rw [table, channel_eq hr hslots, channel_eq hg hslots, channel_eq hb hslots]
  obtain ⟨x, y, z, a, rest, rfl⟩ := exists_four hfour
  change write (x :: y :: z :: a :: rest) [_, _, _] = _
  simp only [write, Option.map_some]
  rfl

/-! ## Presets -/

section Presets

variable {α : Type} [Scalar α]

/-- Whatever the raw value is, it leads to an entry, if the curve has any. -/
theorem curve_eq (c : Curve α) (x : α) : curve c x = some (c.lookup x) := by
  unfold curve Curve.lookup
  by_cases hsize : c.values.size = 0
  · have hempty : c.values = #[] := Array.eq_empty_of_size_eq_zero hsize
    rw [hempty]
    rfl
  · have hindex : Scalar.index (c.values.size - 1) x < c.values.size := by
      have hle := Scalar.index_le (c.values.size - 1) x
      omega
    rw [last_eq hsize]
    dsimp only
    rw [Array.getElem?_eq_getElem hindex]
    rfl

theorem stretch_eq (top : α) (curves : List (Curve α)) (slots : List α) :
    stretch top curves slots = some (Pixel.overwrite slots
      (List.zipWith (fun c x => some (c.lookup x * top)) curves slots)) := by
  induction curves generalizing slots with
  | nil => simp [stretch]
  | cons c curves ih =>
    cases slots with
    | nil => rfl
    | cons x slots =>
      rw [stretch, curve_eq, Option.bind_some, ih]
      rfl

/-- A preset writes slots that are there. -/
theorem preset_eq (p : Preset) (bands : BandMap) (slots : List α) :
    preset p bands slots = some (p.apply bands slots) := by
  rcases slots with _ | ⟨x, _ | ⟨y, _ | ⟨z, _ | ⟨a, rest⟩⟩⟩⟩
  · rfl
  · rfl
  · rfl
  · rfl
  · have hfour : ¬ (x :: y :: z :: a :: rest).length < 4 := by simp
    rw [preset, if_neg hfour]
    change write (x :: y :: z :: a :: rest) [_, _, _, _] = _
    simp only [write, Option.map_some]
    rfl

/-- A configured preset never leaves the slots and the curves, whatever it is made from. -/
theorem configured_eq (c : ConfiguredPreset α) (bands : BandMap) (slots : List α) :
    configured c bands slots = some (c.apply bands slots) := by
  rw [configured, preset_eq]
  unfold ConfiguredPreset.apply
  cases c.curves with
  | none => rfl
  | some s =>
    dsimp only [Option.elim_some]
    change (stretch s.top (s.curves.take 3) _ >>= _) = _
    rw [stretch_eq]
    rfl

end Presets

end Checked
end RasterTile
