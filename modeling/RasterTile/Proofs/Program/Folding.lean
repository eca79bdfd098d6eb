import RasterTile.Proofs.Program.Grammar
import RasterTile.Proofs.WholeNumber

/-!
# Side conditions and constant folding

Everything but raw values and earlier results has a value before any pixel is seen. An expression
is admissible in a scope if every reference in it meets its side condition, and its folded form has
a number in place of each part with such a value. What the parser checks and builds at a reference
or an operation is exactly this, given that it was so for the parts.
-/
namespace RasterTile.Program

def index (v : Float) : Nat := v.toUInt64.toNat

def Scope.position? (s : Scope) (name : String) : Option Nat :=
  match name.toList with
  | [letter] => (Band.ofChar? letter).bind s.bands.position?
  | _ => none

/-- The bound at an index; raw values have none. -/
def Scope.bound? (s : Scope) : Table → Nat → Option UInt32
  | .bands, _ => none
  | .low, i => (s.ranges[i]?.bind BandRange.bounds).map Prod.fst
  | .high, i => (s.ranges[i]?.bind BandRange.bounds).map Prod.snd

def Scope.HasEntry (s : Scope) : Table → Nat → Prop
  | .bands, i => i < s.bands.count
  | .low, i | .high, i => ∃ range low high, s.ranges[i]? = some range ∧
      range.bounds = some (low, high)

namespace Expr

/-- Whether no raw value and no result is referred to. -/
def isConstant : Expr → Bool
  | .number _ | .position _ => true
  | .result _ => false
  | .plus e | .negate e => e.isConstant
  | .binary _ l r => l.isConstant && r.isConstant
  | .select table e => table != .bands && e.isConstant

/-- The value that is known before any pixel is seen. -/
def value? (s : Scope) : Expr → Option Float
  | .number x => some x
  | .plus e => e.value? s
  | .negate e => (e.value? s).map (- ·)
  | .binary op l r => (l.value? s).bind fun x => (r.value? s).map fun y => op.apply x y
  | .select table e => (e.value? s).bind fun v => (s.bound? table (index v)).map UInt32.toFloat
  | .position name => (s.position? name).map Float.ofNat
  | .result _ => none

/-- Every reference meets its side condition: an index is constant and equals a 32-bit number at
which the table has an entry, a position is that of a known band, and a result is an earlier one. -/
def Admissible (s : Scope) : Expr → Prop
  | .number _ => True
  | .plus e | .negate e => e.Admissible s
  | .binary _ l r => l.Admissible s ∧ r.Admissible s
  | .select table e => e.Admissible s ∧ e.isConstant = true ∧ ∃ v, e.value? s = some v ∧
      ∃ n : UInt32, (n.toFloat == v) = true ∧ s.HasEntry table n.toNat
  | .position name => ∃ letter band i, name.toList = [letter] ∧ Band.ofChar? letter = some band ∧
      s.bands.position? band = some i
  | .result name => name ∈ s.earlier

/-- The folded form: a number wherever the value is known, else an operation on folded forms. -/
def fold (s : Scope) : Expr → Code
  | .number x => .number x
  | .plus e => e.fold s
  | .negate e => ((Expr.negate e).value? s).elim (.negate (e.fold s)) .number
  | .binary op l r =>
    ((Expr.binary op l r).value? s).elim (.binary op (l.fold s) (r.fold s)) .number
  | .select table e =>
    ((Expr.select table e).value? s).elim (.slot ((e.value? s).elim 0 index)) .number
  | .position name => .number ((s.position? name).elim 0 Float.ofNat)
  | .result name => .result ((Parser.lastIndex? name s.earlier).getD 0)

end Expr

variable {s : Scope}

theorem bound?_isSome {table : Table} {i : Nat} (h : s.HasEntry table i) :
    (s.bound? table i).isSome = (table != .bands) := by
  cases table with
  | bands => rfl
  | low =>
    obtain ⟨range, low, high, hr, hb⟩ := h
    simp [Scope.bound?, hr, hb]
  | high =>
    obtain ⟨range, low, high, hr, hb⟩ := h
    simp [Scope.bound?, hr, hb]

/-- Only raw values have no bound. -/
theorem eq_bands_of_bound?_eq_none {table : Table} {i : Nat} (h : s.HasEntry table i)
    (hb : s.bound? table i = none) : table = .bands := by
  have htable := bound?_isSome h
  rw [hb] at htable
  cases table with
  | bands => rfl
  | low | high => cases htable

/-- Only names of one letter are those of bands. -/
theorem position?_eq_some_iff {name : String} {i : Nat} :
    s.position? name = some i ↔ ∃ letter band, name.toList = [letter] ∧
      Band.ofChar? letter = some band ∧ s.bands.position? band = some i := by
  unfold Scope.position?
  split
  · rename_i letter hn
    simp [hn, Option.bind_eq_some_iff]
  · rename_i hn
    simp only [reduceCtorEq, false_iff]
    rintro ⟨letter, band, hl, -⟩
    exact hn letter hl

namespace Expr

theorem index_of_beq {n : UInt32} {v : Float} (h : (n.toFloat == v) = true) :
    index v = n.toNat := ((WholeNumber.index_iff v n.toNat).2 ⟨n, h, rfl⟩).2

/-- The folded form of an entry: a bound is a number, and a raw value a slot. -/
theorem fold_select {table : Table} {e : Expr} {v : Float} {n : UInt32} (hv : e.value? s = some v)
    (hn : (n.toFloat == v) = true) :
    (Expr.select table e).fold s =
      (s.bound? table n.toNat).elim (.slot n.toNat) fun b => .number b.toFloat := by
  rw [fold, value?, hv, Option.bind_some, index_of_beq hn]
  cases s.bound? table n.toNat with
  | none => rw [Option.map_none, Option.elim_none, Option.elim_some, index_of_beq hn, Option.elim_none]
  | some b => rfl

/-- Exactly the constant expressions have a value once all references are found. -/
theorem isSome_value? {e : Expr} (h : e.Admissible s) : (e.value? s).isSome = e.isConstant := by
  induction e with
  | number x => rfl
  | plus e ih => exact ih h
  | negate e ih => simpa [value?, isConstant] using ih h
  | binary op l r ihl ihr =>
    rw [isConstant, ← ihl h.1, ← ihr h.2, value?]
    cases l.value? s <;> cases r.value? s <;> rfl
  | select table e ih =>
    obtain ⟨_, hc, v, hv, n, hn, hentry⟩ := h
    rw [isConstant, hc, value?, hv, Option.bind_some, Option.isSome_map, index_of_beq hn,
      bound?_isSome hentry, Bool.and_true]
  | position name =>
    obtain ⟨letter, band, i, hl, hb, hi⟩ := h
    simp [value?, isConstant, position?_eq_some_iff.2 ⟨letter, band, hl, hb, hi⟩]
  | result name => rfl

theorem fold_of_value? {e : Expr} {v : Float} (h : e.value? s = some v) :
    e.fold s = .number v := by
  induction e with
  | number x => simpa [value?, fold] using h
  | plus e ih => exact ih h
  | negate e => rw [fold, h]; rfl
  | binary op l r => rw [fold, h]; rfl
  | select table e => rw [fold, h]; rfl
  | position name =>
    obtain ⟨i, hi, rfl⟩ := Option.map_eq_some_iff.1 h
    rw [fold, hi]; rfl
  | result name => exact absurd h (by simp [value?])

theorem fold_ne_number {e : Expr} (h : e.Admissible s) (hn : e.value? s = none) (v : Float) :
    e.fold s ≠ .number v := by
  induction e with
  | number x => simp [value?] at hn
  | plus e ih => exact ih h hn
  | negate e => rw [fold, hn]; simp
  | binary op l r => rw [fold, hn]; simp
  | select table e => rw [fold, hn]; simp
  | position name =>
    have hs := isSome_value? h
    rw [hn] at hs
    simp [isConstant] at hs
  | result name => simp [fold]

/-- An admissible expression folds to a number only if its value is known. -/
theorem fold_eq_number_iff {e : Expr} (h : e.Admissible s) {v : Float} :
    e.fold s = .number v ↔ e.value? s = some v := by
  constructor
  · intro hf
    cases hv : e.value? s with
    | none => exact absurd hf (fold_ne_number h hv v)
    | some w =>
      rw [fold_of_value? hv] at hf
      cases hf
      rfl
  · exact fold_of_value?

theorem fold_negate {e : Expr} (h : e.Admissible s) :
    (Expr.negate e).fold s = Code.neg (e.fold s) := by
  cases hv : e.value? s with
  | some v =>
    rw [fold_of_value? hv, fold, value?, hv]
    rfl
  | none =>
    have hne := fold_ne_number h hv
    rw [fold, value?, hv]
    cases hf : e.fold s with
    | number v => exact absurd hf (hne v)
    | slot | result | negate | binary => rfl

theorem fold_binary {op : Operator} {l r : Expr} (hl : l.Admissible s) (hr : r.Admissible s) :
    (Expr.binary op l r).fold s = Code.bin op (l.fold s) (r.fold s) := by
  cases hx : l.value? s with
  | none =>
    have hne := fold_ne_number hl hx
    rw [fold, value?, hx]
    cases hf : l.fold s with
    | number v => exact absurd hf (hne v)
    | slot | result | negate | binary => rfl
  | some x =>
    rw [fold_of_value? hx, fold, value?, hx]
    cases hy : r.value? s with
    | some y => rw [fold_of_value? hy]; rfl
    | none =>
      have hne := fold_ne_number hr hy
      cases hf : r.fold s with
      | number v => exact absurd hf (hne v)
      | slot | result | negate | binary => simp [Code.bin, fold_of_value? hx]

end Expr

theorem lastIndex?_eq_none_iff {name : String} {names : List String} :
    Parser.lastIndex? name names = none ↔ name ∉ names := by
  induction names with
  | nil => simp [Parser.lastIndex?]
  | cons n names ih =>
    simp only [Parser.lastIndex?, List.mem_cons, not_or]
    cases hl : Parser.lastIndex? name names with
    | some i =>
      rw [hl] at ih
      have hm : name ∈ names := by simpa using ih
      simp [hm]
    | none =>
      have hm := ih.1 hl
      by_cases hn : n = name
      · simp [hn]
      · simp [hn, hm, Ne.symm hn]

theorem lastIndex?_concat (name n : String) (names : List String) :
    Parser.lastIndex? name (names ++ [n]) =
      if n = name then some names.length else Parser.lastIndex? name names := by
  induction names with
  | nil => rfl
  | cons m names ih =>
    rw [List.cons_append, Parser.lastIndex?, ih, Parser.lastIndex?]
    by_cases hn : n = name
    · rw [if_pos hn, if_pos hn]
      rfl
    · rw [if_neg hn, if_neg hn]

theorem lastIndex?_lt {name : String} {names : List String} {i : Nat}
    (h : Parser.lastIndex? name names = some i) : i < names.length := by
  induction names generalizing i with
  | nil => cases h
  | cons n names ih =>
    rw [Parser.lastIndex?] at h
    cases hl : Parser.lastIndex? name names with
    | some k =>
      rw [hl] at h
      cases h
      have hk := ih hl
      simp only [List.length_cons]
      omega
    | none =>
      rw [hl] at h
      by_cases hn : n = name
      · rw [if_pos hn] at h
        cases h
        simp
      · rw [if_neg hn] at h
        cases h

theorem position_number_eq_ok_iff {table : Table} {v : Float} {i : Nat} :
    Parser.position table (.number v) = .ok i ↔
      ∃ n : UInt32, (n.toFloat == v) = true ∧ n.toNat = i := by
  rw [← WholeNumber.index_iff, Parser.position]
  split
  · rename_i h
    simp [h]
  · rename_i h
    simp [h]

/-- An index has to be a constant that equals a number of 32 bits. -/
theorem position_eq_ok_iff {table : Table} {c : Code} {i : Nat} :
    Parser.position table c = .ok i ↔
      ∃ v, c = .number v ∧ ∃ n : UInt32, (n.toFloat == v) = true ∧ n.toNat = i := by
  cases c with
  | number v => simp [position_number_eq_ok_iff]
  | slot | result | negate | binary => simp [Parser.position]

/-- An entry is selected if it is there. -/
theorem select_eq_ok_iff {table : Table} {i : Nat} {c : Code} :
    Parser.select s table i = .ok c ↔ s.HasEntry table i ∧
      (s.bound? table i).elim (.slot i) (fun b => .number b.toFloat) = c := by
  cases table with
  | bands =>
    simp only [Parser.select, Parser.slot, Scope.HasEntry, Scope.bound?, Option.elim_none]
    split
    · rename_i h
      simp [h]
    · rename_i h
      simp [h]
  | low | high =>
    simp only [Parser.select, Parser.rangeBound, Scope.HasEntry, Scope.bound?]
    cases hr : s.ranges[i]? with
    | none => simp
    | some range =>
      cases hb : range.bounds with
      | none => simp [hb]
      | some bounds =>
        obtain ⟨low, high⟩ := bounds
        simp [hb]

/-- What the parser does with the folded form of an index. -/
theorem select_fold {table : Table} {e : Expr} {c : Code} (h : e.Admissible s) :
    (∃ i, Parser.position table (e.fold s) = .ok i ∧ Parser.select s table i = .ok c) ↔
      (Expr.select table e).Admissible s ∧ (Expr.select table e).fold s = c := by
  simp only [position_eq_ok_iff, select_eq_ok_iff, Expr.fold_eq_number_iff h]
  constructor
  · rintro ⟨i, ⟨v, hv, n, hn, rfl⟩, hentry, rfl⟩
    have hc : e.isConstant = true := by rw [← Expr.isSome_value? h, hv]; rfl
    exact ⟨⟨h, hc, v, hv, n, hn, hentry⟩, Expr.fold_select hv hn⟩
  · rintro ⟨⟨_, _, v, hv, n, hn, hentry⟩, rfl⟩
    exact ⟨n.toNat, ⟨v, hv, n, hn, rfl⟩, hentry, (Expr.fold_select hv hn).symm⟩

theorem bandPosition_eq {name : String} :
    Parser.bandPosition s name =
      (s.position? name).elim (.error (.unknownBand name)) fun i =>
        .ok (.number (Float.ofNat i)) := by
  unfold Parser.bandPosition Scope.position?
  rcases name.toList with _ | ⟨letter, _ | ⟨_, _⟩⟩
  · rfl
  · dsimp only
    cases (Band.ofChar? letter).bind s.bands.position? <;> rfl
  · rfl

/-- The position of a band is known if the band is. -/
theorem bandPosition_eq_ok_iff {name : String} {c : Code} :
    Parser.bandPosition s name = .ok c ↔
      (Expr.position name).Admissible s ∧ (Expr.position name).fold s = c := by
  rw [bandPosition_eq, Expr.fold]
  constructor
  · intro hc
    cases hi : s.position? name with
    | none => simp [hi] at hc
    | some i =>
      obtain ⟨letter, band, hl, hb, hm⟩ := position?_eq_some_iff.1 hi
      refine ⟨⟨letter, band, i, hl, hb, hm⟩, ?_⟩
      rw [hi] at hc
      cases hc
      rfl
  · rintro ⟨⟨letter, band, i, hl, hb, hm⟩, rfl⟩
    rw [position?_eq_some_iff.2 ⟨letter, band, hl, hb, hm⟩]
    rfl

/-- A result is read if an earlier line binds it. -/
theorem earlierResult_eq_ok_iff {name : String} {c : Code} :
    Parser.earlierResult s name = .ok c ↔
      (Expr.result name).Admissible s ∧ (Expr.result name).fold s = c := by
  simp only [Parser.earlierResult, Expr.Admissible, Expr.fold]
  cases hl : Parser.lastIndex? name s.earlier with
  | none => simp [lastIndex?_eq_none_iff.1 hl]
  | some i =>
    have hm : name ∈ s.earlier := by
      by_contra hn
      rw [lastIndex?_eq_none_iff.2 hn] at hl
      cases hl
    simp [hm]

end RasterTile.Program
