import RasterTile.Proofs.Program.Correctness

/-!
# Scopes that grow

A program is checked against the bands and ranges that are there when it is compiled. If more bands
follow them, or more ranges, or a bound turns up that was missing, then whatever was found is found again
at the same place. So each expression stays admissible and is folded to the same code.
-/
namespace RasterTile

/-- A letter keeps its first position when bands are appended. -/
theorem BandMap.position?_of_prefix {order order' : BandOrder} {b : Band} {i : Nat}
    (h : order <+: order') (hi : order.map.position? b = some i) : order'.map.position? b = some i := by
  obtain ⟨more, rfl⟩ := h
  rw [BandOrder.map, position?_ofOrder, Option.bind_eq_some_iff] at hi ⊢
  obtain ⟨k, hk, hi⟩ := hi
  refine ⟨k, ?_, hi⟩
  obtain ⟨hlt, hb, hfirst⟩ := List.idxOf?_eq_some_iff.1 hk
  refine List.idxOf?_eq_some_iff.2 ⟨by rw [List.length_append]; omega, ?_, fun j hj => ?_⟩
  · rw [List.getElem_append_left hlt, hb]
  · rw [List.getElem_append_left (lt_trans hj hlt)]
    exact hfirst j hj

namespace Program

/-- Each range with both bounds is in the other list, at the same place. -/
def KeepsRanges (ranges ranges' : List BandRange) : Prop :=
  ∀ (i : Nat) (range : BandRange), ranges[i]? = some range → range.isAvailable = true →
    ranges'[i]? = some range

/-- What one scope has, the other has at the same place. A range without both bounds has nothing to
refer to. -/
structure Scope.GrowsTo (s s' : Scope) : Prop where
  count : s.bands.count ≤ s'.bands.count
  position : ∀ b i, s.bands.position? b = some i → s'.bands.position? b = some i
  ranges : KeepsRanges s.ranges s'.ranges
  earlier : s'.earlier = s.earlier

variable {s s' : Scope} {table : Table} {i : Nat} {name : String} {e : Expr}

namespace Scope.GrowsTo

theorem range_of_bounds (h : s.GrowsTo s') {range : BandRange} {low high : UInt32}
    (hrange : s.ranges[i]? = some range) (hbounds : range.bounds = some (low, high)) :
    s'.ranges[i]? = some range := by
  apply h.ranges i range hrange
  rw [BandRange.isAvailable, hbounds]
  rfl

theorem hasEntry (h : s.GrowsTo s') (hentry : s.HasEntry table i) : s'.HasEntry table i := by
  cases table with
  | bands => exact lt_of_lt_of_le hentry h.count
  | low | high =>
    obtain ⟨range, low, high, hrange, hbounds⟩ := hentry
    exact ⟨range, low, high, h.range_of_bounds hrange hbounds, hbounds⟩

theorem bound?_eq (h : s.GrowsTo s') (hentry : s.HasEntry table i) :
    s'.bound? table i = s.bound? table i := by
  cases table with
  | bands => rfl
  | low | high =>
    obtain ⟨range, low, high, hrange, hbounds⟩ := hentry
    simp only [Scope.bound?, hrange, h.range_of_bounds hrange hbounds]

theorem position?_eq (h : s.GrowsTo s') (hi : s.position? name = some i) :
    s'.position? name = some i := by
  obtain ⟨letter, band, hletter, hband, hposition⟩ := position?_eq_some_iff.1 hi
  exact position?_eq_some_iff.2 ⟨letter, band, hletter, hband, h.position band i hposition⟩

/-- An index is replayed with the value it had, so it selects the entry it selected. -/
theorem value?_eq (h : s.GrowsTo s') (he : e.Admissible s) : e.value? s' = e.value? s := by
  induction e with
  | number x => rfl
  | plus e ih => exact ih he
  | negate e ih => rw [Expr.value?, ih he, Expr.value?]
  | binary op l r ihl ihr => rw [Expr.value?, ihl he.1, ihr he.2, Expr.value?]
  | select table e ih =>
    obtain ⟨ha, -, v, hv, n, hn, hentry⟩ := he
    rw [Expr.value?, Expr.value?, ih ha, hv, Option.bind_some, Option.bind_some,
      Expr.index_of_beq hn, h.bound?_eq hentry]
  | position name =>
    obtain ⟨letter, band, i, hletter, hband, hi⟩ := he
    have hposition := position?_eq_some_iff.2 ⟨letter, band, hletter, hband, hi⟩
    rw [Expr.value?, Expr.value?, hposition, h.position?_eq hposition]
  | result name => rfl

/-- References that were admissible stay so. -/
theorem admissible (h : s.GrowsTo s') (he : e.Admissible s) : e.Admissible s' := by
  induction e with
  | number x => trivial
  | plus e ih => exact ih he
  | negate e ih => exact ih he
  | binary op l r ihl ihr => exact ⟨ihl he.1, ihr he.2⟩
  | select table e ih =>
    obtain ⟨ha, hconstant, v, hv, n, hn, hentry⟩ := he
    exact ⟨ih ha, hconstant, v, (h.value?_eq ha).trans hv, n, hn, h.hasEntry hentry⟩
  | position name =>
    obtain ⟨letter, band, i, hletter, hband, hi⟩ := he
    exact ⟨letter, band, i, hletter, hband, h.position band i hi⟩
  | result name =>
    rw [Expr.Admissible, h.earlier]
    exact he

/-- Folding an admissible expression gives the same code. -/
theorem fold_eq (h : s.GrowsTo s') (he : e.Admissible s) : e.fold s' = e.fold s := by
  induction e with
  | number x => rfl
  | plus e ih => exact ih he
  | negate e ih => rw [Expr.fold, h.value?_eq he, ih he, Expr.fold]
  | binary op l r ihl ihr => rw [Expr.fold, h.value?_eq he, ihl he.1, ihr he.2, Expr.fold]
  | select table e => rw [Expr.fold, h.value?_eq he, h.value?_eq he.1, Expr.fold]
  | position name =>
    obtain ⟨letter, band, i, hletter, hband, hi⟩ := he
    have hposition := position?_eq_some_iff.2 ⟨letter, band, hletter, hband, hi⟩
    rw [Expr.fold, Expr.fold, hposition, h.position?_eq hposition]
  | result name => rw [Expr.fold, h.earlier, Expr.fold]

end Scope.GrowsTo

variable {ranges ranges' : List BandRange} {order order' : BandOrder}

/-- A longer order and more ranges give a larger scope. -/
theorem growsTo (horder : order <+: order') (hranges : KeepsRanges ranges ranges')
    (names : List String) :
    Scope.GrowsTo ⟨ranges, order.map, names⟩ ⟨ranges', order'.map, names⟩ where
  count := horder.length_le
  position _ _ := BandMap.position?_of_prefix horder
  ranges := hranges
  earlier := rfl

/-- One binding after the other is made again, under the same names. -/
theorem Binds.grow {names : List String} {sts : List Statement} {bs : List Binding}
    (horder : order <+: order') (hranges : KeepsRanges ranges ranges')
    (h : Binds ranges order.map names sts bs) : Binds ranges' order'.map names sts bs := by
  induction h with
  | nil => exact .nil
  | @cons names st sts bs ha _ ih =>
    have hgrows := growsTo horder hranges names
    rw [← hgrows.fold_eq ha]
    exact .cons (hgrows.admissible ha) ih

/-- A program compiles to the same code where more is there. -/
theorem compile_grow {source : String} {p : Program} (horder : order <+: order')
    (hranges : KeepsRanges ranges ranges') (h : compile source ranges order.map = .ok p) :
    compile source ranges' order'.map = .ok p := by
  obtain ⟨sts, hsays, hbinds, houtputs⟩ := compile_eq_ok_iff.1 h
  exact compile_eq_ok_iff.2 ⟨sts, hsays, hbinds.grow horder hranges, houtputs⟩

/-- A range that was not available may become any other. -/
theorem keepsRanges_set {range : BandRange} (range' : BandRange) (h : ranges[i]? = some range)
    (hmissing : range.isAvailable = false) : KeepsRanges ranges (ranges.set i range') := by
  intro j kept hj havailable
  by_cases hij : i = j
  · subst hij
    rw [h] at hj
    cases hj
    rw [hmissing] at havailable
    cases havailable
  · rw [List.getElem?_set_ne hij, hj]

/-- What compiles for an order and ranges compiles to the same program for an order that goes on from
it, and for ranges that have all that were available. So a validity band behind the others changes
nothing, and neither does any range in the place of one that was not available. -/
theorem compile_extended {source : String} {p : Program}
    (h : compile source ranges order.map = .ok p) :
    (∀ (order' : BandOrder) ranges', order <+: order' → KeepsRanges ranges ranges' →
      compile source ranges' order'.map = .ok p) ∧
    compile source ranges (BandOrder.map (order ++ [.alpha])) = .ok p ∧
    ∀ (i : Nat) (range range' : BandRange), ranges[i]? = some range → range.isAvailable = false →
      compile source (ranges.set i range') order.map = .ok p := by
  refine ⟨?_, ?_, ?_⟩
  · intro order' ranges' horder hranges
    exact compile_grow horder hranges h
  · exact compile_grow (List.prefix_append _ _) (fun _ _ hrange _ => hrange) h
  · intro i range range' hrange hmissing
    exact compile_grow (List.prefix_refl _) (keepsRanges_set range' hrange hmissing) h

/-- A bound is the index of another bound, whose value is an index too; one range is not available. -/
def nestedIndex : String :=
  "red := bands[vmin[vmax[bandmap.r] - 2]]\ngreen := results.red / 2\nblue := vmax[0]"

def nestedIndexCompiled : Program where
  bindings := [⟨"red", .slot 1⟩, ⟨"green", .binary .div (.result 0) (.number 2)⟩, ⟨"blue", .number 2⟩]
  red := 0
  green := 1
  blue := 2
  alpha := none

theorem compile_extended_nestedIndex :
    compile nestedIndex [⟨some 1, some 2⟩, ⟨none, some 7⟩] (BandOrder.map [.red, .green]) =
        .ok nestedIndexCompiled ∧
      compile nestedIndex [⟨some 1, some 2⟩, ⟨some 3, some 9⟩, ⟨some 0, none⟩]
        (BandOrder.map [.red, .green, .alpha, .red]) = .ok nestedIndexCompiled := by
  have hc : compile nestedIndex [⟨some 1, some 2⟩, ⟨none, some 7⟩] (BandOrder.map [.red, .green]) =
      .ok nestedIndexCompiled := by decide +kernel
  refine ⟨hc, (compile_extended hc).1 _ _ ⟨[.alpha, .red], rfl⟩ ?_⟩
  intro i range hrange havailable
  match i with
  | 0 => exact hrange
  | 1 =>
    cases hrange
    cases havailable
  | i + 2 => cases hrange

end Program
end RasterTile
