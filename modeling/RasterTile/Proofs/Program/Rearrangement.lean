import RasterTile.Proofs.ExactValue
import RasterTile.Proofs.Program.Correctness

/-!
# Programs that name their bands

A program that uses positions of bands for nothing but indices, and nothing but positions of bands as
indices, says by letter which raw values and ranges it wants. Where the bands are stored does not show
in it: for another order of the same bands it is admissible too, each of its expressions has the same
value, and what it writes is the same.
-/
namespace RasterTile.Program

/-- Whether each index is the position of a band, and no position stands anywhere else. -/
def Expr.isByLetter : Expr → Bool
  | .number _ | .result _ => true
  | .plus e | .negate e => e.isByLetter
  | .binary _ l r => l.isByLetter && r.isByLetter
  | .select _ (.position _) => true
  | .select .. | .position _ => false

def ByLetter (source : String) : Prop :=
  ∀ sts, Says source sts → ∀ st ∈ sts, st.expr.isByLetter = true

theorem byLetter_of_says {source : String} {sts : List Statement} (h : Says source sts)
    (hletter : ∀ st ∈ sts, st.expr.isByLetter = true) : ByLetter source := by
  intro sts' h'
  rw [← h.unique h']
  exact hletter

theorem Spells.ofFactor {ts : List Token} {e : Expr} (h : Spells .factor ts e) : Spells .sum ts e := by
  have hsum := Spells.sum (.product h .productEnd) .sumEnd
  rwa [List.append_nil, List.append_nil] at hsum

/-- Every table has the position of a band for an index. -/
def lettered : String :=
  "red := bands[bandmap.r] - vmin[bandmap.r]\ngreen := vmax[bandmap.b]\nblue := bands[bandmap.b]"

theorem byLetter_lettered : ByLetter lettered := by
  have hat (table : Table) (name : String) : Spells .factor
      [.word table.word, .openBracket, .word "bandmap", .dot, .word name, .closeBracket]
      (.select table (.position name)) := Spells.select (Spells.ofFactor .position)
  have hred := Spells.sum (.product (hat .bands "r") .productEnd)
    (.sumMore (show Operator.sub.isTight = false from rfl)
      (.product (hat .low "r") .productEnd) .sumEnd)
  have hsays : Says lettered
      [⟨"red", .binary .sub (.select .bands (.position "r")) (.select .low (.position "r"))⟩,
        ⟨"green", .select .high (.position "b")⟩, ⟨"blue", .select .bands (.position "b")⟩] := by
    refine .cons ⟨_, _, _, rfl, rfl, rfl, ?_, hred⟩
      (.cons ⟨_, _, _, rfl, rfl, rfl, ?_, .ofFactor (hat .high "b")⟩
        (.cons ⟨_, _, _, rfl, rfl, rfl, ?_, .ofFactor (hat .bands "b")⟩ .nil))
    · decide +kernel
    · decide +kernel
    · decide +kernel
  exact byLetter_of_says hsays (by decide)

variable {order order' : BandOrder} {ranges ranges' : List BandRange} {pixel : List Float}
  {names : List String} {name : String} {table : Table} {e : Expr} {env : Environment} {i : Nat}

/-! ## Positions as indices -/

theorem Expr.exists_position_of_isByLetter (h : (Expr.select table e).isByLetter = true) :
    ∃ name, e = .position name := by
  cases e with
  | position name => exact ⟨name, rfl⟩
  | _ => cases h

/-- A position is a byte, so it is a whole number that is converted without loss. -/
theorem position?_lt_size {s : Scope} (h : s.position? name = some i) : i < 256 := by
  obtain ⟨_, _, -, -, hi⟩ := position?_eq_some_iff.1 h
  obtain ⟨entry, -, rfl⟩ := Option.map_eq_some_iff.1 hi
  exact entry.toNat_lt

theorem toNat_ofNat_of_position (hi : i < 256) : (UInt32.ofNat i).toNat = i :=
  UInt32.toNat_ofNat_of_lt (by change i < 4294967296; omega)

/-- The double of a position equals one 32-bit number. -/
theorem toFloat_beq_ofNat_iff (hi : i < 256) (n : UInt32) :
    (n.toFloat == Float.ofNat i) = true ↔ n.toNat = i := by
  have hsmall : i < 2 ^ 53 := by omega
  rw [ExactValue.ofNat_eq_whole hsmall, WholeNumber.toFloat_uint32]
  constructor
  · intro h
    have hself : (WholeNumber.whole i == WholeNumber.whole i) = true :=
      WholeNumber.whole_beq_self hsmall
    rw [← WholeNumber.toUInt64_of_whole_beq (by have := n.toNat_lt; omega) h,
      WholeNumber.toUInt64_of_whole_beq hsmall hself]
  · rintro rfl
    exact WholeNumber.whole_beq_self hsmall

theorem index_ofNat (hi : i < 256) : index (Float.ofNat i) = i := by
  have hword := toNat_ofNat_of_position hi
  rw [Expr.index_of_beq ((toFloat_beq_ofNat_iff hi _).2 hword), hword]

/-- The side condition of an index that is the position of a band. -/
theorem admissible_select_position_iff {s : Scope} :
    (Expr.select table (.position name)).Admissible s ↔
      ∃ i, s.position? name = some i ∧ s.HasEntry table i := by
  constructor
  · rintro ⟨_, -, v, hv, n, hn, hentry⟩
    obtain ⟨i, hi, rfl⟩ := Option.map_eq_some_iff.1 hv
    refine ⟨i, hi, ?_⟩
    rwa [(toFloat_beq_ofNat_iff (position?_lt_size hi) n).1 hn] at hentry
  · rintro ⟨i, hi, hentry⟩
    have hlt := position?_lt_size hi
    have hword := toNat_ofNat_of_position hlt
    obtain ⟨letter, band, hl, hb, hp⟩ := position?_eq_some_iff.1 hi
    exact ⟨⟨letter, band, i, hl, hb, hp⟩, rfl, Float.ofNat i, by rw [Expr.value?, hi]; rfl,
      UInt32.ofNat i, (toFloat_beq_ofNat_iff hlt _).2 hword, hword.symm ▸ hentry⟩

/-! ## Two orders -/

/-- A one-letter name has a position in both orders, where they have the same band, or in neither. -/
theorem position?_rearranged (h : order.Rearranges order') (ranges ranges' : List BandRange)
    (names : List String) (name : String) :
    ((⟨ranges, order.map, names⟩ : Scope).position? name = none ∧
      (⟨ranges', order'.map, names⟩ : Scope).position? name = none) ∨
    ∃ b i j, (⟨ranges, order.map, names⟩ : Scope).position? name = some i ∧
      (⟨ranges', order'.map, names⟩ : Scope).position? name = some j ∧
      order[i]? = some b ∧ order'[j]? = some b := by
  unfold Scope.position?
  split
  · rename_i letter hletter
    cases hb : Band.ofChar? letter with
    | none => exact .inl ⟨rfl, rfl⟩
    | some b =>
      rcases h.position? b with hnone | ⟨i, j, hi, hj, hsame⟩
      · exact .inl hnone
      · exact .inr ⟨b, i, j, hi, hj, hsame⟩
  · exact .inl ⟨rfl, rfl⟩

/-- Where the first order has an entry for a band, so has the second. -/
theorem hasEntry_rearranged {b : Band} {j : Nat}
    (hranges : order.Aligned order' ranges ranges') (hi : order[i]? = some b)
    (hj : order'[j]? = some b) (hentry : (⟨ranges, order.map, names⟩ : Scope).HasEntry table i) :
    (⟨ranges', order'.map, names⟩ : Scope).HasEntry table j := by
  cases table with
  | bands => exact (List.getElem?_eq_some_iff.1 hj).1
  | low | high =>
    obtain ⟨range, low, high, hrange, hbounds⟩ := hentry
    exact ⟨range, low, high, (hranges b i j hi hj).symm.trans hrange, hbounds⟩

/-- References by letter that are admissible in one order are so in the other. -/
theorem admissible_rearranged (h : order.Rearranges order')
    (hranges : order.Aligned order' ranges ranges') (hletter : e.isByLetter = true)
    (he : e.Admissible ⟨ranges, order.map, names⟩) : e.Admissible ⟨ranges', order'.map, names⟩ := by
  induction e with
  | number x => trivial
  | plus e ih => exact ih hletter he
  | negate e ih => exact ih hletter he
  | binary op l r ihl ihr =>
    obtain ⟨hl, hr⟩ := Bool.and_eq_true_iff.1 hletter
    exact ⟨ihl hl he.1, ihr hr he.2⟩
  | select table e =>
    obtain ⟨name, rfl⟩ := Expr.exists_position_of_isByLetter hletter
    obtain ⟨i, hi, hentry⟩ := admissible_select_position_iff.1 he
    rcases position?_rearranged h ranges ranges' names name with ⟨hnone, -⟩ | ⟨b, i', j, hi', hj, hb, hb'⟩
    · rw [hi] at hnone
      cases hnone
    · rw [hi] at hi'
      cases hi'
      exact admissible_select_position_iff.2 ⟨j, hj, hasEntry_rearranged hranges hb hb' hentry⟩
  | position name => cases hletter
  | result name => exact he

/-- Lines that can be bound in one order can be bound in the other. -/
theorem binds_rearranged {sts : List Statement} {bs : List Binding} (h : order.Rearranges order')
    (hranges : order.Aligned order' ranges ranges')
    (hletter : ∀ st ∈ sts, st.expr.isByLetter = true)
    (hbinds : Binds ranges order.map names sts bs) :
    ∃ bs', Binds ranges' order'.map names sts bs' := by
  induction hbinds with
  | nil => exact ⟨[], .nil⟩
  | cons ha _ ih =>
    obtain ⟨bs', hbs'⟩ := ih fun st hst => hletter st (List.mem_cons_of_mem _ hst)
    exact ⟨_, .cons (admissible_rearranged h hranges (hletter _ List.mem_cons_self) ha) hbs'⟩

theorem Binds.names_eq {bands : BandMap} {sts : List Statement} {bs : List Binding}
    (h : Binds ranges bands names sts bs) : bs.map Binding.name = sts.map Statement.name := by
  induction h with
  | nil => rfl
  | cons _ _ ih => rw [List.map_cons, List.map_cons, ih]

/-- What compiles for one order compiles for the other. -/
theorem compile_rearranged {source : String} {p : Program} (h : order.Rearranges order')
    (hranges : order.Aligned order' ranges ranges') (hletter : ByLetter source)
    (hc : compile source ranges order.map = .ok p) :
    ∃ p', compile source ranges' order'.map = .ok p' ∧ p'.bindsAlpha = p.bindsAlpha := by
  obtain ⟨sts, hsays, hbinds, hr, hg, hb, ha⟩ := compile_eq_ok_iff.1 hc
  obtain ⟨bs, hbinds'⟩ := binds_rearranged h hranges (hletter sts hsays) hbinds
  have hnames : p.names = bs.map Binding.name := hbinds.names_eq.trans hbinds'.names_eq.symm
  rw [hnames] at hr hg hb ha
  exact ⟨⟨bs, p.red, p.green, p.blue, p.alpha⟩,
    compile_eq_ok_iff.2 ⟨sts, hsays, hbinds', hr, hg, hb, ha⟩, rfl⟩

/-! ## Values -/

/-- The same bands in another order, with their ranges and their raw values. -/
structure Setting.Rearranges (g g' : Setting) : Prop where
  order : g.order.Rearranges g'.order
  ranges : g.order.Aligned g'.order g.ranges g'.ranges
  pixel : g.order.Aligned g'.order g.pixel g'.pixel

variable {g g' : Setting}

theorem position?_scope_of_nodup (hn : g.order.Nodup) (names : List String) (name : String) :
    (g.scope names).position? name = g.position? name := by
  unfold Setting.position? Scope.position?
  rcases name.toList with _ | ⟨letter, _ | ⟨_, _⟩⟩
  · rfl
  · exact congrArg (Band.ofChar? letter).bind (funext (BandMap.position?_of_nodup hn))
  · rfl

theorem Setting.Rearranges.entry?_eq {b : Band} {j : Nat} (h : g.Rearranges g')
    (hi : g.order[i]? = some b) (hj : g'.order[j]? = some b) :
    g.entry? table i = g'.entry? table j := by
  cases table with
  | bands => exact h.pixel b i j hi hj
  | low | high => simp only [Setting.entry?, h.ranges b i j hi hj]

/-- Expressions by letter have the same value in both settings. -/
theorem Setting.Rearranges.eval_eq (h : g.Rearranges g') (hletter : e.isByLetter = true) :
    e.eval g env = e.eval g' env := by
  induction e with
  | number x => rfl
  | plus e ih => exact ih hletter
  | negate e ih => rw [Expr.eval, Expr.eval, ih hletter]
  | binary op l r ihl ihr =>
    obtain ⟨hl, hr⟩ := Bool.and_eq_true_iff.1 hletter
    rw [Expr.eval, Expr.eval, ihl hl, ihr hr]
  | select table e =>
    obtain ⟨name, rfl⟩ := Expr.exists_position_of_isByLetter hletter
    simp only [Expr.eval, ← position?_scope_of_nodup h.order.nodup [],
      ← position?_scope_of_nodup h.order.symm.nodup []]
    rcases position?_rearranged h.order g.ranges g'.ranges [] name with
      ⟨hi, hj⟩ | ⟨b, i, j, hi, hj, hb, hb'⟩
    · rw [Setting.scope, Setting.scope, hi, hj]
      rfl
    · rw [Setting.scope, Setting.scope, hi, hj]
      change g.entry? table (index (Float.ofNat i)) = g'.entry? table (index (Float.ofNat j))
      rw [index_ofNat (position?_lt_size hi), index_ofNat (position?_lt_size hj)]
      exact h.entry?_eq hb hb'
  | position name => cases hletter
  | result name => rfl

/-- Programs by letter have the same results. -/
theorem Setting.Rearranges.run_eq {sts : List Statement} (h : g.Rearranges g')
    (hletter : ∀ st ∈ sts, st.expr.isByLetter = true) : run g env sts = run g' env sts := by
  induction sts generalizing env with
  | nil => rfl
  | cons st sts ih =>
    rw [run, run, h.eval_eq (hletter st List.mem_cons_self)]
    congr 1
    funext v
    exact ih fun st hst => hletter st (List.mem_cons_of_mem _ hst)

/-- The slots that a run leaves depend on what it leaves in the names of the outputs. -/
theorem getElem?_outputs {left : List Float} (hfour : 4 ≤ pixel.length)
    (h : outputs pixel env = some left) :
    left[0]? = (env "red").map Rounding.down ∧ left[1]? = (env "green").map Rounding.down ∧
      left[2]? = (env "blue").map Rounding.down ∧
      ∀ a, env "alpha" = some a → left[3]? = some (Rounding.down a) := by
  have hslots : 0 < pixel.length ∧ 1 < pixel.length ∧ 2 < pixel.length ∧ 3 < pixel.length := by
    omega
  unfold outputs at h
  split at h
  · rename_i r g b hr hg hb
    cases h
    cases ha : env "alpha" with
    | none => simp [hr, hg, hb, hslots]
    | some a => simp [hr, hg, hb, hslots]
  · cases h

/-- A program that names its bands writes the same for both orders. -/
theorem Setting.Rearranges.apply_eq {source : String} {p p' : Program} (h : g.Rearranges g')
    (hletter : ByLetter source) (hc : compile source g.ranges g.order.map = .ok p)
    (hc' : compile source g'.ranges g'.order.map = .ok p')
    (hslots : max g.order.length 4 ≤ g.pixel.length)
    (hslots' : max g'.order.length 4 ≤ g'.pixel.length) :
    (∀ c < 3, (p.apply g.pixel)[c]? = (p'.apply g'.pixel)[c]?) ∧
      (p.bindsAlpha = true → (p.apply g.pixel)[3]? = (p'.apply g'.pixel)[3]?) := by
  obtain ⟨sts, hsays, hbinds, hr, hg, hb, ha⟩ := compile_eq_ok_iff.1 hc
  obtain ⟨sts', hsays', hbinds', hr', hg', hb', ha'⟩ := compile_eq_ok_iff.1 hc'
  obtain rfl := hsays.unique hsays'
  have hfour : 4 ≤ g.pixel.length := le_trans (le_max_right _ _) hslots
  have hfour' : 4 ≤ g'.pixel.length := le_trans (le_max_right _ _) hslots'
  -- both runs end with one environment, and both programs write what it holds
  obtain ⟨env, hrun, hagrees⟩ :=
    Binds.run hbinds (le_trans (le_max_left _ _) hslots) agrees_empty
  obtain ⟨env', hrun', hagrees'⟩ :=
    Binds.run hbinds' (le_trans (le_max_left _ _) hslots') agrees_empty
  rw [h.run_eq (hletter sts hsays), hrun'] at hrun
  cases hrun
  obtain ⟨hred, hgreen, hblue, halpha⟩ :=
    getElem?_outputs hfour (outputs_eq_apply hfour hagrees hr hg hb ha)
  obtain ⟨hred', hgreen', hblue', halpha'⟩ :=
    getElem?_outputs hfour' (outputs_eq_apply hfour' hagrees' hr' hg' hb' ha')
  constructor
  · intro c hcolor
    match c with
    | 0 => rw [hred, hred']
    | 1 => rw [hgreen, hgreen']
    | 2 => rw [hblue, hblue']
  · intro hbound
    obtain ⟨i, hi⟩ := Option.isSome_iff_exists.1 hbound
    obtain ⟨a, -, henv⟩ := hagrees.exists_value (ha.trans hi)
    rw [halpha a henv, halpha' a henv]

end RasterTile.Program
