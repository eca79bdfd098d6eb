import RasterTile.Proofs.BandOrder
import RasterTile.Proofs.Program.Interpreter
import RasterTile.Proofs.Program.Parsing

/-!
# Compiled programs do what the source says

Compiled code keeps results in a list and refers to them by position, where the interpreter keeps
an environment. The two agree when each name stands for the result at its last position; folded
code then has the value of its expression, and one more result agrees with one more statement.
-/
namespace RasterTile.Program

variable {s : Scope} {g : Setting} {env : Environment} {names : List String} {results : List Float}

/-! ## Results by position and values by name -/

/-- Each name stands for the result at its last position. -/
structure Agrees (names : List String) (results : List Float) (env : Environment) : Prop where
  length : results.length = names.length
  value : ∀ name, env name = (Parser.lastIndex? name names).bind (results[·]?)

theorem agrees_empty : Agrees [] [] .empty := ⟨rfl, fun _ => rfl⟩

/-- A new result and a new value, which hide the earlier ones of the name. -/
theorem Agrees.put (h : Agrees names results env) (n : String) (v : Float) :
    Agrees (names ++ [n]) (results ++ [v]) (env.put n v) := by
  constructor
  · simp [h.length]
  · intro name
    rw [lastIndex?_concat]
    by_cases hn : n = name
    · subst hn
      simp [← h.length]
    · rw [if_neg hn, Environment.put_other _ _ (Ne.symm hn), h.value]
      cases hl : Parser.lastIndex? name names with
      | none => rfl
      | some i =>
        have hi : i < results.length := h.length ▸ lastIndex?_lt hl
        simp [List.getElem?_append_left hi]

/-- The last result of a name is what the name stands for. -/
theorem Agrees.exists_value (h : Agrees names results env) {name : String} {i : Nat}
    (hi : Parser.lastIndex? name names = some i) :
    ∃ v, results[i]? = some v ∧ env name = some v := by
  have hlt : i < results.length := h.length ▸ lastIndex?_lt hi
  refine ⟨results[i], List.getElem?_eq_getElem hlt, ?_⟩
  rw [h.value, hi, Option.bind_some, List.getElem?_eq_getElem hlt]

/-! ## Expressions -/

/-- The scope of a line that follows bindings of these names. -/
def Setting.scope (g : Setting) (names : List String) : Scope := ⟨g.ranges, g.order.map, names⟩

/-- A bound that is known to the compiler is the one that a program reads. -/
theorem entry?_of_bound? {table : Table} {i : Nat} {b : UInt32}
    (h : (g.scope names).bound? table i = some b) : g.entry? table i = some b.toFloat := by
  cases table with
  | bands => cases h
  | low | high =>
    simp only [Scope.bound?, Setting.scope] at h
    obtain ⟨⟨low, high⟩, hb, rfl⟩ := Option.map_eq_some_iff.1 h
    obtain ⟨range, hr, hbounds⟩ := Option.bind_eq_some_iff.1 hb
    rw [BandRange.bounds_eq_some_iff] at hbounds
    subst hbounds
    simp [Setting.entry?, hr]

theorem position?_of_scope {name : String} {i : Nat}
    (h : (g.scope names).position? name = some i) : g.position? name = some i := by
  obtain ⟨letter, band, hl, hb, hi⟩ := position?_eq_some_iff.1 h
  rw [Setting.position?, hl]
  dsimp only
  rw [hb, Option.bind_some]
  exact BandMap.idxOf?_of_position? hi

/-- Folded code has the value of its expression, at every pixel with a slot for each band. -/
theorem eval_fold (hp : g.order.length ≤ g.pixel.length) (h : Agrees names results env) {e : Expr}
    (he : e.Admissible (g.scope names)) :
    e.eval g env = some ((e.fold (g.scope names)).eval g.pixel results) := by
  induction e with
  | number x => rfl
  | plus e ih => exact ih he
  | negate e ih =>
    have ha : e.Admissible (g.scope names) := he
    rw [Expr.eval, ih ha, Expr.fold_negate ha, Code.eval_neg]
    rfl
  | binary op l r ihl ihr =>
    have hl := ihl he.1
    have hr := ihr he.2
    rw [Expr.eval, hl, hr, Expr.fold_binary he.1 he.2, Code.eval_bin]
    rfl
  | select table e ih =>
    obtain ⟨ha, _, v, hv, n, hn, hentry⟩ := he
    have hi : e.eval g env = some v := by rw [ih ha, Expr.fold_of_value? hv, Code.eval]
    rw [Expr.eval, hi, Option.bind_some, Expr.fold_select hv hn]
    change g.entry? table (index v) = _
    rw [Expr.index_of_beq hn]
    cases hb : (g.scope names).bound? table n.toNat with
    | some b => exact entry?_of_bound? hb
    | none =>
      obtain rfl := eq_bands_of_bound?_eq_none hentry hb
      have hlt : n.toNat < g.pixel.length := Nat.lt_of_lt_of_le hentry hp
      simp [Setting.entry?, Code.eval, List.getElem?_eq_getElem hlt]
  | position name =>
    obtain ⟨letter, band, i, hl, hb, hi⟩ := he
    have hpos := position?_eq_some_iff.2 ⟨letter, band, hl, hb, hi⟩
    rw [Expr.eval, position?_of_scope hpos, Expr.fold, hpos]
    rfl
  | result name =>
    cases hl : Parser.lastIndex? name names with
    | none => exact absurd he (lastIndex?_eq_none_iff.1 hl)
    | some i =>
      obtain ⟨v, hv, hname⟩ := h.exists_value hl
      have hlast : Parser.lastIndex? name (g.scope names).earlier = some i := hl
      rw [Expr.eval, hname, Expr.fold, hlast, Option.getD_some, Code.eval, hv, Option.getD_some]

/-! ## Statements -/

/-- The bindings of statements that follow bindings of these names, each admissible in its place. -/
inductive Binds (ranges : List BandRange) (bands : BandMap) :
    List String → List Statement → List Binding → Prop where
  | nil {earlier} : Binds ranges bands earlier [] []
  | cons {earlier st sts bs} : st.expr.Admissible ⟨ranges, bands, earlier⟩ →
      Binds ranges bands (earlier ++ [st.name]) sts bs →
      Binds ranges bands earlier (st :: sts)
        (⟨st.name, st.expr.fold ⟨ranges, bands, earlier⟩⟩ :: bs)

/-- A line is bound if it is a statement whose references are admissible, and then to the folded form.
-/
theorem bindLine_eq_ok_iff {text : List Char} {b : Binding} :
    bindLine s text = .ok b ↔ ∃ st : Statement, st.IsLine text ∧ st.expr.Admissible s ∧
      b = ⟨st.name, st.expr.fold s⟩ := by
  unfold bindLine
  constructor
  · intro h
    cases hcut : Text.cutAt [':', '='] text with
    | none =>
      rw [hcut] at h
      cases h
    | some cut =>
      obtain ⟨left, body⟩ := cut
      rw [hcut] at h
      by_cases hn : isName (Text.trim left) = true
      · simp only [hn, Bool.not_true, Bool.false_eq_true, if_false, bind_eq_ok_iff,
          pure_eq_ok_iff, parse_eq_ok_iff_spells] at h
        obtain ⟨tokens, ht, _, ⟨e, he, ha, rfl⟩, rfl⟩ := h
        exact ⟨⟨_, e⟩, ⟨left, body, tokens, hcut, hn, rfl, ht, he⟩, ha, rfl⟩
      · rw [Bool.not_eq_true] at hn
        simp only [hn, Bool.not_false, if_true, bind_eq_ok_iff] at h
        obtain ⟨_, h, _⟩ := h
        cases h
  · rintro ⟨⟨name, e⟩, ⟨left, body, tokens, hcut, hn, rfl, ht, hspells⟩, ha, rfl⟩
    simp only [hcut, hn, Bool.not_true, Bool.false_eq_true, if_false, bind_eq_ok_iff,
      pure_eq_ok_iff, parse_eq_ok_iff_spells]
    exact ⟨tokens, ht, e.fold s, ⟨e, hspells, ha, rfl⟩, rfl⟩

theorem texts_cons (line : List Char) (lines : List (List Char)) :
    texts (line :: lines) =
      if (Text.trim line).isEmpty then texts lines else Text.trim line :: texts lines := by
  by_cases h : (Text.trim line).isEmpty = true <;> simp [texts, h]

/-- Lines are bound if they are statements that can be bound one after the other. -/
theorem bindLines_eq_ok_iff {ranges : List BandRange} {bands : BandMap} {lines : List (List Char)}
    {number : Nat} {made all : List Binding} :
    bindLines ranges bands number made lines = .ok all ↔
      ∃ sts bs, List.Forall₂ Statement.IsLine sts (texts lines) ∧
        Binds ranges bands (made.map Binding.name) sts bs ∧ all = made ++ bs := by
  induction lines generalizing number made with
  | nil =>
    constructor
    · intro h
      cases h
      exact ⟨[], [], .nil, .nil, (List.append_nil _).symm⟩
    · rintro ⟨sts, bs, hsts, hbs, rfl⟩
      cases hsts
      cases hbs
      rw [bindLines, List.append_nil]
  | cons line lines ih =>
    rw [bindLines, texts_cons]
    by_cases hblank : (Text.trim line).isEmpty = true
    · rw [if_pos hblank, if_pos hblank]
      exact ih
    · rw [if_neg hblank, if_neg hblank]
      constructor
      · intro h
        cases hb : bindLine ⟨ranges, bands, made.map Binding.name⟩ (Text.trim line) with
        | error f =>
          rw [hb] at h
          cases h
        | ok b =>
          rw [hb] at h
          obtain ⟨st, hst, ha, rfl⟩ := bindLine_eq_ok_iff.1 hb
          obtain ⟨sts, bs, hsts, hbs, rfl⟩ := ih.1 h
          rw [List.map_append] at hbs
          exact ⟨st :: sts, _, .cons hst hsts, .cons ha hbs, List.append_assoc _ _ _⟩
      · rintro ⟨_, _, hsts, hbs, rfl⟩
        cases hsts with
        | @cons st _ sts _ hst hsts =>
          cases hbs with
          | @cons _ _ _ bs ha hbs =>
            rw [bindLine_eq_ok_iff.2 ⟨st, hst, ha, rfl⟩]
            refine ih.2 ⟨sts, bs, hsts, ?_, (List.append_assoc _ [_] _).symm⟩
            rw [List.map_append]
            exact hbs

/-- A whole run: results and environment agree at the end if they do at the start. -/
theorem Binds.run {sts : List Statement} {bs : List Binding}
    (hb : Binds g.ranges g.order.map names sts bs) (hp : g.order.length ≤ g.pixel.length)
    (h : Agrees names results env) :
    ∃ env', run g env sts = some env' ∧
      Agrees (names ++ bs.map Binding.name) (evaluate g.pixel results bs) env' := by
  induction hb generalizing results env with
  | nil =>
    refine ⟨env, rfl, ?_⟩
    rw [List.map_nil, List.append_nil]
    exact h
  | @cons names st sts bs ha _ ih =>
    have hv := eval_fold hp h ha
    obtain ⟨env', hrun, hagrees⟩ := ih (h.put st.name _)
    refine ⟨env', ?_, ?_⟩
    · rw [Program.run, hv, Option.bind_some]
      exact hrun
    · rw [List.append_assoc] at hagrees
      exact hagrees

/-! ## Programs -/

theorem required_eq_ok_iff {names : List String} {output : Output} {i : Nat} :
    required names output = .ok i ↔ Parser.lastIndex? output.name names = some i := by
  unfold required
  cases Parser.lastIndex? output.name names <;> simp

/-- A program is compiled from the statements of its source, and each output has the position of
the last statement of its name. -/
theorem compile_eq_ok_iff {source : String} {ranges : List BandRange} {bands : BandMap}
    {p : Program} :
    compile source ranges bands = .ok p ↔
      ∃ sts, Says source sts ∧ Binds ranges bands [] sts p.bindings ∧
        Parser.lastIndex? "red" p.names = some p.red ∧
        Parser.lastIndex? "green" p.names = some p.green ∧
        Parser.lastIndex? "blue" p.names = some p.blue ∧
        Parser.lastIndex? "alpha" p.names = p.alpha := by
  simp only [compile, bind_eq_ok_iff, pure_eq_ok_iff, required_eq_ok_iff, bindLines_eq_ok_iff]
  constructor
  · rintro ⟨_, ⟨sts, bs, hsts, hbs, rfl⟩, r, hr, g, hg, b, hb, rfl⟩
    exact ⟨sts, hsts, hbs, hr, hg, hb, rfl⟩
  · rintro ⟨sts, hsts, hbs, hr, hg, hb, ha⟩
    refine ⟨p.bindings, ⟨sts, p.bindings, hsts, hbs, rfl⟩, p.red, hr, p.green, hg, p.blue, hb, ?_⟩
    have hnames : Parser.lastIndex? "alpha" (p.bindings.map Binding.name) = p.alpha := ha
    rw [hnames]

theorem overwrite_outputs {pixel : List Float} (hp : 4 ≤ pixel.length) (r g b : Float)
    (a : Option Float) :
    Pixel.overwrite pixel [some r, some g, some b, a] =
      a.elim (((pixel.set 0 r).set 1 g).set 2 b) fun a =>
        (((pixel.set 0 r).set 1 g).set 2 b).set 3 a := by
  rcases pixel with _ | ⟨_, _ | ⟨_, _ | ⟨_, _ | ⟨_, pixel⟩⟩⟩⟩
  · cases hp
  · simp at hp
  · simp at hp
  · simp at hp
  · cases a <;> simp [Pixel.overwrite]

/-- What the environment of a run holds at the end is what a program writes. -/
theorem outputs_eq_apply {p : Program} (hp : 4 ≤ g.pixel.length)
    (h : Agrees p.names (evaluate g.pixel [] p.bindings) env)
    (hr : Parser.lastIndex? "red" p.names = some p.red)
    (hg : Parser.lastIndex? "green" p.names = some p.green)
    (hb : Parser.lastIndex? "blue" p.names = some p.blue)
    (ha : Parser.lastIndex? "alpha" p.names = p.alpha) :
    outputs g.pixel env = some (p.apply g.pixel) := by
  obtain ⟨r, hr, hred⟩ := h.exists_value hr
  obtain ⟨g', hg, hgreen⟩ := h.exists_value hg
  obtain ⟨b, hb, hblue⟩ := h.exists_value hb
  have halpha : env "alpha" = p.alpha.bind ((evaluate g.pixel [] p.bindings)[·]?) := by
    rw [h.value, ha]
  simp only [outputs, hred, hgreen, hblue, halpha, apply, hr, hg, hb, Option.map_some]
  rw [overwrite_outputs hp]
  cases p.alpha with
  | none => rfl
  | some i =>
    simp only [Option.bind_some]
    cases (evaluate g.pixel [] p.bindings)[i]? <;> rfl

/-- A compiled program leaves the pixel that its source, taken literally, leaves. There is no band
map but that of an order, and a pixel has a slot for each of its bands and four at least. -/
theorem apply_eq_interpret {source : String} {ranges : List BandRange} {order : BandOrder}
    {p : Program} {pixel : List Float} (hc : compile source ranges order.map = .ok p)
    (hp : max 4 order.length ≤ pixel.length) :
    ∃ sts, (∀ sts', Says source sts' ↔ sts' = sts) ∧
      interpret ⟨ranges, order, pixel⟩ sts = some (p.apply pixel) := by
  obtain ⟨sts, hsays, hbinds, hr, hg, hb, ha⟩ := compile_eq_ok_iff.1 hc
  refine ⟨sts, fun sts' => ⟨fun h => h.unique hsays, ?_⟩, ?_⟩
  · rintro rfl
    exact hsays
  · have hslots : order.length ≤ pixel.length := le_trans (le_max_right _ _) hp
    obtain ⟨env, hrun, hagrees⟩ := Binds.run (g := ⟨ranges, order, pixel⟩) hbinds hslots agrees_empty
    have hfour : 4 ≤ pixel.length := le_trans (le_max_left _ _) hp
    rw [interpret, hrun, Option.bind_some]
    exact outputs_eq_apply (g := ⟨ranges, order, pixel⟩) hfour hagrees hr hg hb ha

/-- The second `red` reads the first, and `blue` reads the second. -/
def shadowing : String :=
  "red := bands[bandmap.r]\nred := results.red - 1\ngreen := 1\nblue := results.red"

def shadowingCompiled : Program where
  bindings := [⟨"red", .slot 1⟩, ⟨"red", .binary .sub (.result 0) (.number 1)⟩,
    ⟨"green", .number 1⟩, ⟨"blue", .result 1⟩]
  red := 1
  green := 2
  blue := 3
  alpha := none

theorem apply_eq_interpret_shadowing :
    compile shadowing [] (BandOrder.map [.blue, .red]) = .ok shadowingCompiled ∧
      shadowingCompiled.apply [7, 9, 0, 255] = [8, 1, 8, 255] ∧
      ∃ sts, (∀ sts', Says shadowing sts' ↔ sts' = sts) ∧
        interpret ⟨[], [.blue, .red], [7, 9, 0, 255]⟩ sts =
          some (shadowingCompiled.apply [7, 9, 0, 255]) := by
  have hc : compile shadowing [] (BandOrder.map [.blue, .red]) = .ok shadowingCompiled := by
    decide +kernel
  exact ⟨hc, by decide +kernel, apply_eq_interpret hc (by decide)⟩

end RasterTile.Program
