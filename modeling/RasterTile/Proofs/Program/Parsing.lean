import RasterTile.Proofs.Outcome
import RasterTile.Proofs.Program.Folding

/-!
# The parser and the grammar

The parser finds code exactly where the grammar finds an admissible expression, and the code is the
folded form. First comes what each reader does on success, one equivalence for each; from these the
two directions follow, one by the recursion of the parser and one by the rules of the grammar.
-/
namespace RasterTile.Program

variable {s : Scope} {c left : Code} {ts rest : List Token} {m n : Nat}

/-- A reader found code and left these tokens. -/
def Reads (r : Except Fault (Parsed n)) (c : Code) (rest : List Token) : Prop :=
  ∃ h, r = .ok ⟨c, rest, h⟩

theorem reads_pure {p : Parsed n} : Reads (pure p) c rest ↔ p.code = c ∧ p.rest = rest := by
  cases p
  constructor
  · rintro ⟨_, hp⟩
    cases hp
    exact ⟨rfl, rfl⟩
  · rintro ⟨rfl, rfl⟩
    exact ⟨_, rfl⟩

theorem not_reads_error {f : Fault} : ¬ Reads (.error f : Except Fault (Parsed n)) c rest := by
  rintro ⟨_, hf⟩
  cases hf

/-- Reading after a step is reading after its success. -/
theorem reads_bind {α : Type} {x : Except Fault α} {f : α → Except Fault (Parsed n)} :
    Reads (x >>= f) c rest ↔ ∃ a, x = .ok a ∧ Reads (f a) c rest := by
  simp only [Reads, bind_eq_ok_iff]
  constructor
  · rintro ⟨h, a, hx, hf⟩
    exact ⟨a, hx, h, hf⟩
  · rintro ⟨a, hx, h, hf⟩
    exact ⟨h, a, hx, hf⟩

/-- One reader after another. -/
theorem reads_andThen {x : Except Fault (Parsed m)} {f : Parsed m → Except Fault (Parsed n)}
    {P : Code → List Token → Prop} (hf : ∀ p, Reads (f p) c rest ↔ P p.code p.rest) :
    Reads (x >>= f) c rest ↔ ∃ d us, Reads x d us ∧ P d us := by
  rw [reads_bind]
  constructor
  · rintro ⟨p, hx, hp⟩
    exact ⟨p.code, p.rest, ⟨p.fewer, hx⟩, (hf p).1 hp⟩
  · rintro ⟨d, us, ⟨h, hx⟩, hp⟩
    exact ⟨⟨d, us, h⟩, hx, (hf _).2 hp⟩

/-- A reader whose code is changed at the end. -/
theorem reads_map {x : Except Fault (Parsed m)} {g : Code → Code}
    {h : ∀ p : Parsed m, p.rest.length < n} :
    Reads (x >>= fun p => pure ⟨g p.code, p.rest, h p⟩) c rest ↔ ∃ d, Reads x d rest ∧ g d = c := by
  rw [reads_andThen (P := fun d us => g d = c ∧ us = rest) fun p => reads_pure]
  constructor
  · rintro ⟨d, us, hx, rfl, rfl⟩
    exact ⟨d, hx, rfl⟩
  · rintro ⟨d, hx, rfl⟩
    exact ⟨d, rest, hx, rfl, rfl⟩

theorem reads_relabel {x : Except Fault (Parsed m)} {h : ∀ p : Parsed m, p.rest.length < n} :
    Reads (x >>= fun p => pure ⟨p.code, p.rest, h p⟩) c rest ↔ Reads x c rest := by
  simpa using reads_map (g := id) (h := h)

theorem expect_eq_ok_iff {token : Token} {what : Wanted} {r} :
    Parser.expect token what ts = .ok r ↔ ts = token :: r.1 := by
  obtain ⟨us, h⟩ := r
  cases ts with
  | nil => simp [Parser.expect]
  | cons t ts =>
    by_cases ht : t = token <;> simp [Parser.expect, ht]

theorem reads_expect {token : Token} {what : Wanted}
    {f : { us : List Token // us.length < ts.length } → Except Fault (Parsed n)}
    {P : List Token → Prop} (hf : ∀ us, Reads (f us) c rest ↔ P us.1) :
    Reads (Parser.expect token what ts >>= f) c rest ↔ ∃ us, ts = token :: us ∧ P us := by
  rw [reads_bind]
  constructor
  · rintro ⟨us, hx, hp⟩
    exact ⟨us.1, expect_eq_ok_iff.1 hx, (hf us).1 hp⟩
  · rintro ⟨us, rfl, hp⟩
    exact ⟨⟨us, by simp⟩, expect_eq_ok_iff.2 rfl, (hf _).2 hp⟩

/-! ## Sums and products -/

theorem reads_sum :
    Reads (Parser.sum s ts) c rest ↔
      ∃ d us, Reads (Parser.product s ts) d us ∧ Reads (Parser.sumRest s d us) c rest := by
  rw [Parser.sum]
  exact reads_andThen fun p => reads_relabel

theorem reads_product :
    Reads (Parser.product s ts) c rest ↔
      ∃ d us, Reads (Parser.factor s ts) d us ∧ Reads (Parser.productRest s d us) c rest := by
  rw [Parser.product]
  exact reads_andThen fun p => reads_relabel

/-- An operation is applied to all that is left of it. -/
theorem reads_sumRest_op {op : Operator} (hop : op.isTight = false) :
    Reads (Parser.sumRest s left (.op op :: ts)) c rest ↔
      ∃ d us, Reads (Parser.product s ts) d us ∧
        Reads (Parser.sumRest s (.bin op left d) us) c rest := by
  cases op with
  | add | sub =>
    rw [Parser.sumRest]
    exact reads_andThen fun p => reads_relabel
  | mul | div => exact absurd hop (by decide)

theorem reads_sumRest_end (h : ∀ op us, op.isTight = false → ts ≠ .op op :: us) :
    Reads (Parser.sumRest s left ts) c rest ↔ left = c ∧ ts = rest := by
  rw [Parser.sumRest]
  · exact reads_pure
  · exact fun us => h .add us rfl
  · exact fun us => h .sub us rfl

theorem reads_productRest_op {op : Operator} (hop : op.isTight = true) :
    Reads (Parser.productRest s left (.op op :: ts)) c rest ↔
      ∃ d us, Reads (Parser.factor s ts) d us ∧
        Reads (Parser.productRest s (.bin op left d) us) c rest := by
  cases op with
  | mul | div =>
    rw [Parser.productRest]
    exact reads_andThen fun p => reads_relabel
  | add | sub => exact absurd hop (by decide)

theorem reads_productRest_end (h : ∀ op us, op.isTight = true → ts ≠ .op op :: us) :
    Reads (Parser.productRest s left ts) c rest ↔ left = c ∧ ts = rest := by
  rw [Parser.productRest]
  · exact reads_pure
  · exact fun us => h .mul us rfl
  · exact fun us => h .div us rfl

/-! ## Factors -/

theorem reads_factor_number {k : Numeral} :
    Reads (Parser.factor s (.number k :: ts)) c rest ↔ .number k.value = c ∧ ts = rest := by
  rw [Parser.factor]
  exact reads_pure

theorem reads_factor_group :
    Reads (Parser.factor s (.openParen :: ts)) c rest ↔
      Reads (Parser.sum s ts) c (.closeParen :: rest) := by
  rw [Parser.factor, reads_andThen (P := fun d us => us = .closeParen :: rest ∧ d = c)]
  · simp
  · intro p
    rw [reads_expect (P := fun us => p.code = c ∧ us = rest) fun us => reads_pure]
    constructor
    · rintro ⟨us, hp, hc, rfl⟩
      exact ⟨hp, hc⟩
    · rintro ⟨hp, hc⟩
      exact ⟨rest, hp, hc, rfl⟩

theorem reads_factor_negate :
    Reads (Parser.factor s (.op .sub :: ts)) c rest ↔
      ∃ d, Reads (Parser.factor s ts) d rest ∧ d.neg = c := by
  rw [Parser.factor]
  exact reads_map

theorem reads_factor_plus :
    Reads (Parser.factor s (.op .add :: ts)) c rest ↔ Reads (Parser.factor s ts) c rest := by
  rw [Parser.factor]
  exact reads_relabel

theorem reads_factor_word {word : String} :
    Reads (Parser.factor s (.word word :: ts)) c rest ↔
      Reads (Parser.reference s word ts) c rest := by
  rw [Parser.factor]
  exact reads_relabel

theorem reads_reference_table {table : Table} :
    Reads (Parser.reference s table.word ts) c rest ↔ Reads (Parser.indexed s table ts) c rest := by
  cases table <;> rw [Table.word, Parser.reference]

/-- A table is indexed by a sum in brackets that gives a position. -/
theorem reads_indexed {table : Table} :
    Reads (Parser.indexed s table ts) c rest ↔ ∃ us d, ts = .openBracket :: us ∧
      Reads (Parser.sum s us) d (.closeBracket :: rest) ∧
      ∃ i, Parser.position table d = .ok i ∧ Parser.select s table i = .ok c := by
  rw [Parser.indexed, reads_expect (P := fun us =>
    ∃ d, Reads (Parser.sum s us) d (.closeBracket :: rest) ∧
      ∃ i, Parser.position table d = .ok i ∧ Parser.select s table i = .ok c)]
  · simp
  · intro us
    rw [reads_andThen (P := fun d vs => vs = .closeBracket :: rest ∧
      ∃ i, Parser.position table d = .ok i ∧ Parser.select s table i = .ok c)]
    · simp
    · intro p
      rw [reads_expect (P := fun vs => vs = rest ∧
        ∃ i, Parser.position table p.code = .ok i ∧ Parser.select s table i = .ok c)]
      · simp
      · intro vs
        simp only [reads_bind, reads_pure]
        constructor
        · rintro ⟨i, hi, d, hd, rfl, rfl⟩
          exact ⟨rfl, i, hi, hd⟩
        · rintro ⟨rfl, i, hi, hd⟩
          exact ⟨i, hi, c, hd, rfl, rfl⟩

theorem name_eq_ok_iff {word : String} {r} :
    Parser.name ts = .ok (word, r) ↔ ts = .word word :: r.1 := by
  obtain ⟨us, h⟩ := r
  unfold Parser.name
  split <;> simp_all

/-- A point, a name, and code found for the name. -/
theorem reads_dotName {what : Wanted} {find : String → Except Fault Code}
    {h : ∀ (us : { us : List Token // us.length < ts.length })
      (vs : { vs : List Token // vs.length < us.1.length }), vs.1.length < n} :
    Reads (do
        let us ← Parser.expect .dot what ts
        let (w, vs) ← Parser.name us.1
        let code ← find w
        return (⟨code, vs.1, h us vs⟩ : Parsed n)) c rest ↔
      ∃ name, ts = .dot :: .word name :: rest ∧ find name = .ok c := by
  rw [reads_expect (P := fun us => ∃ name, us = .word name :: rest ∧ find name = .ok c)]
  · simp
  · intro us
    simp only [reads_bind, reads_pure, Prod.exists, name_eq_ok_iff]
    constructor
    · rintro ⟨name, vs, hu, d, hd, rfl, rfl⟩
      exact ⟨name, hu, hd⟩
    · rintro ⟨name, hu, hd⟩
      exact ⟨name, ⟨rest, by simp [hu]⟩, hu, c, hd, rfl, rfl⟩

theorem reads_reference_bandmap :
    Reads (Parser.reference s "bandmap" ts) c rest ↔
      ∃ name, ts = .dot :: .word name :: rest ∧ Parser.bandPosition s name = .ok c := by
  rw [Parser.reference]
  exact reads_dotName

theorem reads_reference_results :
    Reads (Parser.reference s "results" ts) c rest ↔
      ∃ name, ts = .dot :: .word name :: rest ∧ Parser.earlierResult s name = .ok c := by
  rw [Parser.reference]
  exact reads_dotName

/-! ## From the grammar to the parser -/

/-- What the reader of a kind of phrase does; a rest starts with the folded form of its left. -/
def Phrase.Reads (s : Scope) : Phrase → List Token → Code → List Token → Prop
  | .sum, ts, c, rest => Program.Reads (Parser.sum s ts) c rest
  | .sumRest left, ts, c, rest => Program.Reads (Parser.sumRest s (left.fold s) ts) c rest
  | .product, ts, c, rest => Program.Reads (Parser.product s ts) c rest
  | .productRest left, ts, c, rest => Program.Reads (Parser.productRest s (left.fold s) ts) c rest
  | .factor, ts, c, rest => Program.Reads (Parser.factor s ts) c rest

def Phrase.LeftAdmissible (s : Scope) : Phrase → Prop
  | .sumRest left | .productRest left => left.Admissible s
  | _ => True

/-- Whatever goes into an expression has to be admissible for it to be. -/
theorem Spells.leftAdmissible {p : Phrase} {e : Expr} (h : Spells p ts e) (he : e.Admissible s) :
    p.LeftAdmissible s := by
  induction h with
  | sumEnd | productEnd => exact he
  | sumMore _ _ _ _ ih | productMore _ _ _ _ ih => exact (ih he).1
  | _ => trivial

/-- Admissible phrases are read, up to where they end. -/
theorem Spells.reads {p : Phrase} {e : Expr} (h : Spells p ts e) :
    e.Admissible s → ∀ rest, p.Stops rest → p.Reads s (ts ++ rest) (e.fold s) rest := by
  induction h with
  | sum _ hs ihp ihs =>
    intro he rest hr
    rw [List.append_assoc]
    exact reads_sum.2 ⟨_, _, ihp (hs.leftAdmissible he) _ (hs.stops_product hr), ihs he rest hr⟩
  | sumEnd =>
    intro _ rest hr
    exact (reads_sumRest_end fun op us _ => hr op us).2 ⟨rfl, rfl⟩
  | sumMore hop _ hs ihp ihs =>
    intro he rest hr
    obtain ⟨hl, hright⟩ := hs.leftAdmissible he
    have hrest := ihs he rest hr
    rw [Phrase.Reads, Expr.fold_binary hl hright] at hrest
    rw [List.cons_append, List.append_assoc]
    exact (reads_sumRest_op hop).2 ⟨_, _, ihp hright _ (hs.stops_product hr), hrest⟩
  | product _ hs ihp ihs =>
    intro he rest hr
    rw [List.append_assoc]
    exact reads_product.2 ⟨_, _, ihp (hs.leftAdmissible he) _ trivial, ihs he rest hr⟩
  | productEnd =>
    intro _ rest hr
    exact (reads_productRest_end hr).2 ⟨rfl, rfl⟩
  | productMore hop _ hs ihp ihs =>
    intro he rest hr
    obtain ⟨hl, hright⟩ := hs.leftAdmissible he
    have hrest := ihs he rest hr
    rw [Phrase.Reads, Expr.fold_binary hl hright] at hrest
    rw [List.cons_append, List.append_assoc]
    exact (reads_productRest_op hop).2 ⟨_, _, ihp hright _ trivial, hrest⟩
  | number =>
    intro _ rest _
    exact reads_factor_number.2 ⟨rfl, rfl⟩
  | group _ ih =>
    intro he rest _
    have hi := ih he (.closeParen :: rest) (by simp [Phrase.Stops])
    rw [List.cons_append, List.append_assoc]
    exact reads_factor_group.2 hi
  | @negate _ e _ ih =>
    intro he rest _
    have hi : e.Admissible s := he
    exact reads_factor_negate.2 ⟨_, ih hi rest trivial, (Expr.fold_negate hi).symm⟩
  | plus _ ih =>
    intro he rest _
    exact reads_factor_plus.2 (ih he rest trivial)
  | @select table ts e _ ih =>
    intro he rest _
    have hi := ih he.1 (.closeBracket :: rest) (by simp [Phrase.Stops])
    rw [List.cons_append, List.cons_append, List.append_assoc]
    exact reads_factor_word.2 (reads_reference_table.2 (reads_indexed.2
      ⟨_, e.fold s, rfl, hi, (select_fold he.1).2 ⟨he, rfl⟩⟩))
  | @position name =>
    intro he rest _
    refine reads_factor_word.2 (reads_reference_bandmap.2 ⟨name, rfl, ?_⟩)
    exact bandPosition_eq_ok_iff.2 ⟨he, rfl⟩
  | @result name =>
    intro he rest _
    refine reads_factor_word.2 (reads_reference_results.2 ⟨name, rfl, ?_⟩)
    exact earlierResult_eq_ok_iff.2 ⟨he, rfl⟩

/-! ## From the parser to the grammar -/

/-- A phrase of this kind is at the front of the tokens and has this code. -/
def Phrase.Found (s : Scope) (p : Phrase) (ts : List Token) (c : Code) (rest : List Token) : Prop :=
  ∃ e us, ts = us ++ rest ∧ Spells p us e ∧ e.Admissible s ∧ e.fold s = c

theorem Phrase.Found.sum {d : Code} {us : List Token} (hp : Phrase.product.Found s ts d us)
    (hs : ∀ l : Expr, l.Admissible s → l.fold s = d → (Phrase.sumRest l).Found s us c rest) :
    Phrase.sum.Found s ts c rest := by
  obtain ⟨l, vs, rfl, hl, ha, hf⟩ := hp
  obtain ⟨e, ws, rfl, he, ha', hf'⟩ := hs l ha hf
  exact ⟨e, vs ++ ws, by rw [List.append_assoc], .sum hl he, ha', hf'⟩

theorem Phrase.Found.product {d : Code} {us : List Token} (hp : Phrase.factor.Found s ts d us)
    (hs : ∀ l : Expr, l.Admissible s → l.fold s = d → (Phrase.productRest l).Found s us c rest) :
    Phrase.product.Found s ts c rest := by
  obtain ⟨l, vs, rfl, hl, ha, hf⟩ := hp
  obtain ⟨e, ws, rfl, he, ha', hf'⟩ := hs l ha hf
  exact ⟨e, vs ++ ws, by rw [List.append_assoc], .product hl he, ha', hf'⟩

theorem Phrase.Found.sumMore {op : Operator} {l : Expr} {d : Code} {us : List Token}
    (hop : op.isTight = false) (hl : l.Admissible s) (hp : Phrase.product.Found s ts d us)
    (hs : ∀ l' : Expr, l'.Admissible s → l'.fold s = .bin op (l.fold s) d →
      (Phrase.sumRest l').Found s us c rest) :
    (Phrase.sumRest l).Found s (.op op :: ts) c rest := by
  obtain ⟨r, vs, rfl, hr, ha, rfl⟩ := hp
  obtain ⟨e, ws, rfl, he, ha', hf'⟩ := hs (.binary op l r) ⟨hl, ha⟩ (Expr.fold_binary hl ha)
  exact ⟨e, .op op :: (vs ++ ws), by simp, .sumMore hop hr he, ha', hf'⟩

theorem Phrase.Found.productMore {op : Operator} {l : Expr} {d : Code} {us : List Token}
    (hop : op.isTight = true) (hl : l.Admissible s) (hp : Phrase.factor.Found s ts d us)
    (hs : ∀ l' : Expr, l'.Admissible s → l'.fold s = .bin op (l.fold s) d →
      (Phrase.productRest l').Found s us c rest) :
    (Phrase.productRest l).Found s (.op op :: ts) c rest := by
  obtain ⟨r, vs, rfl, hr, ha, rfl⟩ := hp
  obtain ⟨e, ws, rfl, he, ha', hf'⟩ := hs (.binary op l r) ⟨hl, ha⟩ (Expr.fold_binary hl ha)
  exact ⟨e, .op op :: (vs ++ ws), by simp, .productMore hop hr he, ha', hf'⟩

/-- Whatever is read is a phrase of the grammar: the cases are those of the parser's recursion. -/
theorem found_of_reads_all (s : Scope) :
    (∀ ts c rest, Reads (Parser.sum s ts) c rest → Phrase.sum.Found s ts c rest) ∧
    (∀ left ts (l : Expr), l.Admissible s → l.fold s = left → ∀ c rest,
      Reads (Parser.sumRest s left ts) c rest → (Phrase.sumRest l).Found s ts c rest) ∧
    (∀ ts c rest, Reads (Parser.product s ts) c rest → Phrase.product.Found s ts c rest) ∧
    (∀ left ts (l : Expr), l.Admissible s → l.fold s = left → ∀ c rest,
      Reads (Parser.productRest s left ts) c rest → (Phrase.productRest l).Found s ts c rest) ∧
    (∀ ts c rest, Reads (Parser.factor s ts) c rest → Phrase.factor.Found s ts c rest) ∧
    (∀ word ts c rest, Reads (Parser.reference s word ts) c rest →
      Phrase.factor.Found s (.word word :: ts) c rest) ∧
    (∀ table ts c rest, Reads (Parser.indexed s table ts) c rest →
      Phrase.factor.Found s (.word table.word :: ts) c rest) := by
  apply Parser.sum.mutual_induct
  case case1 =>
    intro ts ihp ihs c rest h
    obtain ⟨d, us, hp, hs⟩ := reads_sum.1 h
    obtain ⟨hlt, -⟩ := id hp
    exact .sum (ihp d us hp) fun l ha hf => ihs ⟨d, us, hlt⟩ l ha hf c rest hs
  -- a sum goes on at `+` or `-`, and ends anywhere else
  case case2 | case3 =>
    rintro _ ts ihp ihs l hl rfl c rest h
    obtain ⟨d, us, hp, hs⟩ := (reads_sumRest_op rfl).1 h
    obtain ⟨hlt, -⟩ := id hp
    exact .sumMore rfl hl (ihp d us hp) fun l' ha hf => ihs ⟨d, us, hlt⟩ l' ha hf c rest hs
  case case4 =>
    intro left ts hadd hsub l hl hf c rest h
    obtain ⟨rfl, rfl⟩ := (reads_sumRest_end (by
      rintro (_ | _ | _ | _) us hop rfl
      · exact hadd us rfl
      · exact hsub us rfl
      · exact absurd hop (by decide)
      · exact absurd hop (by decide))).1 h
    exact ⟨l, [], rfl, .sumEnd, hl, hf⟩
  case case5 =>
    intro ts ihp ihs c rest h
    obtain ⟨d, us, hp, hs⟩ := reads_product.1 h
    obtain ⟨hlt, -⟩ := id hp
    exact .product (ihp d us hp) fun l ha hf => ihs ⟨d, us, hlt⟩ l ha hf c rest hs
  -- a product goes on at `*` or `/`, and ends anywhere else
  case case6 | case7 =>
    rintro _ ts ihp ihs l hl rfl c rest h
    obtain ⟨d, us, hp, hs⟩ := (reads_productRest_op rfl).1 h
    obtain ⟨hlt, -⟩ := id hp
    exact .productMore rfl hl (ihp d us hp) fun l' ha hf => ihs ⟨d, us, hlt⟩ l' ha hf c rest hs
  case case8 =>
    intro left ts hmul hdiv l hl hf c rest h
    obtain ⟨rfl, rfl⟩ := (reads_productRest_end (by
      rintro (_ | _ | _ | _) us hop rfl
      · exact absurd hop (by decide)
      · exact absurd hop (by decide)
      · exact hmul us rfl
      · exact hdiv us rfl)).1 h
    exact ⟨l, [], rfl, .productEnd, hl, hf⟩
  case case9 =>
    intro k ts c rest h
    obtain ⟨rfl, rfl⟩ := reads_factor_number.1 h
    exact ⟨.number k.value, [.number k], rfl, .number, trivial, rfl⟩
  case case10 =>
    intro ts ih c rest h
    obtain ⟨e, us, rfl, he, ha, hf⟩ := ih _ _ (reads_factor_group.1 h)
    exact ⟨e, .openParen :: (us ++ [.closeParen]), by simp, .group he, ha, hf⟩
  case case11 =>
    intro ts ih c rest h
    obtain ⟨d, hd, rfl⟩ := reads_factor_negate.1 h
    obtain ⟨e, us, rfl, he, ha, rfl⟩ := ih _ _ hd
    exact ⟨.negate e, .op .sub :: us, rfl, .negate he, ha, Expr.fold_negate ha⟩
  case case12 =>
    intro ts ih c rest h
    obtain ⟨e, us, rfl, he, ha, hf⟩ := ih _ _ (reads_factor_plus.1 h)
    exact ⟨.plus e, .op .add :: us, rfl, .plus he, ha, hf⟩
  case case13 =>
    intro word ts ih c rest h
    exact ih c rest (reads_factor_word.1 h)
  -- no factor starts with another token, or with none
  case case14 =>
    intro t ts _ _ _ _ _ c rest h
    rw [Parser.factor] at h
    · exact absurd h not_reads_error
    all_goals assumption
  case case15 =>
    intro c rest h
    rw [Parser.factor] at h
    exact absurd h not_reads_error
  -- words: the three tables, the two kinds of names, and unknown words
  case case16 | case17 | case18 =>
    intro ts ih c rest h
    exact ih c rest (reads_reference_table.1 h)
  case case19 =>
    intro ts c rest h
    obtain ⟨name, rfl, hname⟩ := reads_reference_bandmap.1 h
    obtain ⟨ha, hf⟩ := bandPosition_eq_ok_iff.1 hname
    exact ⟨.position name, [.word "bandmap", .dot, .word name], rfl, .position, ha, hf⟩
  case case20 =>
    intro ts c rest h
    obtain ⟨name, rfl, hname⟩ := reads_reference_results.1 h
    obtain ⟨ha, hf⟩ := earlierResult_eq_ok_iff.1 hname
    exact ⟨.result name, [.word "results", .dot, .word name], rfl, .result, ha, hf⟩
  case case21 =>
    intro ts other _ _ _ _ _ c rest h
    rw [Parser.reference] at h
    · exact absurd h not_reads_error
    all_goals assumption
  case case22 =>
    intro table ts ih c rest h
    obtain ⟨vs, d, rfl, hd, hsel⟩ := reads_indexed.1 h
    obtain ⟨e, us, rfl, he, ha, rfl⟩ := ih ⟨vs, by simp⟩ _ _ hd
    obtain ⟨ha', hf⟩ := (select_fold ha).1 hsel
    exact ⟨.select table e, .word table.word :: .openBracket :: (us ++ [.closeBracket]), by simp,
      .select he, ha', hf⟩

/-! ## Whole lines -/

/-- A line's expression is a sum with nothing after it. -/
theorem parse_eq_ok_iff_reads : parse s ts = .ok c ↔ Reads (Parser.sum s ts) c [] := by
  rw [parse, bind_eq_ok_iff]
  constructor
  · rintro ⟨⟨d, us, hlt⟩, hs, h⟩
    cases us with
    | nil =>
      cases h
      exact ⟨hlt, hs⟩
    | cons t us => cases h
  · rintro ⟨hlt, hs⟩
    exact ⟨_, hs, rfl⟩

/-- What is parsed is what the grammar spells, folded. -/
theorem parse_eq_ok_iff_spells :
    parse s ts = .ok c ↔ ∃ e, Spells .sum ts e ∧ e.Admissible s ∧ e.fold s = c := by
  rw [parse_eq_ok_iff_reads]
  constructor
  · intro h
    obtain ⟨e, us, rfl, he, ha, hf⟩ := (found_of_reads_all s).1 ts c [] h
    rw [List.append_nil]
    exact ⟨e, he, ha, hf⟩
  · rintro ⟨e, he, ha, rfl⟩
    have hr := he.reads ha [] (by simp [Phrase.Stops])
    rwa [List.append_nil] at hr

/-- The parser accepts the sentences of the grammar that meet every side condition, and no other
tokens. Tokens spell one expression at most, and what the parser builds is its folded form. -/
theorem parse_eq_ok_iff (s : Scope) (ts : List Token) :
    (∀ e e', Spells .sum ts e → Spells .sum ts e' → e = e') ∧
      ∀ c, parse s ts = .ok c ↔ ∃ e, Spells .sum ts e ∧ e.Admissible s ∧ e.fold s = c := by
  constructor
  · intro e e' h h'
    exact h.expr_unique h'
  · intro c
    exact parse_eq_ok_iff_spells

end RasterTile.Program
