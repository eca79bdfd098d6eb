import RasterTile.Style.Program.Parser
import Mathlib

/-!
# The grammar of expressions

    sum     = product (("+" | "-") product)*
    product = factor (("*" | "/") factor)*
    factor  = number | "(" sum ")" | "-" factor | "+" factor
            | ("bands" | "vmin" | "vmax") "[" sum "]" | ("bandmap" | "results") "." name

An expression is what a line says, before anything is looked up or folded. The grammar relates the
tokens of a phrase to the expression that they spell; no tokens spell two expressions.
-/
namespace RasterTile.Program

/-- An expression as it is written. Parentheses leave no trace but the shape of the tree. -/
inductive Expr where
  | number (value : Float)
  | plus (inner : Expr)
  | negate (inner : Expr)
  | binary (op : Operator) (left right : Expr)
  | select (table : Table) (index : Expr)
  | position (name : String)
  | result (name : String)
  deriving DecidableEq, Repr

def Operator.isTight : Operator → Bool
  | .mul | .div => true
  | .add | .sub => false

inductive Phrase where
  | sum
  | sumRest (left : Expr)
  | product
  | productRest (left : Expr)
  | factor

/-- Tokens that are a phrase, and the expression that they spell. The operations of a rest are
applied from left to right. -/
inductive Spells : Phrase → List Token → Expr → Prop where
  | sum {ts us left e} : Spells .product ts left → Spells (.sumRest left) us e →
      Spells .sum (ts ++ us) e
  | sumEnd {left} : Spells (.sumRest left) [] left
  | sumMore {op left ts right us e} : op.isTight = false → Spells .product ts right →
      Spells (.sumRest (.binary op left right)) us e →
      Spells (.sumRest left) (.op op :: (ts ++ us)) e
  | product {ts us left e} : Spells .factor ts left → Spells (.productRest left) us e →
      Spells .product (ts ++ us) e
  | productEnd {left} : Spells (.productRest left) [] left
  | productMore {op left ts right us e} : op.isTight = true → Spells .factor ts right →
      Spells (.productRest (.binary op left right)) us e →
      Spells (.productRest left) (.op op :: (ts ++ us)) e
  | number {n} : Spells .factor [.number n] (.number n.value)
  | group {ts e} : Spells .sum ts e → Spells .factor (.openParen :: (ts ++ [.closeParen])) e
  | negate {ts e} : Spells .factor ts e → Spells .factor (.op .sub :: ts) (.negate e)
  | plus {ts e} : Spells .factor ts e → Spells .factor (.op .add :: ts) (.plus e)
  | select {table ts e} : Spells .sum ts e →
      Spells .factor (.word table.word :: .openBracket :: (ts ++ [.closeBracket])) (.select table e)
  | position {name} : Spells .factor [.word "bandmap", .dot, .word name] (.position name)
  | result {name} : Spells .factor [.word "results", .dot, .word name] (.result name)

/-- Tokens that do not go on with a phrase that ends before them. -/
def Phrase.Stops : Phrase → List Token → Prop
  | .sum, rest | .sumRest _, rest => ∀ op us, rest ≠ .op op :: us
  | .product, rest | .productRest _, rest => ∀ op us, op.isTight = true → rest ≠ .op op :: us
  | .factor, _ => True

theorem Table.word_injective {t u : Table} (h : t.word = u.word) : t = u := by
  cases t <;> cases u <;> first | rfl | exact absurd h (by decide)

theorem Table.word_ne_bandmap (t : Table) : t.word ≠ "bandmap" := by cases t <;> decide
theorem Table.word_ne_results (t : Table) : t.word ≠ "results" := by cases t <;> decide

/-- A product ends where the rest of its sum begins. -/
theorem Spells.stops_product {left e : Expr} {us rest : List Token}
    (h : Spells (.sumRest left) us e) (hr : Phrase.sum.Stops rest) :
    Phrase.product.Stops (us ++ rest) := by
  cases h with
  | sumEnd => exact fun op vs _ => hr op vs
  | sumMore hop _ _ =>
    intro op vs ht he
    simp only [List.cons_append, List.cons.injEq, Token.op.injEq] at he
    rw [← he.1, hop] at ht
    exact absurd ht (by decide)

/-- A phrase and its expression are determined by any text that the phrase begins. -/
theorem Spells.unique {p : Phrase} {ts : List Token} {e : Expr} (h : Spells p ts e) :
    ∀ {ts' e' rest rest'}, Spells p ts' e' → ts ++ rest = ts' ++ rest' →
      p.Stops rest → p.Stops rest' → ts = ts' ∧ e = e' := by
  induction h with
  | sum _ hs ihp ihs =>
    intro ts' e' rest rest' h' he hr hr'
    cases h' with
    | sum hp' hs' =>
      rw [List.append_assoc, List.append_assoc] at he
      obtain ⟨rfl, rfl⟩ := ihp hp' he (hs.stops_product hr) (hs'.stops_product hr')
      obtain ⟨rfl, rfl⟩ := ihs hs' (List.append_cancel_left he) hr hr'
      exact ⟨rfl, rfl⟩
  | sumEnd =>
    intro ts' e' rest rest' h' he hr hr'
    cases h' with
    | sumEnd => exact ⟨rfl, rfl⟩
    | sumMore => exact absurd he (hr _ _)
  | sumMore _ _ hs ihp ihs =>
    intro ts' e' rest rest' h' he hr hr'
    cases h' with
    | sumEnd => exact absurd he.symm (hr' _ _)
    | sumMore _ hp' hs' =>
      simp only [List.cons_append, List.append_assoc, List.cons.injEq, Token.op.injEq] at he
      obtain ⟨rfl, he⟩ := he
      obtain ⟨rfl, rfl⟩ := ihp hp' he (hs.stops_product hr) (hs'.stops_product hr')
      obtain ⟨rfl, rfl⟩ := ihs hs' (List.append_cancel_left he) hr hr'
      exact ⟨rfl, rfl⟩
  | product _ hs ihp ihs =>
    intro ts' e' rest rest' h' he hr hr'
    cases h' with
    | product hp' hs' =>
      rw [List.append_assoc, List.append_assoc] at he
      obtain ⟨rfl, rfl⟩ := ihp hp' he trivial trivial
      obtain ⟨rfl, rfl⟩ := ihs hs' (List.append_cancel_left he) hr hr'
      exact ⟨rfl, rfl⟩
  | productEnd =>
    intro ts' e' rest rest' h' he hr hr'
    cases h' with
    | productEnd => exact ⟨rfl, rfl⟩
    | productMore hop _ _ => exact absurd he (hr _ _ hop)
  | productMore hop _ hs ihp ihs =>
    intro ts' e' rest rest' h' he hr hr'
    cases h' with
    | productEnd => exact absurd he.symm (hr' _ _ hop)
    | productMore _ hp' hs' =>
      simp only [List.cons_append, List.append_assoc, List.cons.injEq, Token.op.injEq] at he
      obtain ⟨rfl, he⟩ := he
      obtain ⟨rfl, rfl⟩ := ihp hp' he trivial trivial
      obtain ⟨rfl, rfl⟩ := ihs hs' (List.append_cancel_left he) hr hr'
      exact ⟨rfl, rfl⟩
  | number =>
    intro ts' e' rest rest' h' he _ _
    cases h' <;> simp_all
  | group _ ih =>
    intro ts' e' rest rest' h' he _ _
    cases h' with
    | group h' =>
      simp only [List.cons_append, List.append_assoc, List.cons.injEq, true_and] at he
      obtain ⟨rfl, rfl⟩ := ih h' he (by simp [Phrase.Stops]) (by simp [Phrase.Stops])
      exact ⟨rfl, rfl⟩
    | number | negate | plus | select | position | result => simp at he
  | negate _ ih =>
    intro ts' e' rest rest' h' he _ _
    cases h' with
    | negate h' =>
      simp only [List.cons_append, List.cons.injEq, true_and] at he
      obtain ⟨rfl, rfl⟩ := ih h' he trivial trivial
      exact ⟨rfl, rfl⟩
    | number | group | plus | select | position | result => simp at he
  | plus _ ih =>
    intro ts' e' rest rest' h' he _ _
    cases h' with
    | plus h' =>
      simp only [List.cons_append, List.cons.injEq, true_and] at he
      obtain ⟨rfl, rfl⟩ := ih h' he trivial trivial
      exact ⟨rfl, rfl⟩
    | number | group | negate | select | position | result => simp at he
  | @select table _ _ _ ih =>
    intro ts' e' rest rest' h' he _ _
    cases h' with
    | select h' =>
      simp only [List.cons_append, List.append_assoc, List.cons.injEq, Token.word.injEq,
        true_and] at he
      obtain ⟨rfl, rfl⟩ := ih h' he.2 (by simp [Phrase.Stops]) (by simp [Phrase.Stops])
      rw [Table.word_injective he.1]
      exact ⟨rfl, rfl⟩
    | number | group | negate | plus => simp at he
    | position => simp [table.word_ne_bandmap] at he
    | result => simp [table.word_ne_results] at he
  | position =>
    intro ts' e' rest rest' h' he _ _
    cases h' with
    | @select table => simp [table.word_ne_bandmap.symm] at he
    | position => simp_all
    | number | group | negate | plus | result => simp at he
  | result =>
    intro ts' e' rest rest' h' he _ _
    cases h' with
    | @select table => simp [table.word_ne_results.symm] at he
    | result => simp_all
    | number | group | negate | plus | position => simp at he

/-- No tokens spell two expressions. -/
theorem Spells.expr_unique {ts : List Token} {e e' : Expr} (h : Spells .sum ts e)
    (h' : Spells .sum ts e') : e = e' :=
  (h.unique h' (rfl : ts ++ [] = ts ++ []) (by simp [Phrase.Stops]) (by simp [Phrase.Stops])).2

end RasterTile.Program
