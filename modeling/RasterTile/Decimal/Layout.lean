import RasterTile.Decimal.Shortest

/-!
# How numbers are written

A layout says when a number is written positionally and whether a whole number carries `.0`.
Digits come from the shortest decimal. The two layouts in use are the quoted form, which error
texts use for tokens and lists, and the plain form, which they use for an index.
-/
namespace RasterTile.Decimal

/-- The decisions of a number format. `plain` is asked for the exponent of the leading digit. -/
structure Layout where
  pointZero : Bool
  plain : Int → Bool

def significant (d : Decimal) : List Char :=
  ((Nat.toDigits 10 d.digits).reverse.dropWhile (· == '0')).reverse

def leading (d : Decimal) : Int := d.exponent + digitCount d.digits - 1

/-- Digits with a point before, inside or after them; `lead` is the place of the first digit. -/
def positional (pointZero : Bool) (digits : List Char) (lead : Int) : List Char :=
  if lead < 0 then '0' :: '.' :: (List.replicate (-lead - 1).toNat '0' ++ digits)
  else
    let whole := lead.toNat + 1
    let padded := digits ++ List.replicate (whole - digits.length) '0'
    let fraction := digits.drop whole
    if fraction.isEmpty then padded ++ (if pointZero then ['.', '0'] else [])
    else digits.take whole ++ '.' :: fraction

/-- One digit, the others after a point, and the exponent, signed only when negative. -/
def scientific (digits : List Char) (lead : Int) : List Char :=
  let mantissa := match digits with
    | d :: r :: rest => d :: '.' :: r :: rest
    | short => short
  mantissa ++ 'e' :: (toString lead).toList

def Layout.magnitude (f : Layout) (x : Dyadic) : List Char :=
  let d := shortest x
  if f.plain (leading d) then positional f.pointZero (significant d) (leading d)
  else scientific (significant d) (leading d)

/-- The text of a double. Zero keeps its sign; a NaN has none. -/
def Layout.write (f : Layout) (x : Float) : String :=
  if x.isNaN then "NaN"
  else
    let sign := if x.toBits.toNat < Nat.pow 2 63 then "" else "-"
    if !x.isFinite then sign ++ "inf"
    else if x == 0 then sign ++ (if f.pointZero then "0.0" else "0")
    else sign ++ String.ofList (f.magnitude (Dyadic.ofBits x.toBits))

/-- Whole numbers carry `.0`, and magnitudes below `10^-4` or from `10^16` on have an exponent. -/
def Layout.quoted : Layout := ⟨true, fun lead => -4 ≤ lead && lead < 16⟩

/-- No exponent and no `.0`. -/
def Layout.bare : Layout := ⟨false, fun _ => true⟩

end RasterTile.Decimal
