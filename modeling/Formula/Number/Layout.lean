/-
Formula/Number/Layout.lean

How a double is written: the shortest digits that read back, in positional
notation while the decimal exponent lies between −4 and 15, and otherwise with
an exponent of at least two digits.  A positional number always shows its point.
-/
import Formula.Number.Shortest

namespace Formula.Layout

/-- Where positional notation ends, and how an exponent is written. -/
structure Style where
  /-- The least decimal exponent that is written positionally. -/
  lowest : Int
  /-- The greatest decimal exponent that is written positionally. -/
  highest : Int
  /-- How many digits an exponent has at least. -/
  exponentWidth : Nat

/-- Positional from 0.0001 up to sixteen digits before the point. -/
def standard : Style := ⟨-4, 15, 2⟩

/-- Zeros on the left up to the given width. -/
def padLeft (width : Nat) (s : String) : String :=
  String.ofList (List.replicate (width - s.length) '0') ++ s

/-- Positional notation with a point and at least one digit on either side. -/
def positional (ds : List Char) (point : Int) : String :=
  if point ≤ 0 then
    "0." ++ String.ofList (List.replicate point.natAbs '0' ++ ds)
  else
    let n := point.natAbs
    if ds.length ≤ n then
      String.ofList (ds ++ List.replicate (n - ds.length) '0') ++ ".0"
    else
      String.ofList (ds.take n) ++ "." ++ String.ofList (ds.drop n)

/-- One digit before the point, the others after it, and an exponent. -/
def scientific (style : Style) (ds : List Char) (exponent : Int) : String :=
  let mantissa := match ds with
    | [] => ""
    | [d] => String.singleton d
    | d :: rest => String.singleton d ++ "." ++ String.ofList rest
  mantissa ++ (if exponent < 0 then "e-" else "e+") ++
    padLeft style.exponentWidth (toString exponent.natAbs)

/-- A positive decimal in the given style. -/
def magnitude (style : Style) (d : Shortest.Decimal) : String :=
  let ds := (toString d.digits).toList
  let trimmed := (ds.reverse.dropWhile (· == '0')).reverse
  let exponent := d.point - 1
  if style.lowest ≤ exponent ∧ exponent ≤ style.highest then positional trimmed d.point
  else scientific style trimmed exponent

/-- The text of a double. -/
def text (x : Float) : String :=
  match Binary64.parts? x with
  | none => if x.isNaN then "nan" else if x < 0.0 then "-inf" else "inf"
  | some p =>
    (if p.negative then "-" else "") ++
      if p.significand = 0 then "0.0"
      else magnitude standard (Shortest.digits p.significand p.exponent)

end Formula.Layout
