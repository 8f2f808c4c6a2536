/-
Formula/Number/Numeral.lean

Reading numbers: integers, ratios and doubles.  Digits of every script count,
and a single underscore may stand between two digits.  The three grammars are

    integer  [sign] digits
    ratio    [sign] (digits [/ digits] | decimal)
    double   [sign] (decimal | inf | infinity | nan)
    decimal  (digits [. [digits]] | . digits) [e [sign] digits]

with the margin allowed on both sides of an integer or a double, and any blank
on both sides of a ratio.
-/
import Formula.Failure
import Formula.Number.Binary64
import Formula.Text.Blank
import Formula.Text.Digit
import Formula.Text.Quoted

namespace Formula.Numeral

/-! ### Digits and signs -/

/-- Does the text start with a digit? -/
def startsWithDigit : List Char → Bool
  | [] => false
  | c :: _ => Text.isDigit c

/-- The digits at the front of a text, and the rest.  Once `inside`, an
underscore before another digit is skipped. -/
def digits (inside : Bool) : List Char → List Nat × List Char
  | [] => ([], [])
  | c :: s =>
    match Text.digit? c with
    | some d => let (ds, rest) := digits true s; (d :: ds, rest)
    | none => if inside && c == '_' && startsWithDigit s then digits true s else ([], c :: s)

/-- The number that the digits spell. -/
def value (ds : List Nat) : Nat := ds.foldl (fun n d => 10 * n + d) 0

/-- A sign, if there is one: is it a minus, and what follows? -/
def sign : List Char → Bool × List Char
  | '-' :: s => (true, s)
  | '+' :: s => (false, s)
  | s => (false, s)

/-- A natural number with a sign. -/
def signed (negative : Bool) (n : Nat) : Int := if negative then -n else n

/-! ### Integers -/

/-- How much of a refused literal an integer's message shows. -/
def shownLength : Nat := 200

/-- Reads an integer. -/
def integer (s : String) : Except Failure Int :=
  let (negative, body) := sign (Text.trimMargin s.toList)
  match digits false body with
  | ([], _) | (_, _ :: _) => .error ⟨.value,
      "invalid literal for int() with base 10: " ++
        String.ofList ((Text.quote s).toList.take shownLength)⟩
  | (ds, []) => .ok (signed negative (value ds))

/-! ### Decimals -/

/-- A decimal taken apart: the digits before and after the point, and the digits
of the exponent with its sign. -/
structure Decimal where
  whole : List Nat
  fraction : List Nat
  exponentNegative : Bool
  exponent : List Nat

/-- The exponent part of a decimal, up to the end of the text. -/
def exponent? : List Char → Option (Bool × List Nat)
  | [] => some (false, [])
  | c :: s =>
    if c == 'e' || c == 'E' then
      let (negative, body) := sign s
      match digits false body with
      | ([], _) | (_, _ :: _) => none
      | (ds, []) => some (negative, ds)
    else none

/-- A decimal without its sign, up to the end of the text. -/
def decimal? (s : List Char) : Option Decimal :=
  let (whole, rest) := digits false s
  let (fraction, tail) := match rest with
    | '.' :: r => digits false r
    | _ => ([], rest)
  if whole.isEmpty && fraction.isEmpty then none
  else (exponent? tail).map fun e => ⟨whole, fraction, e.1, e.2⟩

/-! ### Ratios -/

/-- The ratio of two integers, refused when the second is zero. -/
def quotient (num : Int) (den : Nat) : Except Failure Rat :=
  if den = 0 then
    .error ⟨.zeroDivision, "Fraction(" ++ toString num ++ ", 0)"⟩
  else .ok (mkRat num den)

/-- Reads a ratio: a fraction of integers, or a decimal. -/
def ratio (s : String) : Except Failure Rat :=
  let (negative, body) := sign (Text.trimBlank s.toList)
  let refused : Except Failure Rat :=
    .error ⟨.value, "Invalid literal for Fraction: " ++ Text.quote s⟩
  match digits false body with
  | (num@(_ :: _), '/' :: r) =>
    match digits false r with
    | ([], _) | (_, _ :: _) => refused
    | (den, []) => quotient (signed negative (value num)) (value den)
  | _ =>
    match decimal? body with
    | none => refused
    | some d =>
      let scale := Binary64.tenTo d.fraction.length
      let num := signed negative (value (d.whole ++ d.fraction))
      let power := Binary64.tenTo (value d.exponent)
      if d.exponentNegative then quotient num (scale * power)
      else quotient (num * (power : Nat)) scale

/-! ### Doubles -/

/-- The words for values that are not finite, in lower case. -/
def special? (negative : Bool) (s : List Char) : Option Float :=
  match String.ofList (s.map Char.toLower) with
  | "inf" | "infinity" => some (Binary64.infinity negative)
  | "nan" => some (0.0 / 0.0)
  | _ => none

/-- Reads a double, correctly rounded; out of range is an infinity. -/
def double (s : String) : Except Failure Float :=
  let (negative, body) := sign (Text.trimMargin s.toList)
  match decimal? body with
  | some d =>
    .ok (Binary64.ofDecimal negative (value (d.whole ++ d.fraction))
      (signed d.exponentNegative (value d.exponent) - d.fraction.length))
  | none =>
    match special? negative body with
    | some x => .ok x
    | none => .error ⟨.value, "could not convert string to float: " ++ Text.quote s⟩

end Formula.Numeral
