/-
Formula/Scalar/Basic.lean

The operands that come with the library.  The engine works over any type of
operands; `Scalar` is the one that its own operations compute with: integers,
exact ratios, doubles, and symbols.  A symbol is a text that stands for itself,
so that computing with symbols spells a computation out instead of doing it.

A `Kind` is a choice among the four: it says how a literal is read and what a
whole number becomes.
-/
import Formula.Number.Layout
import Formula.Number.Numeral

namespace Formula

/-- An operand value. -/
inductive Scalar where
  | integer (n : Int)
  | ratio (q : Rat)
  | double (x : Float)
  | symbol (text : String)

namespace Scalar

/-- The four kinds of operands. -/
inductive Kind where
  | integer
  | ratio
  | double
  | symbol
  deriving DecidableEq, Repr

/-! ### Reading and making -/

/-- Reads a text as an operand of the given kind.  Every text is a symbol. -/
def read : Kind → String → Except Failure Scalar
  | .integer, s => (Numeral.integer s).map integer
  | .ratio, s => (Numeral.ratio s).map ratio
  | .double, s => (Numeral.double s).map double
  | .symbol, s => .ok (symbol s)

/-- A double, refused when it is infinite: the result of a conversion that went
out of range. -/
def inRange (x : Float) : Except Failure Float :=
  if x.isInf then .error ⟨.overflow, ""⟩ else .ok x

/-- A whole number as an operand of the given kind. -/
def ofInt : Kind → Int → Except Failure Scalar
  | .integer, n => .ok (integer n)
  | .ratio, n => .ok (ratio n)
  | .double, n => (inRange (Binary64.ofInt n)).map double
  | .symbol, n => .ok (symbol (toString n))

/-- One or zero as an operand of the given kind. -/
def ofBool (kind : Kind) (b : Bool) : Except Failure Scalar :=
  ofInt kind (if b then 1 else 0)

/-! ### Texts -/

/-- The plain text of an operand. -/
def text : Scalar → String
  | integer n => toString n
  | ratio q => if q.den = 1 then toString q.num else toString q.num ++ "/" ++ toString q.den
  | double x => Layout.text x
  | symbol s => s

/-- The text of an operand in messages, which also tells ratios and symbols from
numbers. -/
def described : Scalar → String
  | ratio q => "Fraction(" ++ toString q.num ++ ", " ++ toString q.den ++ ")"
  | symbol s => "Sym(" ++ Text.quote s ++ ")"
  | s => s.text

/-! ### Conversions between kinds -/

/-- An operand as a double; integers and ratios out of range overflow. -/
def toDouble : Scalar → Except Failure Float
  | integer n => inRange (Binary64.ofInt n)
  | ratio q => inRange (Binary64.ofRat q)
  | double x => .ok x
  | symbol _ => .error ⟨.type, ""⟩

/-- The integer part of an operand, toward zero. -/
def truncate : Scalar → Except Failure Int
  | integer n => .ok n
  | ratio q => .ok (Int.tdiv q.num q.den)
  | double x =>
    match Binary64.truncate? x with
    | some n => .ok n
    | none => .error ⟨if x.isNaN then .value else .overflow, ""⟩
  | symbol _ => .error ⟨.type, ""⟩

/-- Is the operand true?  Numbers other than zero are, and so are all symbols
apart from the empty one and `0`. -/
def isTrue : Scalar → Bool
  | integer n => n != 0
  | ratio q => q.num != 0
  | double x => !(x == 0.0)
  | symbol s => s != "" && s != "0"

end Scalar

end Formula
