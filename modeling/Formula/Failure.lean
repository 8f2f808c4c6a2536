/-
Formula/Failure.lean

What can go wrong outside the grammar: a conversion that refuses a literal, an
arithmetic operation without a result, an operation that gives up.  Such a
failure has a kind and a text of its own and is not an error of the engine; the
engine passes it on, or wraps it where a literal was being converted.
-/
namespace Formula

/-- The kinds of failure. -/
inductive Failure.Kind where
  /-- A value or a text that is not acceptable. -/
  | value
  /-- A division by zero. -/
  | zeroDivision
  /-- A result out of range. -/
  | overflow
  /-- Operands that the operation does not combine. -/
  | type
  /-- Something looked up that is not there. -/
  | key
  /-- An operand that was not given. -/
  | index
  /-- A broken assumption. -/
  | assertion
  /-- Something asked of what cannot do it. -/
  | unsupported
  deriving DecidableEq, Repr

/-- A failure: its kind, and its text where it has one. -/
structure Failure where
  kind : Failure.Kind
  text : String := ""
  deriving DecidableEq, Repr

/-- Failures that say a literal could not be converted; they are reported at the
literal.  The others are not about the literal and pass through. -/
def Failure.Kind.refusesLiteral : Failure.Kind → Bool
  | .value | .zeroDivision | .overflow | .type => true
  | .key | .index | .assertion | .unsupported => false

end Formula
