/-
Formula/Grammar.lean

The grammar of formulas, on lists of tokens.  With P an operator that stands before
its operand, Q one that stands after it, B one that stands between two operands,
and f a function:

    formula    ::=  term  |  formula B term
    term       ::=  suffixed  |  P term
    suffixed   ::=  atom  |  suffixed Q
    atom       ::=  operand  |  variable  |  ( formula )  |  f ( )  |  f ( arguments )
    arguments  ::=  formula  |  arguments , formula

where a call has as many arguments as its function has parameters, or any number if
the function takes any number.  So a formula is P* A Q* (B P* A Q*)*; precedences
have no part in it.
-/
import Formula.Token.Predefined

namespace Formula

variable {V ω : Type}

namespace Lexeme

/-- The opening parenthesis. -/
def leftParenthesis : Lexeme V ω := .punctuation openMark

/-- The closing parenthesis. -/
def rightParenthesis : Lexeme V ω := .punctuation closeMark

/-- The separator of arguments. -/
def separator : Lexeme V ω := .punctuation separatorMark

end Lexeme

/-- May the function be called with `n` arguments? -/
def Function.admits (f : Function ω) (n : Nat) : Bool := f.isVariadic || f.parameters == n

/-- The syntactic categories. -/
inductive Phrase where
  | atom
  | suffixed
  | term
  | formula
  | arguments (n : Nat)
  deriving DecidableEq, Repr

/-- The tokens form a phrase of the given category. -/
inductive Derives : Phrase → List (Token V ω) → Prop
  | operand (v : V) (p : Int) : Derives .atom [⟨.operand v, p⟩]
  | var (label : String) (p : Int) : Derives .atom [⟨.var label, p⟩]
  | group {s} (p q : Int) :
      Derives .formula s →
      Derives .atom (⟨.leftParenthesis, p⟩ :: (s ++ [⟨.rightParenthesis, q⟩]))
  | emptyCall {f : Function ω} (p q r : Int) :
      f.admits 0 = true →
      Derives .atom [⟨.function f, p⟩, ⟨.leftParenthesis, q⟩, ⟨.rightParenthesis, r⟩]
  | call {f : Function ω} {n s} (p q r : Int) :
      f.admits n = true → Derives (.arguments n) s →
      Derives .atom
        (⟨.function f, p⟩ :: ⟨.leftParenthesis, q⟩ :: (s ++ [⟨.rightParenthesis, r⟩]))
  | suffixed {s} : Derives .atom s → Derives .suffixed s
  | after {op : Operator ω} {s} (p : Int) :
      Derives .suffixed s → op.isPostfix = true →
      Derives .suffixed (s ++ [⟨.operator op, p⟩])
  | term {s} : Derives .suffixed s → Derives .term s
  | before {op : Operator ω} {s} (p : Int) :
      op.isPrefix = true → Derives .term s → Derives .term (⟨.operator op, p⟩ :: s)
  | formula {s} : Derives .term s → Derives .formula s
  | between {op : Operator ω} {s u} (p : Int) :
      Derives .formula s → op.isBinary = true → Derives .term u →
      Derives .formula (s ++ ⟨.operator op, p⟩ :: u)
  | argument {s} : Derives .formula s → Derives (.arguments 1) s
  | another {n s u} (p : Int) :
      Derives (.arguments n) s → Derives .formula u →
      Derives (.arguments (n + 1)) (s ++ ⟨.separator, p⟩ :: u)

end Formula
