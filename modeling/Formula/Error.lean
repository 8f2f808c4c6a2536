/-
Formula/Error.lean

The errors of the engine as they are reported: a family of kinds, and a
`Diagnosis` that carries one of them with its message and, where there is one,
the position in the text, the label concerned, and the kind of the failure that
caused it.

Each phase has an error type of its own that says what went wrong; its
`diagnosis` turns that into a report.  Positions are counted from zero, and a
negative one stands for a token that came from no text, so a report drops it.
-/
import Formula.Failure

namespace Formula

/-- The kinds of error. -/
inductive ErrorKind where
  | expression
  | tokenization
  | parse
  | mismatchedParenthesis
  | unexpectedSeparator
  | argumentCount
  | invalidExpression
  | evaluation
  | undefinedVariable
  | arity
  | emptyExpression
  | dictionary
  | duplicateLabel
  | invalidArity
  | protectedEntry
  | notFound
  | invalidLabel
  deriving DecidableEq, Repr

namespace ErrorKind

/-- All kinds. -/
def all : List ErrorKind :=
  [expression, tokenization, parse, mismatchedParenthesis, unexpectedSeparator, argumentCount,
    invalidExpression, evaluation, undefinedVariable, arity, emptyExpression, dictionary,
    duplicateLabel, invalidArity, protectedEntry, notFound, invalidLabel]

/-- The name of a kind, as reports show it. -/
def name : ErrorKind → String
  | expression => "ExpressionError"
  | tokenization => "TokenizationError"
  | parse => "ParseError"
  | mismatchedParenthesis => "MismatchedParenthesisError"
  | unexpectedSeparator => "UnexpectedSeparatorError"
  | argumentCount => "ArgumentCountError"
  | invalidExpression => "InvalidExpressionError"
  | evaluation => "EvaluationError"
  | undefinedVariable => "UndefinedVariableError"
  | arity => "ArityError"
  | emptyExpression => "EmptyExpressionError"
  | dictionary => "DictionaryError"
  | duplicateLabel => "DuplicateLabelError"
  | invalidArity => "InvalidArityError"
  | protectedEntry => "ProtectedEntryError"
  | notFound => "NotFoundError"
  | invalidLabel => "InvalidLabelError"

/-- The more general kinds, nearest first. -/
def ancestors : ErrorKind → List ErrorKind
  | expression => []
  | tokenization | parse | evaluation | dictionary => [expression]
  | mismatchedParenthesis | unexpectedSeparator | argumentCount | invalidExpression =>
    [parse, expression]
  | undefinedVariable | arity | emptyExpression => [evaluation, expression]
  | duplicateLabel | invalidArity | protectedEntry | notFound | invalidLabel =>
    [dictionary, expression]

end ErrorKind

/-- A position in a text, where there is one. -/
def located (position : Int) : Option Nat :=
  if position < 0 then none else some position.toNat

/-- A reported error. -/
structure Diagnosis where
  kind : ErrorKind
  message : String
  position : Option Nat := none
  label : Option String := none
  cause : Option Failure.Kind := none
  deriving DecidableEq, Repr

/-- The full text of a report. -/
def Diagnosis.text (d : Diagnosis) : String :=
  "[" ++ d.kind.name ++ "] " ++
    match d.position with
    | none => d.message
    | some p => "Position " ++ toString p ++ ": " ++ d.message

/-- What a use of the engine ends with when it does not succeed. -/
inductive Fault where
  /-- An error of the engine. -/
  | engine (d : Diagnosis)
  /-- A failure that passed through the engine. -/
  | foreign (f : Failure)
  /-- The engine was asked for something that it does not offer. -/
  | misuse (message : String)
  deriving DecidableEq, Repr

end Formula
