/-
Formula/Postfix.lean

From tokens to the postfix list, in which every operator and every function
stands after its operands.  A list of tokens is read once, from the left, with a
`Yard` of waiting tokens:

* operands and variables go to the output at once;
* an operator waits until an operator that binds less tightly, or a closing
  parenthesis, or the end, comes by;
* an opening parenthesis fences off what waits below it, and a function waits
  below the parenthesis of its call.

Beside the waiting tokens the yard counts the arguments of every call that is
open.

Design.  The waiting tokens and the open calls are two stacks, and closing a
parenthesis takes one entry off each.  That they agree is a fact about `run` and
not part of the type, so the steps that rely on it report `corrupt` otherwise; no
list of tokens leads there.
-/
import Formula.Error
import Formula.Text.Quoted
import Formula.Token.Predefined

namespace Formula

variable {V ω : Type}

/-- Why a list of tokens has no postfix list. -/
inductive ParseError where
  /-- A closing parenthesis without an opening one. -/
  | unmatchedClose (position : Int)
  /-- An opening parenthesis without a closing one. -/
  | unclosedOpen (position : Int)
  /-- A separator that stands in no call. -/
  | straySeparator (position : Int)
  /-- A function without the parenthesis of its call. -/
  | bareFunction (label : String) (position : Int)
  /-- Parentheses with nothing in them that are no call. -/
  | emptyParentheses (position : Int)
  /-- An argument that is missing before a separator or a closing parenthesis. -/
  | missingArgument (position : Int)
  /-- A call with the wrong number of arguments. -/
  | argumentCount (label : String) (parameters : Int) (given : Nat) (position : Int)
  /-- Waiting tokens and open calls disagree. -/
  | corrupt
  deriving DecidableEq, Repr

/-- The tokens read so far: the output, last token first; the waiting tokens; and
for every open parenthesis the number of arguments of its call, or nothing where
it only groups. -/
structure Yard (V ω : Type) where
  output : List (Token V ω) := []
  waiting : List (Token V ω) := []
  calls : List (Option Nat) := []

namespace Yard

/-! ### Taking tokens off the stack -/

/-- Does a waiting operator go to the output before the `incoming` one waits? -/
def popsBefore (top incoming : Operator ω) : Bool :=
  top.precedence > incoming.precedence ||
    (top.precedence == incoming.precedence && !incoming.groupsRight)

/-- Moves the operators that go before `incoming` from the stack to the output. -/
def popOperators (incoming : Operator ω) (output : List (Token V ω)) :
    List (Token V ω) → List (Token V ω) × List (Token V ω)
  | [] => (output, [])
  | top :: waiting =>
    match top.item with
    | .operator op =>
      if popsBefore op incoming then popOperators incoming (top :: output) waiting
      else (output, top :: waiting)
    | _ => (output, top :: waiting)

/-- Moves everything above the last opening parenthesis to the output.  Nothing
if no parenthesis is open; else the output, the parenthesis, and the stack below
it. -/
def popToOpen (output : List (Token V ω)) :
    List (Token V ω) → Option (List (Token V ω) × Token V ω × List (Token V ω))
  | [] => none
  | top :: waiting =>
    if top.item.isOpen then some (output, top, waiting)
    else popToOpen (top :: output) waiting

/-- Moves all waiting tokens to the output, at the end of the list. -/
def flush (output : List (Token V ω)) :
    List (Token V ω) → Except ParseError (List (Token V ω))
  | [] => .ok output
  | top :: waiting =>
    if top.item.isPunctuation then .error (.unclosedOpen top.position)
    else flush (top :: output) waiting

/-! ### One token -/

/-- Is the argument missing that should end before a separator or a closing
parenthesis?  It is if a mark other than a closing parenthesis stands there. -/
def argumentMissing : Option (Lexeme V ω) → Bool
  | some t => t.isPunctuation && !t.isClose
  | none => false

/-- Is the token before a function, so that a parenthesis opens its call? -/
def afterFunction : Option (Lexeme V ω) → Bool
  | some t => t.isFunction
  | none => false

/-- Is the token before an opening parenthesis? -/
def afterOpen : Option (Lexeme V ω) → Bool
  | some t => t.isOpen
  | none => false

/-- Is the token after a closing parenthesis? -/
def beforeClose : Option (Lexeme V ω) → Bool
  | some t => t.isClose
  | none => false

/-- Reads an opening parenthesis. -/
def openAt (y : Yard V ω) (t : Token V ω) (previous next : Option (Lexeme V ω)) :
    Except ParseError (Yard V ω) :=
  if afterFunction previous then
    let arguments := if beforeClose next then 0 else 1
    .ok { y with waiting := t :: y.waiting, calls := some arguments :: y.calls }
  else if beforeClose next then .error (.emptyParentheses t.position)
  else .ok { y with waiting := t :: y.waiting, calls := none :: y.calls }

/-- Ends the call with the given number of arguments: its function comes off the
stack and goes to the output. -/
def endCall (output waiting : List (Token V ω)) (calls : List (Option Nat))
    (arguments : Nat) : Except ParseError (Yard V ω) :=
  match waiting with
  | ⟨.function f, position⟩ :: below =>
    if !f.isVariadic && f.parameters != arguments then
      .error (.argumentCount f.label f.parameters arguments position)
    else
      .ok ⟨⟨.function { f with arguments := some arguments }, position⟩ :: output, below, calls⟩
  | _ => .error .corrupt

/-- Reads a closing parenthesis. -/
def closeAt (y : Yard V ω) (t : Token V ω) (previous : Option (Lexeme V ω)) :
    Except ParseError (Yard V ω) :=
  match popToOpen y.output y.waiting, y.calls with
  | none, _ => .error (.unmatchedClose t.position)
  | some _, [] => .error .corrupt
  | some (output, _, waiting), none :: calls => .ok ⟨output, waiting, calls⟩
  | some (output, _, waiting), some arguments :: calls =>
    if !afterOpen previous && argumentMissing previous then
      .error (.missingArgument t.position)
    else endCall output waiting calls arguments

/-- Reads a separator. -/
def separateAt (y : Yard V ω) (t : Token V ω) (previous : Option (Lexeme V ω)) :
    Except ParseError (Yard V ω) :=
  match popToOpen y.output y.waiting, y.calls with
  | none, _ => .error (.straySeparator t.position)
  | some _, [] => .error .corrupt
  | some _, none :: _ => .error (.straySeparator t.position)
  | some (output, parenthesis, waiting), some arguments :: calls =>
    if argumentMissing previous then .error (.missingArgument t.position)
    else .ok ⟨output, parenthesis :: waiting, some (arguments + 1) :: calls⟩

/-- Reads one token between the token before and the token after.  A mark that is
no parenthesis counts as a separator. -/
def step (y : Yard V ω) (previous : Option (Lexeme V ω)) (t : Token V ω)
    (next : Option (Lexeme V ω)) : Except ParseError (Yard V ω) :=
  match t.item with
  | .operand _ | .var _ => .ok { y with output := t :: y.output }
  | .function f =>
    match next with
    | some n =>
      if n.isOpen then .ok { y with waiting := t :: y.waiting }
      else .error (.bareFunction f.label t.position)
    | none => .error (.bareFunction f.label t.position)
  | .operator op =>
    if op.isPrefix then .ok { y with waiting := t :: y.waiting }
    else
      let (output, waiting) := popOperators op y.output y.waiting
      .ok { y with output, waiting := t :: waiting }
  | .punctuation m =>
    if m == openMark then y.openAt t previous next
    else if m == closeMark then y.closeAt t previous
    else y.separateAt t previous

/-- Reads all tokens. -/
def run (y : Yard V ω) (previous : Option (Lexeme V ω)) :
    List (Token V ω) → Except ParseError (Yard V ω)
  | [] => .ok y
  | t :: ts =>
    match y.step previous t (ts.head?.map (·.item)) with
    | .error e => .error e
    | .ok y' => run y' (some t.item) ts

end Yard

/-- The postfix list of a list of tokens. -/
def toPostfix (ts : List (Token V ω)) : Except ParseError (List (Token V ω)) :=
  match Yard.run {} none ts with
  | .error e => .error e
  | .ok y => (Yard.flush y.output y.waiting).map List.reverse

/-! ### Messages -/

namespace ParseError

/-- The report of an error. -/
def diagnosis : ParseError → Diagnosis
  | unmatchedClose p =>
    { kind := .mismatchedParenthesis, message := "Unmatched ')'", position := located p }
  | unclosedOpen p =>
    { kind := .mismatchedParenthesis, message := "Unclosed '('", position := located p }
  | straySeparator p =>
    { kind := .unexpectedSeparator, message := "',' outside of a function call",
      position := located p }
  | bareFunction l p =>
    { kind := .invalidExpression, position := located p
      message := "Function " ++ Text.quote l ++ " must be followed by '('" }
  | emptyParentheses p =>
    { kind := .invalidExpression, message := "Empty parentheses", position := located p }
  | missingArgument p =>
    { kind := .invalidExpression, message := "Missing function argument",
      position := located p }
  | argumentCount l n given p =>
    { kind := .argumentCount, position := located p
      message := "Function " ++ Text.quote l ++ " expects " ++ toString n ++
        " argument(s) but got " ++ toString given }
  | corrupt => { kind := .parse, message := "Waiting tokens and open calls disagree" }

end ParseError

end Formula
