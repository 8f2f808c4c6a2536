/-
Formula/Tree/Printer.lean

From a tree back to a text that reads as an equivalent tree.  Every operator of a
binary operation is set between spaces, and an operand that is itself a binary
operation is put in parentheses, so precedences need not be remembered.  A
multiplication that was implied stays implied where the text allows it.

`text` is the definition by recursion on the tree.  `render` computes the same
text with an explicit stack of trees to be written and texts already written, so
that deep trees need no deep recursion.
-/
import Formula.Pattern.Matcher
import Formula.Token.Predefined
import Formula.Tree.Work

namespace Formula

variable {V ω : Type}

/-- How operands are written: their text, and the patterns by which the text would
be read as a literal again. -/
structure Spelling (V : Type) where
  write : V → String
  patterns : List Matcher := Matcher.defaults

namespace Tree

variable [DecidableEq ω]

/-! ### The text of a node -/

/-- A text between parentheses. -/
def parenthesised (s : String) : String := "(" ++ s ++ ")"

/-- The text of an operand, between parentheses unless it reads as one literal. -/
def operandText (S : Spelling V) (v : V) : String :=
  let s := S.write v
  if S.patterns.any fun p => p.fits s.toList then s else parenthesised s

/-- What stands between the operands of an implied multiplication: a space, or the
operator where a space would not do.  Two literals would read as one, and a sign
after a space would read as an operator between operands. -/
def impliedLabel : List (Tree V ω) → String
  | [l, r] =>
    if l.lexeme.isOperand && r.lexeme.isOperand then " * "
    else if r.lexeme.isSign then " * "
    else if l.lexeme.isSign && r.lexeme.isOperand then " * "
    else " "
  | _ => " "

/-- What stands between two operands of `op`. -/
def binaryLabel (op : Operator ω) (children : List (Tree V ω)) : String :=
  if op.isJuxtaposition then impliedLabel children else " " ++ op.label ++ " "

/-- Must an operand of the binary operator `op` be put in parentheses? -/
def needsParentheses (op : Operator ω) (child : Tree V ω) : Bool :=
  match child.lexeme with
  | .operator inner =>
    if inner.isJuxtaposition then
      impliedLabel child.children == " * " || op.precedence > inner.precedence
    else if inner.isBinary then true
    else inner.precedence < op.precedence
  | _ => false

/-- The text of an operand of the binary operator `op`. -/
def wrapped (op : Operator ω) (child : Tree V ω) (s : String) : String :=
  if needsParentheses op child then parenthesised s else s

/-- The text of an operator over the text of its one operand. -/
def unaryText (op : Operator ω) (child : Tree V ω) (s : String) : String :=
  if op.isSign then
    match child.lexeme with
    | .operator inner => if inner.isPrefix then op.label ++ s else op.label ++ parenthesised s
    | _ => op.label ++ s
  else if child.lexeme.acceptsChildren then
    if op.isPrefix then op.label ++ parenthesised s else parenthesised s ++ " " ++ op.label
  else if op.isPrefix then op.label ++ " " ++ s
  else s ++ " " ++ op.label

/-- The text of a node from the texts of its children. -/
def nodeText (S : Spelling V) (t : Lexeme V ω) (children : List (Tree V ω))
    (texts : List String) : String :=
  match t with
  | .operand v => operandText S v
  | .var label => label
  | .function f => f.label ++ parenthesised (", ".intercalate texts)
  | .operator op =>
    match children, texts with
    | [l, r], [s, u] => wrapped op l s ++ binaryLabel op children ++ wrapped op r u
    | [c], [s] => unaryText op c s
    | _, _ => op.label ++ parenthesised (", ".intercalate texts)
  | .punctuation mark => mark

/-! ### By recursion -/

mutual

/-- The text of a tree. -/
def text (S : Spelling V) : Tree V ω → String
  | node t cs => nodeText S t.item cs (texts S cs)

/-- The texts of several trees. -/
def texts (S : Spelling V) : List (Tree V ω) → List String
  | [] => []
  | t :: ts => text S t :: texts S ts

end

/-! ### With an explicit stack -/

/-- Writes the trees of all jobs.  The texts written so far are on the stack, the
last one on top.  Nothing if a text is missing. -/
def renderAll (S : Spelling V) : List (Job V ω) → List String → Option (List String)
  | [], stack => some stack
  | (node t cs, expanded) :: jobs, stack =>
    if _untouched : expanded = false ∧ cs ≠ [] then
      renderAll S (fresh cs ++ (node t cs, true) :: jobs) stack
    else
      match take? cs.length stack with
      | none => none
      | some (texts, stack) => renderAll S jobs (nodeText S t.item cs texts :: stack)
termination_by jobs => work jobs
decreasing_by
  · rw [_untouched.1]
    exact work_expand t cs jobs
  · exact work_tail _ jobs

/-- The text of a tree, computed with an explicit stack. -/
def render (S : Spelling V) (t : Tree V ω) : String :=
  match renderAll S [(t, false)] [] with
  | some (s :: _) => s
  | _ => ""

end Tree

end Formula
