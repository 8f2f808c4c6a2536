/-
Formula/Expression.lean

An expression: a tree with everything that it needs to be evaluated and written
on its own.  It keeps the constants of the dictionary it was read with as they were
at that moment, so that later changes to the dictionary do not reach it.  An
expression without a tree is empty; it has neither a value nor a text.
-/
import Formula.Tree.Evaluation
import Formula.Tree.Printer

namespace Formula

/-- A tree, the constants it was read with, and how its operands are written. -/
structure Expression (V ω : Type) where
  constants : Table V
  spelling : Spelling V
  root : Option (Tree V ω)

namespace Expression

variable {V ω ε σ : Type}

/-- The bindings of an evaluation: the constants, and over them the variables of
the caller. -/
def bindings (e : Expression V ω) : Option (Table V) → Table V
  | none => e.constants
  | some given => e.constants.override given

/-- The value of an expression. -/
def evaluate (I : Interpretation V ω ε σ) (e : Expression V ω)
    (given : Option (Table V)) : Evaluation ε σ V :=
  match e.root with
  | none => throw .empty
  | some t => t.evaluate I (e.bindings given)

variable [DecidableEq ω]

/-- The text of an expression. -/
def text (e : Expression V ω) : Except (EvaluationError Empty) String :=
  match e.root with
  | none => .error .empty
  | some t =>
    match t.postorder.find? fun token => token.item.isPunctuation with
    | some ⟨.punctuation mark, _⟩ => .error (.structural mark)
    | _ => .ok (t.render e.spelling)

/-- How an expression shows itself: with its text in quotes. -/
def described (e : Expression V ω) : Except (EvaluationError Empty) String :=
  match e.root with
  | none => .ok "Expression(<empty>)"
  | some _ => e.text.map fun s => "Expression(" ++ Text.quote s ++ ")"

end Expression

end Formula
