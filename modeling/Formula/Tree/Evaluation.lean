/-
Formula/Tree/Evaluation.lean

The value of a tree.  An interpretation gives every operation a meaning, of one of
two sorts.  A *greedy* operation gets the values of its operands.  A *lazy* one
gets the operands themselves, suspended, and evaluates those that it wants, under
the bindings that it wants.  Operations may fail and may change a state that lasts
through the evaluation.

`eval` is the definition by recursion on the tree: a greedy node must have the
right number of children before any of them is evaluated, and evaluates them from
left to right.  `evaluate` computes the same with an explicit stack, so that only
lazy operations inside each other need recursion.
-/
import Formula.Error
import Formula.Table
import Formula.Text.Quoted
import Formula.Tree.Work

namespace Formula

/-- Why a tree has no value.  `ε` is the type of the failures of operations. -/
inductive EvaluationError (ε : Type) where
  /-- A variable without a value. -/
  | undefined (label : String)
  /-- A token with the wrong number of children. -/
  | arity (label : String) (expected : Int) (given : Nat) (position : Int)
  /-- There is no tree. -/
  | empty
  /-- A structural mark, which has no value. -/
  | structural (mark : String)
  /-- An operation failed. -/
  | raised (failure : ε)
  /-- A value is missing from the stack. -/
  | stuck
  deriving DecidableEq, Repr

/-- A computation that may fail and may change the state `σ`; the state survives a
failure. -/
abbrev Evaluation (ε σ α : Type) := ExceptT (EvaluationError ε) (StateM σ) α

variable {V ω ε σ : Type}

/-- An operand of a lazy operation: its tree, and its value under any bindings. -/
structure Suspended (V ω ε σ : Type) where
  tree : Tree V ω
  force : Table V → Evaluation ε σ V

/-- What an operation does. -/
inductive Meaning (V ω ε σ : Type) where
  | greedy (apply : List V → Evaluation ε σ V)
  | lazy (apply : List (Suspended V ω ε σ) → Table V → Evaluation ε σ V)

/-- What the operations do. -/
abbrev Interpretation (V ω ε σ : Type) := Operation ω → Meaning V ω ε σ

/-- The operation of an operator or a function. -/
def Lexeme.operation? : Lexeme V ω → Option (Operation ω)
  | .operator op => some op.operation
  | .function f => some f.operation
  | _ => none

namespace Tree

/-- The value of a token without operands. -/
def leafValue (bindings : Table V) : Lexeme V ω → Evaluation ε σ V
  | .operand v => pure v
  | .punctuation mark => throw (.structural mark)
  | l =>
    match bindings.get? l.label with
    | some v => pure v
    | none => throw (.undefined l.label)

/-- The error of a node with the wrong number of children. -/
def arityError (t : Tree V ω) : EvaluationError ε :=
  .arity t.lexeme.label t.arity t.children.length t.token.position

/-! ### By recursion -/

mutual

/-- The value of a tree under bindings. -/
def eval (I : Interpretation V ω ε σ) : Tree V ω → Table V → Evaluation ε σ V
  | node t cs, bindings =>
    match t.item.operation?.map I with
    | none => leafValue bindings t.item
    | some (.lazy apply) => apply (suspend I cs) bindings
    | some (.greedy apply) =>
      if (node t cs).isComplete then evals I cs bindings >>= apply
      else throw (arityError (node t cs))

/-- The values of several trees, from left to right. -/
def evals (I : Interpretation V ω ε σ) : List (Tree V ω) → Table V → Evaluation ε σ (List V)
  | [], _ => pure []
  | t :: ts, bindings => do
    let v ← eval I t bindings
    let vs ← evals I ts bindings
    return v :: vs

/-- Several trees, suspended. -/
def suspend (I : Interpretation V ω ε σ) : List (Tree V ω) → List (Suspended V ω ε σ)
  | [] => []
  | t :: ts => ⟨t, eval I t⟩ :: suspend I ts

end

/-! ### With an explicit stack -/

/-- The last value on a stack. -/
def top : List V → Evaluation ε σ V
  | [] => throw .stuck
  | v :: _ => pure v

/-- Evaluates the trees of all jobs.  The values found so far are on the stack, the
last one on top.  A greedy node is put back below its children, and its operation
is applied when it comes up again. -/
def evaluateAll (I : Interpretation V ω ε σ) (bindings : Table V) :
    List (Job V ω) → List V → Evaluation ε σ (List V)
  | [], stack => pure stack
  | (node t cs, true) :: jobs, stack =>
    match t.item.operation?.map I, take? cs.length stack with
    | some (.greedy apply), some (operands, stack) => do
      let v ← apply operands
      evaluateAll I bindings jobs (v :: stack)
    | _, _ => throw .stuck
  | (node t cs, false) :: jobs, stack =>
    match t.item.operation?.map I with
    | none => do
      let v ← leafValue bindings t.item
      evaluateAll I bindings jobs (v :: stack)
    | some (.lazy apply) => do
      let operands := cs.attach.map fun c =>
        ⟨c.1, fun bindings => evaluateAll I bindings [(c.1, false)] [] >>= top⟩
      let v ← apply operands bindings
      evaluateAll I bindings jobs (v :: stack)
    | some (.greedy _) =>
      if (node t cs).isComplete then
        evaluateAll I bindings (fresh cs ++ (node t cs, true) :: jobs) stack
      else throw (arityError (node t cs))
termination_by jobs => work jobs
decreasing_by
  · exact work_tail _ jobs
  · exact work_tail _ jobs
  · exact work_operand t c.2 jobs
  · exact work_tail _ jobs
  · exact work_expand t cs jobs

/-- The value of a tree under bindings, computed with an explicit stack. -/
def evaluate (I : Interpretation V ω ε σ) (t : Tree V ω) (bindings : Table V) :
    Evaluation ε σ V :=
  evaluateAll I bindings [(t, false)] [] >>= top

end Tree

/-! ### Messages -/

/-- The report of a variable without a value. -/
def Diagnosis.undefinedVariable (label : String) : Diagnosis :=
  { kind := .undefinedVariable, label := some label
    message := "Variable not found: " ++ Text.quote label }

/-- The report of an error; `report` says how the failures of operations are
reported. -/
def EvaluationError.fault (report : ε → Fault) : EvaluationError ε → Fault
  | undefined l => .engine (.undefinedVariable l)
  | arity l n given p =>
    .engine
      { kind := .arity, position := located p
        message := Text.quote l ++ " expects " ++ toString n ++ " operand(s) but has " ++
          toString given }
  | empty => .engine { kind := .emptyExpression, message := "Expression has not been built" }
  | structural _ => .foreign ⟨.unsupported, ""⟩
  | raised e => report e
  | stuck => .foreign ⟨.index, ""⟩

end Formula
