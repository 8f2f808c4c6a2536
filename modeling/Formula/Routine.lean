/-
Formula/Routine.lean

Operations on scalars that come with the library, ready to be registered under any
label.  A `Routine` is a greedy or a lazy action together with the kind of operand
that it makes where it makes one of its own: a count, a truth value, a sum of
nothing.

Main definition: `interpretation`, which gives the built-in operations and all
routines their meanings.  The state of an evaluation is a counter of ticks.
-/
import Formula.Reader
import Formula.Scalar.Arithmetic

namespace Formula

/-! ### Actions -/

/-- Actions on the values of the operands. -/
inductive GreedyAction where
  | maximum
  | minimum
  | sum
  | add
  | sub
  | mul
  | pow
  | neg
  | first
  | last
  | count
  | factorial
  | sqrt
  | equal
  | less
  | not
  /-- The spelled-out application of a name. -/
  | tag (name : String)
  /-- A value read from a text, whatever the operands. -/
  | constant (text : String)
  /-- Counts the calls. -/
  | tick
  /-- Always fails. -/
  | fail
  /-- Always refuses, at a position. -/
  | refuse (position : Int)
  deriving DecidableEq, Repr

/-- Actions on the operands themselves. -/
inductive LazyAction where
  | and
  | or
  /-- The second operand or the third, as the first one says. -/
  | choose
  /-- The operand added to itself, evaluated twice. -/
  | twice
  /-- Always fails. -/
  | boom
  /-- The second operand with a name bound to the value of the first. -/
  | bind (name : String)
  /-- The second operand where the first has an error. -/
  | rescue
  /-- The sum, evaluated from the last operand to the first. -/
  | reversedSum
  | count
  /-- Is the name bound? -/
  | defined (name : String)
  /-- The text of the operand. -/
  | quote
  deriving DecidableEq, Repr

/-- An action, and the kind of operand it makes. -/
inductive Routine where
  | greedy (kind : Scalar.Kind) (action : GreedyAction)
  | lazy (kind : Scalar.Kind) (action : LazyAction)
  deriving DecidableEq, Repr

/-- Why an operation failed: a failure, or a refusal that is an error of the
evaluation at a position. -/
inductive Refusal where
  | failure (f : Failure)
  | refused (position : Int)
  deriving DecidableEq, Repr

/-- The report of a failed operation. -/
def Refusal.fault : Refusal → Fault
  | failure f => .foreign f
  | refused p =>
    .engine { kind := .evaluation, message := "refused", position := located p }

namespace Routine

open Scalar (Kind)

/-- A computation of a routine: it may fail, and it may count ticks. -/
abbrev Step (α : Type) := Evaluation Refusal Nat α

/-- An operand of a lazy routine. -/
abbrev Operand := Suspended Scalar Routine Refusal Nat

/-- Ends with a failure. -/
def failWith {α : Type} (kind : Failure.Kind) : Step α :=
  throw (.raised (.failure ⟨kind, ""⟩))

/-- A computation on scalars as a step. -/
def lift {α : Type} : Except Failure α → Step α
  | .ok a => pure a
  | .error f => throw (.raised (.failure f))

/-- The operand with an index; it is a failure if there is none. -/
def nth {α : Type} (xs : List α) (i : Nat) : Step α :=
  match xs[i]? with
  | some x => pure x
  | none => failWith .index

/-- An operation on the first operand. -/
def unary (f : Scalar → Except Failure Scalar) (xs : List Scalar) : Step Scalar := do
  lift (f (← nth xs 0))

/-- An operation on the first two operands. -/
def binary (f : Scalar → Scalar → Except Failure Scalar) (xs : List Scalar) : Step Scalar := do
  let a ← nth xs 0
  let b ← nth xs 1
  lift (f a b)

/-! ### Meanings -/

/-- The meanings of the built-in operations. -/
def builtin : Builtin → List Scalar → Step Scalar
  | .add => binary Scalar.add
  | .sub => binary Scalar.sub
  | .mul | .juxtapose => binary Scalar.mul
  | .div => binary Scalar.div
  | .mod => binary Scalar.mod
  | .pos => unary fun a => .ok a.pos
  | .neg => unary fun a => .ok a.neg
  | .pow => binary Scalar.pow

/-- The meanings of the greedy actions. -/
def greedyMeaning (kind : Kind) : GreedyAction → List Scalar → Step Scalar
  | .maximum, xs => lift (Scalar.maximum xs)
  | .minimum, xs => lift (Scalar.minimum xs)
  | .sum, xs => lift do
    let zero ← Scalar.ofInt kind 0
    xs.foldlM Scalar.add zero
  | .add, xs => binary Scalar.add xs
  | .sub, xs => binary Scalar.sub xs
  | .mul, xs => binary Scalar.mul xs
  | .pow, xs => binary Scalar.pow xs
  | .neg, xs => unary (fun a => .ok a.neg) xs
  | .first, xs => nth xs 0
  | .last, xs => nth xs (xs.length - 1)
  | .count, xs => lift (Scalar.ofInt kind xs.length)
  | .factorial, xs => unary (Scalar.factorial kind) xs
  | .sqrt, xs => unary Scalar.sqrt xs
  | .equal, xs => binary (fun a b => Scalar.ofBool kind (Scalar.eq a b)) xs
  | .less, xs => binary (fun a b => do Scalar.ofBool kind (← Scalar.lt a b)) xs
  | .not, xs => unary (fun a => Scalar.ofBool kind !a.isTrue) xs
  | .tag name, xs => pure (.symbol (Scalar.spelled name (xs.map Scalar.text)))
  | .constant text, _ => lift (Scalar.read kind text)
  | .tick, _ => do
    let ticks ← get
    set (ticks + 1)
    lift (Scalar.ofInt kind (ticks + 1 : Nat))
  | .fail, _ => failWith .value
  | .refuse position, _ => throw (.raised (.refused position))

/-- Is this an error of the engine, as opposed to a failure that passed through? -/
def isEngineError : EvaluationError Refusal → Bool
  | .undefined _ | .arity _ _ _ _ | .empty | .raised (.refused _) => true
  | .raised (.failure _) | .structural _ | .stuck => false

/-- The meanings of the lazy actions. -/
def lazyMeaning (kind : Kind) : LazyAction → List Operand → Table Scalar → Step Scalar
  | .and, ns, b => do
    let v ← (← nth ns 0).force b
    if v.isTrue then (← nth ns 1).force b else lift (Scalar.ofInt kind 0)
  | .or, ns, b => do
    let v ← (← nth ns 0).force b
    if v.isTrue then pure v else (← nth ns 1).force b
  | .choose, ns, b => do
    let v ← (← nth ns 0).force b
    if v.isTrue then (← nth ns 1).force b else (← nth ns 2).force b
  | .twice, ns, b => do
    let n ← nth ns 0
    let v ← n.force b
    let w ← n.force b
    lift (Scalar.add v w)
  | .boom, _, _ => failWith .assertion
  | .bind name, ns, b => do
    let v ← (← nth ns 0).force b
    (← nth ns 1).force (b.insert name v)
  | .rescue, ns, b =>
    tryCatch (do (← nth ns 0).force b) fun e => do
      if isEngineError e then (← nth ns 1).force b else throw e
  | .reversedSum, ns, b => do
    let zero ← lift (Scalar.ofInt kind 0)
    ns.reverse.foldlM (fun total n => do lift (Scalar.add total (← n.force b))) zero
  | .count, ns, _ => lift (Scalar.ofInt kind ns.length)
  | .defined name, _, b => lift (Scalar.ofBool kind (b.contains name))
  | .quote, ns, _ => do
    let n ← nth ns 0
    pure (.symbol ("`" ++ n.tree.render ⟨Scalar.text, Matcher.defaults⟩ ++ "`"))

/-- The meanings of all operations. -/
def interpretation : Interpretation Scalar Routine Refusal Nat
  | .builtin b => .greedy (builtin b)
  | .custom (.greedy kind action) => .greedy (greedyMeaning kind action)
  | .custom (.lazy kind action) => .lazy (lazyMeaning kind action)

end Routine

end Formula
