/-
Formula/Token/Predefined.lean

The operators that every dictionary knows.  Precedences grow with the strength
of binding:

    1  + -          between operands
    2  * / %        between operands
    3  (juxtaposed) between operands, with nothing written
    4  + -          before an operand
    5  ^            between operands, grouped from the right

The juxtaposed multiplication has the label of the written one but an operation
of its own; it is put in where two operands meet, and no label leads to it.
-/
import Formula.Token.Basic

namespace Formula

namespace Operator

variable {ω : Type}

/-! ### The operators -/

def addition : Operator ω := ⟨"+", .infixOp, 1, .left, .builtin .add⟩
def subtraction : Operator ω := ⟨"-", .infixOp, 1, .left, .builtin .sub⟩
def multiplication : Operator ω := ⟨"*", .infixOp, 2, .left, .builtin .mul⟩
def division : Operator ω := ⟨"/", .infixOp, 2, .left, .builtin .div⟩
def modulo : Operator ω := ⟨"%", .infixOp, 2, .left, .builtin .mod⟩
def juxtaposition : Operator ω := ⟨"*", .infixOp, 3, .left, .builtin .juxtapose⟩
def unaryPlus : Operator ω := ⟨"+", .prefixOp, 4, .none, .builtin .pos⟩
def unaryMinus : Operator ω := ⟨"-", .prefixOp, 4, .none, .builtin .neg⟩
def exponentiation : Operator ω := ⟨"^", .infixRtl, 5, .right, .builtin .pow⟩

/-- The operator of a built-in operation. -/
def ofBuiltin : Builtin → Operator ω
  | .add => addition
  | .sub => subtraction
  | .mul => multiplication
  | .div => division
  | .mod => modulo
  | .juxtapose => juxtaposition
  | .pos => unaryPlus
  | .neg => unaryMinus
  | .pow => exponentiation

variable [DecidableEq ω]

/-- Is this the multiplication implied by juxtaposition? -/
def isJuxtaposition (op : Operator ω) : Bool := op == juxtaposition

/-- Is this one of the two signs? -/
def isSign (op : Operator ω) : Bool := op == unaryPlus || op == unaryMinus

end Operator

namespace Lexeme

variable {V ω : Type} [DecidableEq ω]

/-- The multiplication implied by juxtaposition. -/
def isJuxtaposition : Lexeme V ω → Bool
  | operator op => op.isJuxtaposition
  | _ => false

/-- One of the two signs. -/
def isSign : Lexeme V ω → Bool
  | operator op => op.isSign
  | _ => false

end Lexeme

end Formula
