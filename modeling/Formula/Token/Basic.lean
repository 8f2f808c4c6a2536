/-
Formula/Token/Basic.lean

Tokens.  A `Lexeme` is what a token says: an operand, a variable, an operator, a
function, or a structural mark.  A `Token` is a lexeme placed in a text.  The
same tokens pass from the list that a text is split into, through the postfix
list, into the tree; the marks are left behind on the way.

Operators and functions name their operation instead of holding it.  A name is
either built in or comes from a type `ω` of the library's user, and an
interpretation (`Formula.Tree.Evaluation`) gives it a meaning.  So tokens can be
compared, and in particular the multiplication that is only implied by
juxtaposition can be told from the written one.
-/
import Formula.Text.Quoted

namespace Formula

/-! ### Operations -/

/-- The operations of the predefined operators. -/
inductive Builtin where
  | add
  | sub
  | mul
  | div
  | mod
  /-- Multiplication that is implied by juxtaposition. -/
  | juxtapose
  | pos
  | neg
  | pow
  deriving DecidableEq, Repr

/-- The name of an operation. -/
inductive Operation (ω : Type) where
  | builtin (b : Builtin)
  | custom (name : ω)
  deriving DecidableEq, Repr

/-! ### Operators and functions -/

/-- Where an operator stands. -/
inductive Fixity where
  /-- Before its operand. -/
  | prefixOp
  /-- After its operand. -/
  | postfixOp
  /-- Between its operands, grouped from the left. -/
  | infixOp
  /-- Between its operands, grouped from the right. -/
  | infixRtl
  deriving DecidableEq, Repr

/-- How an operator associates. -/
inductive Associativity where
  | left
  | right
  | none
  deriving DecidableEq, Repr

/-- An operator.  Greater precedence binds more tightly. -/
structure Operator (ω : Type) where
  label : String
  fixity : Fixity
  precedence : Int
  associativity : Associativity
  operation : Operation ω
  deriving DecidableEq, Repr

namespace Operator

variable {ω : Type}

/-- Does the operator stand before its operand? -/
def isPrefix (op : Operator ω) : Bool := op.fixity == .prefixOp

/-- Does the operator stand after its operand? -/
def isPostfix (op : Operator ω) : Bool := op.fixity == .postfixOp

/-- Does the operator stand between two operands? -/
def isBinary (op : Operator ω) : Bool := op.fixity == .infixOp || op.fixity == .infixRtl

/-- How many operands the operator takes. -/
def arity (op : Operator ω) : Nat := if op.isBinary then 2 else 1

/-- Does a chain of this operator group from the right? -/
def groupsRight (op : Operator ω) : Bool :=
  op.fixity == .infixRtl || op.associativity == .right

end Operator

/-! ### Fixities -/

namespace Operator

variable {ω : Type}

theorem arity_of_isBinary {op : Operator ω} (h : op.isBinary = true) : op.arity = 2 := by
  rw [arity, if_pos h]

theorem isBinary_of_isPrefix {op : Operator ω} (h : op.isPrefix = true) :
    op.isBinary = false := by
  cases e : op.fixity <;> simp [isPrefix, isBinary, e] at h ⊢

theorem isBinary_of_isPostfix {op : Operator ω} (h : op.isPostfix = true) :
    op.isBinary = false := by
  cases e : op.fixity <;> simp [isPostfix, isBinary, e] at h ⊢

theorem isPrefix_of_isBinary {op : Operator ω} (h : op.isBinary = true) :
    op.isPrefix = false := by
  cases e : op.fixity <;> simp [isPrefix, isBinary, e] at h ⊢

theorem isPrefix_of_isPostfix {op : Operator ω} (h : op.isPostfix = true) :
    op.isPrefix = false := by
  cases e : op.fixity <;> simp [isPrefix, isPostfix, e] at h ⊢

theorem isPostfix_of_isPrefix {op : Operator ω} (h : op.isPrefix = true) :
    op.isPostfix = false := by
  cases e : op.fixity <;> simp [isPrefix, isPostfix, e] at h ⊢

theorem isPostfix_of_isBinary {op : Operator ω} (h : op.isBinary = true) :
    op.isPostfix = false := by
  cases e : op.fixity <;> simp [isBinary, isPostfix, e] at h ⊢

/-- An operator that stands neither before nor after its operand stands between two. -/
theorem isBinary_of_not_isPrefix {op : Operator ω} (hpre : op.isPrefix = false)
    (hpost : op.isPostfix = false) : op.isBinary = true := by
  cases e : op.fixity <;> simp [isPrefix, isPostfix, isBinary, e] at hpre hpost ⊢

theorem arity_of_not_isBinary {op : Operator ω} (h : op.isBinary = false) : op.arity = 1 := by
  rw [arity, h]
  rfl

end Operator

/-- The parameter count of a function that takes any number of arguments. -/
def anyNumber : Int := -1

/-- A function.  `arguments` is the number of arguments that a call gives it; it is
filled in when the call has been read. -/
structure Function (ω : Type) where
  label : String
  parameters : Int
  operation : Operation ω
  arguments : Option Int := Option.none
  deriving DecidableEq, Repr

namespace Function

variable {ω : Type}

/-- Does the function take any number of arguments? -/
def isVariadic (f : Function ω) : Bool := f.parameters == anyNumber

/-- How many operands a call takes: its arguments once they are counted, its
parameters before. -/
def arity (f : Function ω) : Int := f.arguments.getD f.parameters

end Function

/-! ### Tokens -/

/-- What a token says. -/
inductive Lexeme (V ω : Type) where
  | operand (value : V)
  | var (label : String)
  | operator (op : Operator ω)
  | function (f : Function ω)
  /-- A structural mark; it never enters a tree. -/
  | punctuation (mark : String)
  deriving DecidableEq, Repr

/-- Something with a position in a text; a negative position stands for none. -/
structure Placed (α : Type) where
  item : α
  position : Int := -1
  deriving DecidableEq, Repr

/-- A lexeme with its position. -/
abbrev Token (V ω : Type) := Placed (Lexeme V ω)

/-! ### Structural marks -/

/-- The opening parenthesis. -/
def openMark : String := "("

/-- The closing parenthesis. -/
def closeMark : String := ")"

/-- The mark between arguments. -/
def separatorMark : String := ","

/-- Is the character one of the structural marks? -/
def isStructural (c : Char) : Bool := c == '(' || c == ')' || c == ','

namespace Lexeme

variable {V ω : Type}

/-- An opening parenthesis. -/
def isOpen : Lexeme V ω → Bool
  | punctuation m => m == openMark
  | _ => false

/-- A closing parenthesis. -/
def isClose : Lexeme V ω → Bool
  | punctuation m => m == closeMark
  | _ => false

/-- A structural mark. -/
def isPunctuation : Lexeme V ω → Bool
  | punctuation _ => true
  | _ => false

/-- A function. -/
def isFunction : Lexeme V ω → Bool
  | function _ => true
  | _ => false

/-- An operand. -/
def isOperand : Lexeme V ω → Bool
  | operand _ => true
  | _ => false

/-- Does the lexeme close an operand, so that whatever follows stands after a
value? -/
def endsOperand : Lexeme V ω → Bool
  | operand _ | var _ => true
  | operator op => op.isPostfix
  | function _ => false
  | punctuation m => m == closeMark

/-- Does the lexeme open an operand? -/
def beginsOperand : Lexeme V ω → Bool
  | operand _ | var _ | function _ => true
  | operator op => op.isPrefix
  | punctuation m => m == openMark

/-- Is an operand expected after the lexeme?  After an opening parenthesis, a
separator, and every operator that stands before an operand. -/
def expectsOperand : Lexeme V ω → Bool
  | operand _ | var _ | function _ => false
  | operator op => !op.isPostfix
  | punctuation m => m == openMark || m == separatorMark

/-- Operators and functions stand above operands in a tree. -/
def acceptsChildren : Lexeme V ω → Bool
  | operator _ | function _ => true
  | _ => false

/-- How many operands the lexeme takes. -/
def arity : Lexeme V ω → Int
  | operator op => op.arity
  | function f => f.arity
  | _ => 0

/-- The label of a lexeme, where it has one. -/
def label : Lexeme V ω → String
  | var l => l
  | operator op => op.label
  | function f => f.label
  | _ => ""

/-- How a message spells out a lexeme that is neither an operator nor a function. -/
def spelledOut (describe : V → String) : Lexeme V ω → String
  | operand v => "Operand(value=" ++ describe v ++ ")"
  | punctuation mark => "Punctuation(symbol=" ++ Text.quote mark ++ ")"
  | l => "Variable(label=" ++ Text.quote l.label ++ ")"

/-- How a message names a lexeme: an operand by its value, and all others by their
label. -/
def described (describe : V → String) : Lexeme V ω → String
  | operand v => describe v
  | punctuation mark => spelledOut describe (punctuation mark : Lexeme V ω)
  | l => Text.quote l.label

end Lexeme

end Formula
